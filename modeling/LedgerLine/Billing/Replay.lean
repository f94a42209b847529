import LedgerLine.Billing.Draining
import LedgerLine.Billing.Tally
import LedgerLine.Billing.Rebuilt
import LedgerLine.Billing.Matching

/-!
# Rebuilding the ledger from the log

The original run drains the log in batches, with `EnsurePeriod` and `Close` calls in between
(`History`); the rebuild drains all of the log first and makes the same calls afterwards, at
other times (`Rebuild`).

An event that the original run had not drained when its period was closed went onto a later
invoice; in the rebuild it is on the invoice of its own period (`rebuild_differs`).  If every
`Close` found what was outstanding of its tenant to be from after its period (`OnTime`), the
ledger is the same (`rebuild_same_ledger`).
-/

namespace LedgerLine.Billing

open Program

/-- A call of the operator. -/
inductive LedgerCall
  | ensurePeriod (tenant label : String) (start finish : Time)
  | close (plan : Plan) (id : Nat)

/-- What is posted under a key, by account name and amount. -/
def Database.entriesUnder (db : Database) (key : String) : List (Option String × Amount) :=
  (db.transactions.filter fun t => t.idempotencyKey = key).flatMap fun t => db.entries t.id

/-- The same transaction keys, and the same postings under each. -/
structure SameLedger (db db' : Database) : Prop where
  keys : ∀ key, key ∈ db.transactions.map TransactionRow.idempotencyKey ↔
    key ∈ db'.transactions.map TransactionRow.idempotencyKey
  entries : ∀ key, (db.entriesUnder key).Perm (db'.entriesUnder key)

section Runs

variable (cols : Columns) (decode : Decoder) (registry : Registry)
  (c : Consumer)

/-- A call at the time `now`, without failures of the database. -/
def LedgerCall.run (now : Time) : LedgerCall → World → World
  | .ensurePeriod tenant label start finish, w =>
      ((billingEngine cols).call (triggersPass cols)
        (Billing.ensurePeriod tenant label start finish) w).2
  | .close plan id, w =>
      ((billingEngine cols).call (triggersPass cols) (Billing.close registry plan now id) w).2

/-- The original run: records arrive, batches commit, calls are made where they are allowed. -/
inductive History (allowed : World → LedgerCall → Prop) : World → List LedgerCall → Prop
  | start : History allowed ⟨[], .empty, fun _ => 0⟩ []
  | appended {w : World} {calls : List LedgerCall} (record : Bytes)
      (before : History allowed w calls) :
      History allowed { w with log := w.log ++ [record] } calls
  | drained {w : World} {calls : List LedgerCall} {stats : Stats} {x : BatchTxn}
      (before : History allowed w calls) (hend : c.nextOffset w.db < w.log.length)
      (hbatch : Ends (consumerEngine cols).Statement (c.nextBatch decode w) ⟨w, [], []⟩
        (.commit stats) x) :
      History allowed ((consumerEngine cols).view w x.writes) calls
  | called {w : World} {calls : List LedgerCall} (call : LedgerCall) (now : Time)
      (before : History allowed w calls) (hnow : (cols.timestamptz now).isSome)
      (hallowed : allowed w call) :
      History allowed (call.run cols registry now w) (calls ++ [call])

/-- The rebuild: `Drain` on an empty database returns without an error, then the calls are
made. -/
inductive Rebuild (log : List Bytes) : List LedgerCall → World → Prop
  | drained {v : World} {stats : Stats}
      (h : Drains cols decode c ⟨log, .empty, fun _ => 0⟩ ⟨0, 0, 0, 0, 0⟩ none v stats) :
      Rebuild log [] v
  | called {v : World} {calls : List LedgerCall} (call : LedgerCall) (now : Time)
      (before : Rebuild log calls v) (hnow : (cols.timestamptz now).isSome) :
      Rebuild log (calls ++ [call]) (call.run cols registry now v)

/-- The rows that the records from the committed offset on are going to add. -/
def outstanding (log : List Bytes) (w : World) : List EventRow :=
  addedRows cols decode (w.db.events.map EventRow.key) (log.drop (c.nextOffset w.db))

/-- Nothing that is outstanding belongs to the usage of the period that a call closes. -/
def OnTime (log : List Bytes) (w : World) : LedgerCall → Prop
  | .ensurePeriod _ _ _ _ => True
  | .close _ id => ∀ p, w.db.periods.find? (fun p => p.id = id) = some p → p.state = .open →
      ∀ r ∈ outstanding cols decode c log w, r.isUnbilled p.tenantId p.finish = false

end Runs

/-! ### Draining -/

section Draining

variable {cols : Columns} {decode : Decoder} {c : Consumer}
  {log : List Bytes} {w v : World} {stats : Stats} {x : BatchTxn}

theorem nextOffset_le_batchEnd (c : Consumer) {next logEnd : Nat} (h : next < logEnd) :
    next ≤ c.batchEnd next logEnd ∧ c.batchEnd next logEnd ≤ logEnd := by
  unfold Consumer.batchEnd
  split <;> omega

/-- A batch moves rows from what is outstanding to the table. -/
theorem outstanding_batch (hlog : w.log <+: log) (hend : c.nextOffset w.db < w.log.length)
    (hbatch : Ends (consumerEngine cols).Statement (c.nextBatch decode w) ⟨w, [], []⟩
      (.commit stats) x) :
    ∃ rows offsets deadLetters reached,
      (consumerEngine cols).view w x.writes =
        { w with
          db := { w.db with
            events := w.db.events ++ rows
            offsets := offsets
            deadLetters := deadLetters }
          reached := reached } ∧
      outstanding cols decode c log w =
        rows ++ outstanding cols decode c log ((consumerEngine cols).view w x.writes) := by
  obtain ⟨deadLetters, hview⟩ := batch_adds (runBody_of_batch hbatch)
  refine ⟨_, _, deadLetters, _, hview, ?_⟩
  obtain ⟨hle, hstop⟩ := nextOffset_le_batchEnd c hend
  rw [hview]
  generalize c.batchEnd (c.nextOffset w.db) w.log.length = stop at hle hstop ⊢
  have hnext : c.nextOffset { w.db with
      events := w.db.events ++ addedRows cols decode (w.db.events.map EventRow.key)
        ((w.log.drop (c.nextOffset w.db)).take (stop - c.nextOffset w.db))
      deadLetters := deadLetters
      offsets := Function.update w.db.offsets c.name (some stop) } = stop := by
    simp [Consumer.nextOffset]
  have hsplit : log.drop (c.nextOffset w.db) =
      (w.log.drop (c.nextOffset w.db)).take (stop - c.nextOffset w.db) ++ log.drop stop := by
    obtain ⟨rest, rfl⟩ := hlog
    rw [List.drop_append_of_le_length (Nat.le_of_lt hend), List.drop_append_of_le_length hstop,
      ← List.append_assoc]
    congr 1
    conv_lhs => rw [← List.take_append_drop (stop - c.nextOffset w.db) (w.log.drop _)]
    rw [List.drop_drop, Nat.add_sub_of_le hle]
  unfold outstanding
  rw [hnext, hsplit, addedRows_append, List.map_append]

/-- `Drain` adds all that is outstanding. -/
theorem drained_outstanding {total total' : Stats}
    (h : Drains cols decode c w total none v total') :
    ∃ offsets deadLetters, v.db = { w.db with
      events := w.db.events ++ outstanding cols decode c w.log w
      offsets := offsets
      deadLetters := deadLetters } := by
  generalize hfailure : (none : Option (World × DrainOperation)) = failure at h
  induction h with
  | unknownOffset w total => cases hfailure
  | @caughtUp w total hend =>
      refine ⟨w.db.offsets, w.db.deadLetters, ?_⟩
      rw [outstanding, List.drop_eq_nil_of_le hend, addedRows, List.append_nil]
  | notBegun total hend | failed total hend hbatch | notCommitted total hend hbatch =>
      cases hfailure
  | @batch w v total stats total' x failure hend hbatch rest ih =>
      obtain ⟨rows, offsets, deadLetters, reached, hview, hsplit⟩ :=
        outstanding_batch (List.prefix_refl w.log) hend hbatch
      obtain ⟨offsets', deadLetters', hdb⟩ := ih hfailure
      refine ⟨offsets', deadLetters', ?_⟩
      have hlog : ((consumerEngine cols).view w x.writes).log = w.log := by
        rw [hview]
      rw [hdb, hsplit, hlog, ← List.append_assoc]
      generalize outstanding cols decode c w.log ((consumerEngine cols).view w x.writes) = later
      rw [hview]

end Draining

/-! ### Calls -/

/-- The log and what the consumer has done stay as they are. -/
structure SameFeed (w w' : World) : Prop where
  log : w'.log = w.log
  offsets : w'.db.offsets = w.db.offsets
  keys : w'.db.events.map EventRow.key = w.db.events.map EventRow.key

section Feed

variable {cols : Columns} {w w' : World}

theorem SameFeed.trans {w'' : World} (h : SameFeed w w') (h' : SameFeed w' w'') : SameFeed w w'' :=
  ⟨h'.log.trans h.log, h'.offsets.trans h.offsets, h'.keys.trans h.keys⟩

theorem sameFeed_draw (w : World) (o : BillingStmt) : SameFeed w (w.draw o) :=
  ⟨rfl, rfl, rfl⟩

theorem sameFeed_apply (w : World) {c : Write} (hc : c.isConsumer = false) :
    SameFeed w (w.apply c) := by
  cases c with
  | event row | touchEvent key | offset consumer next | deadLetter row => cases hc
  | bill key invoice =>
      refine ⟨rfl, rfl, ?_⟩
      show (w.db.events.map (EventRow.bill key invoice)).map EventRow.key = _
      rw [List.map_map]
      apply List.map_congr_left
      intro r _
      show (r.bill key invoice).key = r.key
      rw [EventRow.bill]
      split <;> rfl
  | _ => exact ⟨rfl, rfl, rfl⟩

theorem sameFeed_view (w : World) {ws : List Write} (hws : ∀ c ∈ ws, c.isConsumer = false) :
    SameFeed w ((billingEngine cols).view w ws) := by
  induction ws generalizing w with
  | nil => exact ⟨rfl, rfl, rfl⟩
  | cons c ws ih =>
      rw [List.forall_mem_cons] at hws
      exact (sameFeed_apply w hws.1).trans (ih _ hws.2)

/-- Code of billing leaves the feed alone. -/
theorem runBody_sameFeed {α : Type} {body : BillingBody α}
    (honly : Only (fun o => ¬ o.isConsumer) body) (x : Txn BillingStmt World Write)
    (hx : ∀ c ∈ x.writes, c.isConsumer = false) :
    SameFeed x.data ((billingEngine cols).runBody body x).2.data ∧
      ∀ c ∈ ((billingEngine cols).runBody body x).2.writes, c.isConsumer = false := by
  induction body generalizing x with
  | done a =>
      exact ⟨⟨rfl, rfl, rfl⟩, hx⟩
  | call o next ih =>
      have hwrites : ∀ c ∈ ((billingEngine cols).after o x).writes, c.isConsumer = false := by
        intro c hc
        rcases List.mem_append.1 hc with hc | hc
        · exact hx c hc
        · exact (billing_writes honly.1 _ c hc).1
      obtain ⟨hdata, hrest⟩ := ih _ (honly.2 _) ((billingEngine cols).after o x) hwrites
      exact ⟨(sameFeed_draw x.data o).trans hdata, hrest⟩

theorem call_sameFeed {ε β : Type} {body : BillingBody (Outcome ε β)}
    (honly : Only (fun o => ¬ o.isConsumer) body) (w : World) :
    SameFeed w ((billingEngine cols).call (triggersPass cols) body w).2 := by
  obtain ⟨hdata, hwrites⟩ := @runBody_sameFeed cols _ _ honly ⟨w, [], []⟩ (List.forall_mem_nil _)
  rw [Engine.call]
  rcases hrun : (billingEngine cols).runBody body ⟨w, [], []⟩ with ⟨b | e, x⟩
  · rw [hrun] at hdata hwrites
    simp only
    split
    · exact hdata.trans (sameFeed_view _ hwrites)
    · exact hdata
  · rw [hrun] at hdata
    exact hdata

/-- What does not depend on the clock is billing's. -/
theorem not_consumer_of_plain {tenant : String} {before : Time} (o : BillingStmt)
    (h : o.Plain tenant before) : ¬ o.isConsumer := by
  cases o with
  | consumer o => exact h.elim
  | _ => exact id

theorem billing_ensurePeriod (tenant label : String) (start finish : Time) :
    Only (fun o => ¬ o.isConsumer) (ensurePeriod tenant label start finish) := by
  rw [ensurePeriod]
  split
  · trivial
  split
  · trivial
  · refine ⟨id, fun r => ?_⟩
    cases r <;> trivial

theorem billing_issue (period : Period) (entry : Entry) (ledgerId : Nat) (issuedAt : Time) :
    Only (fun o => ¬ o.isConsumer) (issue period entry ledgerId issuedAt) := by
  have hinsert : Only (fun o => ¬ o.isConsumer)
      (insertInvoice period entry.total ledgerId issuedAt) := ⟨id, fun _ => trivial⟩
  refine only_bind hinsert fun r => ?_
  rcases r with e | invoice
  · trivial
  refine only_bind (only_mono not_consumer_of_plain
    (@plain_insertLineItems period.tenantId period.finish invoice entry.lines)) fun r => ?_
  rcases r with e | _
  · trivial
  refine only_bind (only_mono not_consumer_of_plain (plain_markBilled invoice)) fun r => ?_
  rcases r with e | _
  · trivial
  refine ⟨id, fun r => ?_⟩
  cases r <;> trivial

theorem billing_billPeriod (registry : Registry) (plan : Plan) (now : Time) (period : Period) :
    Only (fun o => ¬ o.isConsumer) (billPeriod registry plan now period) := by
  refine only_bind (only_mono not_consumer_of_plain (plain_gatherUsage period)) fun r => ?_
  rcases r with e | ⟨usages, earliest⟩
  · trivial
  show Only _ (if usages = [] then _ else _)
  split
  · trivial
  split
  · trivial
  · rename_i items _
    refine only_bind (only_mono not_consumer_of_plain
      (@plain_buildEntry period.tenantId period.finish period items earliest)) fun r => ?_
    rcases r with e | entry
    · trivial
    show Only _ (postEntry period entry now)
    rw [postEntry]
    split
    · trivial
    split
    · trivial
    · rename_i t _
      refine only_bind (only_mono not_consumer_of_plain
        (@plain_postTx period.tenantId period.finish t)) fun r => ?_
      cases r with
      | error e => trivial
      | ok posted =>
          exact billing_issue period entry posted.1 now

theorem billing_close (registry : Registry) (plan : Plan) (now : Time) (id : Nat) :
    Only (fun o => ¬ o.isConsumer) (close registry plan now id) := by
  have hlock : Only (fun o => ¬ o.isConsumer) (lockPeriod id) := ⟨fun h => h, fun _ => trivial⟩
  refine only_bind hlock fun r => ?_
  rcases r with e | _ | period
  · trivial
  · trivial
  show Only _ (if period.state = .closed then _ else _)
  split
  · have hselect : Only (fun o => ¬ o.isConsumer) (invoiceForPeriod period.id) := by
      refine ⟨fun h => h, fun r => ?_⟩
      rcases r with e | _ | row
      · trivial
      · trivial
      · refine ⟨fun h => h, fun r => ?_⟩
        cases r <;> trivial
    refine only_bind hselect fun r => ?_
    cases r <;> trivial
  · exact billing_billPeriod registry plan now period

/-- The operator's calls leave the feed alone. -/
theorem LedgerCall.sameFeed (registry : Registry) (now : Time) (call : LedgerCall) (w : World) :
    SameFeed w (call.run cols registry now w) := by
  cases call with
  | ensurePeriod tenant label start finish =>
      exact call_sameFeed (billing_ensurePeriod tenant label start finish) w
  | close plan id =>
      exact call_sameFeed (billing_close registry plan now id) w

end Feed

/-! ### Both runs -/

section Both

variable {cols : Columns} {decode : Decoder} {registry : Registry}
  {c : Consumer} {log : List Bytes} {w v : World} {calls : List LedgerCall}

/-- What is outstanding depends on the feed alone. -/
theorem outstanding_congr {w' : World} (h : SameFeed w w') :
    outstanding cols decode c log w' = outstanding cols decode c log w := by
  rw [outstanding, outstanding, Consumer.nextOffset, Consumer.nextOffset, h.keys, h.offsets]

/-- A batch of the original run. -/
theorem Rebuilt.batch (h : Rebuilt (outstanding cols decode c log w) w v) (hlog : w.log <+: log)
    {stats : Stats} {x : BatchTxn} (hend : c.nextOffset w.db < w.log.length)
    (hbatch : Ends (consumerEngine cols).Statement (c.nextBatch decode w) ⟨w, [], []⟩
      (.commit stats) x) :
    Rebuilt (outstanding cols decode c log ((consumerEngine cols).view w x.writes))
      ((consumerEngine cols).view w x.writes) v := by
  obtain ⟨rows, offsets, deadLetters, reached, hview, hsplit⟩ := outstanding_batch hlog hend hbatch
  have hfresh : ∀ r ∈ outstanding cols decode c log ((consumerEngine cols).view w x.writes),
      ∀ stored ∈ ((consumerEngine cols).view w x.writes).db.events, stored.key ≠ r.key := by
    intro r hr stored hstored hkey
    exact (addedRows_new _ _ r hr).1 (List.mem_map.2 ⟨stored, hstored, hkey⟩)
  generalize outstanding cols decode c log ((consumerEngine cols).view w x.writes) = later
    at hsplit hfresh ⊢
  rw [hsplit] at h
  rw [hview] at hfresh ⊢
  exact { h with
    events := by rw [h.events, List.append_assoc]
    fresh := hfresh }

/-- The rebuild before the first call. -/
theorem Rebuilt.drained {stats : Stats}
    (h : Drains cols decode c ⟨log, .empty, fun _ => 0⟩ ⟨0, 0, 0, 0, 0⟩ none v stats) :
    Rebuilt (outstanding cols decode c log ⟨[], .empty, fun _ => 0⟩)
      ⟨[], .empty, fun _ => 0⟩ v := by
  obtain ⟨offsets, deadLetters, hdb⟩ := drained_outstanding h
  have hnone : ∀ r ∈ outstanding cols decode c log ⟨[], .empty, fun _ => 0⟩,
      ∀ stored ∈ Database.empty.events, stored.key ≠ r.key :=
    fun _ _ stored hstored => (nomatch hstored)
  refine ⟨?_, hnone, ?_, ?_, ?_, ?_, ?_, ?_, ?_⟩ <;> rw [hdb]
  rfl

/-- A call on either side. -/
theorem Rebuilt.call {now now' : Time} (hnow : (cols.timestamptz now).isSome)
    (hnow' : (cols.timestamptz now').isSome) (call : LedgerCall)
    (h : Rebuilt (outstanding cols decode c log w) w v) (hon : OnTime cols decode c log w call) :
    Rebuilt (outstanding cols decode c log (call.run cols registry now w))
      (call.run cols registry now w) (call.run cols registry now' v) := by
  rw [outstanding_congr (call.sameFeed registry now w)]
  cases call with
  | ensurePeriod tenant label start finish =>
      exact rebuilt_ensurePeriod tenant label start finish h
  | close plan id =>
      exact rebuilt_close registry plan hnow hnow' id h hon

theorem Rebuild.of_nil (h : Rebuild cols decode registry c log [] v) :
    ∃ stats, Drains cols decode c ⟨log, .empty, fun _ => 0⟩ ⟨0, 0, 0, 0, 0⟩ none v stats := by
  generalize hcalls : ([] : List LedgerCall) = calls at h
  cases h with
  | drained h => exact ⟨_, h⟩
  | called call now before hnow => simp at hcalls

theorem Rebuild.of_append {call : LedgerCall}
    (h : Rebuild cols decode registry c log (calls ++ [call]) v) :
    ∃ v₀ now, Rebuild cols decode registry c log calls v₀ ∧ (cols.timestamptz now).isSome ∧
      v = call.run cols registry now v₀ := by
  generalize hcalls : calls ++ [call] = made at h
  cases h with
  | drained h => simp at hcalls
  | @called v₀ calls' call' now before hnow =>
      obtain ⟨rfl, hcall⟩ := List.append_inj' hcalls rfl
      cases hcall
      exact ⟨v₀, now, before, hnow, rfl⟩

/-- The rebuild has what the original run has, and the rows of what is still outstanding. -/
theorem History.rebuilt (h : History cols decode registry c (OnTime cols decode c log) w calls)
    (hlog : w.log <+: log) (hr : Rebuild cols decode registry c log calls v) :
    Rebuilt (outstanding cols decode c log w) w v := by
  induction h generalizing v with
  | start =>
      obtain ⟨stats, hdrained⟩ := hr.of_nil
      exact .drained hdrained
  | @appended w calls record before ih =>
      have hbefore := ih ((List.prefix_append _ _).trans hlog) hr
      exact { hbefore with }
  | @drained w calls stats x before hend hbatch ih =>
      have hfeed : ((consumerEngine cols).view w x.writes).log = w.log := by
        obtain ⟨_, _, _, _, hview, _⟩ := outstanding_batch (List.prefix_refl w.log) hend hbatch
        rw [hview]
      rw [hfeed] at hlog
      exact (ih hlog hr).batch hlog hend hbatch
  | @called w calls call now before hnow hallowed ih =>
      rw [(call.sameFeed registry now w).log] at hlog
      obtain ⟨v₀, now', hbefore, hnow', rfl⟩ := hr.of_append
      exact (ih hlog hbefore).call hnow hnow' call hallowed

/-- Where every `Close` was on time, the rebuilt ledger is the original one. -/
theorem rebuild_same_ledger
    (h : History cols decode registry c (OnTime cols decode c w.log) w calls)
    (hr : Rebuild cols decode registry c w.log calls v) : SameLedger w.db v.db := by
  have hrebuilt := h.rebuilt (List.prefix_refl w.log) hr
  constructor
  · intro key
    rw [hrebuilt.transactions]
  · intro key
    have hentries : ∀ id, v.db.entries id = w.db.entries id := by
      intro id
      unfold Database.entries Database.accountName
      rw [hrebuilt.postings, hrebuilt.accounts]
    rw [Database.entriesUnder, Database.entriesUnder, hrebuilt.transactions, funext hentries]

end Both

section Sample

/-- The consumer of the sample runs. -/
def replayConsumer : Consumer :=
  .new "billing" 0

/-- The next batch of the sample has been committed. -/
def replayDrained (w : World) : World :=
  (consumerEngine postgresColumns).view w
    (replayConsumer.runBatch postgresColumns sampleDecode w).2.writes

/-- A record of the sample has been appended. -/
def replayAppended (record : Bytes) (w : World) : World :=
  { w with log := w.log ++ [record] }

def replayCall (call : LedgerCall) (w : World) : World :=
  call.run postgresColumns ⟨["m"]⟩ 30000 w

/-- The two periods, and a `Close` of each. -/
def replayCalls : List LedgerCall :=
  [.ensurePeriod "a" "one" 1000 10000, .ensurePeriod "a" "two" 10000 20000,
    .close samplePlan 1, .close samplePlan 2]

/-- The calls of the sample on a database that has been drained into. -/
def replayRebuilt (log : List Bytes) : World :=
  replayCalls.foldl (fun w call => replayCall call w)
    (replayDrained ⟨log, .empty, fun _ => 0⟩)

/-- The first record is in and there are two periods. -/
def replayOpen : World :=
  replayCall (.ensurePeriod "a" "two" 10000 20000)
    (replayCall (.ensurePeriod "a" "one" 1000 10000)
      (replayDrained (replayAppended [0] ⟨[], .empty, fun _ => 0⟩)))

/-- The last record has arrived after the `Close` of the first period. -/
def replayLate (last : Bytes) : World :=
  replayAppended last (replayCall (.close samplePlan 1) replayOpen)

def replayOriginal (last : Bytes) : World :=
  replayCall (.close samplePlan 2) (replayDrained (replayLate last))

abbrev SampleHistory (allowed : World → LedgerCall → Prop) (w : World)
    (calls : List LedgerCall) : Prop :=
  History postgresColumns sampleDecode ⟨["m"]⟩ replayConsumer allowed w calls

section Step

variable {allowed : World → LedgerCall → Prop} {w : World} {calls : List LedgerCall}

theorem sampleHistory_drained (h : SampleHistory allowed w calls)
    (hend : replayConsumer.nextOffset w.db < w.log.length)
    (hbatch : (replayConsumer.runBatch postgresColumns sampleDecode w).1 =
      .commit ⟨1, 1, 0, 0, 0⟩) : SampleHistory allowed (replayDrained w) calls :=
  .drained h hend (replayConsumer.ends_runBatch postgresColumns sampleDecode w hbatch)

theorem sampleHistory_called (call : LedgerCall) (h : SampleHistory allowed w calls)
    (hallowed : allowed w call) : SampleHistory allowed (replayCall call w) (calls ++ [call]) :=
  .called call 30000 h (by decide +kernel) hallowed

end Step

theorem sampleRebuild (log : List Bytes)
    (hend : replayConsumer.nextOffset Database.empty < log.length)
    (hbatch : (replayConsumer.runBatch postgresColumns sampleDecode
      ⟨log, .empty, fun _ => 0⟩).1 = .commit ⟨2, 2, 0, 0, 0⟩)
    (hall : (replayDrained ⟨log, .empty, fun _ => 0⟩).log.length ≤
      replayConsumer.nextOffset (replayDrained ⟨log, .empty, fun _ => 0⟩).db) :
    Rebuild postgresColumns sampleDecode ⟨["m"]⟩ replayConsumer log replayCalls
      (replayRebuilt log) := by
  have hdrained := Drains.batch hend
    (replayConsumer.ends_runBatch postgresColumns sampleDecode ⟨log, .empty, fun _ => 0⟩ hbatch)
    (.caughtUp ((⟨0, 0, 0, 0, 0⟩ : Stats).add ⟨2, 2, 0, 0, 0⟩) hall)
  have hnow : (postgresColumns.timestamptz 30000).isSome := by
    decide +kernel
  have hone := Rebuild.called (.ensurePeriod "a" "one" 1000 10000) 30000
    (Rebuild.drained hdrained : Rebuild _ _ ⟨["m"]⟩ _ _ _ _) hnow
  have htwo := Rebuild.called (.ensurePeriod "a" "two" 10000 20000) 30000 hone hnow
  have hthree := Rebuild.called (.close samplePlan 1) 30000 htwo hnow
  exact Rebuild.called (.close samplePlan 2) 30000 hthree hnow

theorem replayOriginal_history (last : Bytes) {allowed : World → LedgerCall → Prop}
    (hensure : ∀ w tenant label start finish, allowed w (.ensurePeriod tenant label start finish))
    (hone : allowed replayOpen (.close samplePlan 1))
    (htwo : allowed (replayDrained (replayLate last)) (.close samplePlan 2))
    (hend : replayConsumer.nextOffset (replayLate last).db < (replayLate last).log.length)
    (hbatch : (replayConsumer.runBatch postgresColumns sampleDecode (replayLate last)).1 =
      .commit ⟨1, 1, 0, 0, 0⟩) :
    SampleHistory allowed (replayOriginal last) replayCalls := by
  have hfirst : SampleHistory allowed
      (replayDrained (replayAppended [0] ⟨[], .empty, fun _ => 0⟩)) [] :=
    sampleHistory_drained (.appended [0] .start) (by decide) (by decide +kernel)
  have hperiod := sampleHistory_called _ hfirst (hensure _ "a" "one" 1000 10000)
  have hperiods := sampleHistory_called _ hperiod (hensure _ "a" "two" 10000 20000)
  have hclosed := sampleHistory_called _ hperiods hone
  exact sampleHistory_called _ (sampleHistory_drained (.appended last hclosed) hend hbatch) htwo

/-- A record of another tenant arrives after the `Close`. -/
theorem rebuild_same_ledger_other :
    SampleHistory (OnTime postgresColumns sampleDecode replayConsumer (replayOriginal [2]).log)
        (replayOriginal [2]) replayCalls ∧
      SameLedger (replayOriginal [2]).db (replayRebuilt (replayOriginal [2]).log).db := by
  have hone : ∀ p ∈ replayOpen.db.periods.find? (fun p => p.id = 1), p.state = .open →
      ∀ r ∈ outstanding postgresColumns sampleDecode replayConsumer (replayOriginal [2]).log
        replayOpen, r.isUnbilled p.tenantId p.finish = false := by
    decide +kernel
  have htwo : ∀ p ∈ (replayDrained (replayLate [2])).db.periods.find? (fun p => p.id = 2),
      p.state = .open →
        ∀ r ∈ outstanding postgresColumns sampleDecode replayConsumer (replayOriginal [2]).log
          (replayDrained (replayLate [2])), r.isUnbilled p.tenantId p.finish = false := by
    decide +kernel
  have hhistory : SampleHistory
      (OnTime postgresColumns sampleDecode replayConsumer (replayOriginal [2]).log)
      (replayOriginal [2]) replayCalls :=
    replayOriginal_history [2] (fun _ _ _ _ _ => trivial) hone htwo (by decide +kernel)
      (by decide +kernel)
  have hrebuild := sampleRebuild (replayOriginal [2]).log (by decide +kernel) (by decide +kernel)
    (by decide +kernel)
  exact ⟨hhistory, rebuild_same_ledger hhistory hrebuild⟩

/-- A record of the same tenant arrives after the `Close`: it has an invoice of its own in the
original run, and is on the first one in the rebuild. -/
theorem rebuild_differs :
    SampleHistory (fun _ _ => True) (replayOriginal [1]) replayCalls ∧
      Rebuild postgresColumns sampleDecode ⟨["m"]⟩ replayConsumer (replayOriginal [1]).log
        replayCalls (replayRebuilt (replayOriginal [1]).log) ∧
      ¬ SameLedger (replayOriginal [1]).db (replayRebuilt (replayOriginal [1]).log).db := by
  refine ⟨replayOriginal_history [1] (fun _ _ _ _ _ => trivial) trivial trivial
    (by decide +kernel) (by decide +kernel), sampleRebuild _ (by decide +kernel)
    (by decide +kernel) (by decide +kernel), fun h => ?_⟩
  have hkey : (transactionKey "a" "two" ∈ (replayOriginal [1]).db.transactions.map
        TransactionRow.idempotencyKey) ∧
      transactionKey "a" "two" ∉ (replayRebuilt (replayOriginal [1]).log).db.transactions.map
        TransactionRow.idempotencyKey := by
    decide +kernel
  exact hkey.2 ((h.keys _).1 hkey.1)

end Sample

end LedgerLine.Billing
