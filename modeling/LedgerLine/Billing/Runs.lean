import LedgerLine.Billing.CloseEffect
import LedgerLine.Billing.Drain

/-!
# Serial runs of billing

Consumer batches, `EnsurePeriod` and `Close`, one after the other, each of them free to fail
at any statement (`SerialStep`).  A run keeps a history of what matters for billing: the
events that were inserted and the invoices that were issued.

Main facts: `batch_effect`, `ensure_effect` and `close_cases`, what each of these calls does
to the tables.
-/

namespace LedgerLine.Billing

/-- Code of the consumer, on the database with all its statements. -/
def asBilling {α : Type} : BatchBody α → BillingBody α
  | .done a => .done a
  | .call o next => .call (.consumer o) fun r => asBilling (next r)

/-- A statement of the consumer. -/
def BillingStmt.isConsumer : BillingStmt → Prop
  | .consumer _ => True
  | _ => False

theorem only_asBilling {α : Type} (body : BatchBody α) :
    Program.Only BillingStmt.isConsumer (asBilling body) := by
  induction body with
  | done a => trivial
  | call o next ih => exact ⟨trivial, ih⟩

/-- The statements that were answered are statements of the code. -/
theorem seen_of_ends {cols : Columns} {α : Type} {P : BillingStmt → Prop} {body : BillingBody α}
    {x y : Txn BillingStmt World Write} {a : α}
    (h : Program.Ends (billingEngine cols).Statement body x a y) (honly : Program.Only P body)
    (hx : ∀ e ∈ x.seen, P e.1) : ∀ e ∈ y.seen, P e.1 := by
  induction h with
  | done a x => exact hx
  | @call o next x u y r a hstep rest ih =>
      apply ih (honly.2 r)
      cases hstep with
      | answered =>
          exact List.forall_mem_append.2 ⟨hx, List.forall_mem_singleton.2 honly.1⟩
      | failed e | failedLate e => exact hx

section Batch

variable {cols : Columns}

/-- What a statement of the consumer changes: a new event is not billed, and its key was not
in sight. -/
theorem consumer_writes (cols : Columns) {o : BillingStmt} (ho : o.isConsumer) (w : World) :
    (∀ c ∈ (o.exec cols w).2, c.isConsumer = true) ∧
      (ownRows (o.exec cols w).2 = [] ∨ ∃ row, ownRows (o.exec cols w).2 = [row] ∧
        row.invoiceId = none ∧ ∀ r ∈ w.db.events, r.key ≠ row.key) := by
  cases o with
  | consumer o =>
      refine ⟨fun c hc => isConsumer_of_exec hc, ?_⟩
      cases o with
      | readLog offset =>
          simp only [BillingStmt.exec, ConsumerStmt.exec]
          split <;> exact .inl rfl
      | insertEvent e =>
          have hwrites : (BillingStmt.exec cols (.consumer (.insertEvent e)) w).2 =
              ((consumerEngine cols).exec (.insertEvent e) w).2 := rfl
          rw [hwrites]
          rcases exec_insertEvent cols e w with
            h | ⟨row, hrow, h, hnew⟩ | ⟨row, stored, hrow, h, -⟩ <;> rw [h]
          · exact .inl rfl
          · refine .inr ⟨row, rfl, ?_, hnew⟩
            obtain ⟨-, _, -, _, -, _, -, rfl⟩ := Columns.row_eq_some.1 hrow
            rfl
          · exact .inl rfl
      | insertDeadLetter row =>
          simp only [BillingStmt.exec, ConsumerStmt.exec, letterWrites]
          split <;> exact .inl rfl
      | commitOffset consumer next => exact .inl rfl
  | _ => exact ho.elim

/-- Changes of the consumer leave the tables of billing alone. -/
theorem view_of_consumer (cols : Columns) (w : World) {ws : List Write}
    (h : ∀ c ∈ ws, c.isConsumer = true) :
    ∃ offsets deadLetters reached, (billingEngine cols).view w ws =
      { w with
        db := { w.db with
          events := w.db.events ++ ownRows ws
          offsets := offsets
          deadLetters := deadLetters }
        reached := reached } := by
  induction ws generalizing w with
  | nil =>
      exact ⟨w.db.offsets, w.db.deadLetters, w.reached, by simp [ownRows]⟩
  | cons c ws ih =>
      rw [List.forall_mem_cons] at h
      obtain ⟨offsets, deadLetters, reached, hview⟩ := ih (w.apply c) h.2
      refine ⟨offsets, deadLetters, reached, hview.trans ?_⟩
      cases c with
      | event row =>
          simp [World.apply, Database.apply, ownRows]
      | touchEvent key | offset consumer next | deadLetter row => rfl
      | _ => cases h.1

/-- Events that are added. -/
theorem view_events_of_consumer (cols : Columns) (w : World) {ws : List Write}
    (h : ∀ c ∈ ws, c.isConsumer = true) :
    ((billingEngine cols).view w ws).db.events = w.db.events ++ ownRows ws := by
  obtain ⟨_, _, _, hview⟩ := view_of_consumer cols w h
  rw [hview]

/-- What a transaction of the consumer inserts: unbilled events with keys of their own. -/
structure NewRows (events rows : List EventRow) : Prop where
  unbilled : ∀ r ∈ rows, r.invoiceId = none
  nodup : (rows.map EventRow.key).Nodup
  fresh : ∀ r ∈ rows, ∀ stored ∈ events, stored.key ≠ r.key

/-- Rows may be billed and added meanwhile, under keys other than the given ones. -/
def KeysApartFrom (own : List (String × String)) (w w' : World) : Prop :=
  ∃ new, w'.db.events.map EventRow.key = w.db.events.map EventRow.key ++ new ∧
    ∀ key ∈ new, key ∉ own

variable {w w' : World}

theorem KeysApartFrom.of_eq {own : List (String × String)} (h : w'.db.events = w.db.events) :
    KeysApartFrom own w w' :=
  ⟨[], by rw [h, List.append_nil], nofun⟩

theorem NewRows.move {rows : List EventRow} (h : NewRows w.db.events rows)
    (hmove : KeysApartFrom (rows.map EventRow.key) w w') : NewRows w'.db.events rows := by
  refine ⟨h.unbilled, h.nodup, ?_⟩
  intro r hr stored hstored heq
  obtain ⟨new, hkeys, hnew⟩ := hmove
  have hkey : stored.key ∈ w.db.events.map EventRow.key ++ new :=
    hkeys ▸ List.mem_map_of_mem hstored
  rcases List.mem_append.1 hkey with hkey | hkey
  · obtain ⟨old, hold, hsame⟩ := List.mem_map.1 hkey
    exact h.fresh r hr old hold (hsame.trans heq)
  · exact hnew _ hkey (heq ▸ List.mem_map_of_mem hr)

/-- What an open transaction of the consumer has inserted, whatever goes on meanwhile, as
long as nobody else inserts under its keys. -/
theorem newRows_of_chain {Fine : World → Prop} {R : Trace → World → World → Prop}
    (hR : ∀ seen w w', R seen w w' →
      KeysApartFrom ((ownRows ((billingEngine cols).writesOf seen)).map EventRow.key) w w')
    {start w : World} {seen : Trace} (h : (billingEngine cols).Chain Fine R start seen w)
    (hseen : ∀ e ∈ seen, e.1.isConsumer) :
    NewRows w.db.events (ownRows ((billingEngine cols).writesOf seen)) ∧
      ∀ c ∈ (billingEngine cols).writesOf seen, c.isConsumer = true := by
  induction h with
  | start _ _ =>
      refine ⟨⟨?_, List.nodup_nil, ?_⟩, ?_⟩ <;> exact nofun
  | @answered seen base w o _ _ hmove ih =>
      have hold : ∀ e ∈ seen, e.1.isConsumer := fun e he => hseen e (List.mem_append_left _ he)
      have ho : o.isConsumer :=
        hseen (o, (billingEngine cols).view base ((billingEngine cols).writesOf seen))
          (List.mem_append_right _ (List.mem_singleton.2 rfl))
      obtain ⟨hrows, hwrites⟩ := ih hold
      obtain ⟨hkinds, hnew⟩ := consumer_writes cols ho
        ((billingEngine cols).view base ((billingEngine cols).writesOf seen))
      have hmoved := hR _ _ _ hmove
      simp only [Engine.writesOf_append, Engine.writesOf_cons, Engine.writesOf_nil,
        billingEngine_exec, List.append_nil, ownRows_append] at hmoved ⊢
      constructor
      · refine NewRows.move ?_ hmoved
        show NewRows base.db.events _
        rcases hnew with hnone | ⟨row, hone, hunbilled, hfresh⟩
        · rw [hnone, List.append_nil]
          exact hrows
        · rw [hone]
          rw [view_events_of_consumer cols base hwrites] at hfresh
          refine ⟨?_, ?_, ?_⟩
          · exact List.forall_mem_append.2 ⟨hrows.unbilled, List.forall_mem_singleton.2 hunbilled⟩
          · rw [List.map_append, List.nodup_append]
            refine ⟨hrows.nodup, List.nodup_singleton _, ?_⟩
            intro key hkey key' hkey'
            obtain ⟨r, hr, rfl⟩ := List.mem_map.1 hkey
            cases List.mem_singleton.1 hkey'
            exact hfresh r (List.mem_append_right _ hr)
          · intro r hr
            rcases List.mem_append.1 hr with hr | hr
            · exact hrows.fresh r hr
            · cases List.mem_singleton.1 hr
              exact fun stored hstored => hfresh stored (List.mem_append_left _ hstored)
      · exact List.forall_mem_append.2 ⟨hwrites, hkinds⟩

/-- What a batch on its own changes. -/
structure BatchEffect (w w' : World) (rows : List EventRow) : Prop where
  new : NewRows w.db.events rows
  sequences : w.db.sequences.Le w'.db.sequences
  eq : w' =
    { w with
      db := { w.db with
        events := w.db.events ++ rows
        offsets := w'.db.offsets
        deadLetters := w'.db.deadLetters
        sequences := w'.db.sequences }
      reached := w'.reached }

theorem newRows_nil (events : List EventRow) : NewRows events [] :=
  ⟨nofun, List.nodup_nil, nofun⟩

theorem batchEffect_of_same (h : SameTables w w') : BatchEffect w w' [] := by
  refine ⟨newRows_nil _, h.sequences, ?_⟩
  rw [h.eq]
  simp

/-- A batch on its own, committed or not. -/
theorem batch_effect {check : World → List Write → Prop} {ε β : Type}
    {body : BatchBody (Outcome ε β)} {out : Option β}
    (h : (billingEngine cols).Alone check (asBilling body) w out w') :
    ∃ rows, BatchEffect w w' rows := by
  rcases out with _ | b
  · exact ⟨[], batchEffect_of_same (sameTables_of_drawn (Engine.alone_rollback h))⟩
  cases h with
  | @commit _ x hends hcheck =>
      obtain ⟨hwrites, hchain⟩ := Engine.trace_of_ends w hends rfl (.start trivial .refl)
      have hseen := seen_of_ends hends (only_asBilling body) nofun
      obtain ⟨hrows, hconsumer⟩ := newRows_of_chain
        (fun _ _ _ hdrawn => .of_eq (sameTables_of_drawn hdrawn).events) hchain hseen
      have hdata := sameTables_of_drawn hchain.drawn
      rw [hdata.events] at hrows
      obtain ⟨offsets, deadLetters, reached, hview⟩ := view_of_consumer cols x.data hconsumer
      refine ⟨_, hrows, ?_, ?_⟩
      · rw [World.sequences_view]
        exact hdata.sequences
      · rw [hwrites, hview, hdata.eq]

end Batch

section Ensure

variable {cols : Columns}

theorem givesUp_ensurePeriod (tenant label : String) (start finish : Time) :
    GivesUp (ensurePeriod tenant label start finish) := by
  rw [ensurePeriod]
  split
  · trivial
  split
  · trivial
  · apply stopsWith_bind (passesOn_perform _)
    · exact fun e => ⟨_, rfl, _, rfl⟩
    · exact fun _ => trivial

theorem path_ensurePeriod {tenant label : String} {start finish : Time} {seen : Trace}
    {period : Period}
    (h : (billingEngine cols).PathTo (ensurePeriod tenant label start finish) seen
      (.commit period)) :
    ∃ w, seen = [(.ensurePeriod tenant label start finish, w)] ∧
      (execEnsurePeriod cols tenant label start finish w.db).1 = .ok period := by
  rw [ensurePeriod] at h
  split at h
  · cases (Engine.path_done h).2
  split at h
  · cases (Engine.path_done h).2
  obtain ⟨first, rest, p, rfl, hfirst, hrest⟩ := Engine.path_bind_ok h fun e => ⟨_, rfl, nofun⟩
  obtain ⟨w, rfl, hr⟩ := Engine.path_perform hfirst
  obtain ⟨rfl, hp⟩ := Engine.path_done hrest
  cases hp
  exact ⟨w, rfl, hr.symm⟩

/-- What `EnsurePeriod` on its own changes: at most one period is added. -/
structure EnsureEffect (tenant label : String) (w w' : World) (new : List Period) : Prop where
  sequences : w.db.sequences.Le w'.db.sequences
  eq : w' = { w with
    db := { w.db with periods := w.db.periods ++ new, sequences := w'.db.sequences } }
  new : new = [] ∨ ∃ p, new = [p] ∧ p.key = (tenant, label) ∧ p.state = .open ∧
    w.db.sequences.periods ≤ p.id ∧ p.id < w'.db.sequences.periods ∧
    ∀ q ∈ w.db.periods, q.key ≠ (tenant, label)

variable {label tenant : String}

theorem ensureEffect_of_same {w w' : World} (h : SameTables w w') :
    EnsureEffect tenant label w w' [] := by
  refine ⟨h.sequences, ?_, .inl rfl⟩
  rw [h.eq]
  simp

theorem ensure_effect {check : World → List Write → Prop} {start finish : Time} {w w' : World}
    {out : Option Period}
    (h : (billingEngine cols).Alone check (ensurePeriod tenant label start finish) w out w') :
    ∃ new, EnsureEffect tenant label w w' new := by
  rcases out with _ | period
  · exact ⟨[], ensureEffect_of_same (sameTables_of_drawn (Engine.alone_rollback h))⟩
  obtain ⟨base, seen, hpath, hchain, rfl⟩ :=
    Engine.alone_commit (givesUp_ensurePeriod tenant label start finish) h
  obtain ⟨sight, rfl, hanswer⟩ := path_ensurePeriod hpath
  have hbase := sameTables_of_drawn hchain.drawn
  have hsplit : (billingEngine cols).SerialChain w
      ([] ++ (.ensurePeriod tenant label start finish, sight) :: []) base := hchain
  obtain ⟨w', hw', hsight, hlater⟩ := sight_of_serial hsplit
  have hsight' : sight = w' := hsight
  subst hsight'
  simp only [Engine.writesOf_cons, Engine.writesOf_nil, billingEngine_exec, BillingStmt.exec]
  rcases execEnsurePeriod_cases cols tenant label start finish sight.db with
    hexec | ⟨p, hp, hkey, hexec⟩ | ⟨hnew, start', finish', hexec⟩ <;> rw [hexec]
  · rw [hexec] at hanswer
    cases hanswer
  · exact ⟨[], ensureEffect_of_same hbase⟩
  · refine ⟨[⟨sight.db.sequences.periods, tenant, label, start', finish', .open, none⟩],
      hbase.sequences, ?_, .inr ⟨_, rfl, rfl, rfl, hw'.sequences.periods, hlater.periods, ?_⟩⟩
    · rw [hbase.eq]
      rfl
    · rw [← hw'.periods]
      exact hnew

end Ensure

section Close

variable {cols : Columns}

variable {w : World} {id : Nat}

/-- A `Close` on its own that finds the period closed changes nothing. -/
theorem same_of_returned {seen : Trace} {inv : Invoice} {period : Period} {row : InvoiceRow}
    {locked read lines base : World} (h : Returned id seen inv period row locked read lines)
    (hchain : (billingEngine cols).SerialChain w seen base) :
    SameTables w ((billingEngine cols).view base ((billingEngine cols).writesOf seen)) := by
  rw [view_of_returned cols h base]
  exact sameTables_of_drawn hchain.drawn

/-- What a `Close` on its own does: it issues an invoice or changes nothing. -/
theorem close_cases {check : World → List Write → Prop} {registry : Registry} {plan : Plan}
    {now : Time} {w' : World} {out : Option Closed}
    (h : (billingEngine cols).Alone check (close registry plan now id) w out w') :
    (∃ inv x seen base, out = some (.issued inv) ∧ Issued cols registry plan now id seen inv x ∧
        (billingEngine cols).SerialChain w seen base ∧
        w' = (billingEngine cols).view base ((billingEngine cols).writesOf seen)) ∨
      (∀ inv, out ≠ some (.issued inv)) ∧ SameTables w w' := by
  cases out with
  | none =>
      exact .inr ⟨nofun, sameTables_of_drawn (Engine.alone_rollback h)⟩
  | some result =>
      obtain ⟨base, seen, hpath, hchain, rfl⟩ :=
        Engine.alone_commit (givesUp_close registry plan now id) h
      rcases path_close hpath with ⟨inv, x, rfl, hissued⟩ | ⟨inv, _, _, _, _, _, rfl, hreturned⟩
      · exact .inl ⟨inv, x, seen, base, rfl, hissued, hchain, rfl⟩
      · exact .inr ⟨nofun, same_of_returned hreturned hchain⟩

/-- The period is the one its identity stands for. -/
theorem find_of_issued {registry : Registry} {plan : Plan} {now : Time} {seen : Trace}
    {inv : Invoice} {x : Issue} {base : World} (h : Issued cols registry plan now id seen inv x)
    (hchain : (billingEngine cols).SerialChain w seen base) :
    w.db.periods.find? (fun p => p.id = inv.periodId) = some x.period := by
  obtain ⟨after, hseen⟩ := h.at_locked
  rw [hseen] at hchain
  obtain ⟨w', hw', hsight, -⟩ := sight_of_serial hchain
  have hperiods : x.locked.db.periods = w.db.periods := by
    rw [hsight]
    exact hw'.periods
  have hlock := congrArg Prod.fst h.lock
  rw [execLockPeriod, hperiods] at hlock
  rw [h.ended.invoice]
  split at hlock
  · rename_i p hp
    cases hlock
    exact hp
  · cases hlock

end Close

/-- What happens in a run, as far as events and invoices go. -/
inductive Happening
  | inserted (rows : List EventRow)
  /-- An invoice on a period of the tenant that ends at the given time. -/
  | invoiced (invoice : Nat) (tenant : String) (finish : Time)
deriving DecidableEq, Repr

/-- What a `Close` has done, from what it returned. -/
def closing (w : World) : Option Closed → List Happening
  | some (.issued inv) =>
      match w.db.periods.find? (fun p => p.id = inv.periodId) with
      | some p => [.invoiced inv.id p.tenantId p.finish]
      | none => []
  | _ => []

/-- A call of a serial run. -/
inductive SerialCall
  /-- The broker appends a record to the log. -/
  | append (record : Bytes)
  | batch (c : Consumer) (start stop : Nat)
  | ensurePeriod (tenant label : String) (start finish : Time)
  | close (registry : Registry) (plan : Plan) (now : Time) (id : Nat)

section Run

variable (cols : Columns) (decode : Decoder)

/-- One call of a serial run.  Statements and commits may fail; whatever the call returns,
it leaves the world it leaves. -/
inductive SerialStep : World → SerialCall → List Happening → World → Prop
  | append (w : World) (record : Bytes) :
      SerialStep w (.append record) [] { w with log := w.log ++ [record] }
  | batch {w w' : World} {out : Option Stats} (c : Consumer) (start stop : Nat)
      (h : (billingEngine cols).Alone (triggersPass cols)
        (asBilling (processBatch decode c start stop)) w out w') :
      SerialStep w (.batch c start stop) [.inserted (w'.db.events.drop w.db.events.length)] w'
  | ensurePeriod {w w' : World} {out : Option Period} (tenant label : String)
      (start finish : Time)
      (h : (billingEngine cols).Alone (triggersPass cols)
        (ensurePeriod tenant label start finish) w out w') :
      SerialStep w (.ensurePeriod tenant label start finish) [] w'
  | close {w w' : World} {out : Option Closed} (registry : Registry) (plan : Plan) (now : Time)
      (id : Nat)
      (h : (billingEngine cols).Alone (triggersPass cols) (close registry plan now id) w out w') :
      SerialStep w (.close registry plan now id) (closing w out) w'

/-- A run, with its history; `allowed` is what is assumed of the calls. -/
inductive SerialRunWhere (allowed : World → SerialCall → Prop) (start : World) :
    List Happening → World → Prop
  | refl : SerialRunWhere allowed start [] start
  | step {history new : List Happening} {w w' : World} {call : SerialCall}
      (before : SerialRunWhere allowed start history w) (hallowed : allowed w call)
      (h : SerialStep cols decode w call new w') :
      SerialRunWhere allowed start (history ++ new) w'

/-- A run of any calls. -/
abbrev SerialRun := SerialRunWhere cols decode fun _ _ => True

end Run

section Sample

/-- One unit of usage. -/
def sampleEvent (tenant key : String) (occurredAt : Time) : UsageEvent :=
  ⟨tenant, "m", "1", occurredAt, occurredAt, key, none⟩

/-- Three records. -/
def sampleDecode (record : Bytes) : Except String UsageEvent :=
  if record = [0] then
    .ok (sampleEvent "a" "first" 1000)
  else if record = [1] then
    .ok (sampleEvent "a" "late" 2000)
  else
    .ok (sampleEvent "a:b" "other" 1000)

/-- Five for a unit. -/
def samplePlan : Plan :=
  ⟨"flat", [⟨"m", .flat, 5, []⟩]⟩

/-- A call of the sample on its own. -/
def sampleCall {ε β : Type} (body : BillingBody (Outcome ε β)) (w : World) :
    Engine.Ending ε β × World :=
  (billingEngine postgresColumns).call (triggersPass postgresColumns) body w

/-- A batch of one record. -/
def sampleBatch (offset : Nat) : BillingBody BatchEnd :=
  asBilling (processBatch sampleDecode (.new "c" 1) offset (offset + 1))

def sampleClose (id : Nat) : BillingBody CloseEnd :=
  close ⟨["m"]⟩ samplePlan 30000 id

/-- The row of a sample event. -/
def sampleRow (key : String) (occurredAt : Time) (invoice : Option Nat) : EventRow :=
  ⟨"a", "m", 1000000000, occurredAt, occurredAt, key, none, invoice⟩

def sampleStart : World :=
  ⟨[[0], [1], [2]], Database.empty, fun _ => 0⟩

/-- There are two periods. -/
def sampleOpen : World :=
  (sampleCall (ensurePeriod "a" "two" 10000 20000)
    (sampleCall (ensurePeriod "a" "one" 1000 10000) sampleStart).2).2

/-- The first event is in, and its period is closed. -/
def sampleClosed : World :=
  (sampleCall (sampleClose 1) (sampleCall (sampleBatch 0) sampleOpen).2).2

/-- The invoice on one of the periods. -/
def sampleInvoice (id : Nat) (late : Bool) : Invoice :=
  ⟨id, id, "a", 5, id, 30000, [⟨"m", 1000000000, 5, late⟩]⟩

section Step

variable {allowed : World → SerialCall → Prop} {start w : World} {history : List Happening}

theorem sampleRun_batch (offset : Nat) (stats : Stats) (rows : List EventRow)
    (hrun : SerialRunWhere postgresColumns sampleDecode allowed start history w)
    (hallowed : allowed w (.batch (.new "c" 1) offset (offset + 1)))
    (hcall : (sampleCall (sampleBatch offset) w).1 = .committed stats)
    (hrows : (sampleCall (sampleBatch offset) w).2.db.events.drop w.db.events.length = rows) :
    SerialRunWhere postgresColumns sampleDecode allowed start (history ++ [.inserted rows])
      (sampleCall (sampleBatch offset) w).2 := by
  subst hrows
  exact .step hrun hallowed (.batch (.new "c" 1) offset (offset + 1) (Engine.alone_of_call hcall))

theorem sampleRun_close (id : Nat) (result : Closed) (new : List Happening)
    (hrun : SerialRunWhere postgresColumns sampleDecode allowed start history w)
    (hallowed : allowed w (.close ⟨["m"]⟩ samplePlan 30000 id))
    (hcall : (sampleCall (sampleClose id) w).1 = .committed result)
    (hnew : closing w (some result) = new) :
    SerialRunWhere postgresColumns sampleDecode allowed start (history ++ new)
      (sampleCall (sampleClose id) w).2 := by
  subst hnew
  exact .step hrun hallowed (.close ⟨["m"]⟩ samplePlan 30000 id (Engine.alone_of_call hcall))

theorem sampleRun_ensure (tenant label : String) (first finish : Time) (period : Period)
    (hrun : SerialRunWhere postgresColumns sampleDecode allowed start history w)
    (hallowed : allowed w (.ensurePeriod tenant label first finish))
    (hcall : (sampleCall (ensurePeriod tenant label first finish) w).1 = .committed period) :
    SerialRunWhere postgresColumns sampleDecode allowed start history
      (sampleCall (ensurePeriod tenant label first finish) w).2 := by
  rw [← List.append_nil history]
  exact .step hrun hallowed (.ensurePeriod tenant label first finish (Engine.alone_of_call hcall))

end Step

theorem sampleOpen_reachable {allowed : World → SerialCall → Prop}
    (hallowed : ∀ w tenant label first finish,
      allowed w (.ensurePeriod tenant label first finish)) :
    SerialRunWhere postgresColumns sampleDecode allowed sampleStart [] sampleOpen := by
  have hone := sampleRun_ensure "a" "one" 1000 10000 ⟨1, "a", "one", 1000, 10000, .open, none⟩
    (.refl : SerialRunWhere postgresColumns sampleDecode allowed sampleStart [] sampleStart)
    (hallowed _ _ _ _ _) (by decide +kernel)
  exact sampleRun_ensure "a" "two" 10000 20000 ⟨2, "a", "two", 10000, 20000, .open, none⟩ hone
    (hallowed _ _ _ _ _) (by decide +kernel)

theorem sampleClosed_reachable {allowed : World → SerialCall → Prop}
    (hensure : ∀ w tenant label first finish,
      allowed w (.ensurePeriod tenant label first finish))
    (hbatch : ∀ w c start stop, allowed w (.batch c start stop))
    (hclose : allowed (sampleCall (sampleBatch 0) sampleOpen).2
      (.close ⟨["m"]⟩ samplePlan 30000 1)) :
    SerialRunWhere postgresColumns sampleDecode allowed sampleStart
      [.inserted [sampleRow "first" 1000 none], .invoiced 1 "a" 10000] sampleClosed := by
  have hrun := sampleRun_batch 0 ⟨1, 1, 0, 0, 0⟩ [sampleRow "first" 1000 none]
    (sampleOpen_reachable hensure) (hbatch _ _ _ _) (by decide +kernel) (by decide +kernel)
  exact sampleRun_close 1 (.issued (sampleInvoice 1 false)) [.invoiced 1 "a" 10000] hrun hclose
    (by decide +kernel) (by decide +kernel)

end Sample

end LedgerLine.Billing
