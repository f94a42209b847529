import LedgerLine.Billing.Drain
import LedgerLine.Lib.Serial

/-!
# The statistics of a drain

`Drain` of `billing/consumer/consumer.go` adds the statistics of each batch to its total and
only then looks at the batch's error.  The statistics of a batch are counted while it runs, so
those of a batch that is rolled back count rows that are not there.

`Drains` is one call of `Drain` on its own, in which any operation may fail.  `BatchTally` says
what the statistics of a batch are worth at each record.

Main fact: `drain_truthful_iff`, the total tells the truth exactly if the failure, if there is
one, strikes where nothing has been counted that is rolled back.
-/

namespace LedgerLine.Billing

open Program

/-- `Stats.Accounted`. -/
def Stats.Accounted (s : Stats) : Prop :=
  s.inserted + s.duplicates + s.conflicts = s.read

/-- The statistics say what has happened between two states of the tables. -/
structure Stats.Truthful (s : Stats) (w w' : World) : Prop where
  accounted : s.Accounted
  inserted : w'.db.events.length = w.db.events.length + s.inserted
  deadLettered : w'.db.deadLetters.length = w.db.deadLetters.length + s.deadLettered

/-- The operations of a drain that can fail. -/
inductive DrainOperation
  | nextOffset
  | beginTx
  | read (offset : Nat)
  | apply (offset : Nat)
  | deadLetter (offset : Nat)
  | commitOffset
  | commit
deriving DecidableEq, Repr

/-- The operation whose failure a batch reports. -/
def BatchErr.operation : BatchErr → DrainOperation
  | .read offset _ => .read offset
  | .deadLetter offset _ => .deadLetter offset
  | .apply offset _ => .apply offset
  | .commitOffset _ => .commitOffset

section Drains

variable (cols : Columns) (decode : Decoder)

/-- The batch that `Drain` processes next. -/
def Consumer.nextBatch (c : Consumer) (w : World) : BatchBody BatchEnd :=
  processBatch decode c (c.nextOffset w.db) (c.batchEnd (c.nextOffset w.db) w.log.length)

/-- `Drain`, from the head of its loop with a running total on: the operation that fails and
the state it fails in, the state left behind, and the statistics returned. -/
inductive Drains (c : Consumer) :
    World → Stats → Option (World × DrainOperation) → World → Stats → Prop
  | unknownOffset (w : World) (total : Stats) :
      Drains c w total (some (w, .nextOffset)) w total
  | caughtUp {w : World} (total : Stats) (hend : w.log.length ≤ c.nextOffset w.db) :
      Drains c w total none w total
  | notBegun {w : World} (total : Stats) (hend : c.nextOffset w.db < w.log.length) :
      Drains c w total (some (w, .beginTx)) w total
  | failed {w : World} {stats : Stats} {e : BatchErr} {x : BatchTxn} (total : Stats)
      (hend : c.nextOffset w.db < w.log.length)
      (hbatch : Ends (consumerEngine cols).Statement (c.nextBatch decode w) ⟨w, [], []⟩
        (.rollback (stats, e)) x) :
      Drains c w total (some (w, e.operation)) w (total.add stats)
  | notCommitted {w : World} {stats : Stats} {x : BatchTxn} (total : Stats)
      (hend : c.nextOffset w.db < w.log.length)
      (hbatch : Ends (consumerEngine cols).Statement (c.nextBatch decode w) ⟨w, [], []⟩
        (.commit stats) x) :
      Drains c w total (some (w, .commit)) w (total.add stats)
  | batch {w w' : World} {total stats total' : Stats} {x : BatchTxn}
      {failure : Option (World × DrainOperation)} (hend : c.nextOffset w.db < w.log.length)
      (hbatch : Ends (consumerEngine cols).Statement (c.nextBatch decode w) ⟨w, [], []⟩
        (.commit stats) x)
      (rest : Drains c ((consumerEngine cols).view w x.writes) (total.add stats) failure w'
        total') :
      Drains c w total failure w' total'

/-- The rows that a record adds to the tables. -/
def recordRows (consumer : String) (db : Database) (offset : Nat) (record : Bytes) : List Write :=
  match decode record with
  | .error detail => letterWrites db (undecodableLetter consumer offset detail record)
  | .ok e =>
      match cols.row e with
      | none => []
      | some row =>
          match db.events.find? (fun r => r.key = row.key) with
          | none => [.event row]
          | some stored =>
              if fingerprintConflict stored.fingerprint e.fingerprint then
                letterWrites db (keyReuseLetter consumer offset e record)
              else
                []

/-- No record from `start` up to `stop` adds a row to the tables as they are. -/
def AddsNothing (consumer : String) (w : World) (start stop : Nat) : Prop :=
  ∀ i record, start ≤ i → i < stop → w.log[i]? = some record →
    recordRows cols decode consumer w.db i record = []

/-- A failure that leaves the statistics true: no record is in the middle of being processed,
and those processed before in the batch add nothing. -/
def DrainOperation.Harmless (c : Consumer) (w : World) : DrainOperation → Prop
  | .nextOffset => True
  | .beginTx => True
  | .read offset => AddsNothing cols decode c.name w (c.nextOffset w.db) offset
  | .apply _ => False
  | .deadLetter _ => False
  | .commitOffset => AddsNothing cols decode c.name w (c.nextOffset w.db)
      (c.batchEnd (c.nextOffset w.db) w.log.length)
  | .commit => AddsNothing cols decode c.name w (c.nextOffset w.db)
      (c.batchEnd (c.nextOffset w.db) w.log.length)

end Drains

section Statements

variable {cols : Columns} {w : World} {ws : List Write} {seen : List (ConsumerStmt × World)}
  {α : Type} {a : α} {y : BatchTxn}

/-- One statement of a batch on its own, in the two ways it can go. -/
theorem ends_statement {o : ConsumerStmt} {k : Except StmtErr o.Answer → BatchBody α}
    (h : Ends (consumerEngine cols).Statement (perform o >>= k) ⟨w, ws, seen⟩ a y) :
    (∃ e, Ends (consumerEngine cols).Statement (k (.error e)) ⟨w, ws, seen⟩ a y) ∨
      ∃ seen', Ends (consumerEngine cols).Statement
        (k (o.exec cols ((consumerEngine cols).view w ws)).1)
        ⟨w, ws ++ (o.exec cols ((consumerEngine cols).view w ws)).2, seen'⟩ a y := by
  cases h with
  | call hstep rest =>
      cases hstep with
      | answered => exact .inr ⟨_, rest⟩
      | failed e | failedLate e => exact .inl ⟨e, rest⟩

theorem ends_readLog {offset : Nat} {k : Except StmtErr Bytes → BatchBody α}
    (h : Ends (consumerEngine cols).Statement (readLog offset >>= k) ⟨w, ws, seen⟩ a y) :
    (∃ e x, Ends (consumerEngine cols).Statement (k (.error e)) x a y) ∨
      ∃ record seen', w.log[offset]? = some record ∧
        Ends (consumerEngine cols).Statement (k (.ok record)) ⟨w, ws, seen'⟩ a y := by
  rcases ends_statement h with ⟨e, hrest⟩ | ⟨seen', hrest⟩
  · exact .inl ⟨e, _, hrest⟩
  · cases hrecord : w.log[offset]? with
    | none =>
        simp only [ConsumerStmt.exec, view_log, hrecord] at hrest
        exact .inl ⟨_, _, hrest⟩
    | some record =>
        simp only [ConsumerStmt.exec, view_log, hrecord, List.append_nil] at hrest
        exact .inr ⟨record, seen', rfl, hrest⟩

theorem ends_deadLetter {row : DeadLetterRow} {k : Except StmtErr Bool → BatchBody α}
    (h : Ends (consumerEngine cols).Statement (deadLetter row >>= k) ⟨w, ws, seen⟩ a y) :
    (∃ e x, Ends (consumerEngine cols).Statement (k (.error e)) x a y) ∨
      ∃ seen', Ends (consumerEngine cols).Statement
        (k (.ok (0 < (letterWrites ((consumerEngine cols).view w ws).db row).length)))
        ⟨w, ws ++ letterWrites ((consumerEngine cols).view w ws).db row, seen'⟩ a y := by
  rcases ends_statement (o := .insertDeadLetter row) h with ⟨e, hrest⟩ | ⟨seen', hrest⟩
  · exact .inl ⟨e, _, hrest⟩
  · exact .inr ⟨seen', hrest⟩

theorem ends_applyEvent {e : UsageEvent} {k : Except StmtErr Applied → BatchBody α}
    (h : Ends (consumerEngine cols).Statement (applyEvent e >>= k) ⟨w, ws, seen⟩ a y) :
    (∃ err x, Ends (consumerEngine cols).Statement (k (.error err)) x a y) ∨
      (∃ row seen', cols.row e = some row ∧
        ((consumerEngine cols).view w ws).db.events.find? (fun r => r.key = row.key) = none ∧
        Ends (consumerEngine cols).Statement (k (.ok .inserted))
          ⟨w, ws ++ [.event row], seen'⟩ a y) ∨
      ∃ row stored seen', cols.row e = some row ∧
        ((consumerEngine cols).view w ws).db.events.find? (fun r => r.key = row.key) =
          some stored ∧
        Ends (consumerEngine cols).Statement
          (k (.ok (if fingerprintConflict stored.fingerprint e.fingerprint then .conflict
            else .duplicate))) ⟨w, ws ++ [.touchEvent row.key], seen'⟩ a y := by
  rcases ends_statement (o := .insertEvent e) h with ⟨err, hrest⟩ | ⟨seen', hrest⟩
  · exact .inl ⟨err, _, hrest⟩
  · cases hrow : cols.row e with
    | none =>
        simp only [ConsumerStmt.exec, hrow] at hrest
        exact .inl ⟨_, _, hrest⟩
    | some row =>
        right
        cases hfind : ((consumerEngine cols).view w ws).db.events.find?
            (fun r => r.key = row.key) with
        | none =>
            simp only [ConsumerStmt.exec, hrow, hfind] at hrest
            exact .inl ⟨row, seen', rfl, hfind, hrest⟩
        | some stored =>
            simp only [ConsumerStmt.exec, hrow, hfind, Program.bind] at hrest
            refine .inr ⟨row, stored, seen', rfl, hfind, ?_⟩
            cases hconflict : fingerprintConflict stored.fingerprint e.fingerprint with
            | true =>
                simp only [hconflict, Bool.false_eq_true, if_false, if_true] at hrest ⊢
                exact hrest
            | false =>
                simp only [hconflict, Bool.false_eq_true, if_false] at hrest ⊢
                exact hrest

end Statements

section Tally

variable (cols : Columns) (decode : Decoder) (consumer : String)
  (w : World)

/-- What the statistics of a batch that began at `start` are worth when it is about to read
record `i`, `ws` being the changes made so far. -/
structure BatchTally (start i : Nat) (stats : Stats) (ws : List Write) : Prop where
  kinds : ∀ a ∈ ws, BatchWrite a
  accounted : stats.Accounted
  inserted : stats.inserted = (ownRows ws).length
  deadLettered : stats.deadLettered = (ownLetters ws).length
  quiet : ownRows ws = [] ∧ ownLetters ws = [] ↔ AddsNothing cols decode consumer w start i

variable {cols decode consumer w} {start i stop n : Nat} {stats : Stats} {ws : List Write}
  {seen : List (ConsumerStmt × World)} {a : BatchEnd} {y : BatchTxn} {record : Bytes}

theorem tally_start : BatchTally cols decode consumer w start start ⟨0, 0, 0, 0, 0⟩ [] := by
  refine ⟨List.forall_mem_nil _, rfl, rfl, rfl, ?_⟩
  refine iff_of_true ⟨rfl, rfl⟩ fun i record hle hlt => ?_
  omega

/-- One more record. -/
theorem addsNothing_succ_iff (hi : start ≤ i) (hrecord : w.log[i]? = some record) :
    AddsNothing cols decode consumer w start (i + 1) ↔
      AddsNothing cols decode consumer w start i ∧
        recordRows cols decode consumer w.db i record = [] := by
  constructor
  · intro h
    exact ⟨fun j r hle hlt => h j r hle (by omega), h i record hi (Nat.lt_succ_self i) hrecord⟩
  · rintro ⟨hbefore, hhere⟩ j r hle hlt hr
    rcases Nat.lt_succ_iff_lt_or_eq.1 hlt with hlt | rfl
    · exact hbefore j r hle hlt hr
    · rw [Option.some.inj (hr.symm.trans hrecord)]
      exact hhere

theorem batchWrite_letterWrites {db : Database} {row : DeadLetterRow} :
    ∀ a ∈ letterWrites db row, BatchWrite a := by
  intro a ha
  rcases letterWrites_cases db row with ⟨hnone, -⟩ | ⟨hone, -⟩
  · rw [hnone] at ha
    cases ha
  · rw [hone, List.mem_singleton] at ha
    rw [ha]
    trivial

variable (h : BatchTally cols decode consumer w start i stats ws)

include h

/-- A batch that has added nothing sees the tables as they are. -/
theorem BatchTally.view_of_quiet (hquiet : ownRows ws = [] ∧ ownLetters ws = []) :
    (consumerEngine cols).view w ws = w := by
  rw [view_of_batchWrites cols w h.kinds, hquiet.1, hquiet.2, List.append_nil, List.append_nil]

/-- The tally moves on by a record whose rows have been added and counted. -/
theorem BatchTally.next (hi : start ≤ i) (hrecord : w.log[i]? = some record) {stats' : Stats}
    {new : List Write} (hkinds : ∀ a ∈ new, BatchWrite a) (haccounted : stats'.Accounted)
    (hinserted : stats'.inserted = stats.inserted + (ownRows new).length)
    (hlettered : stats'.deadLettered = stats.deadLettered + (ownLetters new).length)
    (hrows : ownRows new = [] ∧ ownLetters new = [] ↔
      recordRows cols decode consumer ((consumerEngine cols).view w ws).db i record = []) :
    BatchTally cols decode consumer w start (i + 1) stats' (ws ++ new) := by
  refine ⟨?_, haccounted, ?_, ?_, ?_⟩
  · exact List.forall_mem_append.2 ⟨h.kinds, hkinds⟩
  · rw [hinserted, h.inserted, ownRows_append, List.length_append]
  · rw [hlettered, h.deadLettered, ownLetters_append, List.length_append]
  · rw [addsNothing_succ_iff hi hrecord, ← h.quiet, ownRows_append, ownLetters_append,
      List.append_eq_nil_iff, List.append_eq_nil_iff]
    constructor
    · rintro ⟨⟨hr, hrn⟩, hl, hln⟩
      have hnew := hrows.1 ⟨hrn, hln⟩
      rw [h.view_of_quiet ⟨hr, hl⟩] at hnew
      exact ⟨⟨hr, hl⟩, hnew⟩
    · rintro ⟨hquiet, hnone⟩
      rw [h.view_of_quiet hquiet] at hrows
      obtain ⟨hrn, hln⟩ := hrows.2 hnone
      exact ⟨⟨hquiet.1, hrn⟩, hquiet.2, hln⟩

/-- A record that has become a dead letter, or had been one before. -/
theorem BatchTally.next_conflict (hi : start ≤ i) (hrecord : w.log[i]? = some record)
    {row : DeadLetterRow} {touch : List Write} (htouch : ∀ a ∈ touch, BatchWrite a)
    (hnone : ownRows touch = [] ∧ ownLetters touch = [])
    (hrows : recordRows cols decode consumer ((consumerEngine cols).view w ws).db i record =
      letterWrites ((consumerEngine cols).view w ws).db row) :
    BatchTally cols decode consumer w start (i + 1)
      (({ stats with read := stats.read + 1 } : Stats).conflict
        (0 < (letterWrites ((consumerEngine cols).view w ws).db row).length))
      (ws ++ (touch ++ letterWrites ((consumerEngine cols).view w ws).db row)) := by
  obtain ⟨db, hdb⟩ : ∃ db, ((consumerEngine cols).view w ws).db = db := ⟨_, rfl⟩
  rw [hdb] at hrows ⊢
  have haccounted := h.accounted
  unfold Stats.Accounted at haccounted
  have hrow : ownRows [.deadLetter row] = [] ∧ ownLetters [.deadLetter row] = [row] := ⟨rfl, rfl⟩
  apply h.next hi hrecord
  · exact List.forall_mem_append.2 ⟨htouch, batchWrite_letterWrites⟩
  · simp only [Stats.Accounted, Stats.conflict]
    omega
  · rcases letterWrites_cases db row with ⟨hletter, -⟩ | ⟨hletter, -⟩
    · simp [Stats.conflict, hletter, hnone]
    · simp [Stats.conflict, hletter, hnone, hrow]
  · rcases letterWrites_cases db row with ⟨hletter, -⟩ | ⟨hletter, -⟩
    · simp [Stats.conflict, hletter, hnone]
    · simp [Stats.conflict, hletter, hnone, hrow]
  · rw [hdb, hrows]
    rcases letterWrites_cases db row with ⟨hletter, -⟩ | ⟨hletter, -⟩
    · simp [hletter, hnone]
    · simp [hletter, hnone, hrow]

/-- How the batch goes on with the next record: its read fails, or it fails between the read
and the outcome, or the record is processed and counted. -/
theorem BatchTally.processRecord (hi : start ≤ i)
    (hends : Ends (consumerEngine cols).Statement
      (processRecords decode consumer stop (n + 1) i stats) ⟨w, ws, seen⟩ a y) :
    (∃ e, a = .rollback (stats, .read i e)) ∨
      (∃ s e, a = .rollback (s, e) ∧ ¬ s.Accounted ∧
        (e.operation = .apply i ∨ e.operation = .deadLetter i)) ∨
      ∃ stats' ws' seen', BatchTally cols decode consumer w start (i + 1) stats' ws' ∧
        Ends (consumerEngine cols).Statement
          (processRecords decode consumer stop n (i + 1) stats') ⟨w, ws', seen'⟩ a y := by
  have haccounted := h.accounted
  unfold Stats.Accounted at haccounted
  have hshort : ¬ ({ stats with read := stats.read + 1 } : Stats).Accounted := by
    simp only [Stats.Accounted]
    omega
  rw [processRecords] at hends
  rcases ends_readLog hends with ⟨e, x, hrest⟩ | ⟨record, seen₁, hrecord, hrest⟩
  · cases hrest
    exact .inl ⟨e, rfl⟩
  right
  cases hdecode : decode record with
  | error detail =>
      simp only [hdecode] at hrest
      rcases ends_deadLetter hrest with ⟨e, x, hrest⟩ | ⟨seen₂, hrest⟩
      · cases hrest
        exact .inl ⟨_, _, rfl, hshort, .inr rfl⟩
      · have hnone : ∀ a ∈ ([] : List Write), BatchWrite a := List.forall_mem_nil _
        exact .inr ⟨_, _, _, h.next_conflict hi hrecord hnone ⟨rfl, rfl⟩
          (by rw [recordRows, hdecode]), hrest⟩
  | ok e =>
      simp only [hdecode] at hrest
      rcases ends_applyEvent hrest with
        ⟨err, x, hrest⟩ | ⟨row, seen₂, hrow, hfind, hrest⟩ |
          ⟨row, stored, seen₂, hrow, hfind, hrest⟩
      · cases hrest
        exact .inl ⟨_, _, rfl, hshort, .inl rfl⟩
      · refine .inr ⟨_, _, _, h.next hi hrecord ?_ ?_ ?_ ?_ ?_, hrest⟩
        · intro a ha
          rw [List.mem_singleton.1 ha]
          trivial
        · simp only [Stats.Accounted]
          omega
        · rfl
        · rfl
        · rw [recordRows, hdecode]
          simp [hrow, hfind, ownRows]
      · have htouch : ∀ a ∈ [Write.touchEvent row.key], BatchWrite a := by
          intro a ha
          rw [List.mem_singleton.1 ha]
          trivial
        cases hconflict : fingerprintConflict stored.fingerprint e.fingerprint with
        | true =>
            simp only [hconflict, if_true] at hrest
            rcases ends_deadLetter hrest with ⟨e, x, hrest⟩ | ⟨seen₃, hrest⟩
            · cases hrest
              exact .inl ⟨_, _, rfl, hshort, .inr rfl⟩
            · -- touching a row changes nothing that the dead letter depends on
              have hview : (consumerEngine cols).view w (ws ++ [.touchEvent row.key]) =
                  (consumerEngine cols).view w ws := by
                rw [Engine.view_append]
                rfl
              rw [hview, List.append_assoc] at hrest
              refine .inr ⟨_, _, _, h.next_conflict hi hrecord htouch ⟨rfl, rfl⟩ ?_, hrest⟩
              rw [recordRows, hdecode]
              simp [hrow, hfind, hconflict]
        | false =>
            simp only [hconflict, Bool.false_eq_true, if_false] at hrest
            refine .inr ⟨_, _, _, h.next hi hrecord htouch ?_ ?_ ?_ ?_, hrest⟩
            · simp only [Stats.Accounted]
              omega
            · rfl
            · rfl
            · rw [recordRows, hdecode]
              simp [hrow, hfind, hconflict, ownRows, ownLetters]

/-- How a batch ends, and what its statistics are worth then. -/
theorem BatchTally.processRecords (hi : start ≤ i) (hstop : i + n = stop)
    (hends : Ends (consumerEngine cols).Statement
      (processRecords decode consumer stop n i stats) ⟨w, ws, seen⟩ a y) :
    (∃ s e ws', a = .rollback (s, e) ∧
        ((∃ j, e.operation = .read j ∧ BatchTally cols decode consumer w start j s ws') ∨
          (e.operation = .commitOffset ∧ BatchTally cols decode consumer w start stop s ws') ∨
          (∃ j, (e.operation = .apply j ∨ e.operation = .deadLetter j) ∧ ¬ s.Accounted))) ∨
      ∃ s ws', a = .commit s ∧ BatchTally cols decode consumer w start stop s ws' ∧
        y.writes = ws' ++ [.offset consumer stop] := by
  induction n generalizing i stats ws seen with
  | zero =>
      obtain rfl : i = stop := hstop
      rcases ends_statement (o := .commitOffset consumer i) hends with
        ⟨e, hrest⟩ | ⟨seen', hrest⟩
      · cases hrest
        exact .inl ⟨_, _, ws, rfl, .inr (.inl ⟨rfl, h⟩)⟩
      · cases hrest
        exact .inr ⟨_, ws, rfl, h, rfl⟩
  | succ n ih =>
      rcases h.processRecord hi hends with
        ⟨e, rfl⟩ | ⟨s, e, rfl, hshort, hop⟩ | ⟨stats', ws', seen', hnext, hrest⟩
      · exact .inl ⟨_, _, ws, rfl, .inl ⟨i, rfl, h⟩⟩
      · exact .inl ⟨s, e, ws, rfl, .inr (.inr ⟨i, hop, hshort⟩)⟩
      · exact ih hnext (by omega) (by omega) hrest

end Tally

section Totals

variable {cols : Columns} {decode : Decoder} {c : Consumer}
  {w₀ w w' : World} {total stats total' : Stats}

/-- Statistics of a batch that was rolled back, added to a true total. -/
theorem truthful_add_iff (h : total.Truthful w₀ w) :
    (total.add stats).Truthful w₀ w ↔
      stats.Accounted ∧ stats.inserted = 0 ∧ stats.deadLettered = 0 := by
  obtain ⟨haccounted, hinserted, hlettered⟩ := h
  unfold Stats.Accounted at haccounted ⊢
  constructor
  · rintro ⟨ha, hi, hd⟩
    simp only [Stats.Accounted, Stats.add] at ha hi hd
    omega
  · rintro ⟨ha, hi, hd⟩
    refine ⟨?_, ?_, ?_⟩
    · simp only [Stats.Accounted, Stats.add]
      omega
    · simp only [Stats.add]
      omega
    · simp only [Stats.add]
      omega

/-- What has been counted of a batch up to record `i` is nothing exactly if its records so far
add nothing. -/
theorem BatchTally.truthful_add_iff {start i : Nat} {ws : List Write}
    (ht : BatchTally cols decode c.name w start i stats ws) (h : total.Truthful w₀ w) :
    (total.add stats).Truthful w₀ w ↔ AddsNothing cols decode c.name w start i := by
  rw [Billing.truthful_add_iff h, ← ht.quiet, ht.inserted, ht.deadLettered, List.length_eq_zero_iff,
    List.length_eq_zero_iff]
  exact and_iff_right ht.accounted

/-- A batch of `Drain` ends as `BatchTally.processRecords` says. -/
theorem Consumer.nextBatch_tally {a : BatchEnd} {y : BatchTxn}
    (hend : c.nextOffset w.db < w.log.length)
    (hbatch : Ends (consumerEngine cols).Statement (c.nextBatch decode w) ⟨w, [], []⟩ a y) :
    (∃ s e ws, a = .rollback (s, e) ∧
        ((∃ j, e.operation = .read j ∧
            BatchTally cols decode c.name w (c.nextOffset w.db) j s ws) ∨
          (e.operation = .commitOffset ∧ BatchTally cols decode c.name w (c.nextOffset w.db)
            (c.batchEnd (c.nextOffset w.db) w.log.length) s ws) ∨
          (∃ j, (e.operation = .apply j ∨ e.operation = .deadLetter j) ∧ ¬ s.Accounted))) ∨
      ∃ s ws, a = .commit s ∧ BatchTally cols decode c.name w (c.nextOffset w.db)
          (c.batchEnd (c.nextOffset w.db) w.log.length) s ws ∧
        y.writes = ws ++ [.offset c.name (c.batchEnd (c.nextOffset w.db) w.log.length)] := by
  refine tally_start.processRecords (Nat.le_refl _) ?_ hbatch
  have hpos := c.batchSize_pos
  unfold Consumer.batchEnd
  split <;> omega

/-- A batch that commits leaves a true total true. -/
theorem Stats.Truthful.batch (h : total.Truthful w₀ w) {x : BatchTxn}
    (hend : c.nextOffset w.db < w.log.length)
    (hbatch : Ends (consumerEngine cols).Statement (c.nextBatch decode w) ⟨w, [], []⟩
      (.commit stats) x) :
    (total.add stats).Truthful w₀ ((consumerEngine cols).view w x.writes) := by
  rcases c.nextBatch_tally hend hbatch with ⟨s, e, ws, hback, -⟩ | ⟨s, ws, hcommit, ht, hwrites⟩
  · cases hback
  · cases hcommit
    have haccounted := ht.accounted
    have hbefore := h.accounted
    unfold Stats.Accounted at haccounted hbefore
    rw [hwrites]
    refine ⟨?_, ?_, ?_⟩
    · simp only [Stats.Accounted, Stats.add]
      omega
    · rw [commit_events ht.kinds, List.length_append, h.inserted, ← ht.inserted, Nat.add_assoc]
      rfl
    · rw [commit_deadLetters ht.kinds, List.length_append, h.deadLettered, ← ht.deadLettered,
        Nat.add_assoc]
      rfl

/-- From a true total on. -/
theorem truthful_iff_of_drains {failure : Option (World × DrainOperation)}
    (h : Drains cols decode c w total failure w' total') (htrue : total.Truthful w₀ w) :
    total'.Truthful w₀ w' ↔
      ∀ v operation, failure = some (v, operation) → operation.Harmless cols decode c v := by
  -- what is left to show when `v` and `operation` are known
  have hat : ∀ (v : World) (operation : DrainOperation) {P : Prop},
      (P ↔ operation.Harmless cols decode c v) →
      (P ↔ ∀ v' operation', some (v, operation) = some (v', operation') →
        operation'.Harmless cols decode c v') := by
    intro v operation P hP
    simp [hP]
  induction h with
  | unknownOffset w total =>
      exact hat _ _ (iff_of_true htrue trivial)
  | caughtUp total hend =>
      exact iff_of_true htrue nofun
  | notBegun total hend =>
      exact hat _ _ (iff_of_true htrue trivial)
  | @failed w stats e x total hend hbatch =>
      apply hat
      rcases c.nextBatch_tally hend hbatch with ⟨s, e, ws, hback, hwhere⟩ | ⟨s, ws, hcommit, -⟩
      · cases hback
        rcases hwhere with ⟨j, hop, ht⟩ | ⟨hop, ht⟩ | ⟨j, hop, hshort⟩
        · rw [hop]
          exact ht.truthful_add_iff htrue
        · rw [hop]
          exact ht.truthful_add_iff htrue
        · refine iff_of_false (fun h => hshort ((truthful_add_iff htrue).1 h).1) ?_
          rcases hop with hop | hop
          · rw [hop]
            exact id
          · rw [hop]
            exact id
      · cases hcommit
  | @notCommitted w stats x total hend hbatch =>
      apply hat
      rcases c.nextBatch_tally hend hbatch with ⟨s, e, ws, hback, -⟩ | ⟨s, ws, hcommit, ht, -⟩
      · cases hback
      · cases hcommit
        exact ht.truthful_add_iff htrue
  | batch hend hbatch rest ih =>
      exact ih (htrue.batch hend hbatch)

/-- The statistics of a call of `Drain` tell the truth exactly if no operation fails, or one
fails at a point where nothing has been counted that is rolled back. -/
theorem drain_truthful_iff {failure : Option (World × DrainOperation)}
    (h : Drains cols decode c w ⟨0, 0, 0, 0, 0⟩ failure w' total') :
    total'.Truthful w w' ↔
      ∀ v operation, failure = some (v, operation) → operation.Harmless cols decode c v :=
  truthful_iff_of_drains h ⟨rfl, rfl, rfl⟩

/-- The batch in which nothing fails is one of those that `Drain` may go through. -/
theorem Consumer.ends_runBatch (cols : Columns) (decode : Decoder)
    (c : Consumer) (w : World) {a : BatchEnd} (h : (c.runBatch cols decode w).1 = a) :
    Ends (consumerEngine cols).Statement (c.nextBatch decode w) ⟨w, [], []⟩ a
      (c.runBatch cols decode w).2 := by
  rw [← h]
  exact Engine.ends_runBody _ _

/-- Records of one byte under one key; the quantity of the record `[0]` is not a number. -/
def oneKeyDecode : Decoder
  | [] => .error "empty record"
  | b :: _ => .ok ⟨"acme", "calls", if b = 0 then "x" else "1", 0, 0, "k", some [b]⟩

/-- An event, a reuse of its key and a record that cannot be decoded in one batch, and the event
once more in the next: the statistics are true even if this batch is not committed. -/
theorem drain_truthful_sample :
    let w : World := ⟨[[1], [2], [], [1]], .empty, fun _ => 0⟩
    (∃ w', Drains postgresColumns oneKeyDecode (.new "billing" 3) w ⟨0, 0, 0, 0, 0⟩ none w'
        ⟨4, 1, 1, 2, 2⟩ ∧ Stats.Truthful ⟨4, 1, 1, 2, 2⟩ w w') ∧
      ∃ w', Drains postgresColumns oneKeyDecode (.new "billing" 3) w ⟨0, 0, 0, 0, 0⟩
        (some (w', .commit)) w' ⟨4, 1, 1, 2, 2⟩ ∧ Stats.Truthful ⟨4, 1, 1, 2, 2⟩ w w' := by
  intro w
  have hfirst := (Consumer.new "billing" 3).ends_runBatch postgresColumns oneKeyDecode w
    (by decide +kernel : _ = Outcome.commit (⟨3, 1, 0, 2, 2⟩ : Stats))
  let w₁ := (consumerEngine postgresColumns).view w
    ((Consumer.new "billing" 3).runBatch postgresColumns oneKeyDecode w).2.writes
  have hsecond := (Consumer.new "billing" 3).ends_runBatch postgresColumns oneKeyDecode w₁
    (by decide +kernel : _ = Outcome.commit (⟨1, 0, 1, 0, 0⟩ : Stats))
  have hcaught : Drains postgresColumns oneKeyDecode (.new "billing" 3) w ⟨0, 0, 0, 0, 0⟩ none _
      ⟨4, 1, 1, 2, 2⟩ :=
    .batch (by decide) hfirst (.batch (by decide +kernel) hsecond (.caughtUp _ (by decide +kernel)))
  have hlost : Drains postgresColumns oneKeyDecode (.new "billing" 3) w ⟨0, 0, 0, 0, 0⟩
      (some (w₁, .commit)) w₁ ⟨4, 1, 1, 2, 2⟩ :=
    .batch (by decide) hfirst (.notCommitted _ (by decide +kernel) hsecond)
  have hnothing : ∀ i < (Consumer.new "billing" 3).batchEnd
        ((Consumer.new "billing" 3).nextOffset w₁.db) w₁.log.length,
      (Consumer.new "billing" 3).nextOffset w₁.db ≤ i →
      recordRows postgresColumns oneKeyDecode "billing" w₁.db i (w₁.log[i]?.getD []) = [] := by
    decide +kernel
  refine ⟨⟨_, hcaught, (drain_truthful_iff hcaught).2 nofun⟩,
    w₁, hlost, (drain_truthful_iff hlost).2 ?_⟩
  intro v operation heq
  rw [Option.some.injEq, Prod.mk.injEq] at heq
  obtain ⟨rfl, rfl⟩ := heq
  intro i record hlow hhigh hrecord
  have hrows := hnothing i hhigh hlow
  rwa [hrecord] at hrows

/-- The database refuses the second record of a batch: the first one is counted as inserted but
rolled back, the second one is read without an outcome. -/
theorem drain_untruthful :
    ∃ w, Drains postgresColumns oneKeyDecode (.new "billing" 0) w ⟨0, 0, 0, 0, 0⟩
        (some (w, .apply 1)) w ⟨2, 1, 0, 0, 0⟩ ∧
      w.db.events = [] ∧ ¬ Stats.Accounted ⟨2, 1, 0, 0, 0⟩ ∧
      ¬ Stats.Truthful ⟨2, 1, 0, 0, 0⟩ w w := by
  have hbatch := (Consumer.new "billing" 0).ends_runBatch postgresColumns oneKeyDecode
    ⟨[[1], [0]], .empty, fun _ => 0⟩
    (by decide +kernel : _ = Outcome.rollback ((⟨2, 1, 0, 0, 0⟩ : Stats), .apply 1 .refused))
  have hshort : ¬ Stats.Accounted ⟨2, 1, 0, 0, 0⟩ := by
    unfold Stats.Accounted
    decide
  exact ⟨_, .failed ⟨0, 0, 0, 0, 0⟩ (by decide) hbatch, rfl, hshort, fun h => hshort h.accounted⟩

end Totals

end LedgerLine.Billing
