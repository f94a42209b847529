import LedgerLine.Billing.Consumer

/-!
# Batches and drains

What is known of a batch while it runs is described by an assertion about each position in
it (`Known`), which every record moves on by one and which the other transactions do not
disturb.  `processBatch_always` turns such rules into a specification of `processBatch`
under interference.

`DrainStep` is one step of any number of consumers that call `Drain` on one log and one
database: reading the offset, beginning a batch, one statement of a batch, its commit, or
its end without one.  A `Contract` packages the rules with an invariant of the committed
data, and `FleetInv.step` is the invariant of all drains that follows from it.
-/

namespace LedgerLine.Billing

open Program

/-- A batch's transaction. -/
abbrev BatchTxn := Txn ConsumerStmt World Write

/-- The open batches. -/
abbrev BatchPool := Pool ConsumerStmt ConsumerStmt.Answer StmtErr World Write BatchEnd

/-- Interference given by a relation that may depend on the changes the batch has made. -/
def relyOf (R : List Write → World → World → Prop) (x y : BatchTxn) : Prop :=
  y.writes = x.writes ∧ y.seen = x.seen ∧ R x.writes x.data y.data

theorem view_log (cols : Columns) (w : World) (ws : List Write) :
    ((consumerEngine cols).view w ws).log = w.log := by
  induction ws generalizing w with
  | nil => rfl
  | cons c ws ih => exact ih (w.apply c)

/-- More committed events, more events in sight. -/
theorem view_events_mono (cols : Columns) {w w' : World} (h : w.db.events ⊆ w'.db.events)
    (ws : List Write) :
    ((consumerEngine cols).view w ws).db.events ⊆ ((consumerEngine cols).view w' ws).db.events := by
  induction ws generalizing w w' with
  | nil => exact h
  | cons c ws ih =>
      apply ih
      cases c with
      | event row =>
          exact List.append_subset.2
            ⟨List.subset_append_of_subset_left _ h, List.subset_append_right _ _⟩
      | bill key invoice => exact List.map_subset _ h
      | _ => exact h

section Rules

variable (cols : Columns) (decode : Decoder)

/-- How what is known of a batch of `consumer` moves on, record by record. -/
structure BatchRules (consumer : String) (stop : Nat)
    (R : List Write → World → World → Prop) (Known : Nat → World → List Write → Prop)
    (Ready : World → List Write → Prop) : Prop where
  refl : ∀ ws w, R ws w w
  log : ∀ ws w w', R ws w w' → w.log <+: w'.log
  events : ∀ ws w w', R ws w w' → w.db.events ⊆ w'.db.events
  stable : ∀ i ws w w', R ws w w' → Known i w ws → Known i w' ws
  ready_stable : ∀ ws w w', R ws w w' → Ready w ws → Ready w' ws
  undecodable : ∀ i w ws record detail, Known i w ws → w.log[i]? = some record →
    decode record = .error detail →
    Known (i + 1) w (ws ++ letterWrites ((consumerEngine cols).view w ws).db
      (undecodableLetter consumer i detail record))
  inserted : ∀ i w ws record e row, Known i w ws → w.log[i]? = some record →
    decode record = .ok e → cols.row e = some row →
    (∀ stored ∈ ((consumerEngine cols).view w ws).db.events, stored.key ≠ row.key) →
    Known (i + 1) w (ws ++ [.event row])
  duplicate : ∀ i w ws record e row stored, Known i w ws → w.log[i]? = some record →
    decode record = .ok e → cols.row e = some row →
    stored ∈ ((consumerEngine cols).view w ws).db.events → stored.key = row.key →
    fingerprintConflict stored.fingerprint e.fingerprint = false →
    Known (i + 1) w (ws ++ [.touchEvent row.key])
  touched : ∀ i w ws key, Known i w ws → Known i w (ws ++ [.touchEvent key])
  conflict : ∀ i w ws record e row stored, Known i w ws → w.log[i]? = some record →
    decode record = .ok e → cols.row e = some row →
    stored ∈ ((consumerEngine cols).view w ws).db.events → stored.key = row.key →
    fingerprintConflict stored.fingerprint e.fingerprint = true →
    Known (i + 1) w (ws ++ letterWrites ((consumerEngine cols).view w ws).db
      (keyReuseLetter consumer i e record))
  ready : ∀ w ws, Known stop w ws → Ready w (ws ++ [.offset consumer stop])

variable {cols decode} {consumer : String} {stop : Nat}
  {R : List Write → World → World → Prop} {Known : Nat → World → List Write → Prop}
  {Ready : World → List Write → Prop}

/-- The specification of a batch: once it asks for a commit it is ready for it. -/
def BatchAlways (cols : Columns) (R : List Write → World → World → Prop)
    (Ready : World → List Write → Prop) (body : BatchBody BatchEnd) (x : BatchTxn) : Prop :=
  Always (relyOf R) (consumerEngine cols).Statement (fun _ => True)
    (fun out x => ∀ stats, out = .commit stats → Ready x.data x.writes) body x

/-- A batch that gives up owes nothing. -/
theorem batchAlways_rollback (e : Stats × BatchErr) (x : BatchTxn) :
    BatchAlways cols R Ready (.done (.rollback e)) x := by
  intro y _
  exact ⟨trivial, nofun⟩

/-- One statement of a batch, in the two ways it can go. -/
theorem batchAlways_call {o : ConsumerStmt}
    {next : Except StmtErr o.Answer → BatchBody BatchEnd} {x : BatchTxn}
    (herror : ∀ e, ∃ out, next (.error e) = .done (.rollback out))
    (hnext : ∀ y, relyOf R x y →
      BatchAlways cols R Ready
        (next ((consumerEngine cols).exec o ((consumerEngine cols).sight y)).1)
        ((consumerEngine cols).after o y)) :
    BatchAlways cols R Ready (.call o next) x := by
  intro y hy
  refine ⟨trivial, ?_⟩
  intro r z hz
  cases hz with
  | answered => exact hnext y hy
  | failed e | failedLate e =>
      obtain ⟨out, hout⟩ := herror e
      rw [hout]
      exact batchAlways_rollback out _

/-- Recording a dead letter and going on. -/
theorem batchAlways_deadLetter {row : DeadLetterRow}
    {k : Except StmtErr Bool → BatchBody BatchEnd} {x : BatchTxn}
    (herror : ∀ e, ∃ out, k (.error e) = .done (.rollback out))
    (hnext : ∀ y written seen, relyOf R x y →
      BatchAlways cols R Ready (k (.ok written))
        ⟨y.data, y.writes ++ letterWrites ((consumerEngine cols).sight y).db row, seen⟩) :
    BatchAlways cols R Ready (deadLetter row >>= k) x := by
  apply batchAlways_call (o := .insertDeadLetter row)
  · exact herror
  · intro y hy
    exact hnext y _ _ hy

/-- What `insertEvent` can do: refuse, insert, or find a row with the same key. -/
theorem exec_insertEvent (cols : Columns) (e : UsageEvent) (w : World) :
    ((consumerEngine cols).exec (.insertEvent e) w = (.error .refused, [])) ∨
      (∃ row, cols.row e = some row ∧
        (consumerEngine cols).exec (.insertEvent e) w =
          (.ok (true, row.fingerprint), [.event row]) ∧
        ∀ stored ∈ w.db.events, stored.key ≠ row.key) ∨
      ∃ row stored, cols.row e = some row ∧
        (consumerEngine cols).exec (.insertEvent e) w =
          (.ok (false, stored.fingerprint), [.touchEvent row.key]) ∧
        stored ∈ w.db.events ∧ stored.key = row.key := by
  change ConsumerStmt.exec cols (.insertEvent e) w = _ ∨ _
  cases hrow : cols.row e with
  | none =>
      left
      simp [ConsumerStmt.exec, hrow]
  | some row =>
      right
      cases hfind : w.db.events.find? (fun r => r.key = row.key) with
      | none =>
          left
          refine ⟨row, rfl, ?_, ?_⟩
          · show ConsumerStmt.exec cols (.insertEvent e) w = _
            simp [ConsumerStmt.exec, hrow, hfind]
          · simpa using List.find?_eq_none.1 hfind
      | some stored =>
          right
          refine ⟨row, stored, rfl, ?_, List.mem_of_find?_eq_some hfind, ?_⟩
          · show ConsumerStmt.exec cols (.insertEvent e) w = _
            simp [ConsumerStmt.exec, hrow, hfind]
          · simpa using List.find?_some hfind

/-- Storing an event, and going on according to what was found. -/
theorem batchAlways_applyEvent {e : UsageEvent}
    {k : Except StmtErr Applied → BatchBody BatchEnd} {x : BatchTxn}
    (herror : ∀ err, ∃ out, k (.error err) = .done (.rollback out))
    (hinserted : ∀ y row seen, relyOf R x y → cols.row e = some row →
      (∀ stored ∈ ((consumerEngine cols).sight y).db.events, stored.key ≠ row.key) →
      BatchAlways cols R Ready (k (.ok .inserted))
        ⟨y.data, y.writes ++ [.event row], seen⟩)
    (hfound : ∀ y row stored seen, relyOf R x y → cols.row e = some row →
      stored ∈ ((consumerEngine cols).sight y).db.events → stored.key = row.key →
      BatchAlways cols R Ready
        (k (.ok (if fingerprintConflict stored.fingerprint e.fingerprint then .conflict
          else .duplicate)))
        ⟨y.data, y.writes ++ [.touchEvent row.key], seen⟩) :
    BatchAlways cols R Ready (applyEvent e >>= k) x := by
  apply batchAlways_call (o := .insertEvent e)
  · exact herror
  · intro y hy
    rcases exec_insertEvent cols e ((consumerEngine cols).sight y) with
      hexec | ⟨row, hrow, hexec, hnew⟩ | ⟨row, stored, hrow, hexec, hmem, hkey⟩
    · rw [hexec]
      obtain ⟨out, hout⟩ := herror .refused
      show BatchAlways cols R Ready (k (.error .refused)) _
      rw [hout]
      exact batchAlways_rollback out _
    · rw [Engine.after, hexec]
      exact hinserted y row _ hy hrow hnew
    · rw [Engine.after, hexec]
      have hnext := hfound y row stored 
        (y.seen ++ [(.insertEvent e, (consumerEngine cols).sight y)]) hy hrow hmem hkey
      show BatchAlways cols R Ready
        ((if fingerprintConflict stored.fingerprint e.fingerprint then pure (.ok .conflict)
          else pure (.ok .duplicate) : BatchBody (Except StmtErr Applied)) >>= k) _
      split
      · rename_i hconflict
        rw [if_pos hconflict] at hnext
        exact hnext
      · rename_i hconflict
        rw [if_neg hconflict] at hnext
        exact hnext

/-- Reading a record that is there. -/
theorem batchAlways_readLog {offset : Nat} {k : Except StmtErr Bytes → BatchBody BatchEnd}
    {x : BatchTxn} (herror : ∀ err, ∃ out, k (.error err) = .done (.rollback out))
    (hread : ∀ y record seen, relyOf R x y → y.data.log[offset]? = some record →
      BatchAlways cols R Ready (k (.ok record)) ⟨y.data, y.writes, seen⟩) :
    BatchAlways cols R Ready (readLog offset >>= k) x := by
  apply batchAlways_call (o := .readLog offset)
  · exact herror
  · intro y hy
    have hlog := view_log cols y.data y.writes
    cases hrecord : y.data.log[offset]? with
    | none =>
        have hexec : (consumerEngine cols).exec (.readLog offset) ((consumerEngine cols).sight y) =
            (.error (.outOfRange offset), []) := by
          show ConsumerStmt.exec cols (.readLog offset) _ = _
          simp [ConsumerStmt.exec, Engine.sight, hlog, hrecord]
        rw [hexec]
        obtain ⟨out, hout⟩ := herror (.outOfRange offset)
        show BatchAlways cols R Ready (k (.error (.outOfRange offset))) _
        rw [hout]
        exact batchAlways_rollback out _
    | some record =>
        have hexec : (consumerEngine cols).exec (.readLog offset) ((consumerEngine cols).sight y) =
            (.ok record, []) := by
          show ConsumerStmt.exec cols (.readLog offset) _ = _
          simp [ConsumerStmt.exec, Engine.sight, hlog, hrecord]
        rw [Engine.after, hexec, List.append_nil]
        exact hread y record _ hy hrecord

variable {x y : BatchTxn}

/-- What is known moves on with the interference. -/
theorem BatchRules.known_of_rely (rules : BatchRules cols decode consumer stop R Known Ready)
    {i : Nat} (hy : relyOf R x y) (h : Known i x.data x.writes) : Known i y.data y.writes := by
  obtain ⟨hwrites, -, hR⟩ := hy
  rw [hwrites]
  exact rules.stable i _ _ _ hR h

/-- A record that has been read stays where it is. -/
theorem BatchRules.record_of_rely (rules : BatchRules cols decode consumer stop R Known Ready)
    {i : Nat} {record : Bytes} (hy : relyOf R x y) (h : x.data.log[i]? = some record) :
    y.data.log[i]? = some record := by
  obtain ⟨suffix, hsuffix⟩ := rules.log _ _ _ hy.2.2
  have hi : i < x.data.log.length := (List.getElem?_eq_some_iff.1 h).1
  rw [← hsuffix, List.getElem?_append_left hi]
  exact h

/-- An event that has been seen stays in sight. -/
theorem BatchRules.sight_of_rely (rules : BatchRules cols decode consumer stop R Known Ready)
    (hy : relyOf R x y) {row : EventRow} (h : row ∈ ((consumerEngine cols).sight x).db.events) :
    row ∈ ((consumerEngine cols).sight y).db.events := by
  obtain ⟨hwrites, -, hR⟩ := hy
  rw [Engine.sight, hwrites]
  exact view_events_mono cols (rules.events _ _ _ hR) _ h

theorem BatchRules.processRecords (rules : BatchRules cols decode consumer stop R Known Ready)
    {n offset : Nat} {stats : Stats} {x : BatchTxn} (hstop : offset + n = stop)
    (h : Known offset x.data x.writes) :
    BatchAlways cols R Ready (processRecords decode consumer stop n offset stats) x := by
  induction n generalizing offset stats x with
  | zero =>
      have hoffset : offset = stop := hstop
      subst hoffset
      apply batchAlways_call (o := .commitOffset consumer offset)
      · exact fun e => ⟨_, rfl⟩
      · intro y hy z hz
        refine ⟨trivial, fun _ _ => ?_⟩
        have hready := rules.ready _ _ (rules.known_of_rely hy h)
        obtain ⟨hwrites, -, hR⟩ := hz
        rw [hwrites]
        exact rules.ready_stable _ _ _ hR hready
  | succ n ih =>
      apply batchAlways_readLog
      · exact fun e => ⟨_, rfl⟩
      intro y record seen hy hrecord
      have hknown := rules.known_of_rely hy h
      have hnext : offset + 1 + n = stop := by omega
      dsimp only
      cases hdecode : decode record with
      | error detail =>
          apply batchAlways_deadLetter
          · exact fun e => ⟨_, rfl⟩
          intro z written seen' hz
          apply ih hnext
          exact rules.undecodable offset z.data z.writes record detail
            (rules.known_of_rely hz hknown) (rules.record_of_rely hz hrecord) hdecode
      | ok e =>
          apply batchAlways_applyEvent
          · exact fun err => ⟨_, rfl⟩
          · intro z row seen' hz hrow hnew
            apply ih hnext
            exact rules.inserted offset z.data z.writes record e row
              (rules.known_of_rely hz hknown) (rules.record_of_rely hz hrecord) hdecode hrow hnew
          · intro z row stored seen' hz hrow hmem hkey
            have hknown' := rules.known_of_rely hz hknown
            have hrecord' := rules.record_of_rely hz hrecord
            cases hconflict : fingerprintConflict stored.fingerprint e.fingerprint with
            | false =>
                apply ih hnext
                exact rules.duplicate offset z.data z.writes record e row stored hknown' hrecord'
                  hdecode hrow hmem hkey hconflict
            | true =>
                apply batchAlways_deadLetter
                · exact fun err => ⟨_, rfl⟩
                intro u written seen'' hu
                apply ih hnext
                -- the row that was found is still there when the dead letter is written
                have hsight : stored ∈ ((consumerEngine cols).sight u).db.events := by
                  apply rules.sight_of_rely hu
                  rw [Engine.sight, Engine.view_append]
                  exact hmem
                exact rules.conflict offset u.data u.writes record e row stored
                  (rules.known_of_rely hu (rules.touched offset _ _ row.key hknown'))
                  (rules.record_of_rely hu hrecord') hdecode hrow hsight hkey hconflict

/-- A batch that starts where everything is known is specified by its rules. -/
theorem BatchRules.processBatch {c : Consumer} {start : Nat}
    (rules : BatchRules cols decode c.name stop R Known Ready) (hstart : start ≤ stop)
    {w : World} (h : Known start w []) :
    BatchAlways cols R Ready (processBatch decode c start stop) ⟨w, [], []⟩ :=
  rules.processRecords (by omega) h

end Rules

/-- The events a batch has inserted. -/
def ownRows (ws : List Write) : List EventRow :=
  ws.filterMap fun
    | .event row => some row
    | _ => none

/-- The dead letters a batch has inserted. -/
def ownLetters (ws : List Write) : List DeadLetterRow :=
  ws.filterMap fun
    | .deadLetter row => some row
    | _ => none

/-- What a batch changes before it commits its offset. -/
def BatchWrite : Write → Prop
  | .event _ => True
  | .touchEvent _ => True
  | .deadLetter _ => True
  | _ => False

@[simp] theorem ownRows_append (ws ws' : List Write) :
    ownRows (ws ++ ws') = ownRows ws ++ ownRows ws' := by
  simp [ownRows]

@[simp] theorem ownLetters_append (ws ws' : List Write) :
    ownLetters (ws ++ ws') = ownLetters ws ++ ownLetters ws' := by
  simp [ownLetters]

variable {ws : List Write}

theorem mem_ownRows {row : EventRow} : row ∈ ownRows ws ↔ .event row ∈ ws := by
  rw [ownRows, List.mem_filterMap]
  constructor
  · rintro ⟨a, ha, hrow⟩
    cases a <;> simp_all
  · intro h
    exact ⟨_, h, rfl⟩

theorem mem_ownLetters {row : DeadLetterRow} : row ∈ ownLetters ws ↔ .deadLetter row ∈ ws := by
  rw [ownLetters, List.mem_filterMap]
  constructor
  · rintro ⟨a, ha, hrow⟩
    cases a <;> simp_all
  · intro h
    exact ⟨_, h, rfl⟩

/-- What a batch sees before it commits its offset: its own rows after the committed
ones. -/
theorem view_of_batchWrites (cols : Columns) (w : World) (h : ∀ a ∈ ws, BatchWrite a) :
    (consumerEngine cols).view w ws =
      { w with
        db :=
          { w.db with
            events := w.db.events ++ ownRows ws
            deadLetters := w.db.deadLetters ++ ownLetters ws } } := by
  induction ws generalizing w with
  | nil => simp [ownRows, ownLetters]
  | cons a ws ih =>
      rw [List.forall_mem_cons] at h
      rw [Engine.view_cons, ih _ h.2]
      cases a with
      | event row | touchEvent key | deadLetter row =>
          simp [consumerEngine, World.apply, Database.apply, ownRows, ownLetters]
      | _ => exact h.1.elim

/-- What a batch commits. -/
theorem view_commit (cols : Columns) (w : World) (h : ∀ a ∈ ws, BatchWrite a) (consumer : String)
    (stop : Nat) :
    (consumerEngine cols).view w (ws ++ [.offset consumer stop]) =
      { w with
        db :=
          { w.db with
            events := w.db.events ++ ownRows ws
            deadLetters := w.db.deadLetters ++ ownLetters ws
            offsets := Function.update w.db.offsets consumer (some stop) }
        reached := Function.update w.reached consumer (max (w.reached consumer) stop) } := by
  rw [Engine.view_append, view_of_batchWrites cols w h]
  rfl

section Commit

variable {cols : Columns} {w : World} {ws : List Write} (h : ∀ a ∈ ws, BatchWrite a)
  {consumer : String} {stop : Nat}
include h

theorem commit_log :
    ((consumerEngine cols).view w (ws ++ [.offset consumer stop])).log = w.log := by
  rw [view_commit cols w h]

theorem commit_events :
    ((consumerEngine cols).view w (ws ++ [.offset consumer stop])).db.events =
      w.db.events ++ ownRows ws := by
  rw [view_commit cols w h]

theorem commit_deadLetters :
    ((consumerEngine cols).view w (ws ++ [.offset consumer stop])).db.deadLetters =
      w.db.deadLetters ++ ownLetters ws := by
  rw [view_commit cols w h]

theorem commit_offsets (c : String) :
    ((consumerEngine cols).view w (ws ++ [.offset consumer stop])).db.offsets c =
      if c = consumer then some stop else w.db.offsets c := by
  rw [view_commit cols w h]
  by_cases hc : c = consumer
  · simp [hc]
  · simp [hc, Function.update_of_ne]

theorem commit_reached (c : String) :
    ((consumerEngine cols).view w (ws ++ [.offset consumer stop])).reached c =
      if c = consumer then max (w.reached consumer) stop else w.reached c := by
  rw [view_commit cols w h]
  by_cases hc : c = consumer
  · simp [hc]
  · simp [hc, Function.update_of_ne]

end Commit

/-- Inserting a dead letter: it is there afterwards, under its key. -/
theorem letterWrites_cases (db : Database) (row : DeadLetterRow) :
    (letterWrites db row = [] ∧ ∃ row' ∈ db.deadLetters, row'.key = row.key) ∨
      (letterWrites db row = [.deadLetter row] ∧ ∀ row' ∈ db.deadLetters, row'.key ≠ row.key) := by
  rw [letterWrites]
  split
  · rename_i hany
    left
    exact ⟨rfl, by simpa using hany⟩
  · rename_i hany
    right
    exact ⟨rfl, by simpa using hany⟩

/-- Where a call of `Drain` is. -/
inductive DrainPc
  /-- Not running, or about to look for the next batch. -/
  | idle
  /-- `NextOffset` has returned. -/
  | read (next : Nat)
  /-- In `processBatch`. -/
  | batch

/-- All drains: their transactions and where they are. -/
structure Fleet where
  pool : BatchPool
  pcs : Nat → DrainPc

namespace Fleet

/-- The log and the database, as committed. -/
def world (f : Fleet) : World :=
  f.pool.data

/-- Drain `t` moves on. -/
def move (f : Fleet) (t : Nat) (pc : DrainPc) : Fleet :=
  { f with pcs := Function.update f.pcs t pc }

/-- The log and the database change from outside. -/
def withWorld (f : Fleet) (w : World) : Fleet :=
  { f with pool := f.pool.withData w }

theorem pcs_move_self (f : Fleet) (t : Nat) (pc : DrainPc) : (f.move t pc).pcs t = pc := by
  simp [move]

theorem pcs_move_ne (f : Fleet) {t u : Nat} (pc : DrainPc) (hu : u ≠ t) :
    (f.move t pc).pcs u = f.pcs u := by
  simp [move, Function.update_of_ne hu]

/-- No drain is running. -/
def start (w : World) : Fleet :=
  ⟨⟨w, fun _ => none⟩, fun _ => .idle⟩

end Fleet

section Fleet

variable (cols : Columns) (decode : Decoder)
  (consumers : Nat → Consumer)

/-- One step of drain `t`, which belongs to the consumer `consumers t`. -/
inductive DrainStep : Fleet → Fleet → Prop
  | readOffset {f : Fleet} {t : Nat} (hpc : f.pcs t = .idle) :
      DrainStep f (f.move t (.read ((consumers t).nextOffset f.world.db)))
  /-- There is nothing to read: `Drain` returns. -/
  | caughtUp {f : Fleet} {t next : Nat} (hpc : f.pcs t = .read next)
      (hend : f.world.log.length ≤ next) : DrainStep f (f.move t .idle)
  | begin {f : Fleet} {t next : Nat} (hpc : f.pcs t = .read next)
      (hend : next < f.world.log.length) :
      DrainStep f
        ({ f with
            pool := f.pool.put t (.start (processBatch decode (consumers t) next
              ((consumers t).batchEnd next f.world.log.length))) }.move t .batch)
  | statement {f : Fleet} {t : Nat} {pool : BatchPool} (hpc : f.pcs t = .batch)
      (hstep : (consumerEngine cols).PoolStatement t f.pool pool) :
      DrainStep f { f with pool := pool }
  | commit {f : Fleet} {t : Nat} {stats : Stats} {ws : List Write}
      {seen : List (ConsumerStmt × World)} (hpc : f.pcs t = .batch)
      (hs : f.pool.sessions t = some ⟨.done (.commit stats), ws, seen⟩) :
      DrainStep f
        ({ f with
            pool := (f.pool.withData ((consumerEngine cols).view f.world ws)).close t }.move t
          .idle)
  /-- An error, a failed commit, a cancelled context: the transaction is rolled back. -/
  | abandon {f : Fleet} {t : Nat} :
      DrainStep f ({ f with pool := f.pool.close t }.move t .idle)

/-- An invariant of the committed data that batches keep, with what has to be known of a
batch for that. -/
structure Contract where
  Good : World → Prop
  /-- What the other transactions may do to the data while a batch is open. -/
  R : String → List Write → World → World → Prop
  /-- What is known of a batch that began at `start`, by position. -/
  Known : String → (start : Nat) → Nat → World → List Write → Prop
  /-- What is known of a batch that asks for a commit. -/
  Ready : String → World → List Write → Prop
  rules : ∀ c start stop, start ≤ stop →
    BatchRules cols decode c stop (R c) (Known c start) (Ready c)
  trans : ∀ c ws w₁ w₂ w₃, R c ws w₁ w₂ → R c ws w₂ w₃ → R c ws w₁ w₃
  reached : ∀ c ws w w', R c ws w w' → ∀ c', w.reached c' ≤ w'.reached c'
  behind : ∀ w c next, Good w → w.db.offsets c = some next → next ≤ w.reached c
  begin : ∀ c start w, Good w → start ≤ w.reached c → Known c start start w []
  commit : ∀ c w ws, Good w → Ready c w ws → Good ((consumerEngine cols).view w ws)
  /-- A commit is no more than the other batches expect, whose rows are other rows. -/
  others : ∀ c w ws, Good w → Ready c w ws → ∀ c' ws',
    (∀ a ∈ ws, ∀ b ∈ ws', a.lock ≠ none → a.lock ≠ b.lock) →
    R c' ws' w ((consumerEngine cols).view w ws)

variable {cols decode consumers}

/-- A contract with one more invariant that commits keep. -/
def Contract.also (K : Contract cols decode) (I : World → Prop)
    (hI : ∀ c w ws, K.Good w → K.Ready c w ws → I w → I ((consumerEngine cols).view w ws)) :
    Contract cols decode where
  Good := fun w => K.Good w ∧ I w
  R := fun c ws w w' => K.R c ws w w' ∧ (I w → I w')
  Known := fun c start i w ws => K.Known c start i w ws ∧ I w
  Ready := fun c w ws => K.Ready c w ws ∧ I w
  rules := fun c start stop hstop =>
    have rules := K.rules c start stop hstop
    { refl := fun ws w => ⟨rules.refl ws w, id⟩
      log := fun ws w w' h => rules.log ws w w' h.1
      events := fun ws w w' h => rules.events ws w w' h.1
      stable := fun i ws w w' h hknown => ⟨rules.stable i ws w w' h.1 hknown.1, h.2 hknown.2⟩
      ready_stable := fun ws w w' h hready =>
        ⟨rules.ready_stable ws w w' h.1 hready.1, h.2 hready.2⟩
      undecodable := fun i w ws record detail h hrecord hdecode =>
        ⟨rules.undecodable i w ws record detail h.1 hrecord hdecode, h.2⟩
      inserted := fun i w ws record e row h hrecord hdecode hrow hnew =>
        ⟨rules.inserted i w ws record e row h.1 hrecord hdecode hrow hnew, h.2⟩
      duplicate := fun i w ws record e row stored h hrecord hdecode hrow hstored hkey hsame =>
        ⟨rules.duplicate i w ws record e row stored h.1 hrecord hdecode hrow hstored hkey hsame,
          h.2⟩
      touched := fun i w ws key h => ⟨rules.touched i w ws key h.1, h.2⟩
      conflict := fun i w ws record e row stored h hrecord hdecode hrow hstored hkey hconflict =>
        ⟨rules.conflict i w ws record e row stored h.1 hrecord hdecode hrow hstored hkey
          hconflict, h.2⟩
      ready := fun w ws h => ⟨rules.ready w ws h.1, h.2⟩ }
  trans := fun c ws w₁ w₂ w₃ h h' => ⟨K.trans c ws w₁ w₂ w₃ h.1 h'.1, h'.2 ∘ h.2⟩
  reached := fun c ws w w' h => K.reached c ws w w' h.1
  behind := fun w c next h => K.behind w c next h.1
  begin := fun c start w h hstart => ⟨K.begin c start w h.1 hstart, h.2⟩
  commit := fun c w ws h hready =>
    ⟨K.commit c w ws h.1 hready.1, hI c w ws h.1 hready.1 h.2⟩
  others := fun c w ws h hready c' ws' hlocks =>
    ⟨K.others c w ws h.1 hready.1 c' ws' hlocks, hI c w ws h.1 hready.1⟩

/-- A commit never takes back an offset that was reached. -/
theorem view_reached (cols : Columns) (w : World) (ws : List Write) (c : String) :
    w.reached c ≤ ((consumerEngine cols).view w ws).reached c := by
  induction ws generalizing w with
  | nil => exact Nat.le_refl _
  | cons a ws ih =>
      refine Nat.le_trans ?_ (ih (w.apply a))
      cases a with
      | offset consumer next =>
          by_cases hc : c = consumer
          · subst hc
            simp [World.apply]
          · simp [World.apply, Function.update_of_ne hc]
      | _ => exact Nat.le_refl _

/-- What a consumer is told to read next is not past what it has reached. -/
theorem Contract.nextOffset_le (K : Contract cols decode) {w : World} (h : K.Good w)
    (c : Consumer) : c.nextOffset w.db ≤ w.reached c.name := by
  rw [Consumer.nextOffset]
  cases hoffset : w.db.offsets c.name with
  | none => exact Nat.zero_le _
  | some next =>
      exact K.behind _ _ _ h hoffset

theorem Contract.relyOf_refl (K : Contract cols decode) (c : String) (x : BatchTxn) :
    relyOf (K.R c) x x :=
  ⟨rfl, rfl, (K.rules c 0 0 (Nat.le_refl 0)).refl _ _⟩

theorem Contract.relyOf_trans (K : Contract cols decode) (c : String) (x y z : BatchTxn)
    (hxy : relyOf (K.R c) x y) (hyz : relyOf (K.R c) y z) : relyOf (K.R c) x z := by
  obtain ⟨hwrites, hseen, hR⟩ := hxy
  obtain ⟨hwrites', hseen', hR'⟩ := hyz
  rw [hwrites] at hR'
  exact ⟨hwrites'.trans hwrites, hseen'.trans hseen, K.trans _ _ _ _ _ hR hR'⟩

variable {t : Nat}

/-- The statements of a batch do not touch what is committed. -/
theorem data_of_statement {p p' : BatchPool} (hstep : (consumerEngine cols).PoolStatement t p p') :
    p'.data = p.data := by
  cases hstep with
  | step hs hstep hfree => cases hstep <;> rfl

/-- A drain only reads the log. -/
theorem log_of_drainStep {f f' : Fleet} (hstep : DrainStep cols decode consumers f f') :
    f'.world.log = f.world.log := by
  cases hstep with
  | statement hpc hstep =>
      exact congrArg World.log (data_of_statement hstep)
  | commit hpc hs =>
      exact view_log cols f.world _
  | _ => rfl

/-- The invariant of all drains under a contract. -/
structure FleetInv (K : Contract cols decode) (consumers : Nat → Consumer) (f : Fleet) :
    Prop where
  good : K.Good f.world
  exclusive : (consumerEngine cols).Exclusive f.pool
  behind : ∀ t next, f.pcs t = .read next → next ≤ f.world.reached (consumers t).name
  meets : (consumerEngine cols).Meets (fun t => relyOf (K.R (consumers t).name))
    (fun t out x => ∀ stats, out = .commit stats →
      K.Ready (consumers t).name x.data x.writes) f.pool

namespace FleetInv

variable {K : Contract cols decode} {f : Fleet}

theorem start {w : World} (hgood : K.Good w) : FleetInv K consumers (.start w) where
  good := hgood
  exclusive := fun _ _ _ _ ⟨_, hs, _⟩ => nomatch hs
  behind := nofun
  meets := nofun

/-- What is known of the offset a drain has read, when one drain moves on. -/
theorem behind_move (h : FleetInv K consumers f) {t : Nat} {pc : DrainPc}
    (hpc : ∀ next, pc = .read next → next ≤ f.world.reached (consumers t).name) :
    ∀ u next, (f.move t pc).pcs u = .read next →
      next ≤ f.world.reached (consumers u).name := by
  intro u next hu
  by_cases hut : u = t
  · subst hut
    apply hpc
    rw [Fleet.pcs_move_self] at hu
    exact hu
  · rw [Fleet.pcs_move_ne f pc hut] at hu
    exact h.behind u next hu

/-- The data change within what the open batches expect. -/
theorem change (h : FleetInv K consumers f) {w : World} (hgood : K.Good w)
    (hreached : ∀ c, f.world.reached c ≤ w.reached c)
    (hR : ∀ t s, f.pool.sessions t = some s → K.R (consumers t).name s.writes f.world w) :
    FleetInv K consumers (f.withWorld w) where
  good := hgood
  exclusive := h.exclusive
  behind := fun t next hpc => Nat.le_trans (h.behind t next hpc) (hreached _)
  meets := Engine.meets_change (fun _ => K.relyOf_trans _) h.meets
    fun t s hs => ⟨rfl, rfl, hR t s hs⟩

/-- Without a transaction, drain `t` has nothing to keep. -/
theorem close (h : FleetInv K consumers f) (t : Nat) :
    FleetInv K consumers ({ f with pool := f.pool.close t }.move t .idle) where
  good := h.good
  exclusive := Engine.exclusive_close h.exclusive t
  behind := h.behind_move nofun
  meets := Engine.meets_close h.meets t

/-- Every step of a drain keeps the invariant. -/
theorem step {f' : Fleet} (h : FleetInv K consumers f)
    (hstep : DrainStep cols decode consumers f f') : FleetInv K consumers f' := by
  cases hstep with
  | @readOffset t hpc =>
      refine ⟨h.good, h.exclusive, h.behind_move ?_, h.meets⟩
      intro next hnext
      cases hnext
      exact K.nextOffset_le h.good (consumers t)
  | caughtUp hpc hend =>
      exact ⟨h.good, h.exclusive, h.behind_move nofun, h.meets⟩
  | @begin t next hpc hend =>
      refine ⟨h.good, Engine.exclusive_start h.exclusive t _,
        h.behind_move nofun, Engine.meets_put h.meets ?_⟩
      have hstop : next ≤ (consumers t).batchEnd next f.world.log.length := by
        rw [Consumer.batchEnd]
        split <;> omega
      exact (K.rules _ next _ hstop).processBatch hstop
        (K.begin _ next f.world h.good (h.behind t next hpc))
  | @statement t pool hpc hstep =>
      have hdata : pool.data = f.pool.data := data_of_statement hstep
      constructor
      · show K.Good pool.data
        rw [hdata]
        exact h.good
      · exact Engine.exclusive_statement h.exclusive hstep
      · intro u next hu
        show next ≤ pool.data.reached _
        rw [hdata]
        exact h.behind u next hu
      · exact Engine.meets_statement (fun u => K.relyOf_refl _) (fun u => K.relyOf_trans _)
          h.meets hstep (fun u o x => K.relyOf_refl _ x)
  | @commit t stats ws seen hpc hs =>
      have hready : K.Ready (consumers t).name f.world ws :=
        Engine.post_of_meets (fun u => K.relyOf_refl _) h.meets hs stats rfl
      apply (h.close t).change (K.commit _ _ _ h.good hready)
      · exact view_reached cols f.world ws
      · intro u s hu
        obtain ⟨hut, hu⟩ := Pool.session_of_close hu
        apply K.others _ _ _ h.good hready
        intro a ha b hb hlock heq
        obtain ⟨l, hl⟩ := Option.ne_none_iff_exists'.1 hlock
        exact h.exclusive t u l hut.symm ⟨_, hs, a, ha, hl⟩ ⟨s, hu, b, hb, heq.symm.trans hl⟩
  | abandon => exact h.close _

end FleetInv

/-- Statements of a batch leave the committed data alone. -/
theorem data_of_runBody (cols : Columns) {α : Type} (body : BatchBody α) (x : BatchTxn) :
    ((consumerEngine cols).runBody body x).2.data = x.data := by
  induction body generalizing x with
  | done a => rfl
  | call o next ih => exact ih _ _

section Undisturbed

/-- The columns take the event of a record, or it has none. -/
def Passable (cols : Columns) (decode : Decoder) (record : Bytes) :
    Prop :=
  ∀ e, decode record = .ok e → ∃ row, cols.row e = some row

variable (cols) (w : World) (ws : List Write) (seen : List (ConsumerStmt × World))

/-- A statement on its own. -/
theorem runBody_insertEvent (e : UsageEvent) (x : BatchTxn) :
    (consumerEngine cols).runBody (insertEvent e) x =
      (((consumerEngine cols).exec (.insertEvent e) ((consumerEngine cols).sight x)).1,
        (consumerEngine cols).after (.insertEvent e) x) := by
  rfl

variable {w} in
theorem runBody_readLog {offset : Nat} {record : Bytes} (h : w.log[offset]? = some record) :
    ∃ seen', (consumerEngine cols).runBody (readLog offset) ⟨w, ws, seen⟩ =
      (.ok record, ⟨w, ws, seen'⟩) := by
  have hexec : (consumerEngine cols).exec (.readLog offset)
      ((consumerEngine cols).sight ⟨w, ws, seen⟩) = (.ok record, []) := by
    show ConsumerStmt.exec cols (.readLog offset) _ = _
    simp [ConsumerStmt.exec, Engine.sight, view_log cols w ws, h]
  refine ⟨seen ++ [(.readLog offset, (consumerEngine cols).sight ⟨w, ws, seen⟩)], ?_⟩
  show (((consumerEngine cols).exec (.readLog offset)
      ((consumerEngine cols).sight ⟨w, ws, seen⟩)).1,
    (consumerEngine cols).after (.readLog offset) ⟨w, ws, seen⟩) = _
  rw [Engine.after, hexec, List.append_nil]
  rfl

theorem runBody_deadLetter (row : DeadLetterRow) :
    ∃ written new seen', (consumerEngine cols).runBody (deadLetter row) ⟨w, ws, seen⟩ =
        (.ok written, ⟨w, ws ++ new, seen'⟩) ∧
      (∀ a ∈ new, BatchWrite a) ∧ ownRows new = [] := by
  refine ⟨_, letterWrites ((consumerEngine cols).view w ws).db row, _, rfl, ?_⟩
  rcases letterWrites_cases ((consumerEngine cols).view w ws).db row with
    ⟨hnone, -⟩ | ⟨hone, -⟩
  · rw [hnone]
    exact ⟨List.forall_mem_nil _, rfl⟩
  · rw [hone]
    refine ⟨fun a ha => ?_, rfl⟩
    rw [List.mem_singleton.1 ha]
    trivial

variable {cols} in
/-- Storing an event that the columns take: it is inserted unless its key is there. -/
theorem runBody_applyEvent {e : UsageEvent} {row : EventRow} (h : cols.row e = some row) :
    ∃ applied new seen', (consumerEngine cols).runBody (applyEvent e) ⟨w, ws, seen⟩ =
        (.ok applied, ⟨w, ws ++ new, seen'⟩) ∧
      (∀ a ∈ new, BatchWrite a) ∧ ownRows new =
        if row.key ∈ ((consumerEngine cols).view w ws).db.events.map EventRow.key then []
        else [row] := by
  rw [applyEvent, Engine.runBody_bind, runBody_insertEvent]
  rcases exec_insertEvent cols e ((consumerEngine cols).sight ⟨w, ws, seen⟩) with
    hexec | ⟨row', hrow', hexec, hnew⟩ | ⟨row', stored, hrow', hexec, hstored, hkey⟩
  · have hrefused : ConsumerStmt.exec cols (.insertEvent e)
        ((consumerEngine cols).sight ⟨w, ws, seen⟩) = (.error .refused, []) := hexec
    simp only [ConsumerStmt.exec, h] at hrefused
    split at hrefused <;> cases hrefused
  · obtain rfl := Option.some.inj (h.symm.trans hrow')
    have habsent : row.key ∉ ((consumerEngine cols).view w ws).db.events.map EventRow.key := by
      intro hmem
      obtain ⟨r, hr, hsame⟩ := List.mem_map.1 hmem
      exact hnew r hr hsame
    rw [Engine.after, hexec, if_neg habsent]
    refine ⟨_, [.event row], _, rfl, fun a ha => ?_, rfl⟩
    rw [List.mem_singleton.1 ha]
    trivial
  · obtain rfl := Option.some.inj (h.symm.trans hrow')
    have hpresent : row.key ∈ ((consumerEngine cols).view w ws).db.events.map EventRow.key :=
      List.mem_map.2 ⟨stored, hstored, hkey⟩
    have htouch : ∀ a ∈ [Write.touchEvent row.key], BatchWrite a := by
      intro a ha
      rw [List.mem_singleton.1 ha]
      trivial
    rw [Engine.after, hexec, if_pos hpresent]
    cases hconflict : fingerprintConflict stored.fingerprint e.fingerprint with
    | true =>
        simp only [hconflict, if_true, Bool.false_eq_true, if_false]
        exact ⟨_, [.touchEvent row.key], _, rfl, htouch, rfl⟩
    | false =>
        simp only [hconflict, Bool.false_eq_true, if_false]
        exact ⟨_, [.touchEvent row.key], _, rfl, htouch, rfl⟩

variable {cols} in
/-- Storing one that they refuse. -/
theorem runBody_applyEvent_refused {e : UsageEvent} (h : cols.row e = none) :
    ∃ ws' seen', (consumerEngine cols).runBody (applyEvent e) ⟨w, ws, seen⟩ =
      (.error .refused, ⟨w, ws', seen'⟩) := by
  have hexec : (consumerEngine cols).exec (.insertEvent e)
      ((consumerEngine cols).sight ⟨w, ws, seen⟩) = (.error .refused, []) := by
    show ConsumerStmt.exec cols (.insertEvent e) _ = _
    simp only [ConsumerStmt.exec, h]
  rw [applyEvent, Engine.runBody_bind, runBody_insertEvent, Engine.after, hexec]
  exact ⟨_, _, rfl⟩

variable {cols w ws seen} in
/-- A batch that nobody disturbs commits exactly if the columns take all of its events. -/
theorem processRecords_commits_iff {consumer : String} {stop n offset : Nat} {stats : Stats}
    (hlog : offset + n ≤ w.log.length) :
    (∃ stats', ((consumerEngine cols).runBody (processRecords decode consumer stop n offset stats)
        ⟨w, ws, seen⟩).1 = .commit stats') ↔
      ∀ i record, offset ≤ i → i < offset + n → w.log[i]? = some record →
        Passable cols decode record := by
  induction n generalizing offset stats ws seen with
  | zero =>
      constructor
      · intro _ i record hle hlt
        omega
      · intro _
        exact ⟨stats, rfl⟩
  | succ n ih =>
      obtain ⟨record, hrecord⟩ : ∃ record, w.log[offset]? = some record :=
        ⟨_, List.getElem?_eq_getElem (by omega)⟩
      have hhead : (∀ i record, offset ≤ i → i < offset + (n + 1) → w.log[i]? = some record →
          Passable cols decode record) ↔ Passable cols decode record ∧
            ∀ i record, offset + 1 ≤ i → i < offset + 1 + n → w.log[i]? = some record →
              Passable cols decode record := by
        constructor
        · intro h
          exact ⟨h offset record (Nat.le_refl _) (by omega) hrecord,
            fun i record hle hlt => h i record (by omega) (by omega)⟩
        · rintro ⟨hone, hrest⟩ i record' hle hlt hrecord'
          rcases Nat.eq_or_lt_of_le hle with rfl | hlt'
          · rw [Option.some.inj (hrecord'.symm.trans hrecord)]
            exact hone
          · exact hrest i record' hlt' (by omega) hrecord'
      obtain ⟨seen₁, hread⟩ := runBody_readLog cols ws seen hrecord
      rw [hhead, processRecords, Engine.runBody_bind, hread]
      simp only
      cases hdecode : decode record with
      | error detail =>
          have hpassable : Passable cols decode record := by
            intro e he
            cases hdecode.symm.trans he
          obtain ⟨written, ws', seen', hletter, -⟩ := runBody_deadLetter cols w ws seen₁
            (undecodableLetter consumer offset detail record)
          simp only [Engine.runBody_bind, hletter, hpassable, true_and]
          exact ih (by omega)
      | ok e =>
          have hone : Passable cols decode record ↔ ∃ row, cols.row e = some row := by
            constructor
            · exact fun h => h e hdecode
            · rintro h e' he'
              cases hdecode.symm.trans he'
              exact h
          rw [hone]
          cases hrow : cols.row e with
          | none =>
              obtain ⟨ws', seen', hrefused⟩ := runBody_applyEvent_refused w ws seen₁ hrow
              simp only [Engine.runBody_bind, hrefused]
              constructor
              · rintro ⟨stats', hcommit⟩
                cases hcommit
              · rintro ⟨⟨row, hsome⟩, -⟩
                cases hsome
          | some row =>
              obtain ⟨applied, ws', seen', happlied, -⟩ := runBody_applyEvent w ws seen₁ hrow
              simp only [Engine.runBody_bind, happlied, Option.some.injEq, exists_eq', true_and]
              cases applied with
              | inserted | duplicate => exact ih (by omega)
              | conflict =>
                  obtain ⟨written, ws'', seen'', hletter, -⟩ := runBody_deadLetter cols w
                    (ws ++ ws') seen' (keyReuseLetter consumer offset e record)
                  simp only [Engine.runBody_bind, hletter]
                  exact ih (by omega)

variable {cols w} in
theorem processBatch_commits_iff {c : Consumer} {start stop : Nat} (hstart : start ≤ stop)
    (hlog : stop ≤ w.log.length) :
    (∃ stats, ((consumerEngine cols).runBody (processBatch decode c start stop)
        ⟨w, [], []⟩).1 = .commit stats) ↔
      ∀ i record, start ≤ i → i < stop → w.log[i]? = some record →
        Passable cols decode record := by
  have hlen : start + (stop - start) = stop := by omega
  rw [processBatch, processRecords_commits_iff (by omega), hlen]

end Undisturbed

/-- The next batch of a consumer, when nobody disturbs it and nothing fails. -/
def Consumer.runBatch (cols : Columns) (decode : Decoder)
    (c : Consumer) (w : World) : BatchEnd × BatchTxn :=
  (consumerEngine cols).runBody
    (processBatch decode c (c.nextOffset w.db) (c.batchEnd (c.nextOffset w.db) w.log.length))
    ⟨w, [], []⟩

/-- What it leaves behind if it commits. -/
def Consumer.afterBatch (cols : Columns) (decode : Decoder)
    (c : Consumer) (w : World) : World :=
  (consumerEngine cols).view w (c.runBatch cols decode w).2.writes

/-- The statements of a batch are steps of its drain. -/
theorem DrainStep.statements {pool pool' : BatchPool} {pcs : Nat → DrainPc} (hpc : pcs t = .batch)
    (h : Relation.ReflTransGen ((consumerEngine cols).PoolStatement t) pool pool') :
    Relation.ReflTransGen (DrainStep cols decode consumers) ⟨pool, pcs⟩ ⟨pool', pcs⟩ := by
  induction h with
  | refl => exact .refl
  | tail _ hstep ih =>
      exact ih.tail (.statement hpc hstep)

/-- A drain that nobody disturbs takes the next batch through. -/
theorem DrainStep.batch_alone {f : Fleet} {stats : Stats} (hpc : f.pcs t = .idle)
    (halone : ∀ u, f.pool.sessions u = none)
    (hend : (consumers t).nextOffset f.world.db < f.world.log.length)
    (hrun : ((consumers t).runBatch cols decode f.world).1 = .commit stats) :
    Relation.ReflTransGen (DrainStep cols decode consumers) f
      (f.withWorld ((consumers t).afterBatch cols decode f.world)) := by
  obtain ⟨next, hnext⟩ : ∃ next, (consumers t).nextOffset f.world.db = next := ⟨_, rfl⟩
  obtain ⟨x, hx⟩ : ∃ x, ((consumers t).runBatch cols decode f.world).2 = x := ⟨_, rfl⟩
  have hpair : (consumerEngine cols).runBody (processBatch decode (consumers t) next
      ((consumers t).batchEnd next f.world.log.length)) ⟨f.world, [], []⟩ =
        (.commit stats, x) := by
    rw [← hnext]
    exact Prod.ext hrun hx
  rw [Consumer.afterBatch, hx]
  rw [hnext] at hend
  have hread : DrainStep cols decode consumers f (f.move t (.read next)) := by
    rw [← hnext]
    exact .readOffset hpc
  have hbegin : DrainStep cols decode consumers (f.move t (.read next))
      ⟨f.pool.put t (.start (processBatch decode (consumers t) next
        ((consumers t).batchEnd next f.world.log.length))), Function.update f.pcs t .batch⟩ := by
    have := @DrainStep.begin cols decode consumers (f.move t (.read next)) t next
      (f.pcs_move_self t _) hend
    rw [Fleet.move, Fleet.move, Function.update_idem] at this
    exact this
  have hself : Function.update f.pcs t .batch t = .batch := Function.update_self ..
  have hdata : x.data = f.world := by
    have := data_of_runBody cols (processBatch decode (consumers t) next
      ((consumers t).batchEnd next f.world.log.length)) ⟨f.world, [], []⟩
    rw [hpair] at this
    exact this
  have hstatements : Relation.ReflTransGen (DrainStep cols decode consumers) _ _ :=
    DrainStep.statements hself (Engine.statements_alone_start _ halone hpair)
  have hcommit := @DrainStep.commit cols decode consumers
    ⟨(f.pool.withData x.data).put t ⟨.done (.commit stats), x.writes, x.seen⟩,
      Function.update f.pcs t .batch⟩ t stats x.writes x.seen hself
    (Pool.sessions_put_self t _)
  -- nothing is left of the transaction
  have hclosed : ({ pool := (((f.pool.withData x.data).put t ⟨.done (.commit stats), x.writes,
      x.seen⟩).withData ((consumerEngine cols).view f.world x.writes)).close t
                    pcs := Function.update f.pcs t .batch } : Fleet).move t .idle =
      f.withWorld ((consumerEngine cols).view f.world x.writes) := by
    have hsessions : Function.update f.pool.sessions t none = f.pool.sessions := by
      rw [← halone t, Function.update_eq_self]
    have hpcs : Function.update f.pcs t .idle = f.pcs := by
      rw [← hpc, Function.update_eq_self]
    simp only [Fleet.move, Fleet.withWorld, Pool.close, Pool.put, Pool.withData,
      Function.update_idem, hsessions, hpcs]
  rw [← hclosed]
  refine .head hread (.head hbegin (hstatements.tail ?_))
  rw [Fleet.world] at hcommit ⊢
  simp only [Pool.put, Pool.withData, hdata] at hcommit ⊢
  exact hcommit

end Fleet

end LedgerLine.Billing
