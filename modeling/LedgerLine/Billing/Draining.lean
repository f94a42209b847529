import LedgerLine.Billing.Drain
import LedgerLine.Lib.Serial

/-!
# What a batch adds

A batch on its own adds the rows of its records whose keys are new (`addedRows`), whatever
the records are split into: two batches add what one would (`addedRows_append`).

Main fact: `batch_adds`.
-/

namespace LedgerLine.Billing

section Added

variable (cols : Columns) (decode : Decoder)

/-- The rows that records add to a table that has some keys. -/
def addedRows : List (String × String) → List Bytes → List EventRow
  | _, [] => []
  | keys, record :: records =>
      match (decode record).toOption.bind cols.row with
      | none => addedRows keys records
      | some row =>
          if row.key ∈ keys then
            addedRows keys records
          else
            row :: addedRows (row.key :: keys) records

variable {cols decode}

variable {keys : List (String × String)}

theorem addedRows_cons_none {record : Bytes} {records : List Bytes}
    (h : (decode record).toOption.bind cols.row = none) :
    addedRows cols decode keys (record :: records) = addedRows cols decode keys records := by
  rw [addedRows, h]

theorem addedRows_cons_some {record : Bytes} {records : List Bytes} {row : EventRow}
    (h : (decode record).toOption.bind cols.row = some row) :
    addedRows cols decode keys (record :: records) =
      if row.key ∈ keys then addedRows cols decode keys records
      else row :: addedRows cols decode (row.key :: keys) records := by
  rw [addedRows, h]

/-- Only which keys are there matters. -/
theorem addedRows_congr {keys' : List (String × String)} (h : ∀ key, key ∈ keys ↔ key ∈ keys')
    (records : List Bytes) :
    addedRows cols decode keys records = addedRows cols decode keys' records := by
  induction records generalizing keys keys' with
  | nil => rfl
  | cons record records ih =>
      cases hrow : (decode record).toOption.bind cols.row with
      | none =>
          rw [addedRows_cons_none hrow, addedRows_cons_none hrow, ih h]
      | some row =>
          have hnext : ∀ key, key ∈ row.key :: keys ↔ key ∈ row.key :: keys' := by
            intro key
            rw [List.mem_cons, List.mem_cons, h key]
          rw [addedRows_cons_some hrow, addedRows_cons_some hrow, ih h, ih hnext]
          simp only [h row.key]

/-- Records in two parts. -/
theorem addedRows_append (keys : List (String × String)) (records records' : List Bytes) :
    addedRows cols decode keys (records ++ records') =
      addedRows cols decode keys records ++
        addedRows cols decode (keys ++ (addedRows cols decode keys records).map EventRow.key)
          records' := by
  induction records generalizing keys with
  | nil => simp [addedRows]
  | cons record records ih =>
      rw [List.cons_append]
      cases hrow : (decode record).toOption.bind cols.row with
      | none =>
          rw [addedRows_cons_none hrow, addedRows_cons_none hrow, ih]
      | some row =>
          rw [addedRows_cons_some hrow, addedRows_cons_some hrow]
          by_cases hkey : row.key ∈ keys
          · rw [if_pos hkey, if_pos hkey, ih]
          · rw [if_neg hkey, if_neg hkey, ih, List.cons_append]
            congr 2
            apply addedRows_congr
            intro key
            simp only [List.map_cons, List.mem_append, List.mem_cons]
            tauto

/-- The rows are new, with keys of their own, and not billed. -/
theorem addedRows_new (keys : List (String × String)) (records : List Bytes) :
    ∀ row ∈ addedRows cols decode keys records, row.key ∉ keys ∧ row.invoiceId = none := by
  induction records generalizing keys with
  | nil =>
      exact List.forall_mem_nil _
  | cons record records ih =>
      cases hrow : (decode record).toOption.bind cols.row with
      | none =>
          rw [addedRows_cons_none hrow]
          exact ih keys
      | some row =>
          rw [addedRows_cons_some hrow]
          split
          · exact ih keys
          · rename_i hkey
            rw [List.forall_mem_cons]
            constructor
            · obtain ⟨e, -, he⟩ := Option.bind_eq_some_iff.1 hrow
              obtain ⟨-, _, -, _, -, _, -, rfl⟩ := Columns.row_eq_some.1 he
              exact ⟨hkey, rfl⟩
            · intro r hr
              obtain ⟨hnew, hnone⟩ := ih (row.key :: keys) r hr
              exact ⟨fun hmem => hnew (List.mem_cons_of_mem _ hmem), hnone⟩

end Added

section Batch

variable {cols : Columns} {decode : Decoder} {w : World}

theorem view_keys {ws : List Write} (hws : ∀ a ∈ ws, BatchWrite a) :
    ((consumerEngine cols).view w ws).db.events = w.db.events ++ ownRows ws := by
  rw [view_of_batchWrites cols w hws]

variable {consumer : String} {stop n offset : Nat} {stats stats' : Stats} {ws : List Write}
  {seen : List (ConsumerStmt × World)} {x : BatchTxn}

/-- One record of a batch that nobody disturbs and that commits. -/
theorem processRecord_adds (hws : ∀ a ∈ ws, BatchWrite a)
    (h : (consumerEngine cols).runBody (processRecords decode consumer stop (n + 1) offset stats)
      ⟨w, ws, seen⟩ = (.commit stats', x)) :
    ∃ record added seen' next, w.log[offset]? = some record ∧ (∀ a ∈ added, BatchWrite a) ∧
      ownRows added = addedRows cols decode ((w.db.events ++ ownRows ws).map EventRow.key)
        [record] ∧
      (consumerEngine cols).runBody (processRecords decode consumer stop n (offset + 1) next)
        ⟨w, ws ++ added, seen'⟩ = (.commit stats', x) := by
  cases hrecord : w.log[offset]? with
  | none =>
      have hexec : (consumerEngine cols).exec (.readLog offset)
          ((consumerEngine cols).sight ⟨w, ws, seen⟩) = (.error (.outOfRange offset), []) := by
        show ConsumerStmt.exec cols (.readLog offset) _ = _
        simp [ConsumerStmt.exec, Engine.sight, view_log cols w ws, hrecord]
      have hread : ((consumerEngine cols).runBody (readLog offset) ⟨w, ws, seen⟩).1 =
          .error (.outOfRange offset) := congrArg Prod.fst hexec
      rw [processRecords, Engine.runBody_bind, hread] at h
      cases h
  | some record =>
      obtain ⟨seen₁, hread⟩ := runBody_readLog cols ws seen hrecord
      rw [processRecords, Engine.runBody_bind, hread] at h
      simp only at h
      cases hdecode : decode record with
      | error detail =>
          obtain ⟨written, added, seen', hletter, hadded, hown⟩ := runBody_deadLetter cols w ws
            seen₁ (undecodableLetter consumer offset detail record)
          simp only [hdecode, Engine.runBody_bind, hletter] at h
          refine ⟨record, added, seen', _, rfl, hadded, ?_, h⟩
          rw [addedRows_cons_none (by rw [hdecode]; rfl), hown]
          rfl
      | ok e =>
          have hslot : (decode record).toOption.bind cols.row = cols.row e := by
            rw [hdecode]
            rfl
          cases hrow : cols.row e with
          | none =>
              obtain ⟨ws', seen', hrefused⟩ := runBody_applyEvent_refused w ws seen₁ hrow
              simp only [hdecode, Engine.runBody_bind, hrefused] at h
              cases h
          | some row =>
              obtain ⟨applied, added, seen', happlied, hadded, hown⟩ :=
                runBody_applyEvent w ws seen₁ hrow
              have hrows : ownRows added = addedRows cols decode
                  ((w.db.events ++ ownRows ws).map EventRow.key) [record] := by
                rw [addedRows_cons_some (hslot.trans hrow), hown, view_keys hws]
                rfl
              simp only [hdecode, Engine.runBody_bind, happlied] at h
              cases applied with
              | inserted | duplicate =>
                  exact ⟨record, added, seen', _, rfl, hadded, hrows, h⟩
              | conflict =>
                  obtain ⟨written, letter, seen'', hletter, hkind, hnone⟩ := runBody_deadLetter
                    cols w (ws ++ added) seen' (keyReuseLetter consumer offset e record)
                  simp only [Engine.runBody_bind, hletter] at h
                  rw [List.append_assoc] at h
                  refine ⟨record, added ++ letter, seen'', _, rfl, ?_, ?_, h⟩
                  · exact List.forall_mem_append.2 ⟨hadded, hkind⟩
                  · rw [ownRows_append, hnone, List.append_nil, hrows]

/-- All records of such a batch. -/
theorem processRecords_adds (hws : ∀ a ∈ ws, BatchWrite a)
    (h : (consumerEngine cols).runBody (processRecords decode consumer stop n offset stats)
      ⟨w, ws, seen⟩ = (.commit stats', x)) :
    ∃ new, x.writes = ws ++ new ++ [.offset consumer stop] ∧ (∀ a ∈ new, BatchWrite a) ∧
      ownRows new = addedRows cols decode ((w.db.events ++ ownRows ws).map EventRow.key)
        ((w.log.drop offset).take n) := by
  induction n generalizing offset stats ws seen with
  | zero =>
      obtain ⟨-, rfl⟩ := Prod.mk.inj h
      refine ⟨[], ?_, List.forall_mem_nil _, ?_⟩
      · rw [List.append_nil]
        rfl
      · rw [List.take_zero]
        rfl
  | succ n ih =>
      obtain ⟨record, added, seen', next, hrecord, hadded, hown, hrest⟩ := processRecord_adds hws h
      have hboth : ∀ a ∈ ws ++ added, BatchWrite a := by
        exact List.forall_mem_append.2 ⟨hws, hadded⟩
      have hrecords : (w.log.drop offset).take (n + 1) =
          [record] ++ (w.log.drop (offset + 1)).take n := by
        obtain ⟨hlt, heq⟩ := List.getElem?_eq_some_iff.1 hrecord
        rw [List.drop_eq_getElem_cons hlt, List.take_succ_cons, heq]
        rfl
      obtain ⟨new, hwrites, hnew, hrows⟩ := ih hboth hrest
      refine ⟨added ++ new, by rw [hwrites]; simp, ?_, ?_⟩
      · exact List.forall_mem_append.2 ⟨hadded, hnew⟩
      · rw [ownRows_append, hrows, hrecords, addedRows_append, ← hown, ownRows_append,
          ← List.append_assoc, List.map_append, List.map_append]

/-- A batch that nobody disturbs and that commits. -/
theorem batch_adds {c : Consumer} {start : Nat}
    (h : (consumerEngine cols).runBody (processBatch decode c start stop) ⟨w, [], []⟩ =
      (.commit stats', x)) :
    ∃ deadLetters, (consumerEngine cols).view w x.writes =
      { w with
        db := { w.db with
          events := w.db.events ++ addedRows cols decode (w.db.events.map EventRow.key)
            ((w.log.drop start).take (stop - start))
          deadLetters := deadLetters
          offsets := Function.update w.db.offsets c.name (some stop) }
        reached := Function.update w.reached c.name (max (w.reached c.name) stop) } := by
  have hnone : ∀ a ∈ ([] : List Write), BatchWrite a := List.forall_mem_nil _
  obtain ⟨new, hwrites, hnew, hown⟩ := processRecords_adds hnone h
  have hempty : ownRows [] = [] := rfl
  rw [hempty, List.append_nil] at hown
  rw [List.nil_append] at hwrites
  rw [hwrites, view_commit cols w hnew, hown]
  exact ⟨_, rfl⟩

end Batch

section GivesUp

theorem passesOn_deadLetter (row : DeadLetterRow) : PassesOn (deadLetter row) := by
  apply stopsWith_bind (passesOn_perform (ConsumerStmt.insertDeadLetter row))
  · exact fun e => ⟨_, rfl, e, rfl⟩
  · exact fun _ => trivial

theorem passesOn_applyEvent (e : UsageEvent) : PassesOn (applyEvent e) := by
  apply stopsWith_bind (passesOn_perform (ConsumerStmt.insertEvent e))
  · exact fun err => ⟨_, rfl, err, rfl⟩
  · rintro ⟨inserted, stored⟩
    show PassesOn (if inserted then _ else _)
    split
    · trivial
    split <;> trivial

/-- A batch rolls back when a statement fails. -/
theorem givesUp_processRecords (decode : Decoder) (consumer : String) (stop n offset : Nat)
    (stats : Stats) : GivesUp (processRecords decode consumer stop n offset stats) := by
  induction n generalizing offset stats with
  | zero =>
      apply stopsWith_bind (passesOn_perform (ConsumerStmt.commitOffset consumer stop))
      · exact fun e => ⟨_, rfl, _, rfl⟩
      · exact fun _ => trivial
  | succ n ih =>
      apply stopsWith_bind (passesOn_perform (ConsumerStmt.readLog offset))
      · exact fun e => ⟨_, rfl, _, rfl⟩
      intro record
      dsimp only
      cases decode record with
      | error detail =>
          apply stopsWith_bind (passesOn_deadLetter _)
          · exact fun e => ⟨_, rfl, _, rfl⟩
          · exact fun _ => ih _ _
      | ok e =>
          apply stopsWith_bind (passesOn_applyEvent e)
          · exact fun err => ⟨_, rfl, _, rfl⟩
          intro applied
          cases applied with
          | inserted | duplicate => exact ih _ _
          | conflict =>
              apply stopsWith_bind (passesOn_deadLetter _)
              · exact fun err => ⟨_, rfl, _, rfl⟩
              · exact fun _ => ih _ _

theorem givesUp_processBatch (decode : Decoder) (c : Consumer)
    (start stop : Nat) : GivesUp (processBatch decode c start stop) :=
  givesUp_processRecords decode c.name stop (stop - start) start _

/-- A batch on its own that commits has not met a failure. -/
theorem runBody_of_batch {cols : Columns} {decode : Decoder}
    {c : Consumer} {start stop : Nat} {stats : Stats} {x y : BatchTxn}
    (h : Program.Ends (consumerEngine cols).Statement (processBatch decode c start stop) x
      (.commit stats) y) :
    (consumerEngine cols).runBody (processBatch decode c start stop) x = (.commit stats, y) :=
  Engine.runBody_of_ends h (givesUp_processBatch decode c start stop) fun ⟨_, he⟩ => (nomatch he)

end GivesUp

end LedgerLine.Billing
