import LedgerLine.Billing.Delivery

/-!
# A log that loses its end

A power loss may take the last records of the log away.  As long as no record goes that a
committed batch has processed, the tables are still what the log says (`Good.take`), and
every record that a consumer has passed is accounted for (`Good.accounted`).
-/

namespace LedgerLine.Billing

/-- The record's event is stored, or the record is a dead letter of the consumer. -/
def Accounted (decode : Decoder) (consumer : String) (db : Database)
    (record : Bytes) : Prop :=
  (∃ e, decode record = .ok e ∧ ∃ row ∈ db.events, row.key = e.key) ∨
    ∃ row ∈ db.deadLetters, row.consumer = consumer ∧ row.record = record

namespace Delivery

section Kept

variable {cols : Columns} {decode : Decoder} {w : World}

/-- What the tables say of the records that a consumer has passed. -/
theorem Good.accounted (h : Good cols decode w) {c : String} {k : Nat} {record : Bytes}
    (hk : k < w.reached c) (hrecord : w.log[k]? = some record) :
    Accounted decode c w.db record := by
  cases hdecode : decode record with
  | ok e =>
      obtain ⟨m, hstored, hreached⟩ := h.stored
      exact Or.inl ⟨e, hdecode, hstored.complete k (Nat.lt_of_lt_of_le hk (hreached c)) e
        (slots_eq_some.2 ⟨record, hrecord, hdecode⟩)⟩
  | error detail =>
      have hletter : LetterAt decode c w.log k (undecodableLetter c k detail record) :=
        .undecodable hrecord hdecode
      obtain ⟨row, hrow, hkey⟩ := h.buried.complete c k _ hk hletter
      have hc : row.consumer = c := congrArg Prod.fst hkey
      -- the row under this key is the letter of this record
      obtain ⟨k', -, hletter'⟩ := h.buried.sound row hrow
      rw [hc] at hletter'
      have hk' : k' = k := congrArg Prod.snd (hletter'.key_eq.symm.trans hkey)
      subst hk'
      refine Or.inr ⟨row, hrow, hc, ?_⟩
      rw [hletter'.unique hletter]
      rfl

variable (cols decode) in
/-- Every event is due to a record that a committed batch has processed. -/
def Processed (w : World) : Prop :=
  ∀ row ∈ w.db.events, ∃ c, ∃ q < w.reached c, FirstRow cols decode w.log q row

theorem Processed.commit {c : String} {ws : List Write} (h : Processed cols decode w)
    (hready : Ready cols decode c w ws) :
    Processed cols decode ((consumerEngine cols).view w ws) := by
  obtain ⟨start, stop, ws, rfl, hknown⟩ := hready
  intro row hrow
  rw [commit_events hknown.kinds] at hrow
  rw [commit_log hknown.kinds]
  rcases List.mem_append.1 hrow with hrow | hrow
  · obtain ⟨c', q, hq, hfirst⟩ := h row hrow
    exact ⟨c', q, Nat.lt_of_lt_of_le hq (view_reached cols w _ c'), hfirst⟩
  · obtain ⟨q, hq, hfirst⟩ := hknown.sound row hrow
    refine ⟨c, q, ?_, hfirst⟩
    rw [commit_reached hknown.kinds, if_pos rfl]
    exact Nat.lt_of_lt_of_le hq (Nat.le_max_right _ _)

variable (cols decode) in
/-- What the consumers keep of a log that may lose its end. -/
def keptContract : Contract cols decode :=
  (contract cols decode).also (Processed cols decode) fun _ _ _ _ hready h => h.commit hready

theorem Processed.append (h : Processed cols decode w) (records : List Bytes) :
    Processed cols decode { w with log := w.log ++ records } := by
  intro row hrow
  obtain ⟨c, q, hq, hfirst⟩ := h row hrow
  exact ⟨c, q, hq, hfirst.mono (List.prefix_append _ _)⟩

/-- A first occurrence among the first records. -/
theorem FirstRow.take {log : List Bytes} {q n : Nat} {row : EventRow}
    (h : FirstRow cols decode log q row) (hq : q < n) :
    FirstRow cols decode (log.take n) q row := by
  obtain ⟨e, hfirst, hrow⟩ := h
  refine ⟨e, ?_, hrow⟩
  rw [slots_take, firstAt_take]
  exact ⟨hq, hfirst⟩

section Take

variable {n : Nat} (hn : ∀ c, w.reached c ≤ n)
include hn

theorem Processed.take (h : Processed cols decode w) :
    Processed cols decode { w with log := w.log.take n } := by
  intro row hrow
  obtain ⟨c, q, hq, hfirst⟩ := h row hrow
  exact ⟨c, q, hq, hfirst.take (Nat.lt_of_lt_of_le hq (hn c))⟩

/-- The records that are lost have left nothing in the tables. -/
theorem Good.take (h : Good cols decode w) (hprocessed : Processed cols decode w) :
    Good cols decode { w with log := w.log.take n } := by
  have hlog := List.take_prefix n w.log
  obtain ⟨m, hstored, hreached⟩ := h.stored
  have hbound := hstored.bound
  constructor
  · refine ⟨min m n, ⟨?_, hstored.nodup, ?_, ?_⟩, fun c => Nat.le_min.2 ⟨hreached c, hn c⟩⟩
    · show min m n ≤ (w.log.take n).length
      rw [List.length_take]
      omega
    · intro row hrow
      obtain ⟨c, q, hq, hfirst⟩ := hprocessed.take hn row hrow
      exact ⟨q, Nat.lt_of_lt_of_le hq (Nat.le_min.2 ⟨hreached c, hn c⟩), hfirst⟩
    · intro p hp e he
      obtain ⟨record, hrecord, hdecode⟩ := slots_eq_some.1 he
      have hfull : w.log[p]? = some record := by
        rw [← hrecord]
        exact (List.getElem?_take_of_lt (by omega)).symm
      exact hstored.complete p (by omega) e (slots_eq_some.2 ⟨record, hfull, hdecode⟩)
  · refine ⟨h.buried.nodup, ?_, ?_⟩
    · intro row hrow
      obtain ⟨p, hp, hletter⟩ := h.buried.sound row hrow
      refine ⟨p, hp, hletter.of_append hlog ?_⟩
      have hc := hn row.consumer
      have hlt := hletter.lt_length
      rw [List.length_take]
      omega
    · intro c p row hp hletter
      exact h.buried.complete c p row hp (hletter.mono hlog)
  · exact h.offsets

end Take

/-- Records arrive while the consumers are at work. -/
theorem kept_append {consumers : Nat → Consumer} {f : Fleet}
    (h : FleetInv (keptContract cols decode) consumers f) (records : List Bytes) :
    FleetInv (keptContract cols decode) consumers
      (f.withWorld { f.world with log := f.world.log ++ records }) := by
  obtain ⟨hgood, hprocessed⟩ := h.good
  have hgood' := Good.append hgood records
  refine h.change ⟨hgood', Processed.append hprocessed records⟩ (fun _ => Nat.le_refl _) ?_
  intro t s _
  exact ⟨grown_append hgood' s.writes, fun h => h.append records⟩

end Kept

end Delivery

end LedgerLine.Billing
