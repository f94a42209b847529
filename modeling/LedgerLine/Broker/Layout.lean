import LedgerLine.Broker.Segment

/-!
# What a healthy segment looks like on disk

The bytes of a list of records, where each of them starts, and what it means for
an index to be truthful about them.

Main facts:
* `drop_position`: dropping up to the start of record `k` leaves records `k`, `k + 1`, …;
* `skipRecords_recordsBytes`: walking over `n` headers lands on record `n`;
* `lookup_some`: a lookup returns an entry of the index at or before its target,
  sorted or not;
* `Segment.read_spec`: reading through a truthful index returns the record asked for.
-/

namespace LedgerLine.Broker

section Records

variable (crc : Checksum)

/-- The bytes of a list of records. -/
def recordsBytes (ps : List Bytes) : Bytes :=
  ps.flatMap (recordBytes crc)

/-- Where record `k` starts in the segment file. -/
def position (ps : List Bytes) (k : Nat) : Nat :=
  segmentHeaderSize + (recordsBytes crc (ps.take k)).length

/-- The bytes of a list of index entries. -/
def entriesBytes (es : List IndexEntry) : Bytes :=
  es.flatMap entryBytes

/-- The entries name records of `ps`, each at its true position, in order. -/
structure Truthful (ps : List Bytes) (es : List IndexEntry) : Prop where
  sorted : es.Pairwise (fun a b => a.relOffset < b.relOffset)
  honest : ∀ e ∈ es, e.relOffset < ps.length ∧ e.position = position crc ps e.relOffset

/-- Every record starts where an index entry can point. -/
def Indexable (ps : List Bytes) : Prop :=
  ∀ k, k < ps.length → position crc ps k < maxIndexableSegment

end Records

section Positions

variable (crc : Checksum)

@[simp] theorem recordsBytes_nil : recordsBytes crc [] = [] := by
  rfl

@[simp] theorem recordsBytes_cons (p : Bytes) (ps : List Bytes) :
    recordsBytes crc (p :: ps) = recordBytes crc p ++ recordsBytes crc ps := by
  rfl

@[simp] theorem recordsBytes_append (ps qs : List Bytes) :
    recordsBytes crc (ps ++ qs) = recordsBytes crc ps ++ recordsBytes crc qs := by
  simp [recordsBytes]

@[simp] theorem position_zero (ps : List Bytes) : position crc ps 0 = 16 := by
  simp [position]

variable {k : Nat} {ps : List Bytes} {es : List IndexEntry}

theorem position_succ (hk : k < ps.length) :
    position crc ps (k + 1) = position crc ps k + (8 + (ps[k]).length) := by
  unfold position
  rw [List.take_succ_eq_append_getElem hk, recordsBytes_append, List.length_append]
  simp
  omega

theorem position_mono (ps : List Bytes) {j : Nat} (h : j ≤ k) :
    position crc ps j ≤ position crc ps k := by
  unfold position
  have hsplit : ps.take k = ps.take j ++ (ps.take k).drop j := by
    conv_lhs => rw [← List.take_append_drop j (ps.take k)]
    rw [List.take_take, Nat.min_eq_left h]
  rw [hsplit, recordsBytes_append, List.length_append]
  omega

theorem header_le_position (ps : List Bytes) (k : Nat) : 16 ≤ position crc ps k := by
  simp [position]

/-- Records are at least eight bytes long. -/
theorem le_position (h : k ≤ ps.length) : 16 + 8 * k ≤ position crc ps k := by
  induction k with
  | zero => simp
  | succ k ih =>
      have hk : k < ps.length := h
      have hs := position_succ crc hk
      have := ih (le_of_lt hk)
      omega

theorem position_append_left {qs : List Bytes} (h : k ≤ ps.length) :
    position crc (ps ++ qs) k = position crc ps k := by
  unfold position
  rw [List.take_append_of_le_length h]

theorem position_length (ps : List Bytes) :
    position crc ps ps.length = 16 + (recordsBytes crc ps).length := by
  simp [position]

/-- Dropping the file up to the start of record `k` leaves the records from `k` on. -/
theorem drop_position (b : Nat) (ps : List Bytes) (t : Bytes) (k : Nat) :
    (headerBytes b ++ recordsBytes crc ps ++ t).drop (position crc ps k) =
      recordsBytes crc (ps.drop k) ++ t := by
  have hsplit : headerBytes b ++ recordsBytes crc ps ++ t =
      (headerBytes b ++ recordsBytes crc (ps.take k)) ++
        (recordsBytes crc (ps.drop k) ++ t) := by
    conv_lhs => rw [← List.take_append_drop k ps]
    simp only [recordsBytes_append, List.append_assoc]
  rw [hsplit]
  apply List.drop_left'
  simp [position]

variable {crc}

theorem Indexable.append_left {qs : List Bytes} (h : Indexable crc (ps ++ qs)) :
    Indexable crc ps := by
  intro k hk
  have := h k (by simp; omega)
  rwa [position_append_left crc (le_of_lt hk)] at this

/-- A record at a position that an index entry can hold keeps a segment indexable. -/
theorem Indexable.concat {p : Bytes} (h : Indexable crc ps)
    (hpos : position crc ps ps.length < maxIndexableSegment) : Indexable crc (ps ++ [p]) := by
  intro k hk
  rw [List.length_append, List.length_singleton] at hk
  rcases Nat.lt_or_ge k ps.length with hlt | hge
  · rw [position_append_left crc (le_of_lt hlt)]
    exact h k hlt
  · have hkeq : k = ps.length := by
      omega
    rw [hkeq, position_append_left crc (le_refl _)]
    exact hpos

/-- Records that all start at most an interval too late for an index entry are fewer than a
`uint32` counts. -/
theorem length_lt_of_near
    (h : ∀ k, k < ps.length → position crc ps k < maxIndexableSegment + indexIntervalBytes) :
    ps.length < 2 ^ 32 := by
  rcases Nat.eq_zero_or_pos ps.length with hzero | hpos
  · omega
  · have hk : ps.length - 1 < ps.length := Nat.sub_lt hpos Nat.one_pos
    have h₁ := h _ hk
    have h₂ := le_position crc (le_of_lt hk)
    rw [maxIndexableSegment_eq, indexIntervalBytes_eq] at h₁
    omega

theorem Indexable.length_lt (h : Indexable crc ps) : ps.length < 2 ^ 32 :=
  length_lt_of_near fun k hk => Nat.lt_add_right _ (h k hk)

theorem Indexable.lt (h : Indexable crc ps) (hk : k < ps.length) : k < 2 ^ 32 :=
  hk.trans h.length_lt

theorem Indexable.length_le (h : Indexable crc ps) : ps.length ≤ 2 ^ 32 :=
  le_of_lt h.length_lt

theorem Truthful.nil (ps : List Bytes) : Truthful crc ps [] :=
  ⟨List.Pairwise.nil, fun _ h => absurd h (List.not_mem_nil)⟩

/-- More records do not make an index wrong. -/
theorem Truthful.append_right (h : Truthful crc ps es) (qs : List Bytes) :
    Truthful crc (ps ++ qs) es := by
  refine ⟨h.sorted, fun e he => ?_⟩
  obtain ⟨hlt, hpos⟩ := h.honest e he
  refine ⟨by simp; omega, ?_⟩
  rw [position_append_left crc (le_of_lt hlt)]
  exact hpos

theorem Truthful.sublist {es' : List IndexEntry} (h : Truthful crc ps es) (hs : es'.Sublist es) :
    Truthful crc ps es' :=
  ⟨h.sorted.sublist hs, fun e he => h.honest e (hs.subset he)⟩

end Positions

section Reading

variable {crc : Checksum}

/-- Walking over `n` headers moves by the size of `n` records. -/
theorem skipRecords_recordsBytes (crc : Checksum) {ps : List Bytes} (hlegal : ∀ p ∈ ps, Legal p)
    (t : Bytes) (n : Nat) (hn : n ≤ ps.length) (start : Nat) :
    Segment.skipRecords n (recordsBytes crc ps ++ t) start =
      .ok (start + (recordsBytes crc (ps.take n)).length) := by
  induction n generalizing ps start with
  | zero => simp [Segment.skipRecords]
  | succ n ih =>
      cases ps with
      | nil => simp at hn
      | cons p ps =>
          have hp : Legal p := hlegal p (by simp)
          have hps : ∀ q ∈ ps, Legal q := fun q hq => hlegal q (by simp [hq])
          have hdrop : (recordBytes crc p ++ (recordsBytes crc ps ++ t)).drop
              (8 + p.length) = recordsBytes crc ps ++ t := by
            apply List.drop_left'
            simp
          simp only [Segment.skipRecords, recordsBytes_cons, List.append_assoc,
            skipRecord_recordBytes hp, hdrop]
          rw [ih hps (by simpa using hn)]
          simp
          omega

/-- A lookup returns an entry of the index at or before its target. -/
theorem lookup_some {ix : Index} {target : Nat} {e : IndexEntry}
    (h : ix.lookup target = some e) : e ∈ ix.entries ∧ e.relOffset ≤ target := by
  unfold Index.lookup at h
  split at h
  · cases h
  · rename_i i hi
    have hf := search_pred_false hi
    refine ⟨List.mem_of_getElem? h, ?_⟩
    simpa [h] using hf

/-- The entry from which the walk to record `k` starts. -/
def Segment.entryFor (s : Segment) (k : Nat) : IndexEntry :=
  (s.index.lookup k).getD ⟨0, segmentHeaderSize⟩

theorem Segment.entryFor_of_honest {s : Segment} {ps : List Bytes}
    (hhonest : ∀ e ∈ s.index.entries,
      e.relOffset < ps.length → e.position = position crc ps e.relOffset)
    {k : Nat} (hk : k < ps.length) :
    (s.entryFor k).relOffset ≤ k ∧
      (s.entryFor k).position = position crc ps (s.entryFor k).relOffset := by
  unfold Segment.entryFor
  cases hl : s.index.lookup k with
  | none => simp
  | some e =>
      obtain ⟨hmem, hle⟩ := lookup_some hl
      exact ⟨hle, hhonest e hmem (lt_of_le_of_lt hle hk)⟩

/-- Reading through entries that are honest about the records there are returns the record
asked for. -/
theorem Segment.read_spec {s : Segment} {ps : List Bytes} {t : Bytes}
    (hlegal : ∀ p ∈ ps, Legal p) (hcount : ps.length ≤ 2 ^ 32)
    (hhonest : ∀ e ∈ s.index.entries,
      e.relOffset < ps.length → e.position = position crc ps e.relOffset)
    (hnext : s.nextOffset = s.baseOffset + ps.length)
    (hsize : s.size = position crc ps ps.length)
    {k : Nat} (hk : k < ps.length) :
    s.read crc (headerBytes s.baseOffset ++ recordsBytes crc ps ++ t) (s.baseOffset + k) =
      .ok ps[k] := by
  have hrange : ¬ (s.baseOffset + k < s.baseOffset ∨ s.baseOffset + k ≥ s.nextOffset) := by
    omega
  have htarget : (s.baseOffset + k - s.baseOffset) % 2 ^ 32 = k := by
    rw [Nat.add_sub_cancel_left, Nat.mod_eq_of_lt (lt_of_lt_of_le hk hcount)]
  -- the bytes from the start of record `j` to the end of the segment
  have hsection : ∀ j, j ≤ ps.length →
      s.sectionFrom (headerBytes s.baseOffset ++ recordsBytes crc ps ++ t)
        (position crc ps j) = recordsBytes crc (ps.drop j) := by
    intro j hj
    unfold Segment.sectionFrom
    rw [drop_position]
    apply List.take_left'
    have hsum : (recordsBytes crc (ps.take j)).length + (recordsBytes crc (ps.drop j)).length =
        (recordsBytes crc ps).length := by
      rw [← List.length_append, ← recordsBytes_append, List.take_append_drop]
    rw [hsize, position_length, position, segmentHeaderSize_eq]
    omega
  -- wherever the walk starts, it starts on a record at or before the target
  obtain ⟨hjk, hpos⟩ := Segment.entryFor_of_honest hhonest hk
  have hstart : (s.index.lookup k).getD ⟨0, segmentHeaderSize⟩ =
      ⟨(s.entryFor k).relOffset, position crc ps (s.entryFor k).relOffset⟩ := by
    rw [← hpos]
    rfl
  generalize (s.entryFor k).relOffset = j at hjk hstart
  have hwalk : Segment.skipRecords (k - j) (recordsBytes crc (ps.drop j)) (position crc ps j) =
      .ok (position crc ps k) := by
    have hl : ∀ p ∈ ps.drop j, Legal p := fun p hp => hlegal p (List.mem_of_mem_drop hp)
    have h := skipRecords_recordsBytes crc hl [] (k - j)
      (by rw [List.length_drop]; omega) (position crc ps j)
    rw [List.append_nil] at h
    rw [h]
    have hsplit : ps.take k = ps.take j ++ (ps.drop j).take (k - j) := by
      rw [← List.take_add]
      congr 1
      omega
    simp only [position, hsplit, recordsBytes_append, List.length_append, Nat.add_assoc]
  have hread : readRecord crc (recordsBytes crc (ps.drop k)) =
      .ok (ps[k], 8 + (ps[k]).length) := by
    rw [List.drop_eq_getElem_cons hk, recordsBytes_cons]
    exact readRecord_recordBytes (hlegal _ (List.getElem_mem hk)) _
  unfold Segment.read
  rw [if_neg hrange]
  simp only [htarget, hstart]
  rw [hsection j (by omega), hwalk]
  simp only [hsection k (le_of_lt hk), hread]

end Reading

end LedgerLine.Broker
