import LedgerLine.Broker.Leftover

/-!
# A damaged length on the way to a record

`segment.read` of `broker/log/segment.go` walks from an index entry to its target over record
headers, and trusts their lengths: only the record it arrives at is checked against its
checksum.  `Leads` is this walk as a relation on the bytes of the file.

When the length of one record is damaged, a read either does not cross it, or goes where the
damaged length and the headers behind it lead.  The payload it returns is then the one of the
whole record that stands there, if there is one (`damaged_length_iff`).
-/

namespace LedgerLine.Broker

/-- The length field of the record at `x`. -/
def lengthAt (data : Bytes) (x : Nat) : Nat :=
  getBE ((data.drop x).take lengthSize)

/-- Crossing `n` records from `x` on leads to `y`: each length on the way is plausible, and its
record ends inside the file. -/
inductive Leads (data : Bytes) : Nat → Nat → Nat → Prop
  | stop (x : Nat) : Leads data 0 x x
  | skip {n x y : Nat} (hlength : lengthAt data x ≤ maxRecordSize)
      (hinside : x + (recordHeaderSize + lengthAt data x) ≤ data.length)
      (h : Leads data n (x + (recordHeaderSize + lengthAt data x)) y) : Leads data (n + 1) x y

section Walking

variable {crc : Checksum} {data : Bytes} {n x y : Nat}

theorem skipRecord_eq_ok_iff {size : Nat} :
    skipRecord (data.drop x) = .ok size ↔
      lengthAt data x ≤ maxRecordSize ∧ x + size ≤ data.length ∧
        size = recordHeaderSize + lengthAt data x := by
  unfold skipRecord lengthAt
  generalize getBE ((data.drop x).take lengthSize) = length
  simp only [List.length_drop, recordHeaderSize_eq, maxRecordSize_eq]
  split_ifs <;> simp <;> omega

/-- The walk of `read` goes where the bytes lead. -/
theorem skipRecords_eq_ok_iff :
    Segment.skipRecords n (data.drop x) x = .ok y ↔ Leads data n x y := by
  induction n generalizing x with
  | zero =>
      rw [Segment.skipRecords, Except.ok.injEq]
      constructor
      · rintro rfl
        exact .stop x
      · rintro ⟨⟩
        rfl
  | succ n ih =>
      rw [Segment.skipRecords]
      cases hskip : skipRecord (data.drop x) with
      | error e =>
          refine iff_of_false (by simp) fun h => ?_
          cases h with
          | skip hlength hinside h =>
              rw [skipRecord_eq_ok_iff.2 ⟨hlength, hinside, rfl⟩] at hskip
              cases hskip
      | ok size =>
          obtain ⟨hlength, hinside, rfl⟩ := skipRecord_eq_ok_iff.1 hskip
          simp only [List.drop_drop, ih]
          constructor
          · exact fun h => .skip hlength hinside h
          · rintro ⟨⟩
            assumption

/-- A record is read exactly where its bytes stand. -/
theorem readRecord_eq_ok_iff {r q : Bytes} :
    (∃ size, readRecord crc r = .ok (q, size)) ↔ Legal q ∧ recordBytes crc q <+: r := by
  constructor
  · rintro ⟨size, h⟩
    obtain ⟨hlegal, -, hr⟩ := readRecord_sound h
    exact ⟨hlegal, _, hr.symm⟩
  · rintro ⟨hlegal, t, rfl⟩
    exact ⟨_, readRecord_recordBytes hlegal t⟩

/-- No two records stand at one place. -/
theorem eq_of_recordBytes_isPrefix {r p q : Bytes} (hp : Legal p) (hq : Legal q)
    (hpr : recordBytes crc p <+: r) (hqr : recordBytes crc q <+: r) : p = q := by
  obtain ⟨m, hm⟩ := readRecord_eq_ok_iff.2 ⟨hp, hpr⟩
  obtain ⟨n, hn⟩ := readRecord_eq_ok_iff.2 ⟨hq, hqr⟩
  rw [hm] at hn
  cases hn
  rfl

/-- A walk crosses a record that stands there. -/
theorem leads_succ_iff {p : Bytes} (hp : Legal p) (hpre : recordBytes crc p <+: data.drop x) :
    Leads data (n + 1) x y ↔ Leads data n (x + (8 + p.length)) y := by
  have hlength : lengthAt data x = p.length := by
    obtain ⟨t, ht⟩ := hpre
    rw [lengthAt, ← ht, take_lengthSize, getBE_lengthField hp]
  have hinside : x + (8 + p.length) ≤ data.length := by
    have hle := hpre.length_le
    rw [recordBytes_length, List.length_drop] at hle
    omega
  constructor
  · rintro ⟨⟩
    rename_i h
    rwa [hlength, recordHeaderSize_eq] at h
  · intro h
    refine .skip (by rw [hlength]; exact hp) (by rw [hlength]; exact hinside) ?_
    rw [hlength]
    exact h

/-- A walk crosses the records from `m` to `k` when they all stand at their places. -/
theorem leads_records_iff {ps : List Bytes} (hlegal : ∀ p ∈ ps, Legal p) {m k : Nat} (hmk : m ≤ k)
    (hk : k ≤ ps.length)
    (hpre : ∀ i (hi : i < ps.length), m ≤ i → i < k →
      recordBytes crc ps[i] <+: data.drop (position crc ps i)) :
    Leads data (n + (k - m)) (position crc ps m) y ↔ Leads data n (position crc ps k) y := by
  induction k, hmk using Nat.le_induction generalizing n with
  | base =>
      rw [Nat.sub_self, Nat.add_zero]
  | succ k hmk ih =>
      have hstep := @leads_succ_iff crc data n _ y _ (hlegal _ (List.getElem_mem hk))
        (hpre k hk hmk (Nat.lt_succ_self k))
      rw [position_succ crc hk, ← hstep,
        ← ih (le_of_lt hk) fun i hi hmi hik => hpre i hi hmi (Nat.lt_succ_of_lt hik)]
      rw [show n + (k + 1 - m) = n + 1 + (k - m) by omega]

end Walking

section Damage

variable {crc : Checksum} {b j k : Nat} {ps : List Bytes} {s : Segment} {d : Dir Path}
  {field : Bytes}

/-- A read of record `k` returns the payload of the record to which the bytes lead. -/
theorem Segment.read_eq_ok_iff (hbase : s.baseOffset = b) (hnext : b + k < s.nextOffset)
    (hk : k < 2 ^ 32) {data q : Bytes} (hlen : data.length = s.size) :
    s.read crc data (b + k) = .ok q ↔
      ∃ y, Leads data (k - (s.entryFor k).relOffset) (s.entryFor k).position y ∧
        Legal q ∧ recordBytes crc q <+: data.drop y := by
  have hsection : ∀ x, s.sectionFrom data x = data.drop x := by
    intro x
    rw [Segment.sectionFrom, ← hlen, ← List.length_drop, List.take_length]
  have hrange : ¬ (b + k < s.baseOffset ∨ b + k ≥ s.nextOffset) := by
    omega
  have htarget : (b + k - s.baseOffset) % 2 ^ 32 = k := by
    rw [hbase, Nat.add_sub_cancel_left, Nat.mod_eq_of_lt hk]
  have hstart : (s.index.lookup k).getD ⟨0, segmentHeaderSize⟩ = s.entryFor k := rfl
  simp only [← skipRecords_eq_ok_iff, ← @readRecord_eq_ok_iff crc]
  rw [Segment.read, if_neg hrange]
  simp only [htarget, hsection, hstart]
  rcases Segment.skipRecords _ _ _ with e | y
  · simp
  simp only [Except.ok.injEq, exists_eq_left']
  cases readRecord crc (data.drop y) with
  | error e => simp
  | ok r => simp [Prod.ext_iff]

/-- The file of a segment after the length field of record `j` was changed. -/
def damaged (crc : Checksum) (data : Bytes) (ps : List Bytes) (j : Nat) (field : Bytes) :
    Bytes :=
  overwrite data (position crc ps j) field

variable (h : RightSoFar crc b ps s d) (hfield : field.length = lengthSize) (hj : j < ps.length)

include h hfield hj

/-- The length field is inside the file. -/
theorem RightSoFar.field_inside :
    position crc ps j + field.length ≤ (d.file (.segment b)).data.length := by
  have hsucc := position_succ crc hj
  have hle := position_mono crc ps (show j + 1 ≤ ps.length from hj)
  rw [position_length] at hle
  rw [h.data, List.length_append, headerBytes_length, hfield]
  simp only [lengthSize]
  omega

theorem RightSoFar.length_damaged :
    (damaged crc (d.file (.segment b)).data ps j field).length = s.size := by
  rw [damaged, length_overwrite _ _ (h.field_inside hfield hj), h.data, h.size, position_length,
    List.length_append, headerBytes_length]

/-- All other records stand where they stood. -/
theorem RightSoFar.isPrefix_damaged (hk : k < ps.length) (hjk : j ≠ k) :
    recordBytes crc ps[k] <+:
      (damaged crc (d.file (.segment b)).data ps j field).drop (position crc ps k) := by
  have hinside := h.field_inside hfield hj
  have hbefore : recordBytes crc ps[k] <+:
      (d.file (.segment b)).data.drop (position crc ps k) := by
    have hdrop := drop_position crc b ps [] k
    rw [List.append_nil, List.append_nil, List.drop_eq_getElem_cons hk, recordsBytes_cons] at hdrop
    rw [h.data, hdrop]
    exact List.prefix_append _ _
  unfold damaged
  rcases Nat.lt_or_gt_of_ne hjk with hlt | hgt
  · -- behind the field
    have hle := position_mono crc ps (show j + 1 ≤ k from hlt)
    have hsucc := position_succ crc hj
    rw [drop_overwrite_of_le _ _ (by omega)]
    · exact hbefore
    · rw [hfield]
      simp only [lengthSize]
      omega
  · -- before it
    have hle := position_mono crc ps (show k + 1 ≤ j from hgt)
    have hsucc := position_succ crc hk
    rw [List.prefix_iff_eq_take] at hbefore ⊢
    rw [List.take_drop, take_overwrite_of_le _ _ (by omega), ← List.take_drop]
    · exact hbefore
    · rw [recordBytes_length]
      omega

/-- Whether a read crosses the damaged length or not, it returns nothing but the payload asked
for, unless the damage leads to another whole record. -/
theorem damaged_length_iff (hk : k < ps.length) (hjk : j ≠ k) :
    (∀ q, s.read crc (damaged crc (d.file (.segment b)).data ps j field) (b + k) = .ok q →
        q = ps[k]) ↔
      ¬ ((s.entryFor k).relOffset ≤ j ∧ j < k ∧
        ∃ y q, Leads (damaged crc (d.file (.segment b)).data ps j field) (k - j)
            (position crc ps j) y ∧
          q ≠ ps[k] ∧ Legal q ∧
          recordBytes crc q <+:
            (damaged crc (d.file (.segment b)).data ps j field).drop y) := by
  have hread := fun q => @Segment.read_eq_ok_iff crc b k s h.base (by rw [h.next]; omega)
    (h.indexable.lt hk) _ q (h.length_damaged hfield hj)
  have hstand := fun i (hi : i < ps.length) (hji : j ≠ i) => h.isPrefix_damaged hfield hj hi hji
  obtain ⟨hle, hpos⟩ := Segment.entryFor_of_honest h.entries hk
  rw [hpos] at hread
  generalize damaged crc (d.file (.segment b)).data ps j field = data at hread hstand ⊢
  generalize (s.entryFor k).relOffset = i at hread hle ⊢
  by_cases hcross : i ≤ j ∧ j < k
  · -- the walk goes up to the damaged record, then where it leads
    obtain ⟨hij, hlt⟩ := hcross
    have hwalk : ∀ y, Leads data (k - i) (position crc ps i) y ↔
        Leads data (k - j) (position crc ps j) y := by
      intro y
      rw [← leads_records_iff h.legal hij (le_of_lt hj)
        fun m hm _ hmj => hstand m hm (Nat.ne_of_gt hmj)]
      rw [show k - j + (j - i) = k - i by omega]
    simp only [hread, hwalk]
    constructor
    · rintro hall ⟨-, -, y, q, hy, hne, hq, hpre⟩
      exact hne (hall q ⟨y, hy, hq, hpre⟩)
    · rintro hnone q ⟨y, hy, hq, hpre⟩
      by_contra hne
      exact hnone ⟨hij, hlt, y, q, hy, hne, hq, hpre⟩
  · -- every record on the way stands where it stood
    have hwalk : ∀ y, Leads data (k - i) (position crc ps i) y ↔
        Leads data 0 (position crc ps k) y := by
      intro y
      rw [← leads_records_iff h.legal hle (le_of_lt hk)
        fun m hm him hmk => hstand m hm (by omega)]
      rw [Nat.zero_add]
    refine iff_of_true (fun q hq => ?_) fun hcon => hcross ⟨hcon.1, hcon.2.1⟩
    obtain ⟨y, hy, hq, hpre⟩ := (hread q).1 hq
    cases (hwalk y).1 hy
    exact eq_of_recordBytes_isPrefix hq (h.legal _ (List.getElem_mem hk)) hpre (hstand k hk hjk)

end Damage

/-- Three records of one byte, appended to a new segment in an empty directory. -/
theorem rightSoFar_threeRecords :
    ∃ (s : Segment) (w : World), RightSoFar crc32c 0 [[1], [2], [3]] s w.dir ∧
      s = ⟨.segment 0, ⟨.index 0, [⟨0, 16⟩]⟩, 0, 3, 43, 16⟩ ∧
      (w.dir.file (.segment 0)).data = headerBytes 0 ++ recordsBytes crc32c [[1], [2], [3]] := by
  have h₁ := @SegmentRun.created crc32c 0 Segment.PlacesNext (fun d ps => Harmless crc32c d 0 ps)
    ⟨Dir.empty, Coord.new⟩ ⟨.segment 0, ⟨.index 0, []⟩, 0, 0, 16, 16⟩ (by decide +kernel)
  have h₂ := h₁.appended [1] (by decide) (by decide) (by decide +kernel)
  have h₃ := h₂.appended [2] (by decide) (by decide +kernel) (by decide +kernel)
  have h₄ := h₃.appended [3] (by decide) (by decide +kernel) (by decide +kernel)
  have hright := rightSoFar_of_run (by decide) (by decide) h₄
  exact ⟨_, _, hright, by decide +kernel, hright.data⟩

/-- A length that points past the end of the file is noticed. -/
theorem damaged_length_noticed :
    ∃ (s : Segment) (w : World), RightSoFar crc32c 0 [[1], [2], [3]] s w.dir ∧
      ∀ q, s.read crc32c
          (damaged crc32c (w.dir.file (.segment 0)).data [[1], [2], [3]] 0 [0, 0, 0, 200])
          (0 + 1) = .ok q → q = [2] := by
  obtain ⟨s, w, hright, -, hdata⟩ := rightSoFar_threeRecords
  refine ⟨s, w, hright,
    (@damaged_length_iff crc32c 0 0 1 _ s w.dir [0, 0, 0, 200] hright rfl (by decide) (by decide)
      (by decide)).2 ?_⟩
  rintro ⟨-, -, y, q, hleads, -⟩
  cases hleads with
  | skip hlength hinside h =>
      rw [hdata] at hinside
      revert hinside
      decide +kernel

/-- With the length of the first record changed from 1 to 10, the walk to the second record
crosses both and returns the third. -/
theorem damaged_length_misleads :
    ∃ (s : Segment) (w : World), RightSoFar crc32c 0 [[1], [2], [3]] s w.dir ∧
      s.read crc32c
          (damaged crc32c (w.dir.file (.segment 0)).data [[1], [2], [3]] 0 [0, 0, 0, 10])
          (0 + 1) = .ok [3] := by
  obtain ⟨s, w, hright, hs, hdata⟩ := rightSoFar_threeRecords
  refine ⟨s, w, hright, ?_⟩
  rw [hs, hdata]
  decide +kernel

end LedgerLine.Broker
