import LedgerLine.Broker.Recovery

/-!
# A whole log on disk

The segments of a log follow one another: each starts at the offset where the one
before it ends.  `OnDisk d qs` says that the directory holds exactly the segments `qs`,
one `Part` for each: the records it ever described and how many of them it still has.

Main facts:
* `OnDisk.crash`: a crash leaves the log on disk, and takes records only from the last
  segment and only such as are not durable;
* `openSegments_runs`: opening all segments.
-/

namespace LedgerLine.Broker

open Program

/-- The base offsets of consecutive segments with `ns` records each. -/
def bases : Nat → List Nat → List Nat
  | _, [] => []
  | b, n :: ns => b :: bases (b + n) ns

@[simp] theorem bases_nil (b : Nat) : bases b [] = [] := by
  rfl

@[simp] theorem bases_cons (b n : Nat) (ns : List Nat) :
    bases b (n :: ns) = b :: bases (b + n) ns := by
  rfl

theorem bases_append (b : Nat) (ns ms : List Nat) :
    bases b (ns ++ ms) = bases b ns ++ bases (b + ns.sum) ms := by
  induction ns generalizing b with
  | nil => simp
  | cons n ns ih => simp [ih, Nat.add_assoc]

theorem bases_le_sum {b c : Nat} {ns : List Nat} (h : c ∈ bases b ns) : c ≤ b + ns.sum := by
  induction ns generalizing b with
  | nil => simp at h
  | cons n ns ih =>
      rw [List.sum_cons]
      rcases List.mem_cons.mp h with rfl | h
      · omega
      · have := ih h
        omega

/-- The records a segment ever described, and how many of them it still has. -/
structure Part where
  all : List Bytes
  kept : Nat
deriving DecidableEq

/-- A segment that has lost nothing. -/
def Part.full (ps : List Bytes) : Part := ⟨ps, ps.length⟩

/-- The records a segment still has. -/
def Part.records (q : Part) : List Bytes :=
  q.all.take q.kept

@[simp] theorem Part.full_all (ps : List Bytes) : (Part.full ps).all = ps := by
  rfl

@[simp] theorem Part.full_kept (ps : List Bytes) : (Part.full ps).kept = ps.length := by
  rfl

@[simp] theorem Part.records_full (ps : List Bytes) : (Part.full ps).records = ps := by
  simp [Part.records]

section OnDisk

variable (crc : Checksum)

/-- The segments `qs` are stored, the first one with base offset `b`. -/
def StoredFrom (d : Dir Path) : Nat → List Part → Prop
  | _, [] => True
  | b, q :: qs =>
      (∃ tail es, Stored crc d b q.all q.kept tail es) ∧ StoredFrom d (b + q.kept) qs

/-- Everything in the segments `qs` is durable. -/
def SettledFrom (d : Dir Path) : Nat → List Part → Prop
  | _, [] => True
  | b, q :: qs =>
      position crc q.all q.kept ≤ (d.file (.segment b)).durable.length ∧
        SettledFrom d (b + q.kept) qs

/-- The directory holds a log with the segments `qs`. -/
structure OnDisk (d : Dir Path) (qs : List Part) : Prop where
  tidy : d.Tidy
  names : (segmentOffsets d.names).Perm (bases 0 (qs.map Part.kept))
  sorted : (bases 0 (qs.map Part.kept)).Pairwise (· < ·)
  indexed : ∀ c, Path.index c ∈ d.names → c ∈ segmentOffsets d.names
  legal : ∀ q ∈ qs, ∀ p ∈ q.all, Legal p
  indexable : ∀ q ∈ qs, Indexable crc q.all
  stored : StoredFrom crc d 0 qs

variable {crc}
variable {d d' : Dir Path} {b : Nat} {qs rs : List Part}

theorem storedFrom_append :
    StoredFrom crc d b (qs ++ rs) ↔
      StoredFrom crc d b qs ∧ StoredFrom crc d (b + (qs.map Part.kept).sum) rs := by
  induction qs generalizing b with
  | nil => simp [StoredFrom]
  | cons q qs ih =>
      simp only [List.cons_append, StoredFrom, ih, List.map_cons, List.sum_cons, and_assoc,
        Nat.add_assoc]

theorem settledFrom_append :
    SettledFrom crc d b (qs ++ rs) ↔
      SettledFrom crc d b qs ∧ SettledFrom crc d (b + (qs.map Part.kept).sum) rs := by
  induction qs generalizing b with
  | nil => simp [SettledFrom]
  | cons q qs ih =>
      simp only [List.cons_append, SettledFrom, ih, List.map_cons, List.sum_cons, and_assoc,
        Nat.add_assoc]

/-- Stored segments do not depend on files of other segments. -/
theorem StoredFrom.congr (h : StoredFrom crc d b qs) (hnames : d.names ⊆ d'.names)
    (hfiles : ∀ c ∈ bases b (qs.map Part.kept), d'.file (.segment c) = d.file (.segment c) ∧
      d'.file (.index c) = d.file (.index c)) : StoredFrom crc d' b qs := by
  induction qs generalizing b with
  | nil => trivial
  | cons q qs ih =>
      obtain ⟨⟨tail, es, hq⟩, hqs⟩ := h
      obtain ⟨hseg, hidx⟩ := hfiles b (by simp)
      refine ⟨⟨tail, es, hq.congr hnames hseg hidx⟩, ih hqs ?_⟩
      intro c hc
      exact hfiles c (by simp [hc])

theorem StoredFrom.syncLe (h : StoredFrom crc d b qs) (hs : d.SyncLe d') :
    StoredFrom crc d' b qs := by
  induction qs generalizing b with
  | nil => trivial
  | cons q qs ih =>
      obtain ⟨⟨tail, es, hq⟩, hqs⟩ := h
      exact ⟨⟨tail, es, hq.syncLe hs⟩, ih hqs⟩

/-- Segments that are durable survive a crash as they are. -/
theorem StoredFrom.crash (h : StoredFrom crc d b qs) (hset : SettledFrom crc d b qs)
    (hc : d.Crash d') : StoredFrom crc d' b qs := by
  induction qs generalizing b with
  | nil => trivial
  | cons q qs ih =>
      obtain ⟨⟨tail, es, hq⟩, hqs⟩ := h
      obtain ⟨hdur, hrest⟩ := hset
      obtain ⟨img, himg, hfile⟩ := hc.2 (.segment b)
      have hheader : 16 ≤ (d'.file (.segment b)).data.length := by
        have h₁ := (hq.grows.crashImage himg).1.length_le
        have h₂ := header_le_position crc q.all q.kept
        rw [hfile]
        change 16 ≤ img.length
        omega
      obtain ⟨m, tail', es', hm, _, hq', hkeep⟩ := hq.crash hc hheader
      have hmk : m = q.kept := by
        have := hkeep q.kept (le_refl _) hdur
        omega
      subst hmk
      exact ⟨⟨tail', es', hq'⟩, ih hqs hrest⟩

/-- A crash leaves the log on disk.  It takes records only from the last segment, and
only such as are not durable. -/
theorem OnDisk.crash {q : Part} (h : OnDisk crc d (qs ++ [q])) (hset : SettledFrom crc d 0 qs)
    (hc : d.Crash d') (hheader : 16 ≤ (d'.file (.segment (qs.map Part.kept).sum)).data.length) :
    ∃ m, m ≤ q.kept ∧ OnDisk crc d' (qs ++ [⟨q.all, m⟩]) ∧
      ∀ j, j ≤ q.kept →
        position crc q.all j ≤ (d.file (.segment (qs.map Part.kept).sum)).durable.length →
        j ≤ m := by
  obtain ⟨hqs, ⟨tail, es, hq⟩, _⟩ := storedFrom_append.mp h.stored
  rw [Nat.zero_add] at hq
  obtain ⟨m, tail', es', hm, _, hq', hkeep⟩ := hq.crash hc hheader
  -- the number of records in the last segment does not matter for the base offsets
  have hbases : ∀ k, bases 0 ((qs ++ [Part.mk q.all k]).map Part.kept) =
      bases 0 (qs.map Part.kept) ++ [(qs.map Part.kept).sum] := by
    intro k
    simp [bases_append]
  have hmem : ∀ r, r ∈ qs ++ [Part.mk q.all m] → ∃ r' ∈ qs ++ [q], r'.all = r.all := by
    intro r hr
    rcases List.mem_append.mp hr with hr | hr
    · exact ⟨r, by simp [hr], rfl⟩
    · rw [List.mem_singleton.mp hr]
      exact ⟨q, by simp, rfl⟩
  refine ⟨m, hm, ⟨h.tidy.crash hc, ?_, ?_, ?_, ?_, ?_, ?_⟩, hkeep⟩
  · rw [hbases, hc.1, ← hbases q.kept]
    exact h.names
  · rw [hbases, ← hbases q.kept]
    exact h.sorted
  · rw [hc.1]
    exact h.indexed
  · intro r hr
    obtain ⟨r', hr', heq⟩ := hmem r hr
    rw [← heq]
    exact h.legal r' hr'
  · intro r hr
    obtain ⟨r', hr', heq⟩ := hmem r hr
    rw [← heq]
    exact h.indexable r' hr'
  · refine storedFrom_append.mpr ⟨hqs.crash hset hc, ⟨tail', es', ?_⟩, trivial⟩
    rw [Nat.zero_add]
    exact hq'

theorem OnDisk.syncLe (h : OnDisk crc d qs) (hs : d.SyncLe d') : OnDisk crc d' qs := by
  refine ⟨h.tidy.syncLe hs, ?_, h.sorted, ?_, h.legal, h.indexable, h.stored.syncLe hs⟩
  · rw [hs.1]
    exact h.names
  · rw [hs.1]
    exact h.indexed

end OnDisk

section OpenAll

variable (crc : Checksum)

/-- The segments in memory agree with the directory, the first one with base
offset `b`. -/
def OpenFrom (d : Dir Path) : Nat → List (List Bytes) → List Segment → Prop
  | _, [], [] => True
  | b, ps :: pss, s :: ss => OpenSegment crc d b ps s ∧ OpenFrom d (b + ps.length) pss ss
  | _, _, _ => False

/-- How the directory may look while the segments `qs`, found in `d₀`, are opened. -/
structure Recovering (d₀ : Dir Path) (b : Nat) (qs : List Part) (d : Dir Path) : Prop where
  names : d₀.names ⊆ d.names
  segments : segmentOffsets d.names = segmentOffsets d₀.names
  indexes : ∀ c, Path.index c ∈ d.names →
    Path.index c ∈ d₀.names ∨ c ∈ bases b (qs.map Part.kept)
  tidy : d.Tidy
  others : ∀ c, c ∉ bases b (qs.map Part.kept) →
    d.file (.segment c) = d₀.file (.segment c) ∧ d.file (.index c) = d₀.file (.index c)
  quiet : ∀ c, (d₀.file (.segment c)).writes = [] → (d.file (.segment c)).writes = []
  stored : StoredFrom crc d b qs

variable {crc}
variable {d₀ d d' : Dir Path} {b : Nat} {qs : List Part} {q : Part}

theorem OpenSegment.congr {ps : List Bytes} {s : Segment} (h : OpenSegment crc d b ps s)
    (hnames : d.names ⊆ d'.names) (hseg : d'.file (.segment b) = d.file (.segment b))
    (hidx : d'.file (.index b) = d.file (.index b)) : OpenSegment crc d' b ps s :=
  { h with
    indexNamed := hnames h.indexNamed
    stored := h.stored.congr hnames hseg hidx }

/-- An index that is truthful about the records still there is truthful about all. -/
theorem OpenSegment.stored_all {s : Segment} (h : OpenSegment crc d b q.records s)
    (hkept : q.kept ≤ q.all.length) : Stored crc d b q.all q.kept [] s.index.entries := by
  have ht := h.stored.truthful.append_right (q.all.drop q.kept)
  rw [Part.records, List.take_append_drop] at ht
  refine ⟨h.stored.named, h.stored.grows, ?_, tornTail_nil hkept, h.stored.index, ht⟩
  rw [h.stored.data, List.take_length]
  rfl

/-- A segment under repair is stored, with whatever truthful index it has. -/
theorem Repair.stored_of_index {tail : Bytes} {es es' : List IndexEntry} {all : List Bytes}
    {n : Nat} (hr : Repair crc d₀ b all n d) (h : Stored crc d₀ b all n tail es)
    (hix : IndexFile (d.file (.index b)) es') (ht : Truthful crc all es') :
    ∃ tail', Stored crc d b all n tail' es' := by
  rcases hr.segment with hseg | hseg
  · refine ⟨tail, hr.names h.named, ?_, ?_, h.torn, hix, ht⟩
    · rw [hseg]
      exact h.grows
    · rw [hseg]
      exact h.data
  · refine ⟨[], hr.names h.named, ?_, ?_, tornTail_nil h.torn.1, hix, ht⟩
    · rw [hseg]
      exact h.grows.truncate (by rw [h.length_data]; omega)
    · rw [hseg, h.data_truncate, List.append_nil]

theorem Repair.stored {tail : Bytes} {es : List IndexEntry} {all : List Bytes} {n : Nat}
    (hr : Repair crc d₀ b all n d) (h : Stored crc d₀ b all n tail es) :
    ∃ tail' es', Stored crc d b all n tail' es' := by
  obtain ⟨es', hix, ht⟩ := hr.index
  obtain ⟨tail', hstored⟩ := hr.stored_of_index h hix ht
  exact ⟨tail', es', hstored⟩

/-- While the first segment is repaired, the others wait. -/
theorem Recovering.of_repair (hr : Repair crc d₀ b q.all q.kept d)
    (h : StoredFrom crc d₀ b (q :: qs))
    (hsorted : (bases b ((q :: qs).map Part.kept)).Pairwise (· < ·)) :
    Recovering crc d₀ b (q :: qs) d := by
  obtain ⟨⟨tail, es, hq⟩, hqs⟩ := h
  have hne : ∀ c ∈ bases (b + q.kept) (qs.map Part.kept), c ≠ b := by
    intro c hc
    have := (List.pairwise_cons.mp hsorted).1 c hc
    omega
  have hother : ∀ c, c ≠ b →
      d.file (.segment c) = d₀.file (.segment c) ∧ d.file (.index c) = d₀.file (.index c) := by
    intro c hc
    exact ⟨hr.others _ (by simpa using hc) (by simp), hr.others _ (by simp) (by simpa using hc)⟩
  refine ⟨hr.names, hr.segments, ?_, hr.tidy, ?_, ?_, hr.stored hq, hqs.congr hr.names ?_⟩
  · intro c hc
    rcases hr.indexes c hc with hc | hc
    · exact Or.inl hc
    · exact Or.inr (by simp [hc])
  · intro c hc
    exact hother c (fun hcb => hc (by simp [hcb]))
  · intro c hc
    by_cases hcb : c = b
    · subst hcb
      rcases hr.segment with hseg | hseg
      · rw [hseg]
        exact hc
      · rw [hseg, File.truncate, if_pos (by rw [hq.length_data]; omega)]
        simp [hc]
    · rw [(hother c hcb).1]
      exact hc
  · intro c hc
    exact hother c (hne c hc)

/-- While the others are opened, the first segment stays open. -/
theorem Recovering.cons {d₁ : Dir Path} {s : Segment} (h₁ : Recovering crc d₀ b (q :: qs) d₁)
    (hs : OpenSegment crc d₁ b q.records s) (hkept : q.kept ≤ q.all.length)
    (hsorted : (bases b ((q :: qs).map Part.kept)).Pairwise (· < ·))
    (h : Recovering crc d₁ (b + q.kept) qs d) :
    Recovering crc d₀ b (q :: qs) d ∧ OpenSegment crc d b q.records s := by
  have hb : b ∉ bases (b + q.kept) (qs.map Part.kept) := by
    intro hmem
    exact absurd ((List.pairwise_cons.mp hsorted).1 b hmem) (lt_irrefl b)
  obtain ⟨hseg, hidx⟩ := h.others b hb
  have hs' := hs.congr h.names hseg hidx
  refine ⟨⟨fun p hp => h.names (h₁.names hp), h.segments.trans h₁.segments, ?_, h.tidy, ?_, ?_,
    ⟨[], s.index.entries, hs'.stored_all hkept⟩, h.stored⟩, hs'⟩
  · intro c hc
    rcases h.indexes c hc with hc | hc
    · exact h₁.indexes c hc
    · exact Or.inr (by simp [hc])
  · intro c hc
    have hcqs : c ∉ bases (b + q.kept) (qs.map Part.kept) := fun hmem => hc (by simp [hmem])
    exact ⟨(h.others c hcqs).1.trans (h₁.others c hc).1,
      (h.others c hcqs).2.trans (h₁.others c hc).2⟩
  · intro c hc
    exact h.quiet c (h₁.quiet c hc)

/-- Opening every segment: each in turn, by induction on the segments left. -/
theorem openSegments_runs {w : World} (htidy : w.dir.Tidy) (h : StoredFrom crc w.dir b qs)
    (hsorted : (bases b (qs.map Part.kept)).Pairwise (· < ·))
    (hfit : b + (qs.map Part.kept).sum < 2 ^ 64) (hlegal : ∀ q ∈ qs, ∀ p ∈ q.all, Legal p)
    (hidx : ∀ q ∈ qs, Indexable crc q.all) (opened : List Segment) :
    ∃ ss w', Runs LogOp.exec
        (fun u => Recovering crc w.dir b qs u.dir ∧ u.coord = w.coord)
        (openSegments crc (bases b (qs.map Part.kept)) opened) w (.ok (opened ++ ss)) w' ∧
      OpenFrom crc w'.dir b (qs.map Part.records) ss := by
  induction qs generalizing b w opened with
  | nil =>
      refine ⟨[], w, ?_, trivial⟩
      rw [List.append_nil]
      exact .done ⟨⟨List.Subset.refl _, rfl, fun _ h => Or.inl h, htidy,
        fun _ _ => ⟨rfl, rfl⟩, fun _ h => h, trivial⟩, rfl⟩
  | cons q qs ih =>
      obtain ⟨⟨tail, es, hq⟩, hqs⟩ := h
      have hlen : q.records.length = q.kept := by
        rw [Part.records, List.length_take, Nat.min_eq_left hq.torn.1]
      rw [List.map_cons, List.sum_cons] at hfit
      obtain ⟨s, w₁, hrun₁, hopen⟩ := openSegment_runs hq htidy (by omega)
        (hlegal q (by simp)) (hidx q (by simp))
      have hrep : ∀ u : World, RepairAt crc w.dir w.coord b q.all q.kept u →
          Recovering crc w.dir b (q :: qs) u.dir ∧ u.coord = w.coord := by
        intro u hu
        exact ⟨Recovering.of_repair hu.1 ⟨⟨tail, es, hq⟩, hqs⟩ hsorted, hu.2⟩
      obtain ⟨hrec₁, hcoord₁⟩ := hrep w₁ hrun₁.final
      obtain ⟨ss, w', hrun', hopen'⟩ := ih hrec₁.tidy hrec₁.stored.2
        (List.pairwise_cons.mp hsorted).2 (by omega) (fun r hr => hlegal r (by simp [hr]))
        (fun r hr => hidx r (by simp [hr])) (opened ++ [s])
      have hcons : ∀ u : World,
          Recovering crc w₁.dir (b + q.kept) qs u.dir ∧ u.coord = w₁.coord →
          Recovering crc w.dir b (q :: qs) u.dir ∧ u.coord = w.coord := by
        intro u hu
        exact ⟨(Recovering.cons hrec₁ hopen hq.torn.1 hsorted hu.1).1, hu.2.trans hcoord₁⟩
      refine ⟨s :: ss, w', ?_, ?_⟩
      · rw [List.append_assoc, List.singleton_append] at hrun'
        exact (hrun₁.mono hrep).bind (hrun'.mono hcons)
      · refine ⟨(Recovering.cons hrec₁ hopen hq.torn.1 hsorted hrun'.final.1).2, ?_⟩
        rw [hlen]
        exact hopen'

end OpenAll

end LedgerLine.Broker
