import LedgerLine.Broker.Derived

/-!
# A new segment over a leftover index

`createSegment` of `broker/log/segment.go` insists that the segment file is new, but opens the
index file as it finds it.  Entries of an index left over from a lost segment are then part of
the new segment's index.

An entry does no harm until the record that it names exists: a lookup never returns an entry
beyond its target.  So reads are right as long as every record that an entry names lands where
the entry points, and reopening is right under the condition of `Harmless`
(`leftover_unnoticed`).
-/

namespace LedgerLine.Broker

open Program

/-- The entries that name the next record point to where it goes. -/
def Segment.PlacesNext (s : Segment) : Prop :=
  ∀ e ∈ s.index.entries, s.baseOffset + e.relOffset = s.nextOffset → e.position = s.size

instance (s : Segment) : Decidable s.PlacesNext :=
  inferInstanceAs (Decidable (∀ e ∈ _, _))

section Runs

variable (crc : Checksum) (b : Nat)

/-- The states of a segment created in `w₀`, with the payloads appended to it since.  `mayAppend`
says in which states appends are made, `mayReopen` where it is closed and opened again. -/
inductive SegmentRun (mayAppend : Segment → Prop) (mayReopen : Dir Path → List Bytes → Prop)
    (w₀ : World) : Segment → World → List Bytes → Prop
  | created {s : Segment} (hok : (run LogOp.exec (createSegment b) w₀).1 = .ok s) :
      SegmentRun mayAppend mayReopen w₀ s (run LogOp.exec (createSegment b) w₀).2 []
  | appended {s : Segment} {w : World} {ps : List Bytes} (p : Bytes)
      (h : SegmentRun mayAppend mayReopen w₀ s w ps) (hp : Legal p)
      (hsize : s.size < maxIndexableSegment) (hmay : mayAppend s) :
      SegmentRun mayAppend mayReopen w₀ (run LogOp.exec (s.append crc p) w).1.1
        (run LogOp.exec (s.append crc p) w).2 (ps ++ [p])
  | reopened {s s' : Segment} {w : World} {ps : List Bytes}
      (h : SegmentRun mayAppend mayReopen w₀ s w ps) (hmay : mayReopen w.dir ps)
      (hok : (run LogOp.exec (openSegment crc b) w).1 = .ok s') :
      SegmentRun mayAppend mayReopen w₀ s' (run LogOp.exec (openSegment crc b) w).2 ps

/-- A segment whose entries are right about the records it has; those beyond are arbitrary. -/
structure RightSoFar (ps : List Bytes) (s : Segment) (d : Dir Path) : Prop where
  file : s.file = .segment b
  indexFile : s.index.file = .index b
  base : s.baseOffset = b
  next : s.nextOffset = b + ps.length
  size : s.size = position crc ps ps.length
  entries : ∀ e ∈ s.index.entries, e.relOffset < ps.length →
    e.position = position crc ps e.relOffset
  named : Path.segment b ∈ d.names
  data : (d.file (.segment b)).data = headerBytes b ++ recordsBytes crc ps
  legal : ∀ p ∈ ps, Legal p
  indexable : Indexable crc ps

end Runs

variable {crc : Checksum} {b : Nat} {ps : List Bytes} {s : Segment} {w : World}

theorem RightSoFar.read (h : RightSoFar crc b ps s w.dir) {k : Nat} (hk : k < ps.length) :
    s.read crc (w.dir.file s.file).data (b + k) = .ok ps[k] := by
  have hread := @Segment.read_spec crc s ps [] h.legal h.indexable.length_le h.entries
    (by rw [h.next, h.base]) h.size k hk
  rw [h.base, List.append_nil] at hread
  rw [h.file, h.data]
  exact hread

/-- A new segment has no records, whatever its index holds. -/
theorem rightSoFar_created (crc : Checksum) (hfree : Path.segment b ∉ w.dir.names) :
    ∃ s w', run LogOp.exec (createSegment b) w = (.ok s, w') ∧ RightSoFar crc b [] s w'.dir := by
  let d₁ := (w.dir.create (.segment b)).set (.segment b) (File.empty.write 0 (headerBytes b))
  have hindex := @openIndex_any (fun _ => True) ⟨d₁, w.coord⟩ b trivial trivial
  have hcreate : run LogOp.exec (createSegment b) w =
      (.ok
        { file := .segment b
          index := ⟨.index b, indexEntries d₁ b⟩
          baseOffset := b
          nextOffset := b
          size := segmentHeaderSize
          lastIndexed := segmentHeaderSize }, ⟨d₁.touch (.index b), w.coord⟩) := by
    rw [createSegment, run_fs]
    simp only [FsOp.exec, if_neg hfree]
    rw [run_fs]
    simp only [FsOp.exec, Dir.create_file_self]
    rw [run_bind, hindex.run_eq]
    rfl
  refine ⟨_, _, hcreate, rfl, rfl, rfl, rfl, by simp, ?_, ?_, ?_, by simp, ?_⟩
  · exact fun e _ hlt => absurd hlt (Nat.not_lt_zero _)
  · exact Dir.names_subset_touch _ _ (by simp [d₁])
  · have hfile : (d₁.touch (.index b)).file (.segment b) = d₁.file (.segment b) :=
      Dir.touch_file_ne _ (by simp)
    have hover := overwrite_end [] (headerBytes b)
    rw [List.length_nil, List.nil_append] at hover
    rw [hfile, Dir.set_file_self, File.data_write, File.data_empty, hover]
    simp
  · exact fun k hk => absurd hk (Nat.not_lt_zero _)

/-- The entries stay right when the record they name is written, and when its own entry is
added. -/
theorem RightSoFar.entries_append (h : RightSoFar crc b ps s w.dir) (hplace : s.PlacesNext)
    (p : Bytes) :
    ∀ e ∈ s.index.entries ++ [⟨ps.length, s.size⟩], e.relOffset < (ps ++ [p]).length →
      e.position = position crc (ps ++ [p]) e.relOffset := by
  have hlast : position crc (ps ++ [p]) ps.length = s.size := by
    rw [position_append_left crc (le_refl _), h.size]
  intro e he hlt
  rw [List.length_append, List.length_singleton, Nat.lt_succ_iff_lt_or_eq] at hlt
  rcases List.mem_append.1 he with he | he
  · rcases hlt with hlt | heq
    · rw [position_append_left crc (le_of_lt hlt)]
      exact h.entries e he hlt
    · rw [heq, hlast]
      exact hplace e he (by rw [h.base, h.next, heq])
  · rw [List.mem_singleton.1 he]
    exact hlast.symm

/-- Whether an entry is due or not, only the index is touched. -/
theorem RightSoFar.maybeIndex {d : Dir Path} (h : RightSoFar crc b ps s d)
    (hsize : s.size < maxIndexableSegment) :
    ∃ es i w', run LogOp.exec (s.maybeIndex ps.length s.size) w =
        (.ok { s with index := ⟨s.index.file, es⟩, lastIndexed := i }, w') ∧
      es ⊆ s.index.entries ++ [⟨ps.length, s.size⟩] ∧
      w'.dir.file (.segment b) = w.dir.file (.segment b) ∧ w'.dir.names = w.dir.names := by
  by_cases hdue : 0 < s.index.entries.length ∧
      ((s.size : Nat) : Int) - s.lastIndexed < indexIntervalBytes
  · have hrun := @maybeIndex_skip (fun _ => True) s w ps.length s.size hdue trivial
    exact ⟨s.index.entries, s.lastIndexed, w, hrun.run_eq, List.subset_append_left _ _, rfl, rfl⟩
  · have hrun := @maybeIndex_add (fun _ => True) s w ps.length s.size hdue hsize trivial trivial
    refine ⟨_, _, _, hrun.run_eq, List.Subset.refl _, ?_, rfl⟩
    rw [addEntry, h.indexFile]
    exact Dir.set_file_ne _ _ (by simp)

/-- Writing a record where it belongs. -/
theorem RightSoFar.append (h : RightSoFar crc b ps s w.dir) {p : Bytes} (hp : Legal p)
    (hsize : s.size < maxIndexableSegment) (hplace : s.PlacesNext) :
    ∃ s' w', run LogOp.exec (s.append crc p) w = ((s', .ok (b + ps.length)), w') ∧
      RightSoFar crc b (ps ++ [p]) s' w'.dir := by
  have hidx : Indexable crc (ps ++ [p]) := h.indexable.concat (by rw [← h.size]; exact hsize)
  have hrel : (s.nextOffset - s.baseOffset) % 2 ^ 32 = ps.length := by
    rw [h.next, h.base, Nat.add_sub_cancel_left, Nat.mod_eq_of_lt (hidx.lt (by simp))]
  have hentries := h.entries_append hplace p
  let d₁ := w.dir.set s.file ((w.dir.file s.file).write s.size (recordBytes crc p))
  have hdata : (d₁.file (.segment b)).data = headerBytes b ++ recordsBytes crc (ps ++ [p]) := by
    have hend : s.size = (headerBytes b ++ recordsBytes crc ps).length := by
      rw [h.size, position_length, List.length_append, headerBytes_length]
    rw [← h.file, Dir.set_file_self, File.data_write, h.file, h.data, hend, overwrite_end]
    simp
  have hgrown : s.size + (recordBytes crc p).length =
      position crc (ps ++ [p]) (ps ++ [p]).length := by
    rw [h.size, position_length, position_length]
    simp
    omega
  obtain ⟨es, i, w', hrun, hes, hfile, hnames⟩ := h.maybeIndex (w := ⟨d₁, w.coord⟩) hsize
  refine ⟨{ s with
      index := ⟨s.index.file, es⟩, lastIndexed := i
      size := s.size + (recordBytes crc p).length, nextOffset := s.nextOffset + 1 }, w', ?_, ?_⟩
  · rw [← h.next, Segment.append, encodeRecord_of_legal hp]
    simp only
    rw [run_fs]
    simp only [FsOp.exec, hrel]
    rw [run_bind, hrun]
    rfl
  · refine ⟨h.file, h.indexFile, h.base, ?_, hgrown, fun e he => hentries e (hes he), ?_, ?_, ?_,
      hidx⟩
    · simp only [h.next, List.length_append, List.length_singleton]
      omega
    · rw [hnames]
      exact h.named
    · rw [hfile]
      exact hdata
    · exact List.forall_mem_append.2 ⟨h.legal, List.forall_mem_singleton.2 hp⟩

/-- Opening the segment again, with an index that is harmless by now. -/
theorem RightSoFar.reopen (h : RightSoFar crc b ps s w.dir) (hb : b < 2 ^ 64)
    (hharm : Harmless crc w.dir b ps) :
    ∃ s' w', run LogOp.exec (openSegment crc b) w = (.ok s', w') ∧
      RightSoFar crc b ps s' w'.dir := by
  obtain ⟨s', w', hopen, hfile, hs, hnext, hsize⟩ :=
    openSegment_honest w.coord h.named hb h.data h.legal h.indexable hharm
  refine ⟨s', w', hopen, hs.file, hs.indexFile, hs.base, hnext, hsize,
    fun e he _ => (hs.entries e he).2, ?_, ?_, h.legal, h.indexable⟩
  · have hends := ends_run (LogOp.outcome_exec fun _ => False) (openSegment crc b) w
    rw [hopen] at hends
    exact named_of_ends hends h.named
  · rw [hfile]
    exact h.data

/-- Every state in which each record so far has landed where the entries that name it point,
and each reopening found a harmless index. -/
theorem rightSoFar_of_run {w₀ : World} (hb : b < 2 ^ 64) (hfree : Path.segment b ∉ w₀.dir.names)
    (h : SegmentRun crc b Segment.PlacesNext (fun d ps => Harmless crc d b ps) w₀ s w ps) :
    RightSoFar crc b ps s w.dir := by
  induction h with
  | created hok =>
      obtain ⟨s', w', hcreate, hright⟩ := rightSoFar_created crc hfree
      rw [hcreate] at hok ⊢
      cases hok
      exact hright
  | appended p h hp hsize hplace ih =>
      obtain ⟨s', w', happend, hright⟩ := ih.append hp hsize hplace
      rw [happend]
      exact hright
  | reopened h hharm hok ih =>
      obtain ⟨s', w', hopen, hright⟩ := ih.reopen hb hharm
      rw [hopen] at hok ⊢
      cases hok
      exact hright

end LedgerLine.Broker
