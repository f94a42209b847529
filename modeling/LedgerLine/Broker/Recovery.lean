import LedgerLine.Broker.Image
import LedgerLine.Broker.Log
import Mathlib.Data.List.TakeWhile

/-!
# What opening a segment does

`openSegment` applied to a stored segment whose records all start below 4 GiB succeeds,
whatever a crash has done to it: it drops the torn record, drops or rebuilds the index
where it speaks of lost records, and returns a segment in memory that agrees with the
disk.  Wherever it is interrupted, the segment is still stored, with the same records.

Main facts:
* `indexEntries_eq`, `openIndex_any`: loading an index;
* `recoverLoop_runs`: the scan, by induction on the records left;
* `openSegment_restores`, `openSegment_runs`: opening a stored segment.
-/

namespace LedgerLine.Broker

open Program

variable {crc : Checksum}

/-- Perform a file operation and go on. -/
theorem runs_fs {α : Type} {inv : World → Prop} {o : FsOp Path} {k : o.Resp → LogProgram α}
    {w w' : World} {a : α} (h : inv w)
    (rest : Runs LogOp.exec inv (k (o.exec w.dir).1) { w with dir := (o.exec w.dir).2 } a w') :
    Runs LogOp.exec inv (fs o >>= k) w a w' :=
  Runs.call h rest

section LoadIndex

/-- Both fields of an entry fit four bytes. -/
def IndexEntry.Fits (e : IndexEntry) : Prop :=
  e.relOffset < 2 ^ 32 ∧ e.position < 2 ^ 32

variable {es : List IndexEntry}

theorem decodeEntries_entriesBytes (hes : ∀ e ∈ es, e.Fits) (junk : Bytes) :
    decodeEntries es.length (entriesBytes es ++ junk) = es := by
  induction es with
  | nil => rfl
  | cons e es ih =>
      have hfit : e.Fits := hes e (by simp)
      have hrel : getBE (putBE 4 e.relOffset) = e.relOffset :=
        getBE_putBE_of_lt hfit.1
      have hpos : getBE (putBE 4 e.position) = e.position :=
        getBE_putBE_of_lt hfit.2
      have htake : (entriesBytes (e :: es) ++ junk).take 4 = putBE 4 e.relOffset := by
        rw [entriesBytes_cons, entryBytes, List.append_assoc, List.append_assoc]
        exact List.take_left' (by simp)
      have hmid : ((entriesBytes (e :: es) ++ junk).drop 4).take 4 = putBE 4 e.position := by
        rw [entriesBytes_cons, entryBytes, List.append_assoc, List.append_assoc,
          List.drop_left' (by simp)]
        exact List.take_left' (by simp)
      have hdrop : (entriesBytes (e :: es) ++ junk).drop indexEntrySize =
          entriesBytes es ++ junk := by
        rw [entriesBytes_cons, List.append_assoc]
        exact List.drop_left' (by simp)
      rw [List.length_cons, decodeEntries, htake, hmid, hdrop, hrel, hpos,
        ih (fun x hx => hes x (by simp [hx]))]

/-- Truthful entries about records that can be indexed fit. -/
theorem Truthful.fits {all : List Bytes} (h : Truthful crc all es) (hidx : Indexable crc all) :
    ∀ e ∈ es, e.Fits := by
  intro e he
  obtain ⟨hlt, hpos⟩ := h.honest e he
  refine ⟨hidx.lt hlt, ?_⟩
  have := hidx e.relOffset hlt
  rw [maxIndexableSegment_eq] at this
  omega

/-- The complete entries of an index file, as `openIndex` loads them. -/
def indexEntries (d : Dir Path) (name : Nat) : List IndexEntry :=
  if Path.index name ∈ d.names then
    decodeEntries ((d.file (.index name)).data.length / indexEntrySize) (d.file (.index name)).data
  else
    []

/-- The entries of an index file that holds whole entries and less than one more. -/
theorem indexEntries_eq {d : Dir Path} {name : Nat} (htidy : d.Tidy)
    (hfile : IndexFile (d.file (.index name)) es) (hes : ∀ e ∈ es, e.Fits) :
    indexEntries d name = es := by
  obtain ⟨junk, hj, hdata⟩ := hfile.data
  have hsize : (entriesBytes es ++ junk).length / indexEntrySize = es.length := by
    rw [List.length_append, entriesBytes_length, indexEntrySize_eq]
    omega
  unfold indexEntries
  split_ifs with hnamed
  · rw [hdata, hsize, decodeEntries_entriesBytes hes]
  · rw [htidy _ hnamed, File.data_empty] at hdata
    rw [← hdata] at hsize
    exact (List.length_eq_zero_iff.mp hsize.symm).symm

/-- Loading whatever the index file holds; the file is added if it was missing. -/
theorem openIndex_any {inv : World → Prop} {w : World} {name : Nat} (hinv : inv w)
    (hinv' : inv { w with dir := w.dir.touch (.index name) }) :
    Runs LogOp.exec inv (openIndex (.index name)) w
      (.ok ⟨.index name, indexEntries w.dir name⟩)
      { w with dir := w.dir.touch (.index name) } := by
  have hentries : indexEntries w.dir name =
      decodeEntries (((w.dir.touch (.index name)).file (.index name)).data.length / indexEntrySize)
        ((w.dir.touch (.index name)).file (.index name)).data := by
    unfold indexEntries Dir.touch
    split_ifs
    · rfl
    · rw [Dir.create_file_self]
      rfl
  have hfull : ¬ ((w.dir.touch (.index name)).file (.index name)).data.length <
      ((w.dir.touch (.index name)).file (.index name)).data.length / indexEntrySize *
        indexEntrySize := by
    rw [indexEntrySize_eq]
    omega
  unfold openIndex
  refine runs_fs hinv (runs_fs hinv' ?_)
  simp only [FsOp.exec]
  by_cases hzero : ((w.dir.touch (.index name)).file (.index name)).data.length /
      indexEntrySize = 0
  · rw [if_pos hzero, hentries, hzero]
    exact .done hinv'
  · rw [if_neg hzero]
    refine runs_fs hinv' ?_
    simp only [FsOp.exec]
    rw [if_neg hfull, hentries]
    exact .done hinv'

end LoadIndex

section AddEntry

variable {inv : World → Prop} {s : Segment} {w : World} {rel pos : Nat}

/-- No entry is due. -/
theorem maybeIndex_skip
    (hdue : 0 < s.index.entries.length ∧ (pos : Int) - s.lastIndexed < indexIntervalBytes)
    (hinv : inv w) : Runs LogOp.exec inv (s.maybeIndex rel pos) w (.ok s) w := by
  unfold Segment.maybeIndex
  rw [if_pos hdue]
  exact .done hinv

/-- The directory once an entry has been added to the index of `s`. -/
def addEntry (d : Dir Path) (s : Segment) (rel pos : Nat) : Dir Path :=
  d.set s.index.file
    ((d.file s.index.file).write (s.index.entries.length * 8) (entryBytes ⟨rel, pos⟩))

/-- An entry is due, and its position fits. -/
theorem maybeIndex_add
    (hdue : ¬ (0 < s.index.entries.length ∧ (pos : Int) - s.lastIndexed < indexIntervalBytes))
    (hpos : pos < maxIndexableSegment) (hinv : inv w)
    (hinv' : inv { w with dir := addEntry w.dir s rel pos }) :
    Runs LogOp.exec inv (s.maybeIndex rel pos) w
      (.ok { s with
        index := ⟨s.index.file, s.index.entries ++ [⟨rel, pos⟩]⟩
        lastIndexed := pos })
      { w with dir := addEntry w.dir s rel pos } := by
  unfold Segment.maybeIndex
  rw [if_neg hdue]
  unfold Index.append
  rw [if_neg (Nat.not_le.mpr hpos)]
  exact runs_fs hinv (.done hinv')

/-- An entry is due, and its position does not fit. -/
theorem maybeIndex_refuse
    (hdue : ¬ (0 < s.index.entries.length ∧ (pos : Int) - s.lastIndexed < indexIntervalBytes))
    (hpos : maxIndexableSegment ≤ pos) :
    s.maybeIndex rel pos = .done (.error (.indexPosition pos)) := by
  unfold Segment.maybeIndex
  rw [if_neg hdue]
  unfold Index.append
  rw [if_pos hpos]
  rfl

end AddEntry

section Repair

variable (crc)

/-- How the directory may look while the segment `b`, found in `d₀`, is repaired:
only its two files are touched, the segment file at most to cut it after record `n`,
and the index stays truthful. -/
structure Repair (d₀ : Dir Path) (b : Nat) (all : List Bytes) (n : Nat) (d : Dir Path) :
    Prop where
  names : d₀.names ⊆ d.names
  segments : segmentOffsets d.names = segmentOffsets d₀.names
  indexes : ∀ c, Path.index c ∈ d.names → Path.index c ∈ d₀.names ∨ c = b
  tidy : d.Tidy
  others : ∀ p, p ≠ .segment b → p ≠ .index b → d.file p = d₀.file p
  segment : d.file (.segment b) = d₀.file (.segment b) ∨
    d.file (.segment b) = (d₀.file (.segment b)).truncate (position crc all n)
  index : ∃ es, IndexFile (d.file (.index b)) es ∧ Truthful crc all es

/-- The same of the whole state; the coordinator is not touched. -/
abbrev RepairAt (d₀ : Dir Path) (c : Coord) (b : Nat) (all : List Bytes) (n : Nat)
    (w : World) : Prop :=
  Repair crc d₀ b all n w.dir ∧ w.coord = c

variable {crc}
variable {d₀ d : Dir Path} {b n : Nat} {all : List Bytes}

variable {es : List IndexEntry}

theorem Repair.refl (htidy : d₀.Tidy) (hidx : IndexFile (d₀.file (.index b)) es)
    (ht : Truthful crc all es) : Repair crc d₀ b all n d₀ :=
  ⟨List.Subset.refl _, rfl, fun _ h => Or.inl h, htidy, fun _ _ _ => rfl, Or.inl rfl, es,
    hidx, ht⟩

theorem segmentOffsets_touch_index (d : Dir Path) (b : Nat) :
    segmentOffsets (d.touch (.index b)).names = segmentOffsets d.names := by
  unfold Dir.touch
  split_ifs
  · rfl
  · simp [segmentOffsets]

theorem mem_touch_index {d : Dir Path} {b c : Nat}
    (h : Path.index c ∈ (d.touch (.index b)).names) : Path.index c ∈ d.names ∨ c = b := by
  unfold Dir.touch at h
  split_ifs at h
  · exact Or.inl h
  · simpa using h

theorem Repair.touch (h : Repair crc d₀ b all n d) :
    Repair crc d₀ b all n (d.touch (.index b)) := by
  refine ⟨fun p hp => d.names_subset_touch _ (h.names hp), ?_, ?_, h.tidy.touch _, ?_, ?_, ?_⟩
  · rw [segmentOffsets_touch_index, h.segments]
  · intro c hc
    rcases mem_touch_index hc with hc | hc
    · exact h.indexes c hc
    · exact Or.inr hc
  · intro p hs hi
    rw [h.tidy.touch_file, h.others p hs hi]
  · rw [h.tidy.touch_file]
    exact h.segment
  · rw [h.tidy.touch_file]
    exact h.index

/-- The index may be replaced by another truthful one. -/
theorem Repair.setIndex (h : Repair crc d₀ b all n d) (hmem : Path.index b ∈ d.names) {f : File}
    (hf : IndexFile f es) (ht : Truthful crc all es) :
    Repair crc d₀ b all n (d.set (.index b) f) := by
  refine ⟨h.names, h.segments, h.indexes, h.tidy.set hmem f, ?_, ?_, es, ?_, ht⟩
  · intro p hs hi
    rw [Dir.set_file_ne d f hi, h.others p hs hi]
  · rw [Dir.set_file_ne d f (by simp)]
    exact h.segment
  · rw [Dir.set_file_self]
    exact hf

/-- The segment may be cut after record `n`. -/
theorem Repair.cutSegment (h : Repair crc d₀ b all n d) (hmem : Path.segment b ∈ d.names) :
    Repair crc d₀ b all n
      (d.set (.segment b) ((d₀.file (.segment b)).truncate (position crc all n))) := by
  refine ⟨h.names, h.segments, h.indexes, h.tidy.set hmem _, ?_, ?_, ?_⟩
  · intro p hs hi
    rw [Dir.set_file_ne d _ hs, h.others p hs hi]
  · rw [Dir.set_file_self]
    exact Or.inr rfl
  · rw [Dir.set_file_ne d _ (by simp)]
    exact h.index

end Repair

section Scan

variable (crc)

/-- A segment in memory while it is being recovered: it agrees with the directory,
and its file has not been touched yet. -/
structure Scanning (d₀ : Dir Path) (b : Nat) (all : List Bytes) (n : Nat) (d : Dir Path)
    (s : Segment) : Prop where
  repair : Repair crc d₀ b all n d
  file : s.file = .segment b
  indexFile : s.index.file = .index b
  base : s.baseOffset = b
  named : Path.segment b ∈ d.names
  indexNamed : Path.index b ∈ d.names
  segment : d.file (.segment b) = d₀.file (.segment b)
  entries : IndexFile (d.file (.index b)) s.index.entries
  truthful : Truthful crc all s.index.entries

/-- A segment in memory that agrees with the directory, with records `ps`. -/
structure OpenSegment (d : Dir Path) (b : Nat) (ps : List Bytes) (s : Segment) : Prop where
  file : s.file = .segment b
  indexFile : s.index.file = .index b
  base : s.baseOffset = b
  next : s.nextOffset = b + ps.length
  size : s.size = position crc ps ps.length
  indexNamed : Path.index b ∈ d.names
  stored : Stored crc d b ps ps.length [] s.index.entries

variable {crc}
variable {d₀ d : Dir Path} {b n : Nat} {all : List Bytes} {tail : Bytes} {s : Segment}

theorem OpenSegment.syncLe {d' : Dir Path} {ps : List Bytes} (h : OpenSegment crc d b ps s)
    (hs : d.SyncLe d') : OpenSegment crc d' b ps s :=
  { h with
    indexNamed := by
      rw [hs.1]
      exact h.indexNamed
    stored := h.stored.syncLe hs }

variable {es : List IndexEntry} {k : Nat} {w : World}

/-- Adding a truthful entry after the others. -/
theorem Truthful.concat (h : Truthful crc all es) (hk : k < all.length)
    (hes : ∀ e ∈ es, e.relOffset < k) : Truthful crc all (es ++ [⟨k, position crc all k⟩]) := by
  refine ⟨?_, ?_⟩
  · rw [List.pairwise_append]
    refine ⟨h.sorted, List.pairwise_singleton _ _, ?_⟩
    intro e he f hf
    rw [List.mem_singleton.mp hf]
    exact hes e he
  · exact List.forall_mem_append.mpr ⟨h.honest, List.forall_mem_singleton.mpr ⟨hk, rfl⟩⟩

theorem Scanning.add (h : Scanning crc d₀ b all n d s) (hk : k < all.length)
    (hes : ∀ e ∈ s.index.entries, e.relOffset < k) (i : Nat) :
    Scanning crc d₀ b all n (addEntry d s k (position crc all k))
      { s with
        index := ⟨s.index.file, s.index.entries ++ [⟨k, position crc all k⟩]⟩
        lastIndexed := i } := by
  have ht := h.truthful.concat hk hes
  have hf := h.entries.append ⟨k, position crc all k⟩
  have hd : addEntry d s k (position crc all k) = d.set (.index b)
      ((d.file (.index b)).write (s.index.entries.length * 8)
        (entryBytes ⟨k, position crc all k⟩)) := by
    rw [addEntry, h.indexFile]
  rw [hd]
  refine ⟨h.repair.setIndex h.indexNamed hf ht, h.file, h.indexFile, h.base, h.named,
    h.indexNamed, ?_, ?_, ht⟩
  · rw [Dir.set_file_ne d _ (by simp)]
    exact h.segment
  · rw [Dir.set_file_self]
    exact hf

/-- Entries about the first `n` records are truthful about those alone. -/
theorem Truthful.take (h : Truthful crc all es) (hn : n ≤ all.length)
    (hes : ∀ e ∈ es, e.relOffset < n) : Truthful crc (all.take n) es := by
  refine ⟨h.sorted, fun e he => ?_⟩
  have hlt := hes e he
  refine ⟨by rw [List.length_take]; omega, ?_⟩
  rw [(h.honest e he).2]
  conv_lhs => rw [← List.take_append_drop n all]
  exact position_append_left crc (by rw [List.length_take]; omega)

theorem position_take_length (crc : Checksum) (all : List Bytes) (n : Nat) :
    position crc (all.take n) (all.take n).length = position crc all n := by
  unfold position
  rw [List.take_length]

/-- What a cut after record `n` leaves in the segment file. -/
theorem Stored.data_truncate (h : Stored crc d₀ b all n tail es) :
    ((d₀.file (.segment b)).truncate (position crc all n)).data =
      headerBytes b ++ recordsBytes crc (all.take n) := by
  rw [File.data_truncate h.grows.noGap (by rw [h.length_data]; omega), h.data]
  apply List.take_left'
  simp [position]

/-- The end of a scan: with the file ending after record `n` and an index about the
first `n` records, the segment in memory agrees with the directory. -/
theorem Scanning.close {es : List IndexEntry} (h : Stored crc d₀ b all n tail es)
    {ix : Index} (hfile : s.file = .segment b) (hindex : ix.file = .index b)
    (hbase : s.baseOffset = b) (hnamed : Path.segment b ∈ d.names)
    (hixNamed : Path.index b ∈ d.names) (hgrows : (d.file (.segment b)).Grows)
    (hdata : (d.file (.segment b)).data = headerBytes b ++ recordsBytes crc (all.take n))
    (hentries : IndexFile (d.file (.index b)) ix.entries)
    (ht : Truthful crc all ix.entries) (hes : ∀ e ∈ ix.entries, e.relOffset < n) :
    OpenSegment crc d b (all.take n)
      { s with index := ix, size := position crc all n, nextOffset := s.baseOffset + n } := by
  have hn : n ≤ all.length := h.torn.1
  have hlen : (all.take n).length = n := by
    rw [List.length_take, Nat.min_eq_left hn]
  refine ⟨hfile, hindex, hbase, ?_, (position_take_length crc all n).symm, hixNamed,
    ⟨hnamed, hgrows, ?_, tornTail_nil (le_refl _), hentries, ht.take hn hes⟩⟩
  · simp only [hbase, hlen]
  · rw [List.take_length, List.append_nil]
    exact hdata

/-- The entries kept by `truncateFrom` are those about earlier records. -/
theorem takeWhile_position (h : Truthful crc all es) :
    ∀ e ∈ es.takeWhile (fun e => decide (e.position < position crc all n)),
      e.relOffset < n := by
  intro e he
  have hlt : e.position < position crc all n := by
    simpa using List.mem_takeWhile_imp he
  rw [(h.honest e ((List.takeWhile_sublist _).subset he)).2] at hlt
  by_contra hge
  have := position_mono crc all (Nat.le_of_not_lt hge)
  omega

/-- Dropping a torn tail. -/
theorem cutTail_runs (h : Stored crc d₀ b all n tail es) (hs : Scanning crc d₀ b all n w.dir s) :
    ∃ s' w', Runs LogOp.exec (RepairAt crc d₀ w.coord b all n)
        (Segment.recoverLoop.cutTail s (position crc all n) n) w (.ok s') w' ∧
      OpenSegment crc w'.dir b (all.take n) s' := by
  let kept := s.index.entries.takeWhile (fun e => decide (e.position < position crc all n))
  let d₁ := w.dir.set (.segment b) ((d₀.file (.segment b)).truncate (position crc all n))
  let d₂ := d₁.set (.index b) ((w.dir.file (.index b)).truncate (kept.length * 8))
  have hkept : kept <+: s.index.entries := List.takeWhile_prefix _
  have hr₁ : Repair crc d₀ b all n d₁ := hs.repair.cutSegment hs.named
  have hf : IndexFile ((w.dir.file (.index b)).truncate (kept.length * 8)) kept := by
    have := hs.entries.truncate hkept.length_le
    rwa [← List.prefix_iff_eq_take.mp hkept] at this
  have ht : Truthful crc all kept := hs.truthful.sublist hkept.sublist
  have hr₂ : Repair crc d₀ b all n d₂ := hr₁.setIndex hs.indexNamed hf ht
  have hseg₂ : d₂.file (.segment b) =
      (d₀.file (.segment b)).truncate (position crc all n) := by
    rw [Dir.set_file_ne _ _ (by simp), Dir.set_file_self]
  refine ⟨{ s with
      index := ⟨s.index.file, kept⟩
      size := position crc all n
      nextOffset := s.baseOffset + n }, { w with dir := d₂ }, ?_, ?_⟩
  · have hrun : Runs LogOp.exec (RepairAt crc d₀ w.coord b all n)
        (s.index.truncateFrom (position crc all n)) { w with dir := d₁ }
        (.ok ⟨s.index.file, kept⟩) { w with dir := d₂ } := by
      unfold Index.truncateFrom
      refine runs_fs ⟨hr₁, rfl⟩ ?_
      simp only [FsOp.exec, hs.indexFile]
      have hidx : d₁.file (.index b) = w.dir.file (.index b) :=
        Dir.set_file_ne _ _ (by simp)
      rw [hidx]
      exact .done ⟨hr₂, rfl⟩
    unfold Segment.recoverLoop.cutTail
    refine runs_fs ⟨hs.repair, rfl⟩ ?_
    simp only [FsOp.exec, hs.file, hs.segment]
    exact hrun.bind (.done ⟨hr₂, rfl⟩)
  · refine Scanning.close h hs.file hs.indexFile hs.base hs.named hs.indexNamed ?_ ?_ ?_ ht
      (takeWhile_position hs.truthful)
    · simp only [hseg₂]
      exact h.grows.truncate (by rw [h.length_data]; omega)
    · simp only [hseg₂]
      exact h.data_truncate
    · simp only [d₂, Dir.set_file_self]
      exact hf

/-- Where the scan may find itself at record `k`: every entry is about an earlier
record, or the scan has just resumed from the last entry, which is about record `k`. -/
def Resumed (crc : Checksum) (all : List Bytes) (s : Segment) (k : Nat) (rest : Bytes) :
    Prop :=
  (∀ e ∈ s.index.entries, e.relOffset < k) ∨
    (0 < s.index.entries.length ∧ s.lastIndexed = position crc all k ∧
      (∀ e ∈ s.index.entries, e.relOffset ≤ k) ∧ rest ≠ [])

/-- The bytes left at record `k` start with that record. -/
theorem rest_cons (crc : Checksum) (hk : k < n) (hn : n ≤ all.length) :
    recordsBytes crc ((all.take n).drop k) ++ tail =
      recordBytes crc all[k] ++ (recordsBytes crc ((all.take n).drop (k + 1)) ++ tail) := by
  have hlen : k < (all.take n).length := by
    rw [List.length_take]
    omega
  rw [List.drop_eq_getElem_cons hlen, recordsBytes_cons, List.append_assoc, List.getElem_take]

/-- The entry for record `k` is added if it is due and its position fits; afterwards all
entries are about records up to `k`. -/
theorem maybeIndex_runs {rest : Bytes} (hk : k < all.length) (hs : Scanning crc d₀ b all n w.dir s)
    (hres : Resumed crc all s k rest) :
    ∃ r w', Runs LogOp.exec (RepairAt crc d₀ w.coord b all n)
        (s.maybeIndex k (position crc all k)) w r w' ∧ w'.coord = w.coord ∧
      (position crc all k < maxIndexableSegment → ∃ s', r = .ok s') ∧
      ∀ s', r = .ok s' → Scanning crc d₀ b all n w'.dir s' ∧
        ∀ e ∈ s'.index.entries, e.relOffset < k + 1 := by
  by_cases hdue : 0 < s.index.entries.length ∧
      ((position crc all k : Nat) : Int) - s.lastIndexed < indexIntervalBytes
  · refine ⟨_, w, maybeIndex_skip hdue ⟨hs.repair, rfl⟩, rfl, fun _ => ⟨s, rfl⟩, ?_⟩
    rintro s' ⟨⟩
    refine ⟨hs, ?_⟩
    intro e he
    rcases hres with hres | ⟨_, _, hres, _⟩
    · exact Nat.lt_succ_of_lt (hres e he)
    · exact Nat.lt_succ_of_le (hres e he)
  · rcases Nat.lt_or_ge (position crc all k) maxIndexableSegment with hpos | hpos
    · have hbefore : ∀ e ∈ s.index.entries, e.relOffset < k := by
        rcases hres with hres | ⟨hlen, hlast, _, _⟩
        · exact hres
        · exfalso
          apply hdue
          rw [hlast]
          exact ⟨hlen, by simp⟩
      have hs' := hs.add hk hbefore (position crc all k)
      refine ⟨_, { w with dir := addEntry w.dir s k (position crc all k) },
        maybeIndex_add hdue hpos ⟨hs.repair, rfl⟩ ⟨hs'.repair, rfl⟩, rfl, fun _ => ⟨_, rfl⟩, ?_⟩
      rintro s' ⟨⟩
      refine ⟨hs', ?_⟩
      intro e he
      rcases List.mem_append.mp he with he | he
      · exact Nat.lt_succ_of_lt (hbefore e he)
      · rw [List.mem_singleton.mp he]
        exact Nat.lt_succ_self k
    · rw [maybeIndex_refuse hdue hpos]
      refine ⟨_, w, .done ⟨hs.repair, rfl⟩, rfl, fun hlt => ?_, ?_⟩
      · exact absurd hlt (Nat.not_lt.mpr hpos)
      · intro s' hs'
        cases hs'

/-- How a recovery ends: with the first `n` records, or with an error, but only where records
start too far back for an index entry. -/
structure Restores (crc : Checksum) (b n : Nat) (all : List Bytes)
    (r : Except LogErr Segment) (d : Dir Path) : Prop where
  opens : ∀ s', r = .ok s' → OpenSegment crc d b (all.take n) s'
  succeeds : Indexable crc all → ∃ s', r = .ok s'

theorem OpenSegment.restores (h : OpenSegment crc d b (all.take n) s) :
    Restores crc b n all (.ok s) d :=
  ⟨by rintro s' ⟨⟩; exact h, fun _ => ⟨s, rfl⟩⟩

/-- The last round: at the end of the records there is nothing, or a torn record. -/
theorem recoverLoop_end (h : Stored crc d₀ b all n tail es) (hlegal : ∀ p ∈ all, Legal p)
    {fuel : Nat} (hs : Scanning crc d₀ b all n w.dir s) (hres : Resumed crc all s n tail) :
    ∃ s' w', Runs LogOp.exec (RepairAt crc d₀ w.coord b all n)
        (Segment.recoverLoop crc (fuel + 1) s tail (position crc all n) n) w (.ok s') w' ∧
      OpenSegment crc w'.dir b (all.take n) s' := by
  by_cases htail : tail = []
  · subst htail
    have hes : ∀ e ∈ s.index.entries, e.relOffset < n := by
      rcases hres with hres | ⟨_, _, _, hne⟩
      · exact hres
      · exact absurd rfl hne
    refine ⟨_, w, .done ⟨hs.repair, rfl⟩, ?_⟩
    refine Scanning.close h hs.file hs.indexFile hs.base hs.named hs.indexNamed ?_ ?_
      hs.entries hs.truthful hes
    · rw [hs.segment]
      exact h.grows
    · rw [hs.segment, h.data, List.append_nil]
  · obtain ⟨q, hq, hpre, hlt⟩ := h.torn.2.resolve_left htail
    rw [recordBytes_length] at hlt
    have hread := readRecord_torn (hlegal q (List.mem_of_getElem? hq)) htail hpre hlt
    simp only [Segment.recoverLoop, hread]
    exact cutTail_runs h hs

/-- The scan ends after record `n`, with everything repaired.  The induction is on the
rounds left; each round either reads record `k` or ends the scan. -/
theorem recoverLoop_runs (h : Stored crc d₀ b all n tail es) (hlegal : ∀ p ∈ all, Legal p)
    (hcount : all.length < 2 ^ 32) {fuel : Nat} (hk : k ≤ n) (hs : Scanning crc d₀ b all n w.dir s)
    (hfuel : (recordsBytes crc ((all.take n).drop k) ++ tail).length < fuel)
    (hres : Resumed crc all s k (recordsBytes crc ((all.take n).drop k) ++ tail)) :
    ∃ r w', Runs LogOp.exec (RepairAt crc d₀ w.coord b all n)
        (Segment.recoverLoop crc fuel s (recordsBytes crc ((all.take n).drop k) ++ tail)
          (position crc all k) k) w r w' ∧
      Restores crc b n all r w'.dir := by
  have hn : n ≤ all.length := h.torn.1
  induction fuel generalizing k s w with
  | zero => omega
  | succ fuel ih =>
      rcases Nat.lt_or_ge k n with hlt | hge
      · have hkall : k < all.length := by
          omega
        have hread := @readRecord_recordBytes crc _ (hlegal _ (List.getElem_mem hkall))
          (recordsBytes crc ((all.take n).drop (k + 1)) ++ tail)
        have hdrop : (recordBytes crc all[k] ++
            (recordsBytes crc ((all.take n).drop (k + 1)) ++ tail)).drop (8 + (all[k]).length) =
            recordsBytes crc ((all.take n).drop (k + 1)) ++ tail :=
          List.drop_left' (by simp)
        have hrel : (k + 1) % 2 ^ 32 = k + 1 := Nat.mod_eq_of_lt (by omega)
        have hfuel' : (recordsBytes crc ((all.take n).drop (k + 1)) ++ tail).length < fuel := by
          rw [rest_cons crc hlt hn, List.length_append, recordBytes_length] at hfuel
          omega
        obtain ⟨r₁, w₁, hrun₁, hcoord, hfits, hok⟩ := maybeIndex_runs hkall hs hres
        rw [rest_cons crc hlt hn]
        simp only [Segment.recoverLoop, hread, hdrop, hrel]
        cases r₁ with
        | error e =>
            refine ⟨.error e, w₁, hrun₁.bind (.done hrun₁.final), ?_, ?_⟩
            · intro s' hs'
              cases hs'
            · intro hidx
              obtain ⟨s', hs'⟩ := hfits (hidx k hkall)
              cases hs'
        | ok s₁ =>
            obtain ⟨hs₁, hes₁⟩ := hok s₁ rfl
            obtain ⟨r, w', hrun', hrestores⟩ := ih (by omega) hs₁ hfuel' (Or.inl hes₁)
            refine ⟨r, w', ?_, hrestores⟩
            rw [hcoord] at hrun'
            rw [← position_succ crc hkall]
            exact hrun₁.bind hrun'
      · have hkn : k = n := by
          omega
        subst hkn
        have hnil : (all.take k).drop k = [] := by
          apply List.drop_eq_nil_of_le
          rw [List.length_take]
          omega
        rw [hnil, recordsBytes_nil, List.nil_append] at hres ⊢
        obtain ⟨s', w', hrun, hopen⟩ := recoverLoop_end h hlegal hs hres
        exact ⟨_, w', hrun, hopen.restores⟩

theorem position_take_le (crc : Checksum) (hk : k ≤ n) :
    position crc (all.take n) k = position crc all k := by
  unfold position
  rw [List.take_take, Nat.min_eq_left hk]

/-- What the reader of the scan has before it when it starts at record `k`. -/
theorem Stored.drop_data (h : Stored crc d₀ b all n tail es) (hk : k ≤ n) :
    (d₀.file (.segment b)).data.drop (position crc all k) =
      recordsBytes crc ((all.take n).drop k) ++ tail := by
  rw [h.data, ← position_take_le crc hk, drop_position]

theorem scanFrom_runs {es : List IndexEntry} (h : Stored crc d₀ b all n tail es)
    (hlegal : ∀ p ∈ all, Legal p) (hcount : all.length < 2 ^ 32) {k : Nat} {w : World}
    (hk : k ≤ n) (hs : Scanning crc d₀ b all n w.dir s)
    (hres : Resumed crc all { s with lastIndexed := position crc all k } k
      (recordsBytes crc ((all.take n).drop k) ++ tail)) :
    ∃ r w', Runs LogOp.exec (RepairAt crc d₀ w.coord b all n)
        (s.scanFrom crc (position crc all k) k) w r w' ∧
      Restores crc b n all r w'.dir := by
  have hs' : Scanning crc d₀ b all n w.dir { s with lastIndexed := position crc all k } :=
    { hs with }
  obtain ⟨r, w', hrun, hrestores⟩ :=
    recoverLoop_runs h hlegal hcount hk hs' (Nat.lt_succ_self _) hres
  refine ⟨r, w', ?_, hrestores⟩
  unfold Segment.scanFrom
  refine runs_fs ⟨hs.repair, rfl⟩ ?_
  simp only [FsOp.exec, hs.file, hs.segment, h.drop_data hk]
  rw [← hs.file]
  exact hrun

/-- The last entry of a truthful index is about the latest record. -/
theorem Truthful.le_last (h : Truthful crc all es) {e : IndexEntry} (he : es.getLast? = some e) :
    ∀ e' ∈ es, e'.relOffset ≤ e.relOffset := by
  obtain ⟨init, rfl⟩ := List.getLast?_eq_some_iff.mp he
  intro e' he'
  rcases List.mem_append.mp he' with hmem | hmem
  · exact le_of_lt ((List.pairwise_append.mp h.sorted).2.2 e' hmem e (by simp))
  · rw [List.mem_singleton.mp hmem]

/-- An entry that points inside the file is about a record that is there, or about the
torn one. -/
theorem Stored.entry_le (h : Stored crc d₀ b all n tail es) {e : IndexEntry}
    (hlt : e.relOffset < all.length) (hpos : e.position = position crc all e.relOffset)
    (hinside : e.position < (d₀.file (.segment b)).data.length) : e.relOffset ≤ n := by
  by_contra hgt
  have hnlt : n < all.length := by
    omega
  have h₁ := position_mono crc all (show n + 1 ≤ e.relOffset by omega)
  have h₂ := position_succ crc hnlt
  have htail : tail.length < 8 + (all[n]).length := by
    rcases h.torn.2 with rfl | ⟨q, hq, _, hlen⟩
    · simp
    · rw [List.getElem?_eq_getElem hnlt, Option.some.injEq] at hq
      rw [recordBytes_length, ← hq] at hlen
      exact hlen
  rw [h.length_data] at hinside
  omega

/-- The directory once the entries of segment `b` have been dropped from its index file. -/
def indexCleared (d : Dir Path) (b : Nat) : Dir Path :=
  d.set (.index b) ((d.file (.index b)).truncate 0)

/-- `recover` is a scan: of the whole file if there is no entry, from the last entry if it
points inside the file, and of the whole file with the index cleared otherwise. -/
theorem recover_of_scan {inv : World → Prop} {P : Except LogErr Segment → World → Prop}
    {w : World} (hfile : s.file = .segment b) (hindex : s.index.file = .index b) (hinv : inv w)
    (hinv' : inv { w with dir := indexCleared w.dir b })
    (hwhole : s.index.entries = [] →
      ∃ r w', Runs LogOp.exec inv (s.scanFrom crc segmentHeaderSize 0) w r w' ∧ P r w')
    (hresume : ∀ e, s.index.last = some e → segmentHeaderSize ≤ e.position →
      e.position < (w.dir.file (.segment b)).data.length →
      ∃ r w', Runs LogOp.exec inv (s.scanFrom crc e.position e.relOffset) w r w' ∧ P r w')
    (hcleared : ∃ r w', Runs LogOp.exec inv
        (Segment.scanFrom crc { s with index := ⟨.index b, []⟩ } segmentHeaderSize 0)
        { w with dir := indexCleared w.dir b } r w' ∧ P r w') :
    ∃ r w', Runs LogOp.exec inv (s.recover crc) w r w' ∧ P r w' := by
  unfold Segment.recover
  cases hlast : s.index.last with
  | none =>
      obtain ⟨r, w', hrun, hpost⟩ := hwhole (List.getLast?_eq_none_iff.mp hlast)
      exact ⟨r, w', runs_fs hinv hrun, hpost⟩
  | some e =>
      by_cases hin : segmentHeaderSize ≤ e.position ∧
          e.position < (w.dir.file (.segment b)).data.length
      · obtain ⟨r, w', hrun, hpost⟩ := hresume e hlast hin.1 hin.2
        refine ⟨r, w', runs_fs hinv ?_, hpost⟩
        simp only [FsOp.exec, hfile]
        rw [if_pos hin]
        exact hrun
      · obtain ⟨r, w', hrun, hpost⟩ := hcleared
        have hreset : Runs LogOp.exec inv s.index.reset w (.ok ⟨s.index.file, []⟩)
            { w with dir := indexCleared w.dir b } := by
          unfold Index.reset
          refine runs_fs hinv ?_
          simp only [FsOp.exec, hindex]
          exact .done hinv'
        refine ⟨r, w', runs_fs hinv ?_, hpost⟩
        simp only [FsOp.exec, hfile]
        rw [if_neg hin]
        refine hreset.bind ?_
        rw [hfile, ← hindex] at hrun
        exact hrun

theorem recover_runs (h : Stored crc d₀ b all n tail es) (hlegal : ∀ p ∈ all, Legal p)
    (hcount : all.length < 2 ^ 32) (hs : Scanning crc d₀ b all n w.dir s) :
    ∃ r w', Runs LogOp.exec (RepairAt crc d₀ w.coord b all n) (s.recover crc) w r w' ∧
      Restores crc b n all r w'.dir := by
  have hstart : segmentHeaderSize = position crc all 0 := by
    simp
  have hf : IndexFile ((w.dir.file (.index b)).truncate 0) [] := by
    simpa using hs.entries.truncate (Nat.zero_le _)
  have hr₁ : Repair crc d₀ b all n (indexCleared w.dir b) :=
    hs.repair.setIndex hs.indexNamed hf (Truthful.nil all)
  refine recover_of_scan hs.file hs.indexFile ⟨hs.repair, rfl⟩ ⟨hr₁, rfl⟩ ?_ ?_ ?_
  · intro hnil
    rw [hstart]
    exact scanFrom_runs h hlegal hcount (Nat.zero_le n) hs (Or.inl (by simp [hnil]))
  · intro e hlast _ hin
    have hmem : e ∈ s.index.entries := List.mem_of_getLast? hlast
    obtain ⟨hlt, hpos⟩ := hs.truthful.honest e hmem
    rw [hs.segment] at hin
    have hle : e.relOffset ≤ n := h.entry_le hlt hpos hin
    have hne : recordsBytes crc ((all.take n).drop e.relOffset) ++ tail ≠ [] := by
      rw [← h.drop_data hle, ← hpos]
      intro hempty
      have := List.drop_eq_nil_iff.mp hempty
      omega
    rw [hpos]
    exact scanFrom_runs h hlegal hcount hle hs
      (Or.inr ⟨List.length_pos_of_mem hmem, rfl, hs.truthful.le_last hlast, hne⟩)
  · -- the index has outlived the records it describes
    have hs₁ : Scanning crc d₀ b all n (indexCleared w.dir b)
        { s with index := ⟨.index b, []⟩ } := by
      refine ⟨hr₁, hs.file, rfl, hs.base, hs.named, hs.indexNamed, ?_, ?_, Truthful.nil all⟩
      · rw [indexCleared, Dir.set_file_ne _ _ (by simp)]
        exact hs.segment
      · rw [indexCleared, Dir.set_file_self]
        exact hf
    rw [hstart]
    exact scanFrom_runs (w := { w with dir := indexCleared w.dir b }) h hlegal hcount
      (Nat.zero_le n) hs₁ (Or.inl (by simp))

end Scan

section Open

variable {d₀ : Dir Path} {b n : Nat} {all : List Bytes} {tail : Bytes}

/-- The fields of a header are read back. -/
theorem header_fields (hb : b < 2 ^ 64) (t : Bytes) :
    getBE ((headerBytes b ++ t).take 4) = segmentMagic ∧
      getBE (((headerBytes b ++ t).drop 4).take 4) = segmentVersion ∧
      getBE (((headerBytes b ++ t).drop 8).take 8) = b := by
  have hsplit : headerBytes b ++ t =
      putBE 4 segmentMagic ++ (putBE 4 segmentVersion ++ (putBE 8 b ++ t)) := by
    simp [headerBytes]
  have hdrop : (headerBytes b ++ t).drop 8 = putBE 8 b ++ t := by
    rw [hsplit, ← List.append_assoc]
    exact List.drop_left' (by simp)
  refine ⟨?_, ?_, ?_⟩
  · rw [hsplit, List.take_left' (by simp)]
    exact getBE_putBE_of_lt (by decide)
  · rw [hsplit, List.drop_left' (by simp), List.take_left' (by simp)]
    exact getBE_putBE_of_lt (by decide)
  · rw [hdrop, List.take_left' (by simp)]
    exact getBE_putBE_of_lt hb

/-- The segment in memory before it is recovered, with the entries of its index file. -/
def loadedSegment (b : Nat) (es : List IndexEntry) : Segment :=
  { file := .segment b
    index := ⟨.index b, es⟩
    baseOffset := b
    nextOffset := b
    size := segmentHeaderSize
    lastIndexed := segmentHeaderSize }

/-- Opening a segment checks its header, loads its index and recovers it. -/
theorem openSegment_of_header {name : Nat} {t : Bytes} {inv : World → Prop} {w w' : World}
    {r : Except LogErr Segment} (hnamed : Path.segment name ∈ w.dir.names) (hb : b < 2 ^ 64)
    (hdata : (w.dir.file (.segment name)).data = headerBytes b ++ t) (hinv : inv w)
    (hinv' : inv { w with dir := w.dir.touch (.index name) })
    (hrun : Runs LogOp.exec inv
      (Segment.recover crc
        { loadedSegment name (indexEntries w.dir name) with baseOffset := b, nextOffset := b })
      { w with dir := w.dir.touch (.index name) } r w') :
    Runs LogOp.exec inv (openSegment crc name) w r w' := by
  obtain ⟨hmagic, hversion, hbase⟩ := header_fields hb t
  have hlen : 16 ≤ (headerBytes b ++ t).length := by
    rw [List.length_append, headerBytes_length]
    omega
  unfold openSegment
  refine runs_fs hinv ?_
  simp only [FsOp.exec, if_pos hnamed]
  refine runs_fs hinv ?_
  simp only [FsOp.exec, hdata, hmagic, hversion, hbase, segmentHeaderSize_eq]
  rw [if_neg (by omega), if_neg (by omega), if_neg (not_not.mpr rfl), if_neg (not_not.mpr rfl)]
  exact (openIndex_any hinv hinv').bind hrun

theorem openSegment_of_recover {es : List IndexEntry} {inv : World → Prop} {w w' : World}
    {r : Except LogErr Segment} (h : Stored crc w.dir b all n tail es) (htidy : w.dir.Tidy)
    (hb : b < 2 ^ 64) (hfits : ∀ e ∈ es, e.Fits) (hinv : inv w)
    (hinv' : inv { w with dir := w.dir.touch (.index b) })
    (hrun : Runs LogOp.exec inv ((loadedSegment b es).recover crc)
      { w with dir := w.dir.touch (.index b) } r w') :
    Runs LogOp.exec inv (openSegment crc b) w r w' := by
  refine openSegment_of_header h.named hb (h.data.trans (List.append_assoc _ _ _)) hinv hinv' ?_
  rw [indexEntries_eq htidy h.index hfits]
  exact hrun

variable {es : List IndexEntry} {w : World}

/-- Opening a stored segment gives the records the segment file holds, if it succeeds; at
every point on the way the segment is still stored. -/
theorem openSegment_restores (h : Stored crc w.dir b all n tail es) (htidy : w.dir.Tidy)
    (hb : b < 2 ^ 64) (hlegal : ∀ p ∈ all, Legal p) (hcount : all.length < 2 ^ 32)
    (hfits : ∀ e ∈ es, e.Fits) :
    ∃ r w', Runs LogOp.exec (RepairAt crc w.dir w.coord b all n) (openSegment crc b) w r w' ∧
      Restores crc b n all r w'.dir := by
  have hrefl : Repair crc w.dir b all n w.dir := Repair.refl htidy h.index h.truthful
  have hs : Scanning crc w.dir b all n (w.dir.touch (.index b)) (loadedSegment b es) := by
    refine ⟨hrefl.touch, rfl, rfl, rfl, Dir.names_subset_touch _ _ h.named,
      Dir.mem_names_touch _ _, htidy.touch_file _ _, ?_, h.truthful⟩
    rw [htidy.touch_file]
    exact h.index
  obtain ⟨r, w', hrun, hrestores⟩ :=
    recover_runs (w := { w with dir := w.dir.touch (.index b) }) h hlegal hcount hs
  exact ⟨r, w', openSegment_of_recover h htidy hb hfits ⟨hrefl, rfl⟩ ⟨hrefl.touch, rfl⟩ hrun,
    hrestores⟩

/-- With every record in reach of an index entry it does succeed. -/
theorem openSegment_runs (h : Stored crc w.dir b all n tail es) (htidy : w.dir.Tidy)
    (hb : b < 2 ^ 64) (hlegal : ∀ p ∈ all, Legal p) (hidx : Indexable crc all) :
    ∃ s' w', Runs LogOp.exec (RepairAt crc w.dir w.coord b all n)
        (openSegment crc b) w (.ok s') w' ∧
      OpenSegment crc w'.dir b (all.take n) s' := by
  obtain ⟨r, w', hrun, hrestores⟩ :=
    openSegment_restores h htidy hb hlegal hidx.length_lt (h.truthful.fits hidx)
  obtain ⟨s', rfl⟩ := hrestores.succeeds hidx
  exact ⟨s', w', hrun, hrestores.opens s' rfl⟩

end Open

end LedgerLine.Broker
