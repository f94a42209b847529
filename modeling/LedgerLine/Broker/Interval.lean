import LedgerLine.Broker.Residue
import LedgerLine.Lib.Landmarks

/-!
# How far a read has to walk

A read looks up the last index entry at or before its record and walks from there over the
headers of the records in between.  `maybeIndex` adds an entry once 4096 bytes have been
written since the last one, so the walk should be shorter than that.

The bound rests on `lastIndexed` being the position of the last entry (`Segment.InStep`).
`recover` sets it so when it resumes from the last entry, and its scan keeps it so.  But when
the very record it resumed from turns out to be torn, `truncateFrom` drops the entry and
`lastIndexed` stays: the next record goes to that position, is not due for an entry, and its
reads start at the entry before.

`Lifetime` is the life of a segment: appends, syncs, power losses at any moment, also in the
middle of a recovery, and recoveries.  The entries and the records they cover are treated as
landmarks (`LedgerLine.Lib.Landmarks`), for an arbitrary notion of nearness: with 4096 bytes
it gives the bound (`walk_bounded`), with no bound at all that the first record is indexed.
-/

namespace LedgerLine.Broker

open Program Landmarks

/-- `lastIndexed` is the position of the last index entry. -/
def Segment.InStep (s : Segment) : Prop :=
  ∀ e, s.index.last = some e → s.lastIndexed = e.position

theorem Index.exists_last {ix : Index} (h : ix.entries ≠ []) : ∃ e, ix.last = some e :=
  Option.isSome_iff_exists.mp (List.getLast?_isSome.mpr h)

section Marks

variable (crc : Checksum) (near : Nat → Nat → Prop) (all : List Bytes)

/-- The walk from an entry to record `k` is short enough. -/
def Near (e : IndexEntry) (k : Nat) : Prop :=
  near e.position (position crc all k)

/-- A read of record `k` has an entry to start from. -/
def Reached (es : List IndexEntry) (k : Nat) : Prop :=
  Landmarked IndexEntry.relOffset (Near crc near all) es k

/-- Before each entry, all records are within reach of the entries before it. -/
def WellSpaced (es : List IndexEntry) : Prop :=
  Spaced IndexEntry.relOffset (Near crc near all) es

/-- The index file of segment `b` is right about the records `all`, and evenly filled. -/
def Inked (b : Nat) (d : Dir Path) : Prop :=
  ∃ es, IndexFile (d.file (.index b)) es ∧ Truthful crc all es ∧ (∀ e ∈ es, e.Fits) ∧
    WellSpaced crc near all es

/-- A segment in memory with the entries of its index file. -/
structure Loaded (b : Nat) (d : Dir Path) (s : Segment) : Prop where
  file : s.file = .segment b
  indexFile : s.index.file = .index b
  entries : IndexFile (d.file (.index b)) s.index.entries
  truthful : Truthful crc all s.index.entries
  fits : ∀ e ∈ s.index.entries, e.Fits
  marked : WellSpaced crc near all s.index.entries

/-- A segment in memory whose scan has come to record `k`. -/
structure Marking (b k : Nat) (d : Dir Path) (s : Segment) : Prop extends
    Loaded crc near all b d s where
  upto : ∀ e ∈ s.index.entries, e.relOffset ≤ k
  reached : ∀ j < k, Reached crc near all s.index.entries j
  inStep : s.InStep
  low : s.lastIndexed < maxIndexableSegment

end Marks

section Step

variable {crc : Checksum} {near : Nat → Nat → Prop} {all : List Bytes} {b k n : Nat}
variable {d : Dir Path} {s s' : Segment}

theorem Loaded.inked (h : Loaded crc near all b d s) : Inked crc near all b d :=
  ⟨_, h.entries, h.truthful, h.fits, h.marked⟩

/-- Record `k` gets an entry or is near the last one. -/
theorem Segment.Notes.reached (h : s.Notes k (position crc all k) s')
    (hnear : ∀ p q, q < p + indexIntervalBytes → near p q)
    (hupto : ∀ e ∈ s.index.entries, e.relOffset ≤ k)
    (hmarked : WellSpaced crc near all s.index.entries)
    (hreached : ∀ j < k, Reached crc near all s.index.entries j)
    (hlast : ¬ s.Due (position crc all k) → ∀ e, s.index.last = some e →
      near e.position (position crc all k)) :
    WellSpaced crc near all s'.index.entries ∧
      ∀ j < k + 1, Reached crc near all s'.index.entries j := by
  rcases h with ⟨hskip, rfl⟩ | ⟨_, _, rfl⟩
  · refine ⟨hmarked, ?_⟩
    intro j hj
    rcases Nat.lt_succ_iff_lt_or_eq.mp hj with hlt | rfl
    · exact hreached j hlt
    · obtain ⟨e, he⟩ := Index.exists_last (List.length_pos_iff.mp (not_not.mp hskip).1)
      have hmem := List.mem_of_getLast? he
      exact ⟨e, hmem, hupto e hmem, hlast hskip e he⟩
  · refine ⟨hmarked.concat hreached, ?_⟩
    intro j hj
    rcases Nat.lt_succ_iff_lt_or_eq.mp hj with hlt | rfl
    · exact (hreached j hlt).subset (List.subset_append_left _ _)
    · exact ⟨_, List.mem_append_right _ (List.mem_singleton_self _), le_refl _,
        hnear _ _ (Nat.lt_add_of_pos_right (by decide))⟩

/-- A scan in step skips a record only close to the last entry. -/
theorem Segment.InStep.close (h : s.InStep) {pos : Nat} (hskip : ¬ s.Due pos)
    {e : IndexEntry} (he : s.index.last = some e) : pos < e.position + indexIntervalBytes := by
  have hclose := (not_not.mp hskip).2
  rw [h e he] at hclose
  omega

/-- A record that is due is behind all entries. -/
theorem Marking.before (h : Marking crc near all b k d s) (hdue : s.Due (position crc all k)) :
    ∀ e ∈ s.index.entries, e.relOffset < k := by
  intro e he
  obtain ⟨a, ha⟩ := Index.exists_last (List.ne_nil_of_mem he)
  have hle := h.truthful.le_last ha e he
  rcases Nat.lt_or_ge a.relOffset k with hlt | hge
  · omega
  · -- the scan resumed from this entry, so nothing is due here
    have hak : a.relOffset = k := le_antisymm (h.upto a (List.mem_of_getLast? ha)) hge
    refine absurd ⟨List.length_pos_of_mem he, ?_⟩ hdue
    rw [h.inStep a ha, (h.truthful.honest a (List.mem_of_getLast? ha)).2, hak]
    simp

/-- One round of the scan in memory. -/
theorem Marking.notes {d' : Dir Path} (h : Marking crc near all b k d s)
    (hnear : ∀ p q, q < p + indexIntervalBytes → near p q) (hcount : all.length < 2 ^ 32)
    (hk : k < all.length) (hnotes : s.Notes k (position crc all k) s')
    (hentries : IndexFile (d'.file (.index b)) s'.index.entries) :
    Marking crc near all b (k + 1) d' s' := by
  obtain ⟨hmarked, hreached⟩ := hnotes.reached hnear h.upto h.marked h.reached
    fun hskip e he => hnear _ _ (h.inStep.close hskip he)
  obtain ⟨hfile, hindexFile, _⟩ := hnotes.fields
  refine ⟨⟨hfile.trans h.file, hindexFile.trans h.indexFile, hentries, ?_,
    hnotes.fits (hk.trans hcount) h.fits, hmarked⟩, ?_, hreached, ?_, (hnotes.near h.low).1⟩
  · rcases hnotes with ⟨_, rfl⟩ | ⟨hdue, _, rfl⟩
    · exact h.truthful
    · exact h.truthful.concat hk (h.before hdue)
  · rcases hnotes with ⟨_, rfl⟩ | ⟨_, _, rfl⟩
    · exact fun e he => Nat.le_succ_of_le (h.upto e he)
    · intro e he
      rcases List.mem_append.mp he with he | he
      · exact Nat.le_succ_of_le (h.upto e he)
      · rw [List.mem_singleton.mp he]
        exact Nat.le_succ k
  · rcases hnotes with ⟨_, rfl⟩ | ⟨_, _, rfl⟩
    · exact h.inStep
    · intro e he
      rw [Index.last, List.getLast?_concat, Option.some.injEq] at he
      rw [← he]

/-- The same with the index file. -/
theorem maybeIndex_marks {w : World} (h : Marking crc near all b k w.dir s)
    (hnear : ∀ p q, q < p + indexIntervalBytes → near p q) (hcount : all.length < 2 ^ 32)
    (hk : k < all.length) :
    ∃ r w', Runs LogOp.exec (fun u => Inked crc near all b u.dir)
        (s.maybeIndex k (position crc all k)) w r w' ∧
      ∀ s', r = .ok s' → Marking crc near all b (k + 1) w'.dir s' := by
  by_cases hskip : 0 < s.index.entries.length ∧
      ((position crc all k : Nat) : Int) - s.lastIndexed < indexIntervalBytes
  · refine ⟨_, w, maybeIndex_skip hskip h.inked, ?_⟩
    rintro s' ⟨⟩
    exact h.notes hnear hcount hk (Or.inl ⟨not_not.mpr hskip, rfl⟩) h.entries
  · rcases Nat.lt_or_ge (position crc all k) maxIndexableSegment with hpos | hpos
    · have hentries : IndexFile ((addEntry w.dir s k (position crc all k)).file (.index b))
          (s.index.entries ++ [⟨k, position crc all k⟩]) := by
        rw [addEntry, h.indexFile, Dir.set_file_self]
        exact h.entries.append _
      have h' := h.notes hnear hcount hk (Or.inr ⟨hskip, hpos, rfl⟩) hentries
      refine ⟨_, _, maybeIndex_add hskip hpos h.inked h'.inked, ?_⟩
      rintro s' ⟨⟩
      exact h'
    · rw [maybeIndex_refuse hskip hpos]
      refine ⟨_, w, .done h.inked, ?_⟩
      intro s' hs'
      cases hs'

end Step

section Scan

variable {crc : Checksum} {near : Nat → Nat → Prop} {all : List Bytes} {b k n : Nat}
variable {d : Dir Path} {s : Segment} {w : World} {e : LogErr}

/-- A recovered segment: the first `n` records are within reach of its entries. -/
structure Served (crc : Checksum) (near : Nat → Nat → Prop) (all : List Bytes) (n : Nat)
    (s : Segment) : Prop where
  low : s.lastIndexed < maxIndexableSegment
  fits : ∀ e ∈ s.index.entries, e.Fits
  marked : WellSpaced crc near all s.index.entries
  reached : ∀ j < n, Reached crc near all s.index.entries j

/-- Cutting off a torn tail drops no entry that a record needs. -/
theorem cutTail_marks (h : Marking crc near all b n w.dir s) (hn : n ≤ all.length) :
    ∃ s' w', Runs LogOp.exec (fun u => Inked crc near all b u.dir)
        (Segment.recoverLoop.cutTail s (position crc all n) n) w (.ok s') w' ∧
      Served crc near all n s' := by
  let kept := s.index.entries.takeWhile (fun e => decide (e.position < position crc all n))
  have hkept : kept <+: s.index.entries := List.takeWhile_prefix _
  have hmarked : WellSpaced crc near all kept := h.marked.of_isPrefix hkept
  let d₁ := w.dir.set (.segment b) ((w.dir.file (.segment b)).truncate (position crc all n))
  let d₂ := d₁.set (.index b) ((w.dir.file (.index b)).truncate (kept.length * 8))
  have hidx : d₁.file (.index b) = w.dir.file (.index b) := Dir.set_file_ne _ _ (by simp)
  have hfits : ∀ e ∈ kept, e.Fits := fun e he => h.fits e (hkept.subset he)
  have hinked₁ : Inked crc near all b d₁ := by
    refine ⟨s.index.entries, ?_, h.truthful, h.fits, h.marked⟩
    rw [hidx]
    exact h.entries
  have hinked₂ : Inked crc near all b d₂ := by
    refine ⟨kept, ?_, h.truthful.sublist hkept.sublist, hfits, hmarked⟩
    have hcut := h.entries.truncate hkept.length_le
    rw [← List.prefix_iff_eq_take.mp hkept] at hcut
    rw [Dir.set_file_self]
    exact hcut
  refine ⟨{ s with
      index := ⟨s.index.file, kept⟩
      size := position crc all n
      nextOffset := s.baseOffset + n }, { w with dir := d₂ }, ?_, h.low, hfits, hmarked, ?_⟩
  · have hrun : Runs LogOp.exec (fun u => Inked crc near all b u.dir)
        (s.index.truncateFrom (position crc all n)) { w with dir := d₁ }
        (.ok ⟨s.index.file, kept⟩) { w with dir := d₂ } := by
      unfold Index.truncateFrom
      refine runs_fs hinked₁ ?_
      simp only [FsOp.exec, h.indexFile]
      rw [hidx]
      exact .done hinked₂
    unfold Segment.recoverLoop.cutTail
    refine runs_fs h.inked ?_
    simp only [FsOp.exec, h.file]
    exact hrun.bind (.done hinked₂)
  · intro j hj
    refine (h.reached j hj).takeWhile h.truthful.sorted ?_
    intro e he hle
    have hlt : e.relOffset < all.length := by
      omega
    have h₁ := position_succ crc hlt
    have h₂ := position_mono crc all (show e.relOffset + 1 ≤ n by omega)
    rw [decide_eq_true_eq, (h.truthful.honest e he).2]
    omega

theorem finishScan_marks (h : Marking crc near all b n w.dir s) (hn : n ≤ all.length)
    (he : e = .eof ∨ e = .tornRecord) :
    ∃ s' w', Runs LogOp.exec (fun u => Inked crc near all b u.dir)
        (Segment.finishScan e s (position crc all n) n) w (.ok s') w' ∧
      Served crc near all n s' := by
  rcases he with rfl | rfl
  · exact ⟨_, w, .done h.inked, h.low, h.fits, h.marked, h.reached⟩
  · exact cutTail_marks h hn

/-- The scan of the records from `k` on.  The induction is on the records left. -/
theorem indexRecords_marks {recs : List Bytes} (h : Marking crc near all b k w.dir s)
    (hnear : ∀ p q, q < p + indexIntervalBytes → near p q) (hcount : all.length < 2 ^ 32)
    (hn : n ≤ all.length) (hk : k ≤ n) (hrecs : recs = (all.take n).drop k)
    (he : e = .eof ∨ e = .tornRecord) :
    ∃ r w', Runs LogOp.exec (fun u => Inked crc near all b u.dir)
        (Segment.indexRecords (Segment.finishScan e) recs s (position crc all k) k) w r w' ∧
      ∀ s', r = .ok s' → Served crc near all n s' := by
  induction recs generalizing k s w with
  | nil =>
      have hlen := congrArg List.length hrecs
      rw [List.length_nil, List.length_drop, List.length_take] at hlen
      obtain rfl : k = n := by
        omega
      obtain ⟨s', w', hrun, hserved⟩ := finishScan_marks h hn he
      refine ⟨_, w', hrun, ?_⟩
      rintro s' ⟨⟩
      exact hserved
  | cons p recs ih =>
      have hlen := congrArg List.length hrecs
      rw [List.length_cons, List.length_drop, List.length_take] at hlen
      have hkn : k < n := by
        omega
      have hkall : k < all.length := by
        omega
      rw [List.drop_eq_getElem_cons (by rw [List.length_take]; omega), List.getElem_take,
        List.cons.injEq] at hrecs
      obtain ⟨rfl, hrecs⟩ := hrecs
      have hrel : (k + 1) % 2 ^ 32 = k + 1 := Nat.mod_eq_of_lt (by omega)
      obtain ⟨r₁, w₁, hrun₁, hok⟩ := maybeIndex_marks h hnear hcount hkall
      unfold Segment.indexRecords
      cases r₁ with
      | error e' =>
          refine ⟨.error e', w₁, hrun₁.bind (.done hrun₁.final), ?_⟩
          intro s' hs'
          cases hs'
      | ok s₁ =>
          obtain ⟨r, w', hrun', hserved⟩ := ih (hok s₁ rfl) hkn hrecs
          refine ⟨r, w', hrun₁.bind ?_, hserved⟩
          simp only [hrel]
          rw [← position_succ crc hkall]
          exact hrun'

/-- Behind the records of a stored segment the reader finds the end or a torn record. -/
theorem TornTail.readRecord {tail : Bytes} (h : TornTail crc all n tail)
    (hlegal : ∀ p ∈ all, Legal p) :
    ∃ e, readRecord crc tail = .error e ∧ (e = .eof ∨ e = .tornRecord) := by
  by_cases htail : tail = []
  · subst htail
    exact ⟨_, readRecord_nil, Or.inl rfl⟩
  · obtain ⟨q, hq, hpre, hlt⟩ := h.2.resolve_left htail
    rw [recordBytes_length] at hlt
    exact ⟨_, readRecord_torn (hlegal q (List.mem_of_getElem? hq)) htail hpre hlt, Or.inr rfl⟩

variable {d₀ : Dir Path} {tail : Bytes} {es : List IndexEntry}

theorem scanFrom_marks (h : Stored crc d₀ b all n tail es)
    (hnear : ∀ p q, q < p + indexIntervalBytes → near p q) (hlegal : ∀ p ∈ all, Legal p)
    (hcount : all.length < 2 ^ 32) (hk : k ≤ n)
    (hseg : w.dir.file (.segment b) = d₀.file (.segment b))
    (hs : Marking crc near all b k w.dir { s with lastIndexed := position crc all k }) :
    ∃ r w', Runs LogOp.exec (fun u => Inked crc near all b u.dir)
        (s.scanFrom crc (position crc all k) k) w r w' ∧
      ∀ s', r = .ok s' → Served crc near all n s' := by
  obtain ⟨e, hend, he⟩ := h.torn.readRecord hlegal
  have hfile : s.file = .segment b := hs.file
  have hscan := @scanLoop_recordsBytes crc ((all.take n).drop k)
    (fun p hp => hlegal p (List.mem_of_mem_take (List.mem_of_mem_drop hp)))
    ((recordsBytes crc ((all.take n).drop k) ++ tail).length + 1)
    (by
      have := @length_le_recordsBytes crc ((all.take n).drop k)
      rw [List.length_append]
      omega)
    tail e hend
  obtain ⟨r, w', hrun, hserved⟩ := indexRecords_marks hs hnear hcount h.torn.1 hk rfl he
  refine ⟨r, w', ?_, hserved⟩
  unfold Segment.scanFrom
  refine runs_fs hs.inked ?_
  simp only [FsOp.exec, hfile, hseg, h.drop_data hk]
  rw [recoverLoop_eq (Nat.lt_succ_self _), hscan, ← hfile]
  exact hrun

/-- A scan that starts over, with an empty index. -/
theorem Loaded.restart (h : Loaded crc near all b d s) (hnil : s.index.entries = []) :
    Marking crc near all b 0 d { s with lastIndexed := position crc all 0 } := by
  refine ⟨{ h with }, ?_, fun j hj => absurd hj (Nat.not_lt_zero j), ?_, ?_⟩
  · intro e he
    have he' : e ∈ s.index.entries := he
    rw [hnil] at he'
    cases he'
  · intro e he
    have he' : s.index.entries.getLast? = some e := he
    rw [hnil] at he'
    cases he'
  · simp

/-- A scan that resumes from the last entry. -/
theorem Loaded.resume (h : Loaded crc near all b d s) {e : IndexEntry}
    (he : s.index.last = some e) :
    Marking crc near all b e.relOffset d
      { s with lastIndexed := position crc all e.relOffset } := by
  have hpos := (h.truthful.honest e (List.mem_of_getLast? he)).2
  refine ⟨{ h with }, h.truthful.le_last he, fun j hj => h.marked.landmarked_last he hj, ?_, ?_⟩
  · intro a ha
    have hae : e = a := Option.some.inj (he.symm.trans ha)
    rw [← hae]
    exact hpos.symm
  · have hfits := (h.fits e (List.mem_of_getLast? he)).2
    rw [hpos] at hfits
    rw [maxIndexableSegment_eq]
    exact hfits

theorem recover_marks (h : Stored crc d₀ b all n tail es)
    (hnear : ∀ p q, q < p + indexIntervalBytes → near p q) (hlegal : ∀ p ∈ all, Legal p)
    (hcount : all.length < 2 ^ 32) (hseg : w.dir.file (.segment b) = d₀.file (.segment b))
    (hs : Loaded crc near all b w.dir s) :
    ∃ r w', Runs LogOp.exec (fun u => Inked crc near all b u.dir) (s.recover crc) w r w' ∧
      ∀ s', r = .ok s' → Served crc near all n s' := by
  have hstart : segmentHeaderSize = position crc all 0 := by
    simp
  have hs₁ : Loaded crc near all b (indexCleared w.dir b) { s with index := ⟨.index b, []⟩ } := by
    refine ⟨hs.file, rfl, ?_, Truthful.nil all, List.forall_mem_nil _, Spaced.nil⟩
    rw [indexCleared, Dir.set_file_self]
    simpa using hs.entries.truncate (Nat.zero_le _)
  refine recover_of_scan (P := fun r _ => ∀ s', r = .ok s' → Served crc near all n s') hs.file
    hs.indexFile hs.inked hs₁.inked ?_ ?_ ?_
  · intro hnil
    rw [hstart]
    exact scanFrom_marks h hnear hlegal hcount (Nat.zero_le n) hseg (hs.restart hnil)
  · intro e hlast _ hin
    obtain ⟨hlt, hpos⟩ := hs.truthful.honest e (List.mem_of_getLast? hlast)
    rw [hseg] at hin
    rw [hpos]
    exact scanFrom_marks h hnear hlegal hcount (h.entry_le hlt hpos hin) hseg (hs.resume hlast)
  · have hseg₁ : (indexCleared w.dir b).file (.segment b) = d₀.file (.segment b) := by
      rw [indexCleared, Dir.set_file_ne _ _ (by simp)]
      exact hseg
    rw [hstart]
    exact scanFrom_marks (w := { w with dir := indexCleared w.dir b }) h hnear hlegal hcount
      (Nat.zero_le n) hseg₁ (hs₁.restart rfl)

/-- Opening a segment whose index is evenly filled leaves every record within reach, and the
index evenly filled at every point on the way. -/
theorem openSegment_marks (h : Stored crc w.dir b all n tail es) (htidy : w.dir.Tidy)
    (hb : b < 2 ^ 64) (hnear : ∀ p q, q < p + indexIntervalBytes → near p q)
    (hlegal : ∀ p ∈ all, Legal p) (hcount : all.length < 2 ^ 32) (hfits : ∀ e ∈ es, e.Fits)
    (hmarked : WellSpaced crc near all es) :
    ∃ r w', Runs LogOp.exec (fun u => Inked crc near all b u.dir) (openSegment crc b) w r w' ∧
      ∀ s', r = .ok s' → Served crc near all n s' := by
  have hinked : Inked crc near all b w.dir := ⟨es, h.index, h.truthful, hfits, hmarked⟩
  have hs : Loaded crc near all b (w.dir.touch (.index b)) (loadedSegment b es) := by
    refine ⟨rfl, rfl, ?_, h.truthful, hfits, hmarked⟩
    rw [htidy.touch_file]
    exact h.index
  obtain ⟨r, w', hrun, hserved⟩ := recover_marks (w := { w with dir := w.dir.touch (.index b) })
    h hnear hlegal hcount (htidy.touch_file _ _) hs
  exact ⟨r, w', openSegment_of_recover h htidy hb hfits hinked hs.inked hrun, hserved⟩

end Scan

section Life

variable (crc : Checksum) (b : Nat)

/-- The life of segment `b` and of its two files, up or down.  `mayAppend` says in which states
records are appended.  What a power loss during an append can leave, one right after it can
leave as well; a segment that loses its header is never opened again. -/
inductive Lifetime (mayAppend : Segment → Prop) : Option Segment → World → Prop
  | created {w : World} {s : Segment} (htidy : w.dir.Tidy)
      (hfree : Path.segment b ∉ w.dir.names) (hindex : Path.index b ∉ w.dir.names)
      (hok : (run LogOp.exec (createSegment b) w).1 = .ok s) :
      Lifetime mayAppend (some s) (run LogOp.exec (createSegment b) w).2
  | appended {w : World} {s s' : Segment} {k : Nat} (p : Bytes)
      (h : Lifetime mayAppend (some s) w) (hmay : mayAppend s)
      (hok : (run LogOp.exec (s.append crc p) w).1 = (s', .ok k)) :
      Lifetime mayAppend (some s') (run LogOp.exec (s.append crc p) w).2
  | synced {o : Option Segment} {w : World} {d : Dir Path} (h : Lifetime mayAppend o w)
      (hsync : w.dir.SyncLe d) : Lifetime mayAppend o { w with dir := d }
  | crashed {o : Option Segment} {w : World} {d : Dir Path} (h : Lifetime mayAppend o w)
      (hcrash : w.dir.Crash d) (hheader : 16 ≤ (d.file (.segment b)).data.length) :
      Lifetime mayAppend none { w with dir := d }
  /-- The process ends in the middle of a recovery. -/
  | interrupted {o : Option Segment} {w u : World} (h : Lifetime mayAppend o w)
      (hpoint : Point LogOp.exec (openSegment crc b) w u) : Lifetime mayAppend none u
  | recovered {o : Option Segment} {w : World} {s : Segment} (h : Lifetime mayAppend o w)
      (hok : (run LogOp.exec (openSegment crc b) w).1 = .ok s) :
      Lifetime mayAppend (some s) (run LogOp.exec (openSegment crc b) w).2

variable (near : Nat → Nat → Prop)

/-- The segment is open, with the records `ps`, all of them within reach. -/
structure InUse (ps : List Bytes) (d : Dir Path) (s : Segment) : Prop where
  opened : OpenSegment crc d b ps s
  tidy : d.Tidy
  legal : ∀ p ∈ ps, Legal p
  within : ∀ k, k < ps.length → position crc ps k < maxIndexableSegment + indexIntervalBytes
  served : Served crc near ps ps.length s

/-- The two files of the segment: records that may end in a torn one, and an evenly filled
index that may speak of records that are lost. -/
structure Shelved (all : List Bytes) (n : Nat) (tail : Bytes) (es : List IndexEntry)
    (d : Dir Path) : Prop where
  stored : Stored crc d b all n tail es
  tidy : d.Tidy
  legal : ∀ p ∈ all, Legal p
  within : ∀ k, k < all.length → position crc all k < maxIndexableSegment + indexIntervalBytes
  fits : ∀ e ∈ es, e.Fits
  marked : WellSpaced crc near all es

/-- What holds in every state of a life. -/
def Lives : Option Segment → Dir Path → Prop
  | some s, d => ∃ ps, InUse crc b near ps d s
  | none, d => ∃ all n tail es, Shelved crc b near all n tail es d

end Life

section Preserved

variable {crc : Checksum} {near : Nat → Nat → Prop} {b n : Nat} {all ps : List Bytes}
variable {tail : Bytes} {es : List IndexEntry} {d d' : Dir Path} {w : World} {s s' : Segment}
variable {o : Option Segment}

/-- Only the positions of the records before the last entry matter to the entries. -/
theorem WellSpaced.congr {all' : List Bytes} (h : WellSpaced crc near all es)
    (hkeys : ∀ e ∈ es, e.relOffset ≤ n)
    (hpos : ∀ k < n, position crc all' k = position crc all k) : WellSpaced crc near all' es := by
  refine h.imp hkeys ?_
  intro e _ k hk hnear
  rw [Near, hpos k hk]
  exact hnear

theorem Reached.congr {all' : List Bytes} {k : Nat} (h : Reached crc near all es k)
    (hpos : position crc all' k = position crc all k) : Reached crc near all' es k := by
  refine h.imp ?_
  intro e _ hnear
  rw [Near, hpos]
  exact hnear

theorem InUse.count (h : InUse crc b near ps d s) : ps.length < 2 ^ 32 :=
  length_lt_of_near h.within

theorem Shelved.count (h : Shelved crc b near all n tail es d) : all.length < 2 ^ 32 :=
  length_lt_of_near h.within

theorem InUse.shelved (h : InUse crc b near ps d s) :
    Shelved crc b near ps ps.length [] s.index.entries d :=
  ⟨h.opened.stored, h.tidy, h.legal, h.within, h.served.fits, h.served.marked⟩

theorem Lives.shelved (h : Lives crc b near o d) :
    ∃ all n tail es, Shelved crc b near all n tail es d := by
  cases o with
  | none => exact h
  | some s =>
      obtain ⟨ps, hs⟩ := h
      exact ⟨_, _, _, _, hs.shelved⟩

theorem Lives.syncLe (h : Lives crc b near o d) (hs : d.SyncLe d') : Lives crc b near o d' := by
  cases o with
  | none =>
      obtain ⟨all, n, tail, es, hd⟩ := h
      exact ⟨all, n, tail, es,
        { hd with stored := hd.stored.syncLe hs, tidy := hd.tidy.syncLe hs }⟩
  | some s =>
      obtain ⟨ps, hd⟩ := h
      exact ⟨ps, { hd with opened := hd.opened.syncLe hs, tidy := hd.tidy.syncLe hs }⟩

theorem Shelved.crash (h : Shelved crc b near all n tail es d) (hcrash : d.Crash d')
    (hheader : 16 ≤ (d'.file (.segment b)).data.length) : Lives crc b near none d' := by
  obtain ⟨m, tail', es', _, hes, hstored, _⟩ := h.stored.crash hcrash hheader
  exact ⟨all, m, tail', es', hstored, h.tidy.crash hcrash, h.legal, h.within,
    fun e he => h.fits e (hes.subset he), h.marked.of_isPrefix hes⟩

/-- Wherever a recovery is interrupted, the next one finds an evenly filled index. -/
theorem Shelved.point (h : Shelved crc b near all n tail es w.dir) (hb : b < 2 ^ 64)
    (hnear : ∀ p q, q < p + indexIntervalBytes → near p q) {u : World}
    (hpoint : Point LogOp.exec (openSegment crc b) w u) : Lives crc b near none u.dir := by
  obtain ⟨_, _, hrun, _⟩ := openSegment_restores h.stored h.tidy hb h.legal h.count h.fits
  obtain ⟨_, _, hrun', _⟩ :=
    openSegment_marks h.stored h.tidy hb hnear h.legal h.count h.fits h.marked
  obtain ⟨hrepair, _⟩ := hrun.point hpoint
  obtain ⟨es', hindex, htruthful, hfits, hmarked⟩ := hrun'.point hpoint
  obtain ⟨tail', hstored⟩ := hrepair.stored_of_index h.stored hindex htruthful
  exact ⟨all, n, tail', es', hstored, hrepair.tidy, h.legal, h.within, hfits, hmarked⟩

/-- A recovery brings the first `n` records back, all within reach. -/
theorem Shelved.recover (h : Shelved crc b near all n tail es w.dir) (hb : b < 2 ^ 64)
    (hnear : ∀ p q, q < p + indexIntervalBytes → near p q)
    (hok : (run LogOp.exec (openSegment crc b) w).1 = .ok s') :
    InUse crc b near (all.take n) (run LogOp.exec (openSegment crc b) w).2.dir s' := by
  obtain ⟨r, w₁, hrun, hrestores⟩ :=
    openSegment_restores h.stored h.tidy hb h.legal h.count h.fits
  obtain ⟨r', w₂, hrun', hmarks⟩ :=
    openSegment_marks h.stored h.tidy hb hnear h.legal h.count h.fits h.marked
  -- both describe the one run
  have hsame := hrun'.run_eq
  rw [hrun.run_eq] at hok hsame ⊢
  cases hok
  cases hsame
  have hopen := hrestores.opens s' rfl
  have hserved := hmarks s' rfl
  have hlen : (all.take n).length = n := by
    rw [List.length_take, Nat.min_eq_left h.stored.torn.1]
  have hpos : ∀ k < n, position crc (all.take n) k = position crc all k :=
    fun k hk => position_take_le crc (le_of_lt hk)
  refine ⟨hopen, hrun.final.1.tidy, fun p hp => h.legal p (List.mem_of_mem_take hp), ?_,
    hserved.low, hserved.fits, ?_, ?_⟩
  · intro k hk
    rw [hlen] at hk
    rw [hpos k hk]
    exact h.within k (hk.trans_le h.stored.torn.1)
  · refine hserved.marked.congr ?_ hpos
    intro e he
    have hlt := (hopen.stored.truthful.honest e he).1
    omega
  · intro j hj
    rw [hlen] at hj
    exact (hserved.reached j hj).congr (hpos j hj)

/-- An append keeps every record within reach if it skips the entry for its own only near the
last one. -/
theorem InUse.append (h : InUse crc b near ps w.dir s)
    (hnear : ∀ p q, q < p + indexIntervalBytes → near p q) {p : Bytes} {k : Nat}
    (hlast : ¬ s.Due s.size → ∀ e, s.index.last = some e → near e.position s.size)
    (hok : (run LogOp.exec (s.append crc p) w).1 = (s', .ok k)) :
    InUse crc b near (ps ++ [p]) (run LogOp.exec (s.append crc p) w).2.dir s' := by
  have hp : Legal p := legal_of_append hok
  have hends := ends_run (LogOp.outcome_exec fun _ => False) (s.append crc p) w
  rw [hok] at hends
  obtain ⟨s₂, hnotes, hs₂⟩ := yields_of_ends hends (segmentAppend_notes crc s p) k rfl
  have hrel : (s.nextOffset - s.baseOffset) % 2 ^ 32 = ps.length := by
    rw [h.opened.next, h.opened.base, Nat.add_sub_cancel_left, Nat.mod_eq_of_lt h.count]
  rw [hrel, h.opened.size] at hnotes
  obtain ⟨hlow, hwithin⟩ := hnotes.near h.served.low
  obtain ⟨s₁, w₁, hrun, hopen, hext⟩ :=
    segmentAppend_of_fits h.opened h.tidy hp h.count hnotes.lt_of_due
  rw [hrun.run_eq] at hok ⊢
  cases hok
  have hpos : ∀ j ≤ ps.length, position crc (ps ++ [p]) j = position crc ps j :=
    fun j hj => position_append_left crc hj
  have hfits := hnotes.fits h.count h.served.fits
  rw [← hpos _ (le_refl _)] at hnotes
  have hupto : ∀ e ∈ s.index.entries, e.relOffset ≤ ps.length :=
    fun e he => le_of_lt (h.opened.stored.truthful.honest e he).1
  rw [h.opened.size, ← hpos _ (le_refl _)] at hlast
  obtain ⟨hmarked, hreached⟩ := hnotes.reached hnear hupto
    (h.served.marked.congr hupto fun j hj => hpos j (le_of_lt hj))
    (fun j hj => (h.served.reached j hj).congr (hpos j (le_of_lt hj))) hlast
  have hs' : s' = _ := hs₂
  refine ⟨hopen, hext.tidy, ?_, ?_, ?_, ?_, ?_, ?_⟩
  · exact List.forall_mem_append.mpr ⟨h.legal, List.forall_mem_singleton.mpr hp⟩
  · intro j hj
    rw [List.length_append, List.length_singleton] at hj
    rw [hpos j (Nat.le_of_lt_succ hj)]
    rcases Nat.lt_succ_iff_lt_or_eq.mp hj with hlt | rfl
    · exact h.within j hlt
    · exact hwithin
  · rw [hs']
    exact hlow
  · rw [hs']
    exact hfits
  · rw [hs']
    exact hmarked
  · rw [hs', List.length_append, List.length_singleton]
    exact hreached

theorem inUse_created (htidy : w.dir.Tidy) (hfree : Path.segment b ∉ w.dir.names)
    (hindex : Path.index b ∉ w.dir.names) (hok : (run LogOp.exec (createSegment b) w).1 = .ok s) :
    InUse crc b near [] (run LogOp.exec (createSegment b) w).2.dir s := by
  have hrun := @createSegment_runs b (fun _ => True) w hfree htidy hindex trivial trivial trivial
    trivial
  rw [hrun.run_eq] at hok ⊢
  cases hok
  have htidy' : (headed w.dir b).Tidy := headed_tidy htidy
  refine ⟨⟨rfl, rfl, rfl, rfl, by simp [newSegment], Dir.mem_names_touch _ _, ?_⟩,
    htidy'.touch _, by simp, fun j hj => absurd hj (Nat.not_lt_zero j), by simp [newSegment],
    List.forall_mem_nil _, Spaced.nil, fun j hj => absurd hj (Nat.not_lt_zero j)⟩
  refine (stored_headed htidy hindex).congr (Dir.names_subset_touch _ _) ?_ ?_
  · exact htidy'.touch_file _ _
  · exact htidy'.touch_file _ _

/-- Every state of a life in which appends skip their entry only near the last one. -/
theorem Lifetime.lives {mayAppend : Segment → Prop} (h : Lifetime crc b mayAppend o w)
    (hb : b < 2 ^ 64) (hnear : ∀ p q, q < p + indexIntervalBytes → near p q)
    (hmay : ∀ s, mayAppend s → ¬ s.Due s.size → ∀ e, s.index.last = some e →
      near e.position s.size) : Lives crc b near o w.dir := by
  induction h with
  | created htidy hfree hindex hok =>
      exact ⟨[], inUse_created htidy hfree hindex hok⟩
  | appended p _ hmayNow hok ih =>
      obtain ⟨ps, hs⟩ := ih
      exact ⟨ps ++ [p], hs.append hnear (hmay _ hmayNow) hok⟩
  | synced _ hsync ih => exact ih.syncLe hsync
  | crashed _ hcrash hheader ih =>
      obtain ⟨_, _, _, _, hd⟩ := ih.shelved
      exact hd.crash hcrash hheader
  | interrupted _ hpoint ih =>
      obtain ⟨_, _, _, _, hd⟩ := ih.shelved
      exact hd.point hb hnear hpoint
  | recovered _ hok ih =>
      obtain ⟨_, _, _, _, hd⟩ := ih.shelved
      exact ⟨_, hd.recover hb hnear hok⟩

end Preserved

section Walk

variable {crc : Checksum} {near : Nat → Nat → Prop} {b : Nat} {ps : List Bytes}
variable {es : List IndexEntry} {d : Dir Path} {w : World} {s : Segment} {k : Nat}

/-- With the entries in order, a lookup returns the last entry at or before its target. -/
theorem lookup_greatest {ix : Index} {e₀ : IndexEntry}
    (hsorted : ix.entries.Pairwise fun a b => a.relOffset < b.relOffset)
    (he₀ : e₀ ∈ ix.entries) (hle : e₀.relOffset ≤ k) :
    ∃ e ∈ ix.entries, ix.lookup k = some e ∧ e.relOffset ≤ k ∧ e₀.relOffset ≤ e.relOffset := by
  obtain ⟨init, e, post, hentries, hinit, he, hpost, hmax⟩ := exists_greatest hsorted he₀ hle
  refine ⟨e, by simp [hentries], ?_, he, hmax⟩
  unfold Index.lookup
  rw [search_keys hentries hinit he hpost]
  simp [hentries]

/-- True positions are in the order of their records. -/
theorem Truthful.increasing (h : Truthful crc ps es) :
    es.Pairwise fun e e' => e.relOffset < e'.relOffset ∧ e.position < e'.position := by
  refine h.sorted.imp_of_mem ?_
  intro e e' he he' hlt
  obtain ⟨hin, hpos⟩ := h.honest e he
  have h₁ := position_succ crc hin
  have h₂ := position_mono crc ps (show e.relOffset + 1 ≤ e'.relOffset from hlt)
  rw [hpos, (h.honest e' he').2]
  omega

/-- The first record is indexed. -/
theorem InUse.first_indexed (h : InUse crc b near ps d s) (hne : ps ≠ []) :
    s.index.entries.head? = some ⟨0, segmentHeaderSize⟩ := by
  obtain ⟨e, he, hle, _⟩ := h.served.reached 0 (List.length_pos_iff.mpr hne)
  have htruthful := h.opened.stored.truthful
  cases hentries : s.index.entries with
  | nil =>
      rw [hentries] at he
      cases he
  | cons a rest =>
      have hzero : a.relOffset = 0 := by
        rw [hentries] at he htruthful
        rcases List.mem_cons.mp he with rfl | he
        · exact Nat.le_zero.mp hle
        · have := (List.pairwise_cons.mp htruthful.sorted).1 e he
          omega
      have hpos := (htruthful.honest a (by simp [hentries])).2
      rw [hzero, position_zero] at hpos
      rw [List.head?_cons, Option.some.injEq, segmentHeaderSize_eq, ← hpos, ← hzero]

/-- The walk of a read of record `k`. -/
theorem InUse.walk (h : InUse crc b (fun p q => q < p + indexIntervalBytes) ps d s)
    (hk : k < ps.length) :
    ∃ e, s.index.lookup k = some e ∧ e.position ≤ position crc ps k ∧
      position crc ps k < e.position + indexIntervalBytes := by
  have htruthful := h.opened.stored.truthful
  obtain ⟨e₀, he₀, hle₀, hnear⟩ := h.served.reached k hk
  obtain ⟨e, he, hlookup, hle, hmax⟩ := lookup_greatest htruthful.sorted he₀ hle₀
  have hpos := (htruthful.honest e he).2
  have hpos₀ := (htruthful.honest e₀ he₀).2
  have hmono := position_mono crc ps hmax
  refine ⟨e, hlookup, ?_, ?_⟩
  · rw [hpos]
    exact position_mono crc ps hle
  · have hclose : position crc ps k < e₀.position + indexIntervalBytes := hnear
    omega

/-- In every state of a segment's life the index is in order, true and starts with the first
record; and every read walks over fewer than 4096 bytes, if no record is ever appended while
`lastIndexed` is out of step with the last entry. -/
theorem walk_bounded {mayAppend : Segment → Prop} (h : Lifetime crc b mayAppend (some s) w)
    (hb : b < 2 ^ 64) :
    ∃ ps, (w.dir.file (.segment b)).data = headerBytes b ++ recordsBytes crc ps ∧
      s.nextOffset = b + ps.length ∧
      s.index.entries.Pairwise
        (fun e e' => e.relOffset < e'.relOffset ∧ e.position < e'.position) ∧
      (∀ e ∈ s.index.entries,
        e.relOffset < ps.length ∧ e.position = position crc ps e.relOffset) ∧
      (ps ≠ [] → s.index.entries.head? = some ⟨0, segmentHeaderSize⟩) ∧
      ((∀ s, mayAppend s → s.InStep) → ∀ k < ps.length, ∃ e, s.index.lookup k = some e ∧
        e.position ≤ position crc ps k ∧
        position crc ps k < e.position + indexIntervalBytes) := by
  -- what holds for every notion of nearness
  have hsound : ∀ near ps, InUse crc b near ps w.dir s →
      (w.dir.file (.segment b)).data = headerBytes b ++ recordsBytes crc ps ∧
        s.nextOffset = b + ps.length ∧
        s.index.entries.Pairwise
          (fun e e' => e.relOffset < e'.relOffset ∧ e.position < e'.position) ∧
        (∀ e ∈ s.index.entries,
          e.relOffset < ps.length ∧ e.position = position crc ps e.relOffset) ∧
        (ps ≠ [] → s.index.entries.head? = some ⟨0, segmentHeaderSize⟩) := by
    intro near ps hs
    refine ⟨?_, hs.opened.next, hs.opened.stored.truthful.increasing,
      hs.opened.stored.truthful.honest, hs.first_indexed⟩
    rw [hs.opened.stored.data, List.take_length, List.append_nil]
  by_cases hstep : ∀ s, mayAppend s → s.InStep
  · have hlives : Lives crc b (fun p q => q < p + indexIntervalBytes) (some s) w.dir :=
      h.lives hb (fun _ _ hlt => hlt) fun s hs hskip e he => (hstep s hs).close hskip he
    obtain ⟨ps, hs⟩ := hlives
    obtain ⟨hdata, hnext, hsorted, hhonest, hfirst⟩ := hsound _ ps hs
    exact ⟨ps, hdata, hnext, hsorted, hhonest, hfirst, fun _ k hk => hs.walk hk⟩
  · have hlives : Lives crc b (fun _ _ => True) (some s) w.dir :=
      h.lives hb (fun _ _ _ => trivial) fun _ _ _ _ _ => trivial
    obtain ⟨ps, hs⟩ := hlives
    obtain ⟨hdata, hnext, hsorted, hhonest, hfirst⟩ := hsound _ ps hs
    exact ⟨ps, hdata, hnext, hsorted, hhonest, hfirst, fun hall => absurd hall hstep⟩

/-- A power loss that leaves one byte of the last write to a segment and the whole index. -/
def lastRecordTorn (d : Dir Path) : Dir Path :=
  ⟨d.names, fun
    | .segment c =>
        ⟨(d.file (.segment c)).cut
          (max (d.file (.segment c)).synced ((d.file (.segment c)).writes.length - 1)) 1, [], 0⟩
    | .index c =>
        ⟨(d.file (.index c)).cut
          (max (d.file (.index c)).synced (d.file (.index c)).writes.length) 0, [], 0⟩⟩

theorem crash_lastRecordTorn (d : Dir Path) : d.Crash (lastRecordTorn d) := by
  refine ⟨rfl, fun p => ?_⟩
  cases p with
  | segment c =>
      exact ⟨_, ⟨_, 1, le_max_left _ _, rfl⟩, rfl⟩
  | index c =>
      exact ⟨_, ⟨_, 0, le_max_left _ _, rfl⟩, rfl⟩

/-- A payload whose record is as long as an index interval. -/
def intervalPayload : Bytes :=
  List.replicate 4088 0

/-- The last record, one with no entry, is torn by a power loss.  The recovery keeps both
entries and finds `lastIndexed` in step with the second one, and the record written in place
of the torn one is read from there. -/
theorem walk_bounded_reopened :
    ∃ s w, Lifetime crc32c 0 Segment.InStep (some s) w ∧
      s.index.entries = [⟨0, 16⟩, ⟨1, 4112⟩] ∧
      s.read crc32c (w.dir.file (.segment 0)).data 2 = .ok [3] ∧
      ∃ ps, (w.dir.file (.segment 0)).data = headerBytes 0 ++ recordsBytes crc32c ps ∧
        ps.length = 3 ∧ ∀ k < 3, ∃ e, s.index.lookup k = some e ∧
          e.position ≤ position crc32c ps k ∧
          position crc32c ps k < e.position + indexIntervalBytes := by
  have h₁ := @Lifetime.created crc32c 0 Segment.InStep ⟨Dir.empty, Coord.new⟩
    ⟨.segment 0, ⟨.index 0, []⟩, 0, 0, 16, 16⟩ Dir.tidy_empty (by decide) (by decide)
    (by decide +kernel)
  have h₂ := @Lifetime.appended crc32c 0 Segment.InStep _ _
    ⟨.segment 0, ⟨.index 0, [⟨0, 16⟩]⟩, 0, 1, 4112, 16⟩ 0 intervalPayload h₁
    (by rintro e ⟨⟩) (by decide +kernel)
  have h₃ := @Lifetime.appended crc32c 0 Segment.InStep _ _
    ⟨.segment 0, ⟨.index 0, [⟨0, 16⟩, ⟨1, 4112⟩]⟩, 0, 2, 4121, 4112⟩ 1 [1] h₂
    (by rintro e ⟨⟩; rfl) (by decide +kernel)
  have h₄ := @Lifetime.appended crc32c 0 Segment.InStep _ _
    ⟨.segment 0, ⟨.index 0, [⟨0, 16⟩, ⟨1, 4112⟩]⟩, 0, 3, 4130, 4112⟩ 2 [2] h₃
    (by rintro e ⟨⟩; rfl) (by decide +kernel)
  have h₅ := h₄.crashed (crash_lastRecordTorn _) (by decide +kernel)
  have h₆ := @Lifetime.recovered crc32c 0 Segment.InStep _ _
    ⟨.segment 0, ⟨.index 0, [⟨0, 16⟩, ⟨1, 4112⟩]⟩, 0, 2, 4121, 4112⟩ h₅ (by decide +kernel)
  have h₇ := @Lifetime.appended crc32c 0 Segment.InStep _ _
    ⟨.segment 0, ⟨.index 0, [⟨0, 16⟩, ⟨1, 4112⟩]⟩, 0, 3, 4130, 4112⟩ 2 [3] h₆
    (by rintro e ⟨⟩; rfl) (by decide +kernel)
  obtain ⟨ps, hdata, hnext, _, _, _, hwalk⟩ := walk_bounded h₇ (by decide)
  have hlen : 3 = 0 + ps.length := hnext
  exact ⟨_, _, h₇, rfl, by decide +kernel, ps, hdata, by omega,
    fun k hk => hwalk (fun _ hs => hs) k (by omega)⟩

/-- The record of the last index entry is torn by a power loss, and another one is written in
its place.  It gets no entry, and a read of it walks over a whole interval. -/
theorem walk_of_an_interval :
    ∃ s w, Lifetime crc32c 0 (fun _ => True) (some s) w ∧
      s.read crc32c (w.dir.file (.segment 0)).data 1 = .ok [2] ∧
      Segment.skipRecords 1 ((w.dir.file (.segment 0)).data.drop 16) 16 = .ok 4112 ∧
      s.index.lookup 1 = some ⟨0, 16⟩ ∧ ¬ 4112 < 16 + indexIntervalBytes := by
  have h₁ := @Lifetime.created crc32c 0 (fun _ => True) ⟨Dir.empty, Coord.new⟩
    ⟨.segment 0, ⟨.index 0, []⟩, 0, 0, 16, 16⟩ Dir.tidy_empty (by decide) (by decide)
    (by decide +kernel)
  have h₂ := @Lifetime.appended crc32c 0 (fun _ => True) _ _
    ⟨.segment 0, ⟨.index 0, [⟨0, 16⟩]⟩, 0, 1, 4112, 16⟩ 0 intervalPayload h₁ trivial
    (by decide +kernel)
  have h₃ := @Lifetime.appended crc32c 0 (fun _ => True) _ _
    ⟨.segment 0, ⟨.index 0, [⟨0, 16⟩, ⟨1, 4112⟩]⟩, 0, 2, 4121, 4112⟩ 1 [1] h₂ trivial
    (by decide +kernel)
  have h₄ := h₃.crashed (crash_lastRecordTorn _) (by decide +kernel)
  -- the entry of the torn record is dropped, `lastIndexed` stays
  have h₅ := @Lifetime.recovered crc32c 0 (fun _ => True) _ _
    ⟨.segment 0, ⟨.index 0, [⟨0, 16⟩]⟩, 0, 1, 4112, 4112⟩ h₄ (by decide +kernel)
  have h₆ := @Lifetime.appended crc32c 0 (fun _ => True) _ _
    ⟨.segment 0, ⟨.index 0, [⟨0, 16⟩]⟩, 0, 2, 4121, 4112⟩ 1 [2] h₅ trivial
    (by decide +kernel)
  exact ⟨_, _, h₆, by decide +kernel, by decide +kernel, by decide, by decide⟩

end Walk

end LedgerLine.Broker
