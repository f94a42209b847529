import LedgerLine.Broker.LogSpec

/-!
# One append, under the log's mutex and after it

`appendLocked` either adds a record to the last segment or first starts a new one.
At every point of it the directory holds the log with its old records or with the
new one added, or it holds a segment file without a header.  What `Append` does after
it has released the mutex changes nothing but what is synced.

Main facts:
* `writeActive_runs`, `appendLocked_runs`: the part under the mutex;
* `afterUnlock_runs`, `append_runs`: the whole of an undisturbed `Append`;
* `OpenLog.read_eq`: what `Read` returns.
-/

namespace LedgerLine.Broker

open Program

variable {crc : Checksum}

section Grown

variable (crc)

/-- The directory holds the records `recs`, or those and `p`. -/
def Grown (strict : Prop) (recs : List Bytes) (p : Bytes) (d : Dir Path) : Prop :=
  ∃ pss, Healthy crc strict d pss ∧
    (pss.flatten = recs ∨ Legal p ∧ pss.flatten = recs ++ [p])

/-- The points of an append. -/
def AppendPoint (strict : Prop) (pss : List (List Bytes)) (p : Bytes) (d : Dir Path) : Prop :=
  Grown crc strict pss.flatten p d ∨ Headless crc strict d pss

/-- A round of the coordinator that no flush has begun or ended. -/
def SameRound (c c' : Coord) : Prop :=
  c'.err = c.err ∧ c'.syncing = c.syncing

/-- What an append of `p` to a log `l` with records `pss` leads to. -/
structure Appended (strict : Prop) (pss : List (List Bytes)) (l : Log) (p : Bytes)
    (d : Dir Path) (l' : Log) (r : Except LogErr Log.Ticket) : Prop where
  opened : ∃ pss', OpenLog crc d pss' l' ∧ Healthy crc strict d pss' ∧
    (pss'.flatten = if Legal p then pss.flatten ++ [p] else pss.flatten) ∧
    (Legal p → ∃ init ps, pss' = init ++ [ps ++ [p]])
  result : r = if Legal p then .ok ⟨pss.flatten.length, l.seq + 1, l.sinceSync + 1⟩
    else .error (.recordTooLarge p.length)
  opts : l'.opts = l.opts
  seq : l'.seq = if Legal p then l.seq + 1 else l.seq

variable {crc}
variable {strict : Prop} {d d' : Dir Path} {pss : List (List Bytes)} {ps : List Bytes} {p : Bytes}

theorem SameRound.refl (c : Coord) : SameRound c c :=
  ⟨rfl, rfl⟩

/-- Where the last segment starts. -/
theorem bases_concat (pss : List (List Bytes)) (ps : List Bytes) :
    bases 0 ((pss ++ [ps]).map List.length) =
      bases 0 (pss.map List.length) ++ [pss.flatten.length] := by
  rw [List.map_append, bases_append, Nat.zero_add, List.length_flatten]
  rfl

theorem OnDisk.lt_last (h : OnDisk crc d (fulls (pss ++ [ps]))) :
    ∀ c ∈ bases 0 (pss.map List.length), c < pss.flatten.length := by
  have hsorted := h.sorted
  rw [fulls_kept, bases_concat, List.pairwise_append] at hsorted
  intro c hc
  exact hsorted.2.2 c hc _ (by simp)

theorem OnDisk.last_legal (h : OnDisk crc d (fulls (pss ++ [ps]))) :
    (∀ q ∈ ps, Legal q) ∧ Indexable crc ps := by
  have hmem : Part.full ps ∈ fulls (pss ++ [ps]) := by
    simp [fulls]
  exact ⟨h.legal _ hmem, h.indexable _ hmem⟩

/-- A record added to the last segment. -/
theorem Extended.healthy (he : Extended crc d pss.flatten.length ps p d')
    (h : Healthy crc strict d (pss ++ [ps])) (hp : Legal p)
    (hidx : Indexable crc (ps ++ [p])) : Healthy crc strict d' (pss ++ [ps ++ [p]]) := by
  have hlt := h.onDisk.lt_last
  have hother : ∀ c ∈ bases 0 (pss.map List.length),
      d'.file (.segment c) = d.file (.segment c) ∧ d'.file (.index c) = d.file (.index c) := by
    intro c hc
    have hne : c ≠ pss.flatten.length := ne_of_lt (hlt c hc)
    exact ⟨he.others _ (by simpa using hne) (by simp), he.others _ (by simp) (by simpa using hne)⟩
  have hnames := h.onDisk.names
  have hsorted := h.onDisk.sorted
  rw [fulls_kept, bases_concat] at hnames hsorted
  have hmem : ∀ r ∈ fulls (pss ++ [ps ++ [p]]),
      r ∈ fulls (pss ++ [ps]) ∨ r = Part.full (ps ++ [p]) := by
    intro r hr
    rw [fulls_append] at hr
    rcases List.mem_append.mp hr with hr | hr
    · left
      rw [fulls_append]
      exact List.mem_append_left _ hr
    · right
      simpa [fulls] using hr
  refine ⟨⟨he.tidy, ?_, ?_, ?_, ?_, ?_, ?_⟩, ?_, by simp⟩
  · rw [fulls_kept, bases_concat, he.names]
    exact hnames
  · rw [fulls_kept, bases_concat]
    exact hsorted
  · rw [he.names]
    exact h.onDisk.indexed
  · intro r hr
    rcases hmem r hr with hr | rfl
    · exact h.onDisk.legal r hr
    · exact List.forall_mem_append.mpr ⟨h.onDisk.last_legal.1, List.forall_mem_singleton.mpr hp⟩
  · intro r hr
    rcases hmem r hr with hr | rfl
    · exact h.onDisk.indexable r hr
    · exact hidx
  · have hst := h.onDisk.stored
    rw [fulls_append, storedFrom_append] at hst
    obtain ⟨es, hes⟩ := he.stored
    rw [fulls_append]
    refine storedFrom_append.mpr ⟨hst.1.congr ?_ ?_, ⟨[], es, ?_⟩, trivial⟩
    · rw [he.names]
      exact List.Subset.refl _
    · rw [fulls_kept]
      exact hother
    · rw [fulls_kept, Nat.zero_add, ← List.length_flatten]
      exact hes
  · intro hstrict
    have hset := h.settled hstrict
    rw [List.dropLast_concat] at hset ⊢
    refine hset.congr ?_
    intro c hc
    rw [fulls_kept] at hc
    rw [(hother c hc).1]

end Grown

section Locked

variable {strict : Prop} {pss : List (List Bytes)} {ps : List Bytes} {p : Bytes} {l : Log}
variable {s : Segment} {init : List Segment} {w : World}

variable {d : Dir Path}

/-- The active segment in memory is the last one on disk. -/
theorem OpenLog.active_open (h : OpenLog crc d (pss ++ [ps]) l) :
    ∃ init s, l.segments = init ++ [s] ∧ OpenFrom crc d 0 pss init ∧
      OpenSegment crc d pss.flatten.length ps s := by
  obtain ⟨init, s, hseg, hinit, hs⟩ := openFrom_concat.mp h.segments
  rw [Nat.zero_add] at hs
  exact ⟨init, s, hseg, hinit, hs⟩

theorem active_of_segments (hseg : l.segments = init ++ [s]) : l.active = some s := by
  rw [Log.active, hseg]
  simp

/-- Writing into the active segment. -/
theorem writeActive_runs (h : OpenLog crc w.dir (pss ++ [ps]) l)
    (hh : Healthy crc strict w.dir (pss ++ [ps])) (hseg : l.segments = init ++ [s])
    (hsize : s.size < maxIndexableSegment) :
    ∃ l' r w', Runs LogOp.exec
        (fun u => Grown crc strict (pss ++ [ps]).flatten p u.dir ∧ SameRound w.coord u.coord)
        (l.writeActive crc s p) w (l', r) w' ∧
      Appended crc strict (pss ++ [ps]) l p w'.dir l' r := by
  obtain ⟨init', s', hseg', hinit, hs⟩ := h.active_open
  obtain ⟨rfl, hss⟩ := List.append_inj' (hseg.symm.trans hseg') rfl
  obtain rfl : s = s' := by
    simpa using hss
  by_cases hp : Legal p
  · -- the record is written
    have hidx : Indexable crc (ps ++ [p]) := by
      refine hh.onDisk.last_legal.2.concat ?_
      rw [← hs.size]
      exact hsize
    obtain ⟨s', w', hrun, hopen, hext⟩ := segmentAppend_runs hs hh.onDisk.tidy hp hidx
    have hh' := hext.healthy hh hp hidx
    have hpoint : ∀ u : World,
        (u.dir = w.dir ∨ Extended crc w.dir pss.flatten.length ps p u.dir) ∧
          u.coord = w.coord →
        Grown crc strict (pss ++ [ps]).flatten p u.dir ∧ SameRound w.coord u.coord := by
      rintro u ⟨hu, hc⟩
      rw [hc]
      refine ⟨?_, SameRound.refl _⟩
      rcases hu with hu | hu
      · rw [hu]
        exact ⟨_, hh, Or.inl rfl⟩
      · exact ⟨_, hu.healthy hh hp hidx, Or.inr ⟨hp, by simp⟩⟩
    have hnext : pss.flatten.length + ps.length = (pss ++ [ps]).flatten.length := by
      simp
    rw [hnext] at hrun
    refine ⟨_, _, w', (hrun.mono hpoint).bind (.done (hpoint w' hrun.final)), ?_⟩
    refine ⟨⟨pss ++ [ps ++ [p]], ⟨hh'.onDisk, ?_, by simp⟩, hh', ?_, fun _ => ⟨_, _, rfl⟩⟩,
      ?_, rfl, ?_⟩
    · refine openFrom_concat.mpr ⟨init, s', ?_, hinit.congr ?_ ?_, ?_⟩
      · simp [Log.setActive, hseg]
      · rw [hext.names]
        exact List.Subset.refl _
      · intro c hc
        have hne : c ≠ pss.flatten.length := ne_of_lt (hh.onDisk.lt_last c hc)
        exact ⟨hext.others _ (by simpa using hne) (by simp),
          hext.others _ (by simp) (by simpa using hne)⟩
      · rw [Nat.zero_add]
        exact hopen
    · rw [if_pos hp]
      simp
    · rw [if_pos hp]
    · rw [if_pos hp]
  · -- the record is refused before anything is written
    have hset : l.setActive s = l := by
      rw [Log.setActive, hseg, List.dropLast_concat, ← hseg]
    have hpoint : Grown crc strict (pss ++ [ps]).flatten p w.dir ∧ SameRound w.coord w.coord :=
      ⟨⟨_, hh, Or.inl rfl⟩, SameRound.refl _⟩
    refine ⟨l, .error (.recordTooLarge p.length), w, ?_, ?_⟩
    · unfold Log.writeActive Segment.append
      rw [encodeRecord_of_not_legal hp]
      simp only [Program.pure_eq, Program.done_bind, hset]
      exact .done hpoint
    · refine ⟨⟨_, h, hh, ?_, fun hp' => absurd hp' hp⟩, ?_, rfl, ?_⟩
      · rw [if_neg hp]
      · rw [if_neg hp]
      · rw [if_neg hp]

/-- Rolling requires a record in the active segment. -/
theorem rolls_nonempty {b : Nat} (hs : OpenSegment crc d b ps s) (hroll : l.rolls s p) :
    ps ≠ [] := by
  rintro rfl
  have h₁ := hroll.1
  rw [hs.next, hs.base] at h₁
  simp at h₁

/-- Starting a new segment and writing there. -/
theorem rollTo_runs (h : OpenLog crc w.dir pss l) (hh : Healthy crc strict w.dir pss)
    (hset : strict → SettledFrom crc w.dir 0 (fulls pss))
    (hlt : ∀ c ∈ bases 0 (pss.map List.length), c < pss.flatten.length)
    (hnext : s.nextOffset = pss.flatten.length) :
    ∃ l' r w', Runs LogOp.exec
        (fun u => AppendPoint crc strict pss p u.dir ∧ SameRound w.coord u.coord)
        (l.rollTo crc s p) w (l', r) w' ∧
      Appended crc strict pss l p w'.dir l' r := by
  obtain ⟨hrun, hopen⟩ := createSegment_healthy h.onDisk hset hlt
  have hborn := healthy_born h.onDisk hset hlt
  have hflat : (pss ++ [[]]).flatten = pss.flatten := by
    simp
  have hfiles : ∀ c ∈ bases 0 (pss.map List.length),
      (born w.dir pss.flatten.length).file (.segment c) = w.dir.file (.segment c) ∧
        (born w.dir pss.flatten.length).file (.index c) = w.dir.file (.index c) := by
    intro c hc
    have hne : c ≠ pss.flatten.length := ne_of_lt (hlt c hc)
    have htidy := @headed_tidy w.dir pss.flatten.length h.onDisk.tidy
    rw [born, htidy.touch_file, htidy.touch_file]
    exact ⟨headed_file_ne _ (by simpa using hne), headed_file_ne _ (by simp)⟩
  have hnames : w.dir.names ⊆ (born w.dir pss.flatten.length).names := by
    intro q hq
    apply Dir.names_subset_touch
    simp [headed, headless, hq]
  -- the log in memory with the new segment at its end
  have hopen' : OpenLog crc (born w.dir pss.flatten.length) (pss ++ [[]])
      { l with segments := l.segments ++ [newSegment pss.flatten.length] } := by
    refine ⟨hborn.onDisk, ?_, by simp⟩
    refine openFrom_concat.mpr ⟨l.segments, _, rfl, h.segments.congr hnames hfiles, ?_⟩
    rw [Nat.zero_add]
    exact hopen
  obtain ⟨l', r, w', hrun', happ⟩ := @writeActive_runs crc strict pss [] p
    { l with segments := l.segments ++ [newSegment pss.flatten.length] } _ _
    { w with dir := born w.dir pss.flatten.length } hopen' hborn rfl
    (by simp [newSegment])
  rw [hflat] at hrun'
  have hpoint : ∀ u : World, CreatePoint crc strict w.dir pss u.dir ∧ u.coord = w.coord →
      AppendPoint crc strict pss p u.dir ∧ SameRound w.coord u.coord := by
    rintro u ⟨hu, hc⟩
    rw [hc]
    refine ⟨?_, SameRound.refl _⟩
    rcases hu with hu | hu | hu
    · left
      rw [hu]
      exact ⟨pss, hh, Or.inl rfl⟩
    · exact Or.inr hu
    · exact Or.inl ⟨_, hu, Or.inl hflat⟩
  refine ⟨l', r, w', ?_, ?_⟩
  · unfold Log.rollTo
    rw [hnext]
    refine (hrun.mono hpoint).bind (hrun'.mono ?_)
    rintro u ⟨hu, hc⟩
    exact ⟨Or.inl hu, hc⟩
  · obtain ⟨⟨pss', ho, hh', hf, hlast⟩, hr, hopts, hseq⟩ := happ
    rw [hflat] at hf hr
    exact ⟨⟨pss', ho, hh', hf, hlast⟩, hr, hopts, hseq⟩

/-- The directory once the segment `s` and its index have been flushed. -/
def flushed (d : Dir Path) (s : Segment) : Dir Path :=
  let d₁ := d.set s.file (d.file s.file).fsync
  d₁.set s.index.file (d₁.file s.index.file).fsync

theorem syncLe_fsync (d : Dir Path) (q : Path) : d.SyncLe (d.set q (d.file q).fsync) :=
  Dir.SyncLe.set_right d (File.SyncLe.syncTo _ (le_refl _))

theorem syncLe_flushed (d : Dir Path) (s : Segment) : d.SyncLe (flushed d s) :=
  (syncLe_fsync d s.file).trans (syncLe_fsync _ s.index.file)

/-- `segment.sync` changes only what is synced. -/
theorem sync_runs {inv : World → Prop} {w : World} (s : Segment)
    (hinv : ∀ d, w.dir.SyncLe d → inv { w with dir := d }) :
    Runs LogOp.exec inv s.sync w (.ok ()) { w with dir := flushed w.dir s } := by
  unfold Segment.sync
  refine runs_fs (hinv _ (Dir.SyncLe.refl _)) ?_
  simp only [FsOp.exec]
  refine runs_fs (hinv _ (syncLe_fsync _ _)) ?_
  simp only [FsOp.exec]
  exact .done (hinv _ (syncLe_flushed _ _))

theorem OpenFrom.syncLe {d d' : Dir Path} {b : Nat} {ss : List Segment}
    (h : OpenFrom crc d b pss ss) (hs : d.SyncLe d') : OpenFrom crc d' b pss ss := by
  induction pss generalizing b ss with
  | nil =>
      cases ss with
      | nil => trivial
      | cons s ss => exact h.elim
  | cons ps pss ih =>
      cases ss with
      | nil => exact h.elim
      | cons s ss =>
          exact ⟨h.1.syncLe hs, ih h.2⟩

theorem OpenLog.syncLe {d d' : Dir Path} (h : OpenLog crc d pss l) (hs : d.SyncLe d') :
    OpenLog crc d' pss l :=
  ⟨h.onDisk.syncLe hs, h.segments.syncLe hs, h.nonempty⟩

/-- Flushing the last segment makes the whole log durable. -/
theorem settled_flushed (hh : Healthy crc strict d (pss ++ [ps]))
    (hs : OpenSegment crc d pss.flatten.length ps s) (hstrict : strict) :
    SettledFrom crc (flushed d s) 0 (fulls (pss ++ [ps])) := by
  have hfile : (flushed d s).file (.segment pss.flatten.length) =
      (d.file (.segment pss.flatten.length)).fsync := by
    simp [flushed, hs.file, hs.indexFile]
  have hset := hh.settled hstrict
  rw [List.dropLast_concat] at hset
  rw [fulls_append, settledFrom_append]
  refine ⟨hset.congr (fun c _ => ((syncLe_flushed d s).2 _).durable_length_le), ?_, trivial⟩
  rw [fulls_kept, Nat.zero_add, ← List.length_flatten, hfile, File.durable_fsync,
    hs.stored.length_data]
  exact Nat.le_add_right _ _

/-- An append rolls, or finds its segment small enough for an index entry. -/
def Addressable (l : Log) (p : Bytes) : Prop :=
  ∀ s, l.active = some s → l.rolls s p ∨ s.size < maxIndexableSegment

/-- `Append` under the log's mutex. -/
theorem appendLocked_runs (h : OpenLog crc w.dir pss l) (hh : Healthy crc strict w.dir pss)
    (hstrict : strict → l.opts.sync ≠ .never) (haddr : Addressable l p) :
    ∃ l' r w', Runs LogOp.exec
        (fun u => AppendPoint crc strict pss p u.dir ∧ SameRound w.coord u.coord)
        (l.appendLocked crc p) w (l', r) w' ∧
      Appended crc strict pss l p w'.dir l' r := by
  obtain ⟨pss, ps, rfl⟩ := List.eq_nil_or_concat' pss |>.resolve_left h.nonempty
  obtain ⟨init, s, hseg, hinit, hs⟩ := h.active_open
  have hactive := active_of_segments hseg
  have hnext : s.nextOffset = (pss ++ [ps]).flatten.length := by
    rw [hs.next]
    simp
  unfold Log.appendLocked
  rw [hactive]
  by_cases hroll : l.rolls s p
  · have hlt := @bases_lt_of_last pss ps (rolls_nonempty hs hroll)
    simp only [if_pos hroll]
    by_cases hnever : l.opts.sync = .never
    · rw [if_pos hnever]
      exact rollTo_runs h hh (fun hst => absurd hnever (hstrict hst)) hlt hnext
    · rw [if_neg hnever]
      have hsync := syncLe_flushed w.dir s
      obtain ⟨l', r, w', hrun', happ⟩ := @rollTo_runs crc strict (pss ++ [ps]) p l s
        ⟨flushed w.dir s, w.coord.markSynced l.seq⟩ (h.syncLe hsync) (hh.syncLe hsync)
        (settled_flushed hh hs) hlt hnext
      have hpoint : ∀ (c : Coord) (d : Dir Path), SameRound w.coord c → w.dir.SyncLe d →
          AppendPoint crc strict (pss ++ [ps]) p d ∧ SameRound w.coord c := by
        intro c d hc hd
        exact ⟨Or.inl ⟨_, hh.syncLe hd, Or.inl rfl⟩, hc⟩
      refine ⟨l', r, w', ?_, happ⟩
      refine (sync_runs s (fun d hd => hpoint w.coord d (SameRound.refl _) hd)).bind ?_
      refine Runs.call (hpoint w.coord _ (SameRound.refl _) hsync) ?_
      exact hrun'
  · have hsize : s.size < maxIndexableSegment := (haddr s hactive).resolve_left hroll
    obtain ⟨l', r, w', hrun, happ⟩ := @writeActive_runs crc strict pss ps p l s init w h hh
      hseg hsize
    simp only [if_neg hroll]
    exact ⟨l', r, w', hrun.mono (fun u hu => ⟨Or.inl hu.1, hu.2⟩), happ⟩

end Locked

section Unlocked

variable {strict : Prop} {pss : List (List Bytes)} {p : Bytes} {l : Log} {s : Segment}
variable {w : World}

/-- Nobody is flushing and no flush has failed. -/
def Calm (c : Coord) : Prop :=
  c.err = none ∧ c.syncing = false

theorem Calm.sameRound {c c' : Coord} (h : Calm c) (hs : SameRound c c') : Calm c' :=
  ⟨hs.1.trans h.1, hs.2.trans h.2⟩

/-- Flushing the active segment. -/
theorem syncActive_runs {c : Coord} (hactive : l.active = some s) {d : Dir Path}
    (hd : w.dir.SyncLe d) :
    Runs LogOp.exec (fun u => w.dir.SyncLe u.dir) l.syncActive ⟨d, c⟩ (.ok ())
      ⟨flushed d s, c⟩ := by
  unfold Log.syncActive
  rw [hactive]
  exact @sync_runs (fun u => w.dir.SyncLe u.dir) ⟨d, c⟩ s (fun _ h => hd.trans h)

/-- A caller that nobody disturbs flushes at most once. -/
theorem waitForAlone_runs (hactive : l.active = some s) (hcalm : Calm w.coord) (seq : Nat) :
    ∃ w', Runs LogOp.exec (fun u => w.dir.SyncLe u.dir)
        (Log.waitForAlone seq l.syncActive) w (.ok ()) w' ∧ Calm w'.coord := by
  let c₁ : Coord := { w.coord with pending := max w.coord.pending seq }
  have hrefl := Dir.SyncLe.refl w.dir
  rcases Coord.loop_cases c₁ 0 seq with ⟨_, hl⟩ | ⟨e, _, herr, _⟩ | ⟨_, _, hsyncing, _⟩ |
    ⟨_, _, _, hl⟩
  · refine ⟨⟨w.dir, c₁⟩, ?_, hcalm⟩
    refine Runs.call hrefl ?_
    simp only [LogOp.exec, CoordOp.exec, Coord.enter]
    rw [hl]
    exact .done hrefl
  · rw [show c₁.err = none from hcalm.1] at herr
    cases herr
  · rw [show c₁.syncing = false from hcalm.2] at hsyncing
    cases hsyncing
  · -- flush, and find the sequence covered
    let c₂ : Coord := { c₁ with syncing := true, err := none, syncs := c₁.syncs + 1 }
    let c₃ : Coord :=
      Coord.broadcast { c₂ with syncing := false, synced := max c₂.synced c₁.pending }
    have hcover : c₃.loop 0 seq = (.durable, c₃) := by
      unfold Coord.loop
      rw [if_pos]
      simp only [c₃, c₁, Coord.broadcast]
      omega
    refine ⟨⟨flushed w.dir s, c₃⟩, ?_, rfl, rfl⟩
    refine Runs.call hrefl ?_
    simp only [LogOp.exec, CoordOp.exec, Coord.enter]
    rw [hl]
    refine (syncActive_runs hactive hrefl).bind ?_
    refine Runs.call (syncLe_flushed w.dir s) ?_
    simp only [LogOp.exec, CoordOp.exec, Coord.finish]
    rw [show c₃.loop 0 seq = (.durable, c₃) from hcover]
    exact .done (syncLe_flushed w.dir s)

/-- What `Append` does after it has released the mutex. -/
theorem afterUnlock_runs (hactive : l.active = some s) (hcalm : Calm w.coord) (k : Log.Ticket) :
    ∃ w', Runs LogOp.exec (fun u => w.dir.SyncLe u.dir) (l.afterUnlock k) w (.ok k.offset) w' ∧
      Calm w'.coord := by
  have hrefl := Dir.SyncLe.refl w.dir
  have hsync := @syncActive_runs l s w w.coord hactive _ hrefl
  unfold Log.afterUnlock
  cases l.opts.sync with
  | never =>
      exact ⟨w, .done hrefl, hcalm⟩
  | always =>
      exact ⟨_, hsync.bind (.done hsync.final), hcalm⟩
  | everyN =>
      by_cases hdue : (k.sinceSync : Int) ≥ l.opts.syncEveryNRecords
      · simp only [if_pos hdue]
        exact ⟨_, hsync.bind (.done hsync.final), hcalm⟩
      · simp only [if_neg hdue]
        exact ⟨w, .done hrefl, hcalm⟩
  | group =>
      obtain ⟨w', hrun, hcalm'⟩ := waitForAlone_runs hactive hcalm k.seq
      exact ⟨w', hrun.bind (.done hrun.final), hcalm'⟩

/-- What a whole append of `p` to a log with records `pss` leads to. -/
structure AppendedAll (crc : Checksum) (strict : Prop) (pss : List (List Bytes)) (l : Log)
    (p : Bytes) (w' : World) (l' : Log) (r : Except LogErr Nat) : Prop where
  opened : ∃ pss', OpenLog crc w'.dir pss' l' ∧ Healthy crc strict w'.dir pss' ∧
    pss'.flatten = if Legal p then pss.flatten ++ [p] else pss.flatten
  result : r = if Legal p then .ok pss.flatten.length else .error (.recordTooLarge p.length)
  opts : l'.opts = l.opts
  calm : Calm w'.coord

theorem OpenLog.exists_active {d : Dir Path} (h : OpenLog crc d pss l) :
    ∃ s, l.active = some s := by
  obtain ⟨pss, ps, rfl⟩ := List.eq_nil_or_concat' pss |>.resolve_left h.nonempty
  obtain ⟨init, s, hseg, _, _⟩ := h.active_open
  exact ⟨s, active_of_segments hseg⟩

theorem AppendPoint.syncLe {d d' : Dir Path} (h : Grown crc strict pss.flatten p d)
    (hs : d.SyncLe d') : AppendPoint crc strict pss p d' := by
  obtain ⟨pss', hh, hf⟩ := h
  exact Or.inl ⟨pss', hh.syncLe hs, hf⟩

/-- A whole undisturbed `Append`. -/
theorem append_runs (h : OpenLog crc w.dir pss l) (hh : Healthy crc strict w.dir pss)
    (hstrict : strict → l.opts.sync ≠ .never) (haddr : Addressable l p) (hcalm : Calm w.coord) :
    ∃ l' r w', Runs LogOp.exec (fun u => AppendPoint crc strict pss p u.dir)
        (l.append crc p) w (l', r) w' ∧
      AppendedAll crc strict pss l p w' l' r := by
  obtain ⟨l', r, w₁, hrun, happ⟩ := appendLocked_runs h hh hstrict haddr
  have hcalm₁ : Calm w₁.coord := hcalm.sameRound hrun.final.2
  have hrun₁ := hrun.mono (fun u hu => hu.1)
  obtain ⟨pss', hopen, hh', hflat, _⟩ := happ.opened
  by_cases hp : Legal p
  · have hr := happ.result
    rw [if_pos hp] at hr hflat
    subst hr
    obtain ⟨s, hactive⟩ := hopen.exists_active
    obtain ⟨w', hafter, hcalm'⟩ := @afterUnlock_runs l' s w₁ hactive hcalm₁
      ⟨pss.flatten.length, l.seq + 1, l.sinceSync + 1⟩
    have hafter' := hafter.mono (fun u hu =>
      @AppendPoint.syncLe crc strict pss p _ u.dir ⟨pss', hh', Or.inr ⟨hp, hflat⟩⟩ hu)
    refine ⟨l', .ok pss.flatten.length, w', ?_, ⟨pss', hopen.syncLe hafter.final,
      hh'.syncLe hafter.final, ?_⟩, ?_, happ.opts, hcalm'⟩
    · exact hrun₁.bind (hafter'.bind (.done hafter'.final))
    · rw [if_pos hp]
      exact hflat
    · rw [if_pos hp]
  · have hr := happ.result
    rw [if_neg hp] at hr
    subst hr
    refine ⟨l', .error (.recordTooLarge p.length), w₁, hrun₁.bind (.done hrun₁.final),
      ⟨pss', hopen, hh', hflat⟩, ?_, happ.opts, hcalm₁⟩
    rw [if_neg hp]

end Unlocked

section Read

variable {d : Dir Path} {pss : List (List Bytes)} {l : Log} {b k : Nat}

/-- The search of `Read` finds the last segment that starts at or before `k`. -/
theorem read_split {init post : List Segment} {s : Segment}
    (hseg : l.segments = init ++ s :: post) (hinit : ∀ t ∈ init, t.baseOffset ≤ k)
    (hs : s.baseOffset ≤ k) (hpost : ∀ t ∈ post, k < t.baseOffset) :
    l.read crc d k = s.read crc (d.file s.file).data k := by
  have hget : l.segments[init.length]? = some s := by
    rw [hseg, List.getElem?_append_right (le_refl _), Nat.sub_self]
    rfl
  unfold Log.read
  rw [search_keys hseg hinit hs hpost]
  simp only [hget]

theorem OpenFrom.base_le {ss : List Segment} (h : OpenFrom crc d b pss ss) :
    ∀ t ∈ ss, b ≤ t.baseOffset := by
  induction pss generalizing b ss with
  | nil =>
      cases ss with
      | nil => simp
      | cons s ss => exact h.elim
  | cons ps pss ih =>
      cases ss with
      | nil => simp
      | cons s ss =>
          intro t ht
          rcases List.mem_cons.mp ht with rfl | ht
          · rw [h.1.base]
          · have := ih h.2 t ht
            omega

/-- The segment that would hold record `k`, counted from the first of the log. -/
theorem OpenFrom.split {ss : List Segment} (h : OpenFrom crc d b pss ss) (hne : pss ≠ [])
    (hk : b ≤ k) :
    ∃ init s post c ps, ss = init ++ s :: post ∧ OpenSegment crc d c ps s ∧ ps ∈ pss ∧
      (∀ t ∈ init, t.baseOffset ≤ k) ∧ c ≤ k ∧ (∀ t ∈ post, k < t.baseOffset) ∧
      ps[k - c]? = pss.flatten[k - b]? := by
  induction pss generalizing b ss with
  | nil => exact absurd rfl hne
  | cons ps pss ih =>
      cases ss with
      | nil => exact h.elim
      | cons s ss =>
          obtain ⟨hs, hrest⟩ := h
          by_cases hhere : pss = [] ∨ k < b + ps.length
          · refine ⟨[], s, ss, b, ps, rfl, hs, by simp, by simp, hk, ?_, ?_⟩
            · rcases hhere with rfl | hlt
              · cases ss with
                | nil => simp
                | cons t ts => exact hrest.elim
              · intro t ht
                exact lt_of_lt_of_le hlt (hrest.base_le t ht)
            · rcases hhere with rfl | hlt
              · simp
              · rw [List.flatten_cons, List.getElem?_append_left (by omega)]
          · rw [not_or, Nat.not_lt] at hhere
            obtain ⟨init, t, post, c, qs, rfl, ht, hmem, hinit, hc, hpost, hget⟩ :=
              ih hrest hhere.1 hhere.2
            refine ⟨s :: init, t, post, c, qs, rfl, ht, by simp [hmem], ?_, hc, hpost, ?_⟩
            · intro u hu
              rcases List.mem_cons.mp hu with rfl | hu
              · rw [hs.base]
                exact hk
              · exact hinit u hu
            · rw [hget, List.flatten_cons, List.getElem?_append_right (by omega)]
              congr 1
              omega

/-- Reading: the `k`-th record, or out of range. -/
theorem OpenLog.read_eq (h : OpenLog crc d pss l) (k : Nat) :
    l.read crc d k =
      match pss.flatten[k]? with
      | some p => .ok p
      | none => .error (.offsetOutOfRange k) := by
  obtain ⟨init, s, post, c, ps, hseg, hs, hmem, hinit, hc, hpost, hget⟩ :=
    h.segments.split h.nonempty (Nat.zero_le k)
  have hbase : s.baseOffset ≤ k := by
    rw [hs.base]
    exact hc
  rw [read_split hseg hinit hbase hpost]
  rw [Nat.sub_zero] at hget
  rw [← hget]
  rcases Nat.lt_or_ge (k - c) ps.length with hlt | hge
  · have hfull : Part.full ps ∈ fulls pss := List.mem_map.mpr ⟨ps, hmem, rfl⟩
    have hdata : (d.file s.file).data = headerBytes s.baseOffset ++ recordsBytes crc ps ++ [] := by
      rw [hs.file, hs.base, hs.stored.data, List.take_length]
    have hread := @Segment.read_spec crc s ps [] (h.onDisk.legal _ hfull)
      (h.onDisk.indexable _ hfull).length_le
      (fun e he _ => (hs.stored.truthful.honest e he).2)
      (by rw [hs.next, hs.base]) hs.size (k - c) hlt
    rw [hs.base, Nat.add_sub_cancel' hc] at hread
    rw [hdata, hs.base, hread, List.getElem?_eq_getElem hlt]
  · rw [List.getElem?_eq_none hge]
    unfold Segment.read
    rw [if_pos (Or.inr (by rw [hs.next]; omega))]

/-- `NextOffset` is the number of records. -/
theorem OpenLog.nextOffset_eq (h : OpenLog crc d pss l) : l.nextOffset = pss.flatten.length := by
  obtain ⟨pss, ps, rfl⟩ := List.eq_nil_or_concat' pss |>.resolve_left h.nonempty
  obtain ⟨init, s, hseg, _, hs⟩ := h.active_open
  rw [Log.nextOffset, active_of_segments hseg]
  simp [hs.next]

end Read

end LedgerLine.Broker
