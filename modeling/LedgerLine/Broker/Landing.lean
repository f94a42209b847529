import LedgerLine.Broker.Log

/-!
# Where records land, whatever fails

Under faults an append may leave part of a record behind, and the next one is written
over it, so a segment file need not look healthy.  What can still be said is where the
bytes of a record went and how many writes of that file a completed fsync covers.

A `Place` is a segment file and a number of writes: the record is among the first
`upTo` writes of the file.  `Known` says of all records written since the log was opened
that they are covered by a completed fsync or lie in the active segment; `Claims` says
that what the sync coordinator claims is true.

Main facts:
* `keeps_always`: no file operation of an append spoils either;
* `appendLocked_always`: what `Append` under the mutex guarantees, while other threads
  flush and any operation may fail.
-/

namespace LedgerLine.Broker

open Program

/-- A segment file and how many writes it had once a record was written. -/
structure Place where
  path : Path
  upTo : Nat
deriving DecidableEq, Repr

/-- A completed fsync of the file covers the record. -/
def Covered (d : Dir Path) (pl : Place) : Prop :=
  pl.upTo ≤ (d.file pl.path).synced

instance (d : Dir Path) (pl : Place) : Decidable (Covered d pl) :=
  inferInstanceAs (Decidable (pl.upTo ≤ (d.file pl.path).synced))

/-- Every record is where it is said to be, and is covered or in the active segment. -/
structure Known (placed : List Place) (active : Path) (d : Dir Path) : Prop where
  written : ∀ pl ∈ placed, pl.path ∈ d.names ∧ pl.upTo ≤ (d.file pl.path).writes.length
  place : ∀ pl ∈ placed, Covered d pl ∨ pl.path = active

/-- What the coordinator claims to be durable is durable. -/
structure Claims (placed : List Place) (w : World) : Prop where
  synced_le : w.coord.synced ≤ placed.length
  pending_le : w.coord.pending ≤ placed.length
  covered : ∀ i pl, placed[i]? = some pl → i < w.coord.synced → Covered w.dir pl

/-- A segment made of a segment file and an index file that are both there. -/
structure Proper (s : Segment) (d : Dir Path) : Prop where
  base : ∃ b, s.file = .segment b ∧ s.index.file = .index b
  named : s.file ∈ d.names
  indexNamed : s.index.file ∈ d.names

/-- What holds of the active segment `s` whenever nobody is in the middle of an append. -/
structure Steady (placed : List Place) (s : Segment) (w : World) : Prop where
  claims : Claims placed w
  known : Known placed s.file w.dir
  proper : Proper s w.dir

section Stability

variable {placed : List Place} {active : Path} {d d' : Dir Path} {pl : Place}

theorem Covered.extends (h : Covered d pl) (hpl : pl.path ∈ d.names) (hd : d.Extends d') :
    Covered d' pl :=
  le_trans h (hd pl.path hpl).2.synced

theorem Known.extends (h : Known placed active d) (hd : d.Extends d') : Known placed active d' := by
  refine ⟨?_, ?_⟩
  · intro pl hpl
    obtain ⟨hname, hlen⟩ := h.written pl hpl
    obtain ⟨hname', hf⟩ := hd pl.path hname
    exact ⟨hname', le_trans hlen hf.writes.length_le⟩
  · intro pl hpl
    rcases h.place pl hpl with hc | hc
    · exact Or.inl (hc.extends (h.written pl hpl).1 hd)
    · exact Or.inr hc

variable {w : World} {s : Segment}

/-- Claims survive as long as the coordinator stays and files only grow. -/
theorem Claims.extends (h : Claims placed w) (hk : Known placed active w.dir)
    (hd : w.dir.Extends d') : Claims placed { w with dir := d' } := by
  refine ⟨h.synced_le, h.pending_le, ?_⟩
  intro i pl hpl hi
  exact (h.covered i pl hpl hi).extends (hk.written pl (List.mem_of_getElem? hpl)).1 hd

theorem Proper.extends (h : Proper s d) (hd : d.Extends d') : Proper s d' :=
  ⟨h.base, (hd _ h.named).1, (hd _ h.indexNamed).1⟩

theorem Proper.congr {s' : Segment} (h : Proper s d) (hfile : s'.file = s.file)
    (hindex : s'.index.file = s.index.file) : Proper s' d := by
  obtain ⟨hbase, hnamed, hindexNamed⟩ := h
  rw [← hfile, ← hindex] at hbase
  rw [← hfile] at hnamed
  rw [← hindex] at hindexNamed
  exact ⟨hbase, hnamed, hindexNamed⟩

theorem Proper.file_ne (h : Proper s d) : s.file ≠ s.index.file := by
  obtain ⟨b, hfile, hindex⟩ := h.base
  rw [hfile, hindex]
  exact nofun

theorem Steady.extends (h : Steady placed s w) (hd : w.dir.Extends d') :
    Steady placed s { w with dir := d' } :=
  ⟨h.claims.extends h.known hd, h.known.extends hd, h.proper.extends hd⟩

/-- When every record is covered, the coordinator may claim all of them. -/
theorem Claims.markSynced (h : Claims placed w) (hall : ∀ pl ∈ placed, Covered w.dir pl) :
    Claims placed { w with coord := w.coord.markSynced placed.length } := by
  have hs := h.synced_le
  have hp := h.pending_le
  refine ⟨?_, ?_, ?_⟩
  · rw [Coord.markSynced_synced]
    omega
  · rw [Coord.markSynced_pending]
    omega
  · intro i pl hpl _
    exact hall pl (List.mem_of_getElem? hpl)

end Stability

section Interference

variable (placed : List Place)

/-- What other threads do while one holds the log's mutex: they flush, and what they
let the coordinator claim is true. -/
def Quiet (w w' : World) : Prop :=
  w.dir.SyncLe w'.dir ∧ (Claims placed w → Claims placed w')

variable {placed}

theorem Quiet.refl (w : World) : Quiet placed w w :=
  ⟨Dir.SyncLe.refl _, id⟩

theorem Quiet.trans {w₁ w₂ w₃ : World} (h₁ : Quiet placed w₁ w₂) (h₂ : Quiet placed w₂ w₃) :
    Quiet placed w₁ w₃ :=
  ⟨h₁.1.trans h₂.1, fun h => h₂.2 (h₁.2 h)⟩

theorem Steady.quiet {s : Segment} {w w' : World} (h : Steady placed s w)
    (hq : Quiet placed w w') : Steady placed s w' :=
  ⟨hq.2 h.claims, h.known.extends hq.1.extends, h.proper.extends hq.1.extends⟩

end Interference

/-- The operations of an append. -/
def AppendOp : LogOp → Prop
  | .fs o => o.Appending
  | .coord (.markSynced _) => True
  | .coord _ => False

/-- The file operations among them. -/
def AppendFsOp : LogOp → Prop
  | .fs o => o.Appending
  | .coord _ => False

/-- Those that neither cut nor flush a file. -/
def WritingOp : LogOp → Prop
  | .fs (.truncate _ _) => False
  | .fs (.fsync _) => False
  | .fs _ => True
  | .coord _ => False

/-- Those that flush a file. -/
def FlushOp : LogOp → Prop
  | .fs (.fsync _) => True
  | _ => False

theorem appendFsOp_of_flush (o : LogOp) (h : FlushOp o) : AppendFsOp o := by
  cases o with
  | fs o =>
      cases o with
      | fsync p => trivial
      | _ => exact h.elim
  | coord o => exact h.elim

theorem appendFsOp_of_writing (o : LogOp) (h : WritingOp o) : AppendFsOp o := by
  cases o with
  | fs o =>
      cases o with
      | truncate p n => exact h.elim
      | _ => trivial
  | coord o => exact h.elim

theorem appendOp_of_fs (o : LogOp) (h : AppendFsOp o) : AppendOp o := by
  cases o with
  | fs o => exact h
  | coord o => exact h.elim

theorem appendOp_of_writing (o : LogOp) (h : WritingOp o) : AppendOp o :=
  appendOp_of_fs o (appendFsOp_of_writing o h)

theorem appendOp_of_flush (o : LogOp) (h : FlushOp o) : AppendOp o :=
  appendOp_of_fs o (appendFsOp_of_flush o h)

section Only

variable {crc : Checksum}

theorem only_fs {α : Type} {P : LogOp → Prop} {o : FsOp Path} {k : o.Resp → LogProgram α}
    (ho : P (.fs o)) (hk : ∀ r, Only P (k r)) : Only P (fs o >>= k) :=
  ⟨ho, hk⟩

theorem openIndex_only (path : Path) : Only WritingOp (openIndex path) := by
  unfold openIndex
  refine only_fs trivial ?_
  rintro (e | _)
  · trivial
  refine only_fs trivial ?_
  rintro (e | size)
  · trivial
  simp only
  split_ifs
  · trivial
  refine only_fs trivial ?_
  rintro (e | raw)
  · trivial
  simp only
  split_ifs
  · trivial
  · trivial

theorem createSegment_only (b : Nat) : Only WritingOp (createSegment b) := by
  unfold createSegment
  refine only_fs trivial ?_
  rintro (e | _)
  · trivial
  refine only_fs trivial ?_
  rintro (e | _)
  · trivial
  refine only_bind (openIndex_only _) ?_
  rintro (e | ix)
  · trivial
  · trivial

theorem maybeIndex_only (s : Segment) (rel pos : Nat) : Only WritingOp (s.maybeIndex rel pos) := by
  have happend : Only WritingOp (s.index.append rel pos) := by
    unfold Index.append
    split_ifs
    · trivial
    refine only_fs trivial ?_
    rintro (e | _)
    · trivial
    · trivial
  unfold Segment.maybeIndex
  split_ifs
  · trivial
  refine only_bind happend ?_
  rintro (e | ix)
  · trivial
  · trivial

theorem segmentAppend_only (s : Segment) (p : Bytes) : Only WritingOp (s.append crc p) := by
  unfold Segment.append
  rcases encodeRecord crc p with e | encoded
  · trivial
  refine only_fs trivial ?_
  rintro (e | _)
  · trivial
  refine only_bind (maybeIndex_only s _ _) ?_
  rintro (e | s')
  · trivial
  · trivial

theorem sync_only (s : Segment) : Only FlushOp s.sync := by
  unfold Segment.sync
  refine only_fs trivial ?_
  rintro (e | _)
  · trivial
  refine only_fs trivial ?_
  rintro (e | _)
  · trivial
  · trivial

theorem writeActive_only (l : Log) (s : Segment) (p : Bytes) :
    Only WritingOp (l.writeActive crc s p) := by
  unfold Log.writeActive
  refine only_bind (segmentAppend_only s p) ?_
  rintro ⟨s', e | offset⟩
  · trivial
  · trivial

theorem rollTo_only (l : Log) (s : Segment) (p : Bytes) : Only WritingOp (l.rollTo crc s p) := by
  unfold Log.rollTo
  refine only_bind (createSegment_only _) ?_
  rintro (e | next)
  · trivial
  · exact writeActive_only _ _ _

/-- `Append` under the mutex cuts no file and enters no wait. -/
theorem appendLocked_only (l : Log) (p : Bytes) : Only AppendOp (l.appendLocked crc p) := by
  unfold Log.appendLocked
  rcases l.active with _ | s
  · trivial
  simp only
  split_ifs
  · exact only_mono appendOp_of_writing (rollTo_only l s p)
  · refine only_bind (only_mono appendOp_of_flush (sync_only s)) ?_
    rintro (e | _)
    · trivial
    · exact ⟨trivial, fun _ => only_mono appendOp_of_writing (rollTo_only l s p)⟩
  · exact only_mono appendOp_of_writing (writeActive_only l s p)

theorem syncAll_only (ss : List Segment) : Only FlushOp (Log.syncAll ss) := by
  induction ss with
  | nil => trivial
  | cons s ss ih =>
      refine only_bind (sync_only s) ?_
      rintro (e | _)
      · trivial
      · exact ih

end Only

section Always

variable {mayFail : FsOp Path → Prop} {placed : List Place} {active : Path} {w : World}
variable {crc : Checksum}

/-- A file operation under interference, whatever becomes of it. -/
theorem always_fs {α : Type} {rely : World → World → Prop} {inv : World → Prop}
    {post : α → World → Prop} {o : FsOp Path} {k : o.Resp → LogProgram α}
    (h : ∀ w', rely w w' → inv w' ∧ ∀ r d', FsOp.Outcome mayFail o w'.dir r d' →
      Always rely (LogOp.Outcome mayFail) inv post (k r) { w' with dir := d' }) :
    Always rely (LogOp.Outcome mayFail) inv post (fs o >>= k) w := by
  intro w' hw'
  refine ⟨(h w' hw').1, ?_⟩
  intro r u hu
  cases hu with
  | fs ho => exact (h w' hw').2 r _ ho

variable {s : Segment} {α : Type} {p : LogProgram α} {path : Path} {d' d : Dir Path} {bs : Bytes}
  {l : Log}

/-- A program of file operations that cut nothing leaves the active segment steady. -/
theorem keeps_always (honly : Only AppendFsOp p) (hs : Steady placed s w) :
    Always (Quiet placed) (LogOp.Outcome mayFail) (Steady placed s)
      (fun _ => Steady placed s) p w := by
  refine always_of_only ?_ ?_ honly hs
  · exact fun u v hq hu => hu.quiet hq
  · intro o u r v ho hu hstep
    cases hstep with
    | fs hfs =>
        exact hu.extends (hfs.extends ho)
    | coord o => exact ho.elim

/-- The names of files that are there stay. -/
theorem named_always (p : LogProgram α) (hp : path ∈ w.dir.names) :
    Always (Quiet placed) (LogOp.Outcome mayFail) (fun u => path ∈ u.dir.names)
      (fun _ u => path ∈ u.dir.names) p w := by
  refine always_of_only ?_ ?_ (only_true p) hp
  · rintro u v ⟨hsync, _⟩ hu
    exact (hsync.extends path hu).1
  · intro o u r v _ hu hstep
    cases hstep with
    | fs hfs => exact hfs.names_subset hu
    | coord o => exact hu

/-- Every write of the file is covered by a completed fsync. -/
def Flushed (path : Path) (d : Dir Path) : Prop :=
  (d.file path).writes.length ≤ (d.file path).synced

theorem Flushed.syncLe {path : Path} {d d' : Dir Path} (h : Flushed path d) (hs : d.SyncLe d') :
    Flushed path d' := by
  have h₁ := (hs.2 path).le
  unfold Flushed at h ⊢
  rw [(hs.2 path).writes]
  omega

/-- The outcomes of an fsync. -/
theorem fsync_cases {r : (FsOp.fsync path).Resp} (h : FsOp.Outcome mayFail (.fsync path) d r d') :
    (r = Except.ok () ∧ d' = d.set path (d.file path).fsync) ∨
      (r = Except.error FsErr.io ∧ d' = d) := by
  cases h with
  | success => exact Or.inl ⟨rfl, rfl⟩
  | failure j hfail => exact Or.inr ⟨rfl, rfl⟩

theorem flushed_fsync (path : Path) (d : Dir Path) :
    Flushed path (d.set path (d.file path).fsync) := by
  unfold Flushed
  rw [Dir.set_file_self]
  exact le_max_right _ _

/-- `segment.sync` reports success only when the segment file is flushed. -/
theorem sync_always (s : Segment) :
    Always (Quiet placed) (LogOp.Outcome mayFail) (fun _ => True)
      (fun r u => r = .ok () → Flushed s.file u.dir) s.sync w := by
  unfold Segment.sync
  refine always_fs ?_
  intro w₁ _
  refine ⟨trivial, ?_⟩
  intro r d₁ ho
  rcases fsync_cases ho with ⟨rfl, rfl⟩ | ⟨rfl, rfl⟩
  · refine always_fs ?_
    rintro w₂ ⟨hsync, _⟩
    have hfl := (flushed_fsync s.file w₁.dir).syncLe hsync
    refine ⟨trivial, ?_⟩
    intro r d₂ ho₂
    rcases fsync_cases ho₂ with ⟨rfl, rfl⟩ | ⟨rfl, rfl⟩
    · rintro u ⟨hsync₂, _⟩
      exact ⟨trivial, fun _ => (hfl.syncLe (Dir.SyncLe.set_right _
        (File.SyncLe.syncTo _ (le_refl _)))).syncLe hsync₂⟩
    · intro u _
      exact ⟨trivial, nofun⟩
  · intro u _
    exact ⟨trivial, nofun⟩

theorem openIndex_yields (path : Path) :
    Yields (fun r => ∀ ix, r = .ok ix → ix.file = path) (openIndex path) := by
  unfold openIndex
  refine yields_fs ?_
  rintro (e | _)
  · exact nofun
  refine yields_fs ?_
  rintro (e | size)
  · exact nofun
  simp only
  split_ifs
  · rintro ix ⟨⟩
    rfl
  refine yields_fs ?_
  rintro (e | raw)
  · rintro ix ⟨⟩
    rfl
  simp only
  split_ifs
  · rintro ix ⟨⟩
    rfl
  · rintro ix ⟨⟩
    rfl

/-- A file that could be opened or created is there. -/
theorem openCreate_named {r : (FsOp.openCreate path).Resp}
    (h : FsOp.Outcome mayFail (.openCreate path) d r d') (hr : r = Except.ok ()) :
    path ∈ d'.names := by
  cases h with
  | success =>
      exact Dir.mem_names_touch d path
  | failure j hfail => cases hr

/-- The index `openIndex` returns is that of the file asked for, which is there. -/
theorem openIndex_always (path : Path) :
    Always (Quiet placed) (LogOp.Outcome mayFail) (fun _ => True)
      (fun r u => ∀ ix, r = .ok ix → ix.file = path ∧ path ∈ u.dir.names)
      (openIndex path) w := by
  unfold openIndex
  refine always_fs ?_
  intro w₁ _
  refine ⟨trivial, ?_⟩
  rintro (e | _) d₁ ho
  · exact fun u _ => ⟨trivial, nofun⟩
  have hyields := openIndex_yields path (Except.ok ())
  refine always_mono (fun _ _ => trivial) ?_
    (always_and (named_always _ (openCreate_named ho rfl)) (always_of_yields hyields _))
  exact fun r u h ix hix => ⟨h.2 ix hix, h.1⟩

/-- A file that could be created is there. -/
theorem createExcl_named {r : (FsOp.createExcl path).Resp}
    (h : FsOp.Outcome mayFail (.createExcl path) d r d') (hr : r = Except.ok ()) :
    path ∈ d'.names := by
  cases h with
  | success =>
      simp only [FsOp.exec] at hr ⊢
      split_ifs at hr ⊢
      simp
  | failure j hfail => cases hr

/-- The segment `createSegment` returns is one it created. -/
theorem createSegment_always (b : Nat) :
    Always (Quiet placed) (LogOp.Outcome mayFail) (fun _ => True)
      (fun r u => ∀ s, r = .ok s → Proper s u.dir) (createSegment b) w := by
  unfold createSegment
  refine always_fs ?_
  intro w₁ _
  refine ⟨trivial, ?_⟩
  rintro (e | _) d₁ ho
  · exact fun u _ => ⟨trivial, nofun⟩
  have hnamed := createExcl_named ho rfl
  refine always_fs ?_
  rintro w₂ ⟨hsync, _⟩
  refine ⟨trivial, ?_⟩
  rintro (e | _) d₂ ho₂
  · exact fun u _ => ⟨trivial, nofun⟩
  have hnamed₂ := ho₂.names_subset (hsync.extends _ hnamed).1
  refine always_finish (always_mono (fun _ _ => trivial) (fun _ _ h => h)
    (always_and (openIndex_always _) (named_always _ hnamed₂))) ?_
  rintro (e | ix)
  · exact ⟨_, rfl, nofun⟩
  · refine ⟨_, rfl, ?_⟩
    rintro u ⟨hix, hu⟩ s ⟨⟩
    obtain ⟨hfile, hindex⟩ := hix ix rfl
    exact ⟨⟨b, rfl, hfile⟩, hu, by rw [hfile]; exact hindex⟩

/-- The last write to a file put `bs` there. -/
def LastWrite (path : Path) (bs : Bytes) (d : Dir Path) : Prop :=
  ∃ off, (d.file path).writes.getLast? = some ⟨off, bs⟩

/-- An operation that only writes to one file. -/
def WritesTo (path : Path) (o : LogOp) : Prop :=
  ∃ off bs, o = .fs (.writeAt path off bs)

theorem maybeIndex_writesTo (s : Segment) (rel pos : Nat) :
    Only (WritesTo s.index.file) (s.maybeIndex rel pos) := by
  have happend : Only (WritesTo s.index.file) (s.index.append rel pos) := by
    unfold Index.append
    split_ifs
    · trivial
    refine only_fs ⟨_, _, rfl⟩ ?_
    rintro (e | _)
    · trivial
    · trivial
  unfold Segment.maybeIndex
  split_ifs
  · trivial
  refine only_bind happend ?_
  rintro (e | ix)
  · trivial
  · trivial

theorem maybeIndex_yields (s : Segment) (rel pos : Nat) :
    Yields (fun r => ∀ s', r = .ok s' → s'.file = s.file ∧ s'.index.file = s.index.file)
      (s.maybeIndex rel pos) := by
  have happend : Yields (fun r => ∀ ix, r = .ok ix → ix.file = s.index.file)
      (s.index.append rel pos) := by
    unfold Index.append
    split_ifs
    · exact nofun
    refine yields_fs ?_
    rintro (e | _)
    · exact nofun
    · rintro ix ⟨⟩
      rfl
  unfold Segment.maybeIndex
  split_ifs
  · rintro s' ⟨⟩
    exact ⟨rfl, rfl⟩
  refine yields_bind happend ?_
  rintro (e | ix) hix
  · exact nofun
  · rintro s' ⟨⟩
    exact ⟨rfl, hix ix rfl⟩

theorem writeAt_other {q : Path} {off : Nat} {r : (FsOp.writeAt q off bs).Resp}
    (h : FsOp.Outcome mayFail (.writeAt q off bs) d r d') (hne : path ≠ q) :
    d'.file path = d.file path := by
  cases h with
  | success | failure j hfail =>
      exact Dir.set_file_ne _ _ hne

/-- Writing to one file leaves the last write of another alone. -/
theorem lastWrite_always {q : Path} (honly : Only (WritesTo q) p) (hne : path ≠ q)
    (h : LastWrite path bs w.dir) :
    Always (Quiet placed) (LogOp.Outcome mayFail) (fun u => LastWrite path bs u.dir)
      (fun _ u => LastWrite path bs u.dir) p w := by
  refine always_of_only ?_ ?_ honly h
  · rintro u v ⟨hsync, _⟩ hu
    unfold LastWrite
    rw [(hsync.2 path).writes]
    exact hu
  · rintro o u r v ⟨off, bs', rfl⟩ hu hstep
    cases hstep with
    | fs hfs =>
        unfold LastWrite
        rw [writeAt_other hfs hne]
        exact hu

/-- A write that succeeded is the last one. -/
theorem writeAt_lastWrite {off : Nat} {r : (FsOp.writeAt path off bs).Resp}
    (h : FsOp.Outcome mayFail (.writeAt path off bs) d r d') (hr : r = Except.ok ()) :
    LastWrite path bs d' := by
  cases h with
  | success =>
      refine ⟨off, ?_⟩
      simp [FsOp.exec, File.write]
  | failure j hfail => cases hr

/-- `segment.append` reports success only when the record is the last write. -/
theorem segmentAppend_always (hne : s.file ≠ s.index.file) (p : Bytes) :
    Always (Quiet placed) (LogOp.Outcome mayFail) (fun _ => True)
      (fun out u => (out.1.file = s.file ∧ out.1.index.file = s.index.file) ∧
        ∀ k, out.2 = .ok k → LastWrite s.file (recordBytes crc p) u.dir)
      (s.append crc p) w := by
  unfold Segment.append
  cases henc : encodeRecord crc p with
  | error e =>
      exact fun u _ => ⟨trivial, ⟨rfl, rfl⟩, nofun⟩
  | ok encoded =>
      refine always_fs ?_
      intro w₁ _
      refine ⟨trivial, ?_⟩
      rintro (e | _) d₁ ho
      · exact fun u _ => ⟨trivial, ⟨rfl, rfl⟩, nofun⟩
      have hlast := writeAt_lastWrite ho rfl
      have hbytes : encoded = recordBytes crc p := by
        by_cases hp : Legal p
        · rw [encodeRecord_of_legal hp] at henc
          exact (Except.ok.inj henc).symm
        · rw [encodeRecord_of_not_legal hp] at henc
          cases henc
      subst hbytes
      refine always_finish (always_mono (fun _ _ => trivial) (fun _ _ h => h)
        (always_and (lastWrite_always (maybeIndex_writesTo s _ _) hne hlast)
          (always_of_yields (maybeIndex_yields s _ _) _))) ?_
      rintro (e | s')
      · exact ⟨_, rfl, fun u h => ⟨⟨rfl, rfl⟩, nofun⟩⟩
      · refine ⟨_, rfl, ?_⟩
        rintro u ⟨hu, hyield⟩
        exact ⟨hyield s' rfl, fun _ _ => hu⟩

/-- What `Append` of `p` leaves when it is about to release the mutex. -/
structure Landed (crc : Checksum) (placed : List Place) (l : Log) (p : Bytes)
    (out : Log × Except LogErr Log.Ticket) (u : World) : Prop where
  opts : out.1.opts = l.opts
  seq : ∀ e, out.2 = .error e → out.1.seq = l.seq
  ticket : ∀ k, out.2 = .ok k → out.1.seq = l.seq + 1 ∧ k.seq = l.seq + 1
  active : ∃ s, out.1.active = some s ∧ Steady placed s u ∧
    ∀ k, out.2 = .ok k → LastWrite s.file (recordBytes crc p) u.dir

theorem active_setActive (l : Log) (s : Segment) : (l.setActive s).active = some s := by
  simp [Log.setActive, Log.active]

theorem Steady.congr {s' : Segment} (h : Steady placed s w) (hfile : s'.file = s.file)
    (hindex : s'.index.file = s.index.file) : Steady placed s' w := by
  refine ⟨h.claims, ?_, h.proper.congr hfile hindex⟩
  rw [hfile]
  exact h.known

theorem writeActive_always (l : Log) (p : Bytes) (hs : Steady placed s w) :
    Always (Quiet placed) (LogOp.Outcome mayFail) (Claims placed)
      (Landed crc placed l p) (l.writeActive crc s p) w := by
  unfold Log.writeActive
  refine always_finish (always_mono (fun _ h => h.2.claims) (fun _ _ h => h)
    (always_and (segmentAppend_always hs.proper.file_ne p)
      (keeps_always (only_mono appendFsOp_of_writing (segmentAppend_only s p)) hs))) ?_
  rintro ⟨s', e | offset⟩
  · refine ⟨_, rfl, ?_⟩
    rintro u ⟨⟨⟨hfile, hindex⟩, _⟩, hsteady⟩
    exact ⟨rfl, fun _ _ => rfl, nofun, s', active_setActive l s',
      hsteady.congr hfile hindex, nofun⟩
  · refine ⟨_, rfl, ?_⟩
    rintro u ⟨⟨⟨hfile, hindex⟩, hlast⟩, hsteady⟩
    refine ⟨rfl, nofun, ?_, s', active_setActive l s',
      hsteady.congr hfile hindex, ?_⟩
    · rintro k ⟨⟩
      exact ⟨rfl, rfl⟩
    · intro k _
      rw [hfile]
      exact hlast offset rfl

/-- A flushed active segment covers every record. -/
theorem Known.covered_of_flushed (hk : Known placed active d) (hf : Flushed active d) :
    ∀ pl ∈ placed, Covered d pl := by
  intro pl hpl
  rcases hk.place pl hpl with h | h
  · exact h
  · have hlen := (hk.written pl hpl).2
    rw [h] at hlen
    unfold Covered
    rw [h]
    exact le_trans hlen hf

/-- When every record is covered, any segment may become the active one. -/
theorem Steady.replace {next : Segment} (h : Steady placed s w)
    (hall : ∀ pl ∈ placed, Covered w.dir pl) (hnext : Proper next w.dir) : Steady placed next w :=
  ⟨h.claims, ⟨h.known.written, fun pl hpl => Or.inl (hall pl hpl)⟩, hnext⟩

/-- Covered records stay covered. -/
theorem covered_always (honly : Only AppendFsOp p) (hk : Known placed active w.dir)
    (hall : ∀ pl ∈ placed, Covered w.dir pl) :
    Always (Quiet placed) (LogOp.Outcome mayFail)
      (fun u => Known placed active u.dir ∧ ∀ pl ∈ placed, Covered u.dir pl)
      (fun _ u => Known placed active u.dir ∧ ∀ pl ∈ placed, Covered u.dir pl) p w := by
  have hkeep : ∀ d d' : Dir Path, d.Extends d' →
      (Known placed active d ∧ ∀ pl ∈ placed, Covered d pl) →
      Known placed active d' ∧ ∀ pl ∈ placed, Covered d' pl := by
    rintro d d' hext ⟨hkd, halld⟩
    exact ⟨hkd.extends hext, fun pl hpl => (halld pl hpl).extends (hkd.written pl hpl).1 hext⟩
  refine always_of_only ?_ ?_ honly ⟨hk, hall⟩
  · rintro u v ⟨hsync, _⟩ hu
    exact hkeep _ _ hsync.extends hu
  · intro o u r v ho hu hstep
    cases hstep with
    | fs hfs =>
        exact hkeep _ _ (hfs.extends ho) hu
    | coord o => exact ho.elim

/-- `Append` that gives up before it writes leaves the log as it was. -/
theorem failed_always (p : Bytes) (e : LogErr) (hact : l.active = some s) (hs : Steady placed s w) :
    Always (Quiet placed) (LogOp.Outcome mayFail) (Claims placed)
      (Landed crc placed l p) (.done (l, .error e)) w := by
  intro u hq
  exact ⟨(hs.quiet hq).claims, rfl, fun _ _ => rfl, nofun, s, hact,
    hs.quiet hq, nofun⟩

theorem rollTo_always (p : Bytes) (hact : l.active = some s) (hs : Steady placed s w)
    (hall : ∀ pl ∈ placed, Covered w.dir pl) :
    Always (Quiet placed) (LogOp.Outcome mayFail) (Claims placed)
      (Landed crc placed l p) (l.rollTo crc s p) w := by
  have honly := only_mono appendFsOp_of_writing (createSegment_only s.nextOffset)
  have hcreate := always_and (@createSegment_always mayFail placed w s.nextOffset)
    (always_and (keeps_always honly hs) (covered_always honly hs.known hall))
  unfold Log.rollTo
  refine always_bind Quiet.refl
    (always_mono (fun _ h => h.2.1.claims) (fun _ _ h => h) hcreate) ?_
  rintro (e | next) u ⟨hnext, hsu, _, hallu⟩
  · exact failed_always p e hact hsu
  · refine always_mono (fun _ h => h) ?_
      (writeActive_always { l with segments := l.segments ++ [next] } p
        (hsu.replace hallu (hnext next rfl)))
    rintro out v ⟨hopts, hseq, hticket, hactive⟩
    exact ⟨hopts, hseq, hticket, hactive⟩

/-- `Append` under the mutex: the coordinator's claims stay true, and a record that was
written is the last write of the active segment. -/
theorem appendLocked_always (p : Bytes) (hact : l.active = some s) (hseq : l.seq = placed.length)
    (hsync : l.opts.sync ≠ .never) (hs : Steady placed s w) :
    Always (Quiet placed) (LogOp.Outcome mayFail) (Claims placed)
      (Landed crc placed l p) (l.appendLocked crc p) w := by
  unfold Log.appendLocked
  simp only [hact, if_neg hsync]
  split_ifs with hroll
  · refine always_bind Quiet.refl (always_mono (fun _ h => h.1.claims) (fun _ _ h => h)
      (always_and (keeps_always (only_mono appendFsOp_of_flush (sync_only s)) hs)
        (sync_always s))) ?_
    rintro (e | _) u ⟨hsu, hflushed⟩
    · exact failed_always p e hact hsu
    · -- the outgoing segment is flushed, so everything written so far may be claimed
      intro v hq
      have hsv := hsu.quiet hq
      have hallv := hsv.known.covered_of_flushed ((hflushed rfl).syncLe hq.1)
      refine ⟨hsv.claims, ?_⟩
      intro r v' hstep
      cases hstep with
      | coord o =>
          have hmark := hsv.claims.markSynced hallv
          rw [← hseq] at hmark
          exact rollTo_always p hact ⟨hmark, hsv.known, hsv.proper⟩ hallv
  · exact writeActive_always l p hs

end Always

end LedgerLine.Broker
