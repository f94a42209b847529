import LedgerLine.Broker.Live

/-!
# What `Open` returns, whatever it finds

Nothing is assumed of the directory, and any file operation may fail.  When `Open`
returns a log all the same, its active segment is made of two files that are there
(`openLog_always`), and opening has flushed nothing (`backed_openLog`).
-/

namespace LedgerLine.Broker

open Program

/-- The operations of `Open`. -/
def OpenOp : LogOp → Prop
  | .fs (.fsync _) => False
  | .fs _ => True
  | .coord _ => False

theorem openOp_of_writing (o : LogOp) (h : WritingOp o) : OpenOp o := by
  cases o with
  | fs o =>
      cases o with
      | fsync p => exact h.elim
      | _ => trivial
  | coord o => exact h.elim

section Only

variable {crc : Checksum}

theorem truncateFrom_only (ix : Index) (n : Nat) : Only OpenOp (ix.truncateFrom n) := by
  unfold Index.truncateFrom
  refine only_fs trivial ?_
  rintro (e | _)
  · trivial
  · trivial

theorem cutTail_only (s : Segment) (position rel : Nat) :
    Only OpenOp (Segment.recoverLoop.cutTail s position rel) := by
  unfold Segment.recoverLoop.cutTail
  refine only_fs trivial ?_
  rintro (e | _)
  · trivial
  refine only_bind (truncateFrom_only _ _) ?_
  rintro (e | ix)
  · trivial
  · trivial

theorem recoverLoop_only (fuel : Nat) (s : Segment) (rest : Bytes) (position rel : Nat) :
    Only OpenOp (Segment.recoverLoop crc fuel s rest position rel) := by
  induction fuel generalizing s rest position rel with
  | zero => trivial
  | succ fuel ih =>
      unfold Segment.recoverLoop
      split
      · refine only_bind (only_mono openOp_of_writing (maybeIndex_only s _ _)) ?_
        rintro (e | s')
        · trivial
        · exact ih _ _ _ _
      · trivial
      · exact cutTail_only s position rel
      · exact cutTail_only s position rel
      · trivial

theorem scanFrom_only (s : Segment) (position rel : Nat) :
    Only OpenOp (s.scanFrom crc position rel) := by
  unfold Segment.scanFrom
  refine only_fs trivial ?_
  rintro (e | data)
  · trivial
  · exact recoverLoop_only _ _ _ _ _

theorem recover_only (s : Segment) : Only OpenOp (s.recover crc) := by
  have hreset : Only OpenOp s.index.reset := by
    unfold Index.reset
    refine only_fs trivial ?_
    rintro (e | _)
    · trivial
    · trivial
  unfold Segment.recover
  refine only_fs trivial ?_
  rintro (e | size)
  · trivial
  rcases s.index.last with _ | e
  · exact scanFrom_only _ _ _
  simp only
  split_ifs
  · exact scanFrom_only _ _ _
  · refine only_bind hreset ?_
    rintro (e | ix)
    · trivial
    · exact scanFrom_only _ _ _

theorem openSegment_only (name : Nat) : Only OpenOp (openSegment crc name) := by
  unfold openSegment
  refine only_fs trivial ?_
  rintro (e | _)
  · trivial
  refine only_fs trivial ?_
  rintro (e | data)
  · trivial
  simp only
  split_ifs
  · trivial
  · trivial
  · trivial
  · trivial
  · refine only_bind (only_mono openOp_of_writing (openIndex_only _)) ?_
    rintro (e | ix)
    · trivial
    · exact recover_only _

theorem openSegments_only (names : List Nat) (opened : List Segment) :
    Only OpenOp (openSegments crc names opened) := by
  induction names generalizing opened with
  | nil => trivial
  | cons name names ih =>
      refine only_bind (openSegment_only name) ?_
      rintro (e | s)
      · trivial
      · exact ih _

/-- `Open` flushes nothing and does not talk to the coordinator. -/
theorem openLog_only (opts : Options) : Only OpenOp (openLog crc opts) := by
  unfold openLog listSegmentOffsets
  refine only_bind (only_fs trivial ?_) ?_
  · rintro (e | names)
    · trivial
    · trivial
  rintro (e | baseOffsets)
  · trivial
  refine only_bind (openSegments_only _ _) ?_
  rintro (e | _ | ⟨s, segments⟩)
  · trivial
  · refine only_bind (only_mono openOp_of_writing (createSegment_only 0)) ?_
    rintro (e | s)
    · trivial
    · trivial
  · trivial

end Only

section Yields

variable {crc : Checksum}

/-- The segment a program returns, if any, has the files of `s`. -/
def SameFiles (s : Segment) (r : Except LogErr Segment) : Prop :=
  ∀ s', r = .ok s' → s'.file = s.file ∧ s'.index.file = s.index.file

theorem truncateFrom_yields (ix : Index) (n : Nat) :
    Yields (fun r => ∀ ix', r = .ok ix' → ix'.file = ix.file) (ix.truncateFrom n) := by
  unfold Index.truncateFrom
  refine yields_fs ?_
  rintro (e | _)
  · exact nofun
  · rintro ix' ⟨⟩
    rfl

theorem cutTail_yields (s : Segment) (position rel : Nat) :
    Yields (SameFiles s) (Segment.recoverLoop.cutTail s position rel) := by
  unfold Segment.recoverLoop.cutTail
  refine yields_fs ?_
  rintro (e | _)
  · exact nofun
  refine yields_bind (truncateFrom_yields _ _) ?_
  rintro (e | ix) hix
  · exact nofun
  · rintro s' ⟨⟩
    exact ⟨rfl, hix ix rfl⟩

theorem recoverLoop_yields (fuel : Nat) (s s₀ : Segment) (rest : Bytes) (position rel : Nat)
    (hs : s.file = s₀.file ∧ s.index.file = s₀.index.file) :
    Yields (SameFiles s₀) (Segment.recoverLoop crc fuel s rest position rel) := by
  induction fuel generalizing s rest position rel with
  | zero =>
      exact nofun
  | succ fuel ih =>
      have hcut : Yields (SameFiles s₀) (Segment.recoverLoop.cutTail s position rel) :=
        yields_mono (fun r h s' hr => ⟨(h s' hr).1.trans hs.1, (h s' hr).2.trans hs.2⟩)
          (cutTail_yields s position rel)
      unfold Segment.recoverLoop
      split
      · refine yields_bind (maybeIndex_yields s _ _) ?_
        rintro (e | s') hs'
        · exact nofun
        · obtain ⟨hfile, hindex⟩ := hs' s' rfl
          exact ih s' _ _ _ ⟨hfile.trans hs.1, hindex.trans hs.2⟩
      · rintro s' ⟨⟩
        exact hs
      · exact hcut
      · exact hcut
      · exact nofun

theorem scanFrom_yields (s s₀ : Segment) (position rel : Nat)
    (hs : s.file = s₀.file ∧ s.index.file = s₀.index.file) :
    Yields (SameFiles s₀) (s.scanFrom crc position rel) := by
  unfold Segment.scanFrom
  refine yields_fs ?_
  rintro (e | data)
  · exact nofun
  · exact recoverLoop_yields _ _ _ _ _ _ hs

/-- Recovery keeps a segment's files. -/
theorem recover_yields (s : Segment) : Yields (SameFiles s) (s.recover crc) := by
  have hreset : Yields (fun r => ∀ ix', r = .ok ix' → ix'.file = s.index.file)
      s.index.reset := by
    unfold Index.reset
    refine yields_fs ?_
    rintro (e | _)
    · exact nofun
    · rintro ix' ⟨⟩
      rfl
  unfold Segment.recover
  refine yields_fs ?_
  rintro (e | size)
  · exact nofun
  rcases s.index.last with _ | e
  · exact scanFrom_yields _ _ _ _ ⟨rfl, rfl⟩
  simp only
  split_ifs
  · exact scanFrom_yields _ _ _ _ ⟨rfl, rfl⟩
  · refine yields_bind hreset ?_
    rintro (e | ix) hix
    · exact nofun
    · exact scanFrom_yields _ _ _ _ ⟨rfl, hix ix rfl⟩

end Yields

section Always

variable {crc : Checksum} {mayFail : FsOp Path → Prop} {w : World}

/-- Segments that have their files keep them. -/
theorem proper_always {α : Type} (p : LogProgram α) {ss : List Segment}
    (hss : ∀ s ∈ ss, Proper s w.dir) :
    Always (Quiet []) (LogOp.Outcome mayFail) (fun u => ∀ s ∈ ss, Proper s u.dir)
      (fun _ u => ∀ s ∈ ss, Proper s u.dir) p w := by
  refine always_of_only ?_ ?_ (only_true p) hss
  · rintro u v ⟨hsync, _⟩ hu s hs
    exact (hu s hs).extends hsync.extends
  · intro o u r v _ hu hstep s hs
    cases hstep with
    | fs hfs =>
        obtain ⟨hbase, hnamed, hindex⟩ := hu s hs
        exact ⟨hbase, hfs.names_subset hnamed, hfs.names_subset hindex⟩
    | coord o => exact hu s hs

/-- A file that could be opened is there. -/
theorem openExisting_named {path : Path} {d d' : Dir Path} {r : (FsOp.openExisting path).Resp}
    (h : FsOp.Outcome mayFail (.openExisting path) d r d') (hr : r = Except.ok ()) :
    path ∈ d'.names := by
  cases h with
  | success =>
      simp only [FsOp.exec] at hr ⊢
      split_ifs at hr ⊢ with hp
      exact hp
  | failure j hfail => cases hr

theorem openSegment_always (name : Nat) :
    Always (Quiet []) (LogOp.Outcome mayFail) (fun _ => True)
      (fun r u => ∀ s, r = .ok s → Proper s u.dir) (openSegment crc name) w := by
  unfold openSegment
  refine always_fs ?_
  intro w₁ _
  refine ⟨trivial, ?_⟩
  rintro (e | _) d₁ ho
  · exact fun u _ => ⟨trivial, nofun⟩
  have hnamed := openExisting_named ho rfl
  refine always_fs ?_
  rintro w₂ ⟨hsync, _⟩
  refine ⟨trivial, ?_⟩
  rintro (e | data) d₂ ho₂
  · exact fun u _ => ⟨trivial, nofun⟩
  have hnamed₂ := ho₂.names_subset (hsync.extends _ hnamed).1
  simp only
  split_ifs
  · exact fun u _ => ⟨trivial, nofun⟩
  · exact fun u _ => ⟨trivial, nofun⟩
  · exact fun u _ => ⟨trivial, nofun⟩
  · exact fun u _ => ⟨trivial, nofun⟩
  · refine always_bind Quiet.refl (always_mono (fun _ _ => trivial) (fun _ _ h => h)
      (always_and (openIndex_always _) (named_always _ hnamed₂))) ?_
    rintro (e | ix) u ⟨hix, hu⟩
    · exact fun v _ => ⟨trivial, nofun⟩
    · obtain ⟨hfile, hindex⟩ := hix ix rfl
      have hproper : Proper ⟨.segment name, ix, getBE ((List.drop 8 data).take 8),
          getBE ((List.drop 8 data).take 8), segmentHeaderSize, segmentHeaderSize⟩ u.dir :=
        ⟨⟨name, rfl, hfile⟩, hu, by rw [hfile]; exact hindex⟩
      refine always_mono (fun _ _ => trivial) ?_
        (always_and (always_of_yields (recover_yields _) u)
          (proper_always _ (List.forall_mem_singleton.mpr hproper)))
      rintro r v ⟨hr, hv⟩ s hs
      obtain ⟨hsfile, hsindex⟩ := hr s hs
      exact (List.forall_mem_singleton.mp hv).congr hsfile hsindex

theorem openSegments_always (names : List Nat) {opened : List Segment}
    (hopened : ∀ s ∈ opened, Proper s w.dir) :
    Always (Quiet []) (LogOp.Outcome mayFail) (fun _ => True)
      (fun r u => ∀ ss, r = .ok ss → ∀ s ∈ ss, Proper s u.dir)
      (openSegments crc names opened) w := by
  induction names generalizing opened w with
  | nil =>
      rintro u ⟨hsync, _⟩
      refine ⟨trivial, ?_⟩
      rintro ss ⟨⟩ s hs
      exact (hopened s hs).extends hsync.extends
  | cons name names ih =>
      refine always_bind Quiet.refl (always_mono (fun _ _ => trivial) (fun _ _ h => h)
        (always_and (openSegment_always name) (proper_always _ hopened))) ?_
      rintro (e | s) u ⟨hs, hu⟩
      · exact fun v _ => ⟨trivial, nofun⟩
      · refine ih ?_
        exact List.forall_mem_append.mpr ⟨hu, List.forall_mem_singleton.mpr (hs s rfl)⟩

/-- A log that `Open` returned: nothing appended yet, and its active segment is there. -/
structure JustOpened (opts : Options) (l : Log) (d : Dir Path) : Prop where
  opts : l.opts = opts.withDefaults
  seq : l.seq = 0
  active : ∃ s, l.active = some s ∧ Proper s d

theorem openLog_always (opts : Options) :
    Always (Quiet []) (LogOp.Outcome mayFail) (fun _ => True)
      (fun r u => ∀ l, r = .ok l → JustOpened opts l u.dir) (openLog crc opts) w := by
  have hlist : Always (Quiet []) (LogOp.Outcome mayFail) (fun _ => True) (fun _ _ => True)
      listSegmentOffsets w :=
    always_of_only (fun _ _ _ _ => trivial) (fun _ _ _ _ _ _ _ => trivial) (only_true _) trivial
  unfold openLog
  refine always_bind Quiet.refl hlist ?_
  rintro (e | baseOffsets) w₁ _
  · exact fun u _ => ⟨trivial, nofun⟩
  refine always_bind Quiet.refl
    (openSegments_always baseOffsets (fun s hs => nomatch (List.not_mem_nil hs))) ?_
  rintro (e | ss) u hss
  · exact fun v _ => ⟨trivial, nofun⟩
  cases hcase : ss with
  | nil =>
      refine always_finish (createSegment_always 0) ?_
      rintro (e | s)
      · exact ⟨_, rfl, nofun⟩
      · refine ⟨_, rfl, ?_⟩
        rintro v hs l ⟨⟩
        exact ⟨rfl, rfl, s, rfl, hs s rfl⟩
  | cons s ss' =>
      rintro v ⟨hsync, _⟩
      refine ⟨trivial, ?_⟩
      rintro l ⟨⟩
      have hne : s :: ss' ≠ [] := List.cons_ne_nil _ _
      refine ⟨rfl, rfl, (s :: ss').getLast hne, List.getLast?_eq_getLast_of_ne_nil hne, ?_⟩
      refine (hss ss rfl _ ?_).extends hsync.extends
      rw [hcase]
      exact List.getLast_mem hne

theorem completed_of_openOp {o : LogOp} (ho : OpenOp o) (r : o.Resp) (d : Dir Path) :
    completed o r d = [] := by
  cases o with
  | fs o =>
      cases o with
      | fsync p => exact ho.elim
      | _ => rfl
  | coord o => rfl

/-- Opening flushes nothing. -/
theorem backed_openLog (opts : Options) (hw : Backed [] w.dir) :
    Always Eq (LogOp.Outcome mayFail) (fun u => Backed [] u.dir)
      (fun _ u => Backed [] u.dir) (openLog crc opts) w := by
  refine always_of_only ?_ ?_ (openLog_only opts) hw
  · rintro u v rfl hu
    exact hu
  · intro o u r v ho hu hstep
    have hv := hu.outcome hstep
    rwa [completed_of_openOp ho] at hv

/-- Opening does not touch the coordinator. -/
theorem coord_openLog (opts : Options) {c : Coord} (hw : w.coord = c) :
    Always Eq (LogOp.Outcome mayFail) (fun u => u.coord = c) (fun _ u => u.coord = c)
      (openLog crc opts) w := by
  refine always_of_only ?_ ?_ (openLog_only opts) hw
  · rintro u v rfl hu
    exact hu
  · intro o u r v ho hu hstep
    cases hstep with
    | fs hfs => exact hu
    | coord o => exact ho.elim

end Always

end LedgerLine.Broker
