import LedgerLine.Broker.Flushing
import LedgerLine.Broker.Schedule

/-!
# Every acknowledgement is backed by an fsync

Under `SyncAlways` and `SyncGroup`, whatever the threads do and whatever fails, an
`Append` that returns success has its record covered by an fsync of the file the record
is in, and that fsync began after the record had been written.

Under these policies nobody is spared the fsync, and an open log has a segment, so the
hypotheses of `FlushInv.step` are met.

Main facts:
* `LiveInv.step`, `LiveInv.run`: the invariant holds in every state of every run;
* `acknowledged_backed`: what a returned `Append` can rely on.
-/

namespace LedgerLine.Broker

open Program

/-- The invariant of the concurrent log. -/
structure LiveInv (crc : Checksum) (mayFail : FsOp Path → Prop) (s : Live) : Prop where
  durable : s.mem.opts.sync.durable = true
  seq : s.mem.seq = s.placed.length
  active : ∃ sg, s.mem.active = some sg ∧ Steady s.placed sg s.world
  backed : Backed s.fsyncs s.world.dir
  threads : ∀ t, PcOk crc s.placed s.world.dir (s.threads t)
  lock : ∀ t, (s.threads t).Holds ↔ s.lock = some t
  appending : ∀ t p rest, s.threads t = .appending p rest →
    Only AppendOp rest ∧
      Always (Quiet s.placed) (LogOp.Outcome mayFail) (Claims s.placed)
        (Landed crc s.placed s.mem p) rest s.world
  syncing : ∀ t rest, s.threads t = .syncingAll rest → Only FlushOp rest

/-- No append is spared the fsync. -/
def nobody (_ : List Place) (_ : Dir Path) (_ : Pending) : Prop :=
  False

theorem stable_nobody (crc : Checksum) : Stable crc nobody :=
  fun _ _ _ _ _ _ _ _ _ h => h

theorem pcOk_of_nobody {crc : Checksum} {placed : List Place} {d : Dir Path} {pc : Pc} :
    PcOkUnless crc nobody placed d pc ↔ PcOk crc placed d pc := by
  cases pc with
  | returned r outcome =>
      simp only [PcOkUnless, PcOk, nobody, or_false]
  | _ => exact Iff.rfl

section Preservation

variable {crc : Checksum} {mayFail : FsOp Path → Prop} {s s' : Live} {t : ThreadId}

/-- The invariant of an open log with a durable policy, in terms of the general one. -/
theorem liveInv_iff :
    LiveInv crc mayFail s ↔
      FlushInv crc mayFail nobody s ∧ s.mem.opts.sync.durable = true ∧ s.mem.active ≠ none := by
  constructor
  · intro h
    obtain ⟨sg, hactive, hsteady⟩ := h.active
    have hpolicy : s.mem.opts.sync ≠ .never := by
      intro hnever
      have hdurable := h.durable
      rw [hnever] at hdurable
      cases hdurable
    refine ⟨⟨hpolicy, h.seq, hsteady.claims, hsteady.known.written, ?_, h.backed,
      fun t => pcOk_of_nobody.2 (h.threads t), h.lock, h.appending, h.syncing⟩, h.durable, ?_⟩
    · intro sg' hactive'
      obtain rfl : sg = sg' := Option.some.inj (hactive.symm.trans hactive')
      exact hsteady
    · rw [hactive]
      exact Option.some_ne_none sg
  · rintro ⟨h, hdurable, hactive⟩
    obtain ⟨sg, hsg⟩ := Option.ne_none_iff_exists'.mp hactive
    exact ⟨hdurable, h.seq, ⟨sg, hsg, h.active sg hsg⟩, h.backed,
      fun t => pcOk_of_nobody.1 (h.threads t), h.lock, h.appending, h.syncing⟩

/-- A durable policy never returns without an fsync. -/
theorem not_unsynced {l : Log} (h : l.opts.sync.durable = true) (k : Log.Ticket) :
    ¬ l.Unsynced k := by
  rintro (hp | ⟨hp, -⟩)
  · rw [hp] at h
    cases h
  · rw [hp] at h
    cases h

/-- Every step keeps the invariant. -/
theorem LiveInv.step (h : LiveInv crc mayFail s) (hstep : LiveStep crc mayFail s s') :
    LiveInv crc mayFail s' := by
  obtain ⟨hflush, hdurable, hactive⟩ := liveInv_iff.1 h
  refine liveInv_iff.2 ⟨hflush.step (stable_nobody crc) hstep (fun _ _ _ _ _ => hactive)
    (fun _ r _ _ hunsynced => not_unsynced hdurable r.ticket hunsynced)
    (fun _ _ _ _ _ hnone => absurd hnone hactive), ?_, ?_⟩
  · rw [hflush.opts_step hstep]
    exact hdurable
  · exact hflush.active_step hstep hactive

end Preservation

section Runs

variable {crc : Checksum} {mayFail : FsOp Path → Prop}

/-- The invariant holds of a log `Open` has just returned. -/
theorem LiveInv.start {d : Dir Path} {opts : Options} {l : Log} {w : World}
    (hfound : Backed [] d) (hdurable : opts.sync.durable = true)
    (hopen : Ends (LogOp.Outcome mayFail) (openLog crc opts) ⟨d, Coord.new⟩ (.ok l) w) :
    LiveInv crc mayFail (Live.start l w) := by
  have hpolicy : opts.sync ≠ .never := by
    intro hnever
    rw [hnever] at hdurable
    cases hdurable
  obtain ⟨hopts, hactive⟩ := opened_log hopen
  refine liveInv_iff.2 ⟨FlushInv.start hfound hpolicy hopen, ?_, hactive⟩
  change l.opts.sync.durable = true
  rw [hopts]
  exact hdurable

/-- The invariant holds in every state of every run. -/
theorem LiveInv.run {s s' : Live} (h : LiveInv crc mayFail s) (hrun : LiveRun crc mayFail s s') :
    LiveInv crc mayFail s' := by
  induction hrun with
  | refl => exact h
  | tail _ hstep ih => exact ih.step hstep

/-- Open a log in any directory with a durable policy, let any number of threads append
and sync in any order, and let any file operation fail at any time.  When an `Append` has
returned success, its record was one of the first `upTo` writes to a segment file, and an
fsync of that file has completed that began after at least `upTo` writes. -/
theorem acknowledged_backed {names : List Path} {content : Path → Bytes} {opts : Options}
    {l : Log} {w : World} {s : Live} {t : ThreadId} {r : Pending} {offset : Nat}
    (hdurable : opts.sync = .always ∨ opts.sync = .group)
    (hopen : Ends (LogOp.Outcome mayFail) (openLog crc opts)
      ⟨Dir.found names content, Coord.new⟩ (.ok l) w)
    (hrun : LiveRun crc mayFail (Live.start l w) s)
    (hreturned : s.threads t = .returned r (.ok offset)) :
    (∃ b, r.place.path = .segment b) ∧
    (∃ i off, i + 1 = r.place.upTo ∧
      (s.world.dir.file r.place.path).writes[i]? = some ⟨off, recordBytes crc r.payload⟩) ∧
    ∃ n, Place.mk r.place.path n ∈ s.fsyncs ∧ r.place.upTo ≤ n := by
  have hpolicy : opts.sync.durable = true := by
    rcases hdurable with h | h
    · rw [h]
      rfl
    · rw [h]
      rfl
  have hinv := (LiveInv.start (fun _ => Or.inl rfl) hpolicy hopen).run hrun
  have hr := hinv.threads t
  rw [hreturned] at hr
  obtain ⟨howns, hcovered⟩ := hr
  obtain ⟨i, off, hi, hwrite⟩ := howns.written
  have hle : r.place.upTo ≤ (s.world.dir.file r.place.path).synced := (hcovered offset rfl).2
  refine ⟨howns.segment, ⟨i, off, hi.symm, hwrite⟩, _, ?_, hle⟩
  exact (hinv.backed r.place.path).resolve_left (by omega)

/-- An empty log under group commit, as `Open` returns it. -/
def emptyGroupLog : Log :=
  ⟨⟨4096, .group, 100⟩, [⟨.segment 0, ⟨.index 0, []⟩, 0, 0, 16, 16⟩], 0, 0⟩

/-- Its directory. -/
def groupWorld : World :=
  (run LogOp.exec (openLog crc32c ⟨4096, .group, 0⟩) ⟨Dir.found [] fun _ => [], Coord.new⟩).2

/-- Two threads append, and the second one flushes for both. -/
def sharedFlush : Live :=
  (Live.start emptyGroupLog groupWorld).play crc32c (fun _ _ _ => true)
    [.append 0 [1], .steps 0 3, .append 1 [2], .steps 1 3, .steps 0 1, .steps 1 6, .steps 0 1]

/-- The first record is covered by the fsync of the other thread. -/
theorem acknowledged_backed_once :
    ∃ (r r' : Pending) (n : Nat), sharedFlush.threads 0 = .returned r (.ok 0) ∧
      sharedFlush.threads 1 = .returned r' (.ok 1) ∧ r.payload = [1] ∧
      sharedFlush.fsyncs.map Place.path = [.segment 0, .index 0] ∧
      Place.mk r.place.path n ∈ sharedFlush.fsyncs ∧ r.place.upTo ≤ n := by
  have hfirst : (sharedFlush.threads 0).acks? = some (⟨[1], ⟨0, 1, 1⟩, ⟨.segment 0, 2⟩⟩, 0) := by
    decide +kernel
  have hsecond : (sharedFlush.threads 1).acks? = some (⟨[2], ⟨1, 2, 2⟩, ⟨.segment 0, 3⟩⟩, 1) := by
    decide +kernel
  rw [Pc.acks?_eq_some_iff] at hfirst hsecond
  obtain ⟨-, -, n, hn, hle⟩ := acknowledged_backed (.inr rfl)
    (@opened_empty crc32c (fun _ => False) ⟨4096, .group, 0⟩ emptyGroupLog (by decide +kernel))
    (liveRun_play _ _) hfirst
  exact ⟨_, _, n, hfirst, hsecond, rfl, by decide +kernel, hn, hle⟩

end Runs

end LedgerLine.Broker
