import LedgerLine.Broker.Acknowledged

/-!
# Closing a log with appends in flight

`Log.Close` takes the mutex, closes the files of every segment and forgets the segments.  An
append that has released the mutex and not yet picked the segment to flush finds none any more,
and `syncActive` takes that for success.  One that has picked its segment gets an error from the
closed file, and an fsync that has begun completes.

A `Closable` is a log in use together with how far `Close` has got; `CloseStep` is a step of a
thread that is using it, or one of `Close`.  File close makes nothing durable.

Main facts:
* `closeInv_of_run`: the invariant of every run;
* `closed_acknowledged_backed`: an append that returns success is backed by an fsync, as long as
  every sync that finds no segment speaks for records that are covered already;
* `hollow_sync_acknowledges`: and not otherwise.
-/

namespace LedgerLine.Broker

open Program

/-- How far `Close` has got. -/
inductive ClosePhase
  /-- It has not been called, or waits for the mutex. -/
  | running
  /-- It holds the mutex and has these files still to close. -/
  | closing (rest : List Path)
  /-- It has forgotten the segments and returned. -/
  | closed
  /-- An `Append` has found no segment and panicked with the mutex. -/
  | stuck
deriving DecidableEq, Repr

/-- A log in use that may be closed. -/
structure Closable where
  live : Live
  phase : ClosePhase
  /-- The files that have been closed. -/
  shut : List Path

namespace Closable

/-- `Open` has just returned. -/
def start (l : Log) (w : World) : Closable :=
  ⟨Live.start l w, .running, []⟩

/-- Whether a thread can go on as ever: calls begin before `Close`, the mutex is free or held by
the thread, and an fsync needs an open file to begin. -/
def Permits (c : Closable) : Pc → Prop
  | .idle => c.phase = .running
  | .capturing _ _ => c.phase = .running ∨ c.phase = .closed
  | .flushing _ _ sg .captured => sg.file ∉ c.shut
  | .flushing _ _ sg .synced => sg.index.file ∉ c.shut
  | _ => True

end Closable

section Steps

variable (crc : Checksum) (mayFail : FsOp Path → Prop)
variable (mayFind : Live → Pending → Purpose → Prop)

/-- One step of one thread, or of `Close`.  `mayFind` says in which states a thread in `syncActive`
finds that there is no segment. -/
inductive CloseStep : Closable → Closable → Prop
  | step {c : Closable} {s' : Live} {t : ThreadId} (hstep : LiveStep crc mayFail c.live s')
      (hmoved : ∀ t', t' ≠ t → s'.threads t' = c.live.threads t')
      (hpermits : c.Permits (c.live.threads t))
      (hfind : ∀ r why, c.live.threads t = .capturing r why → c.live.mem.active = none →
        mayFind c.live r why) :
      CloseStep c { c with live := s' }
  /-- `Close` takes the mutex. -/
  | lockClose {c : Closable} (hphase : c.phase = .running) (hlock : c.live.lock = none) :
      CloseStep c
        { c with
          phase := .closing (c.live.mem.segments.flatMap fun sg => [sg.file, sg.index.file]) }
  /-- It closes the next file; the outcome only matters to its caller. -/
  | closeFile {c : Closable} {f : Path} {rest : List Path}
      (hphase : c.phase = .closing (f :: rest)) :
      CloseStep c { c with phase := .closing rest, shut := f :: c.shut }
  /-- It forgets the segments and releases the mutex. -/
  | unlockClose {c : Closable} (hphase : c.phase = .closing []) :
      CloseStep c
        { c with
          live := { c.live with mem := { c.live.mem with segments := [] } }
          phase := .closed }
  /-- `os.ErrClosed` from the fsync of the segment file. -/
  | syncClosed {c : Closable} {t : ThreadId} {r : Pending} {why : Purpose} {sg : Segment}
      (hpc : c.live.threads t = .flushing r why sg .captured) (hshut : sg.file ∈ c.shut) :
      CloseStep c { c with live := c.live.move t (.flushed r why (.error (.io .io))) }
  /-- `os.ErrClosed` from the fsync of the index file. -/
  | syncIndexClosed {c : Closable} {t : ThreadId} {r : Pending} {why : Purpose} {sg : Segment}
      (hpc : c.live.threads t = .flushing r why sg .synced) (hshut : sg.index.file ∈ c.shut) :
      CloseStep c { c with live := c.live.move t (.flushed r why (.error (.io .io))) }
  /-- A new call of `Append` panics; the mutex stays taken. -/
  | appendClosed {c : Closable} {t : ThreadId} (hpc : c.live.threads t = .idle)
      (hphase : c.phase = .closed) (hlock : c.live.lock = none) :
      CloseStep c { c with phase := .stuck }

/-- Any number of steps. -/
def CloseRun : Closable → Closable → Prop :=
  Relation.ReflTransGen (CloseStep crc mayFail mayFind)

end Steps

/-- Every record that a sync on behalf of `r` speaks for is covered. -/
def NothingToSync (s : Live) (r : Pending) (why : Purpose) : Prop :=
  Spoken s.placed s.world.dir r why fun _ => False

/-- The invariant of a log that may be closed. -/
structure CloseInv (crc : Checksum) (mayFail : FsOp Path → Prop) (c : Closable) : Prop where
  flush : FlushInv crc mayFail nobody c.live
  durable : c.live.mem.opts.sync.durable = true
  running : c.phase = .running → c.live.mem.active ≠ none
  free : c.phase ≠ .running → c.live.lock = none

section Preservation

variable {crc : Checksum} {mayFail : FsOp Path → Prop} {s s' : Live} {c c' : Closable}
variable {t : ThreadId}

/-- The mutex is taken at the beginning of a call. -/
theorem lock_step (hstep : LiveStep crc mayFail s s') (hlock : s.lock = none) :
    s'.lock = none ∨ ∃ t, s.threads t = .idle ∧ (s'.threads t).Holds := by
  cases hstep with
  | @lockAppend t p hpc hfree | @lockSync t hpc hfree =>
      refine Or.inr ⟨t, hpc, ?_⟩
      simp [Live.move, Pc.Holds]
  | unlockRefused hpc | unlock hpc hactive hplace | unlockSync hpc => exact Or.inl rfl
  | _ => exact Or.inl hlock

/-- Nobody is inside once `Close` has begun. -/
theorem CloseInv.outside (h : CloseInv crc mayFail c) (hphase : c.phase ≠ .running)
    (t : ThreadId) : ¬ (c.live.threads t).Holds := by
  intro hholds
  have hlock := (h.flush.lock t).1 hholds
  rw [h.free hphase] at hlock
  cases hlock

/-- A step of a thread that uses the log. -/
theorem CloseInv.live_step (h : CloseInv crc mayFail c) (hstep : LiveStep crc mayFail c.live s')
    (hmoved : ∀ t', t' ≠ t → s'.threads t' = c.live.threads t')
    (hpermits : c.Permits (c.live.threads t))
    (hfind : ∀ r why, c.live.threads t = .capturing r why → c.live.mem.active = none →
      NothingToSync c.live r why) :
    CloseInv crc mayFail { c with live := s' } := by
  -- whoever has moved is the thread that the step is permitted to
  have hmover : ∀ {t'}, s'.threads t' ≠ c.live.threads t' → t' = t := by
    intro t' hne
    by_contra ht
    exact hne (hmoved t' ht)
  have hidle : ∀ t', c.live.threads t' = .idle → (s'.threads t').Holds → c.phase = .running := by
    intro t' hpc hholds
    have ht : t' = t := by
      apply hmover
      intro heq
      rw [heq, hpc] at hholds
      exact hholds
    rw [← ht, hpc] at hpermits
    exact hpermits
  refine ⟨?_, ?_, fun hphase => h.flush.active_step hstep (h.running hphase), ?_⟩
  · refine h.flush.step (stable_nobody crc) hstep ?_ ?_ ?_
    · intro t' p rest hpc hpc'
      apply h.running
      apply hidle t' hpc
      rw [hpc']
      trivial
    · exact fun _ r _ _ hunsynced => not_unsynced h.durable r.ticket hunsynced
    · intro t' r why hpc hpc' hnone
      have ht : t' = t := by
        apply hmover
        rw [hpc, hpc']
        intro heq
        cases heq
      subst ht
      exact hfind r why hpc hnone
  · rw [h.flush.opts_step hstep]
    exact h.durable
  · intro hphase
    rcases lock_step hstep (h.free hphase) with hlock | ⟨t', hpc, hholds⟩
    · exact hlock
    · exact absurd (hidle t' hpc hholds) hphase

/-- An fsync of a closed file fails. -/
theorem CloseInv.failed (h : CloseInv crc mayFail c) {r : Pending} {why : Purpose} {sg : Segment}
    {f : Flush} (hpc : c.live.threads t = .flushing r why sg f) (e : LogErr) :
    CloseInv crc mayFail { c with live := c.live.move t (.flushed r why (.error e)) } := by
  have hr := h.flush.threads t
  rw [hpc] at hr
  refine ⟨?_, h.durable, h.running, h.free⟩
  exact h.flush.move (stable_nobody crc) (not_holds hpc id) id
    ⟨hr.1, hr.2.1, by intro ho; cases ho⟩

/-- Forgetting the segments. -/
theorem CloseInv.forget (h : CloseInv crc mayFail c) (hphase : c.phase = .closing []) :
    CloseInv crc mayFail
      { c with
        live := { c.live with mem := { c.live.mem with segments := [] } }
        phase := .closed } := by
  have hstarted : c.phase ≠ .running := by
    rw [hphase]
    intro heq
    cases heq
  refine ⟨⟨h.flush.policy, h.flush.seq, h.flush.claims, h.flush.written, ?_, h.flush.backed,
    h.flush.threads, h.flush.lock, ?_, h.flush.syncing⟩, h.durable, ?_, fun _ => h.free hstarted⟩
  · intro sg hactive
    cases hactive
  · intro t p rest hpc
    have hholds := holds_of_pc hpc trivial
    exact absurd hholds (h.outside hstarted t)
  · intro heq
    cases heq

/-- Every step keeps the invariant. -/
theorem CloseInv.step (h : CloseInv crc mayFail c)
    (hstep : CloseStep crc mayFail NothingToSync c c') : CloseInv crc mayFail c' := by
  cases hstep with
  | step hstep hmoved hpermits hfind =>
      exact h.live_step hstep hmoved hpermits hfind
  | lockClose hphase hlock =>
      exact ⟨h.flush, h.durable, (by intro heq; cases heq), fun _ => hlock⟩
  | closeFile hphase =>
      refine ⟨h.flush, h.durable, (by intro heq; cases heq), fun _ => h.free ?_⟩
      rw [hphase]
      intro heq
      cases heq
  | unlockClose hphase => exact h.forget hphase
  | syncClosed hpc hshut | syncIndexClosed hpc hshut => exact h.failed hpc _
  | appendClosed hpc hphase hlock =>
      exact ⟨h.flush, h.durable, (by intro heq; cases heq), fun _ => hlock⟩

/-- The invariant holds in every state of every run. -/
theorem closeInv_of_run {d : Dir Path} {opts : Options} {l : Log} {w : World}
    (hfound : Backed [] d) (hdurable : opts.sync.durable = true)
    (hopen : Ends (LogOp.Outcome mayFail) (openLog crc opts) ⟨d, Coord.new⟩ (.ok l) w)
    (hrun : CloseRun crc mayFail NothingToSync (Closable.start l w) c) :
    CloseInv crc mayFail c := by
  induction hrun with
  | refl =>
      obtain ⟨hflush, hpolicy, hactive⟩ := liveInv_iff.1 (LiveInv.start hfound hdurable hopen)
      exact ⟨hflush, hpolicy, fun _ => hactive, fun h => absurd rfl h⟩
  | tail _ hstep ih => exact ih.step hstep

end Preservation

section Main

variable {crc : Checksum} {mayFail : FsOp Path → Prop}

/-- A step that moves one thread. -/
theorem closeStep_of_update {mayFind : Live → Pending → Purpose → Prop} {c : Closable}
    {t : ThreadId} {pc : Pc} {s' : Live} (hstep : LiveStep crc mayFail c.live s')
    (hmoved : s'.threads = Function.update c.live.threads t pc)
    (hpermits : c.Permits (c.live.threads t))
    (hfind : ∀ r why, c.live.threads t = .capturing r why → c.live.mem.active = none →
      mayFind c.live r why) :
    CloseStep crc mayFail mayFind c { c with live := s' } := by
  refine .step hstep ?_ hpermits hfind
  intro t' ht
  rw [hmoved, Function.update_of_ne ht]

variable {c : Closable} {t : ThreadId} {mayFind : Live → Pending → Purpose → Prop}

/-- A sync that finds the log closed is followed by an acknowledgement, and nothing has become
durable meanwhile. -/
theorem hollow_sync_acknowledges {r : Pending} {why : Purpose} (hphase : c.phase = .closed)
    (hlock : c.live.lock = none) (hnone : c.live.mem.active = none)
    (hpc : c.live.threads t = .capturing r why)
    (hspeaks : ∀ target, why = .group target → r.ticket.seq ≤ target) :
    ∃ c', CloseRun crc mayFail (fun _ _ _ => True) c c' ∧
      c'.live.threads t = .returned r (.ok r.ticket.offset) ∧
      c'.live.fsyncs = c.live.fsyncs ∧ c'.live.world.dir = c.live.world.dir := by
  have hpermits : c.Permits (c.live.threads t) := by
    rw [hpc]
    exact Or.inr hphase
  have hfound : CloseStep crc mayFail (fun _ _ _ => True) c
      { c with live := c.live.move t (.flushed r why (.ok ())) } :=
    closeStep_of_update (.captureNone hpc hlock hnone) rfl hpermits fun _ _ _ _ => trivial
  have hflushed : (c.live.move t (.flushed r why (.ok ()))).threads t = .flushed r why (.ok ()) :=
    Function.update_self ..
  have hpermits' : Closable.Permits { c with live := c.live.move t (.flushed r why (.ok ())) }
      ((c.live.move t (.flushed r why (.ok ()))).threads t) := by
    rw [hflushed]
    trivial
  cases why with
  | alone =>
      refine ⟨_, (Relation.ReflTransGen.single hfound).tail
        (closeStep_of_update (.returnAlone hflushed) rfl hpermits' fun _ _ _ _ => trivial), ?_, rfl,
        rfl⟩
      exact Function.update_self ..
  | group target =>
      have hle := hspeaks target rfl
      have hfinish : ∃ d, c.live.world.coord.finish t r.ticket.seq target (.ok ()) =
          (.durable, d) := by
        refine ⟨_, if_pos ?_⟩
        exact le_trans hle (le_max_right _ _)
      obtain ⟨d, hfinish⟩ := hfinish
      refine ⟨_, (Relation.ReflTransGen.single hfound).tail
        (closeStep_of_update (.finish hflushed hfinish) rfl hpermits' fun _ _ _ _ => trivial), ?_,
        rfl, rfl⟩
      exact Function.update_self ..

/-- Open a log in any directory with a durable policy, let any number of threads append and sync
and one of them close the log, in any order, and let any file operation fail.  As long as every
sync that finds the log closed speaks for records that are covered already, an `Append` that has
returned success has its record covered by an fsync. -/
theorem closed_acknowledged_backed {names : List Path} {content : Path → Bytes} {opts : Options}
    {l : Log} {w : World} {c : Closable} {t : ThreadId} {r : Pending} {offset : Nat}
    (hdurable : opts.sync = .always ∨ opts.sync = .group)
    (hopen : Ends (LogOp.Outcome mayFail) (openLog crc opts)
      ⟨Dir.found names content, Coord.new⟩ (.ok l) w)
    (hrun : CloseRun crc mayFail NothingToSync (Closable.start l w) c)
    (hreturned : c.live.threads t = .returned r (.ok offset)) :
    (∃ i off, i + 1 = r.place.upTo ∧
      (c.live.world.dir.file r.place.path).writes[i]? = some ⟨off, recordBytes crc r.payload⟩) ∧
    ∃ n, Place.mk r.place.path n ∈ c.live.fsyncs ∧ r.place.upTo ≤ n := by
  have hpolicy : opts.sync.durable = true := by
    rcases hdurable with h | h
    · rw [h]
      rfl
    · rw [h]
      rfl
  have hinv := closeInv_of_run (fun _ => Or.inl rfl) hpolicy hopen hrun
  have hr := hinv.flush.threads t
  rw [hreturned] at hr
  obtain ⟨howns, hcovered⟩ := hr
  obtain ⟨i, off, hi, hwrite⟩ := howns.written
  have hle : r.place.upTo ≤ (c.live.world.dir.file r.place.path).synced :=
    (hcovered offset rfl).2.resolve_right id
  refine ⟨⟨i, off, hi.symm, hwrite⟩, _, ?_, hle⟩
  exact (hinv.flush.backed r.place.path).resolve_left (by omega)

/-- An empty log under `SyncAlways`, as `Open` returns it. -/
def emptyAlwaysLog : Log :=
  ⟨⟨4096, .always, 100⟩, [⟨.segment 0, ⟨.index 0, []⟩, 0, 0, 16, 16⟩], 0, 0⟩

/-- The directory after `Open` of an empty one. -/
def openedWorld : World :=
  (run LogOp.exec (openLog crc32c ⟨4096, .always, 0⟩) ⟨Dir.found [] fun _ => [], Coord.new⟩).2

theorem opened_emptyAlwaysLog (mayFail : FsOp Path → Prop) :
    Ends (LogOp.Outcome mayFail) (openLog crc32c ⟨4096, .always, 0⟩)
      ⟨Dir.found [] fun _ => [], Coord.new⟩ (.ok emptyAlwaysLog) openedWorld :=
  opened_empty (by decide +kernel)

/-- Whether a thread can go on beside `Close`; `find` stands for what it finds without a
segment. -/
def Closable.allows (c : Closable) (find : Live → Pending → Purpose → Bool) (s : Live)
    (t : ThreadId) (_ : Live) : Bool :=
  match s.threads t with
  | .idle => c.phase = .running
  | .capturing r why =>
      (c.phase = .running ∨ c.phase = .closed) ∧ (s.mem.active.isSome ∨ find s r why)
  | .flushing _ _ sg .captured => sg.file ∉ c.shut
  | .flushing _ _ sg .synced => sg.index.file ∉ c.shut
  | _ => true

theorem Closable.allows_sound {find : Live → Pending → Purpose → Bool} {s s' : Live}
    (h : c.allows find s t s' = true) :
    Closable.Permits { c with live := s } (s.threads t) ∧
      ∀ r why, s.threads t = .capturing r why → s.mem.active = none → find s r why = true := by
  unfold Closable.allows at h
  split at h
  · rename_i hpc
    rw [hpc]
    exact ⟨(of_decide_eq_true h : c.phase = .running), by intro r why heq; cases heq⟩
  · rename_i hpc
    rw [hpc]
    obtain ⟨hphase, hfind⟩ := of_decide_eq_true h
    refine ⟨hphase, ?_⟩
    rintro r why ⟨⟩ hnone
    rw [hnone] at hfind
    exact hfind.resolve_left (by decide)
  · rename_i r why sg hpc
    rw [hpc]
    exact ⟨(of_decide_eq_true h : sg.file ∉ c.shut), by intro r why heq; cases heq⟩
  · rename_i r why sg hpc
    rw [hpc]
    exact ⟨(of_decide_eq_true h : sg.index.file ∉ c.shut), by intro r why heq; cases heq⟩
  · rename_i hidle hcapturing hcaptured hsynced
    refine ⟨?_, fun r why heq => absurd heq (hcapturing r why)⟩
    unfold Closable.Permits
    split <;> simp_all

/-- The threads go on while `Close` does nothing. -/
theorem closeRun_play {mayFind : Live → Pending → Purpose → Prop}
    {find : Live → Pending → Purpose → Bool}
    (hfind : ∀ s r why, find s r why = true → mayFind s r why) (c : Closable)
    (ms : List ThreadMove) :
    CloseRun crc mayFail mayFind c { c with live := c.live.play crc (c.allows find) ms } := by
  refine @play_induction crc mayFail _ _ (fun s => CloseRun crc mayFail mayFind c
    { c with live := s }) ?_ .refl ms
  rintro s t s' h hstep ⟨pc, hmoved⟩ hallows
  obtain ⟨hpermits, hfound⟩ := Closable.allows_sound hallows
  exact h.tail (closeStep_of_update (c := { c with live := s }) hstep hmoved hpermits
    fun r why hpc hnone => hfind s r why (hfound r why hpc hnone))

/-- The log once `Close` has returned. -/
def Closable.afterClose (c : Closable) : Closable :=
  ⟨{ c.live with mem := { c.live.mem with segments := [] } }, .closed,
    (c.live.mem.segments.flatMap fun sg => [sg.file, sg.index.file]).reverse ++ c.shut⟩

/-- `Close` with nothing in between. -/
theorem closeRun_close (hphase : c.phase = .running) (hlock : c.live.lock = none) :
    CloseRun crc mayFail mayFind c c.afterClose := by
  have hfiles : ∀ (files shut : List Path), CloseRun crc mayFail mayFind
      ⟨c.live, .closing files, shut⟩ ⟨c.live, .closing [], files.reverse ++ shut⟩ := by
    intro files
    induction files with
    | nil => exact fun _ => .refl
    | cons f files ih =>
        intro shut
        have hrest := ih (f :: shut)
        rw [List.append_cons, ← List.reverse_cons] at hrest
        exact .head (.closeFile rfl) hrest
  exact .head (.lockClose hphase hlock) ((hfiles _ c.shut).tail (.unlockClose rfl))

instance (why : Purpose) (r : Pending) (i : Nat) : Decidable (why.SpeaksFor r i) :=
  match why with
  | .alone => inferInstanceAs (Decidable (i + 1 = r.ticket.seq))
  | .group target => inferInstanceAs (Decidable (i < target))

/-- Whether every record that a sync on behalf of `r` speaks for is covered. -/
def nothingToSync (s : Live) (r : Pending) (why : Purpose) : Bool :=
  s.placed.zipIdx.all fun x => why.SpeaksFor r x.2 → Covered s.world.dir x.1

theorem nothingToSync_sound (s : Live) (r : Pending) (why : Purpose)
    (h : nothingToSync s r why = true) : NothingToSync s r why := by
  intro i pl hpl hspeaks
  rw [nothingToSync, List.all_eq_true] at h
  exact .inl (of_decide_eq_true (h (pl, i) (List.mem_zipIdx_iff_getElem?.2 hpl)) hspeaks)

/-- One append has written its record; another one has come after it and has returned. -/
def overtaken : Closable :=
  { Closable.start emptyAlwaysLog openedWorld with
    live := (Live.start emptyAlwaysLog openedWorld).play crc32c
      ((Closable.start emptyAlwaysLog openedWorld).allows nothingToSync)
      [.append 0 [1], .steps 0 3, .append 1 [2], .steps 1 9] }

/-- The log has been closed, and the first append goes on. -/
def overtakenClosed : Closable :=
  { overtaken.afterClose with
    live := overtaken.afterClose.live.play crc32c (overtaken.afterClose.allows nothingToSync)
      [.steps 0 3] }

/-- The first append finds the log closed, and its record covered by the fsync of the other. -/
theorem closed_acknowledged_backed_once :
    ∃ (r : Pending) (n : Nat), (overtaken.live.threads 0).pending? = some r ∧
      (overtaken.live.threads 0).acks? = none ∧ overtakenClosed.phase = .closed ∧
      overtakenClosed.live.threads 0 = .returned r (.ok 0) ∧
      Place.mk r.place.path n ∈ overtakenClosed.live.fsyncs ∧ r.place.upTo ≤ n := by
  have hbefore : CloseRun crc32c (fun _ => False) NothingToSync
      (Closable.start emptyAlwaysLog openedWorld) overtaken :=
    closeRun_play nothingToSync_sound _ _
  have hclosed := hbefore.trans (closeRun_close rfl (by decide +kernel))
  have hafter := hclosed.trans (closeRun_play nothingToSync_sound _ [.steps 0 3])
  have hreturned : (overtakenClosed.live.threads 0).acks? =
      some (⟨[1], ⟨0, 1, 1⟩, ⟨.segment 0, 2⟩⟩, 0) := by
    decide +kernel
  rw [Pc.acks?_eq_some_iff] at hreturned
  obtain ⟨-, n, hn, hle⟩ := closed_acknowledged_backed (.inl rfl) (opened_emptyAlwaysLog _) hafter
    hreturned
  exact ⟨_, n, by decide +kernel, by decide +kernel, rfl, hreturned, hn, hle⟩

/-- The record is written when the log is closed. -/
def closedBetween : Closable :=
  let c := Closable.start emptyAlwaysLog openedWorld
  let written : Closable :=
    { c with live := c.live.play crc32c (c.allows fun _ _ _ => true) [.append 0 [1], .steps 0 3] }
  { written.afterClose with
    live := written.afterClose.live.play crc32c (written.afterClose.allows fun _ _ _ => true)
      [.steps 0 3] }

/-- The log is closed between the write of a record and the sync: the append returns success, and
no fsync of any file has ever completed. -/
theorem closed_acknowledges_unsynced :
    ∃ (c : Closable) (r : Pending),
      CloseRun crc32c (fun _ => False) (fun _ _ _ => True)
        (Closable.start emptyAlwaysLog openedWorld) c ∧
      c.live.threads 0 = .returned r (.ok 0) ∧ r.payload = [1] ∧ c.live.fsyncs = [] := by
  have hreturned : (closedBetween.live.threads 0).acks? =
      some (⟨[1], ⟨0, 1, 1⟩, ⟨.segment 0, 2⟩⟩, 0) := by
    decide +kernel
  rw [Pc.acks?_eq_some_iff] at hreturned
  refine ⟨closedBetween, _, ?_, hreturned, rfl, by decide +kernel⟩
  have hwritten := @closeRun_play crc32c (fun _ => False) (fun _ _ _ => True) (fun _ _ _ => true)
    (fun _ _ _ _ => trivial) (Closable.start emptyAlwaysLog openedWorld)
    [.append 0 [1], .steps 0 3]
  exact (hwritten.trans (closeRun_close rfl (by decide +kernel))).trans
    (closeRun_play (fun _ _ _ _ => trivial) _ [.steps 0 3])

end Main

end LedgerLine.Broker
