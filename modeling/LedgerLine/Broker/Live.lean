import LedgerLine.Broker.Landing

/-!
# Concurrent callers of one open log

Any number of threads call `Append` and `Log.Sync` on one log.  The log's mutex covers
everything up to the record being written; the fsync that follows runs with every lock
released, so writes land in the file while it is in flight, and the active segment may be
another one by the time it starts.

A thread is somewhere in its call (`Pc`), and a step of the system (`LiveStep`) is one
step of one thread: an operation under the mutex, one method of the coordinator, the
beginning or the end of an fsync.  Any file operation in `mayFail` may fail.

Three components of the state only keep a record of what has happened: `written` and
`placed` have the payload and the place of every record written since the log was opened,
and `fsyncs` every fsync that completed, with the number of writes the file had when the
fsync began.  The last is complete (`Backed`): what is counted as synced of a file is due
to an fsync in it.
-/

namespace LedgerLine.Broker

open Program

/-- What `Append` of `payload` knows once it has released the mutex. -/
structure Pending where
  payload : Bytes
  ticket : Log.Ticket
  place : Place
deriving DecidableEq, Repr

/-- Why a thread flushes: for its own record, or for everybody up to `target`. -/
inductive Purpose
  | alone
  | group (target : Nat)
deriving DecidableEq, Repr

/-- Where a call of `segment.sync` outside the mutex is. -/
inductive Flush
  /-- The segment has been picked. -/
  | captured
  /-- The fsync of the segment file began when the file had `n` writes. -/
  | syncing (n : Nat)
  /-- It has completed. -/
  | synced
  /-- The fsync of the index file began when that file had `n` writes. -/
  | syncingIndex (n : Nat)
deriving DecidableEq, Repr

/-- Where a thread is. -/
inductive Pc
  | idle
  /-- In `Append`, holding the mutex, with `rest` still to do there. -/
  | appending (payload : Bytes) (rest : LogProgram (Log × Except LogErr Log.Ticket))
  /-- In `Log.Sync`, holding the mutex. -/
  | syncingAll (rest : LogProgram (Except LogErr Unit))
  /-- The record is written and the mutex released. -/
  | unlocked (r : Pending)
  /-- In `syncActive`, about to pick the active segment. -/
  | capturing (r : Pending) (why : Purpose)
  | flushing (r : Pending) (why : Purpose) (sg : Segment) (f : Flush)
  /-- `syncActive` has returned. -/
  | flushed (r : Pending) (why : Purpose) (outcome : Except LogErr Unit)
  /-- Blocked in `waitFor`. -/
  | waiting (r : Pending)
  /-- `Append` wrote its record and has returned. -/
  | returned (r : Pending) (outcome : Except LogErr Nat)
  /-- `Append` has returned an error without a record. -/
  | refused (e : LogErr)

/-- Whether the thread holds the log's mutex. -/
def Pc.Holds : Pc → Prop
  | .appending _ _ => True
  | .syncingAll _ => True
  | _ => False

/-- The append a thread is in the middle of, once its record is written. -/
def Pc.pending? : Pc → Option Pending
  | .unlocked r => some r
  | .capturing r _ => some r
  | .flushing r _ _ _ => some r
  | .flushed r _ _ => some r
  | .waiting r => some r
  | .returned r _ => some r
  | _ => none

/-- The thread is in `Append`, under the mutex. -/
def Pc.Appending (pc : Pc) : Prop :=
  ∃ p rest, pc = .appending p rest

/-- A log that is open and the threads that use it. -/
structure Live where
  world : World
  mem : Log
  lock : Option ThreadId
  threads : ThreadId → Pc
  written : List Bytes
  placed : List Place
  fsyncs : List Place

namespace Live

/-- `Open` has just returned. -/
def start (l : Log) (w : World) : Live :=
  ⟨w, l, none, fun _ => .idle, [], [], []⟩

/-- Thread `t` moves on. -/
def move (s : Live) (t : ThreadId) (pc : Pc) : Live :=
  { s with threads := Function.update s.threads t pc }

/-- Thread `t` goes on with the coordinator in state `c`. -/
def coordinate (s : Live) (t : ThreadId) (pc : Pc) (c : Coord) : Live :=
  { s.move t pc with world := { s.world with coord := c } }

/-- Thread `t` completes an fsync of `path` that began when the file had `n` writes. -/
def complete (s : Live) (t : ThreadId) (pc : Pc) (path : Path) (n : Nat) : Live :=
  { s.move t pc with
    world :=
      { s.world with dir := s.world.dir.set path ((s.world.dir.file path).syncTo n) }
    fsyncs := s.fsyncs ++ [⟨path, n⟩] }

end Live

/-- Where a round of `waitFor` leaves a thread. -/
def Pending.afterWait (r : Pending) : WaitStep → Pc
  | .durable => .returned r (.ok r.ticket.offset)
  | .failed e => .returned r (.error e)
  | .blocked => .waiting r
  | .flush target => .capturing r (.group target)

theorem not_appending {pc : Pc} (h : ¬ pc.Holds) : ¬ pc.Appending := by
  rintro ⟨p, rest, rfl⟩
  exact h trivial

theorem holds_of_pc {s : Live} {t : ThreadId} {pc : Pc} (hpc : s.threads t = pc) (h : pc.Holds) :
    (s.threads t).Holds := by
  rw [hpc]
  exact h

section Mutex

variable {s : Live} {t t' : ThreadId} (h : ∀ t, (s.threads t).Holds ↔ s.lock = some t)

include h

/-- With the mutex free nobody is in the critical section. -/
theorem not_appending_of_free (hlock : s.lock = none) (t : ThreadId) :
    ¬ (s.threads t).Appending := by
  rintro ⟨p, rest, hpc⟩
  have hheld := (h t).mp (holds_of_pc hpc trivial)
  rw [hlock] at hheld
  cases hheld

/-- Only the holder of the mutex is in the critical section. -/
theorem appending_eq_of_holds (ht : (s.threads t).Holds) (ht' : (s.threads t').Appending) :
    t' = t := by
  obtain ⟨p, rest, hpc⟩ := ht'
  have hheld := (h t').mp (holds_of_pc hpc trivial)
  exact Option.some.inj (hheld.symm.trans ((h t).mp ht))

end Mutex

/-- Who is in the critical section after a move that does not lead there was there before. -/
theorem appending_of_update {s : Live} {t t' : ThreadId} {pc : Pc} {p : Bytes}
    {rest : LogProgram (Log × Except LogErr Log.Ticket)} (hafter : ¬ pc.Appending)
    (h : Function.update s.threads t pc t' = .appending p rest) :
    t' ≠ t ∧ s.threads t' = .appending p rest := by
  by_cases ht : t' = t
  · rw [ht, Function.update_self] at h
    exact absurd ⟨p, rest, h⟩ hafter
  · rw [Function.update_of_ne ht] at h
    exact ⟨ht, h⟩

theorem not_appending_sync {rest : LogProgram (Except LogErr Unit)} :
    ¬ (Pc.syncingAll rest).Appending := by
  rintro ⟨p, rest', heq⟩
  cases heq

theorem afterWait_pending {r r' : Pending} {step : WaitStep}
    (h : (r.afterWait step).pending? = some r') : r = r' := by
  cases step with
  | durable | failed e | blocked | flush target => exact Option.some.inj h

theorem afterWait_not_holds (r : Pending) (step : WaitStep) : ¬ (r.afterWait step).Holds := by
  cases step <;> exact id

/-- The fsync that an operation under the mutex completed, if it did. -/
def completed : (o : LogOp) → o.Resp → Dir Path → List Place
  | .fs (.fsync path), .ok _, d => [⟨path, (d.file path).writes.length⟩]
  | _, _, _ => []

section Steps

variable (crc : Checksum) (mayFail : FsOp Path → Prop)

/-- One step of one thread. -/
inductive LiveStep : Live → Live → Prop
  /-- `Append` takes the mutex. -/
  | lockAppend {s : Live} {t : ThreadId} (p : Bytes)
      (hpc : s.threads t = .idle) (hlock : s.lock = none) :
      LiveStep s
        { s.move t (.appending p (s.mem.appendLocked crc p)) with lock := some t }
  /-- One operation of `Append` under the mutex. -/
  | appendOp {s : Live} {t : ThreadId} {p : Bytes} {o : LogOp} {next} {r : o.Resp} {w : World}
      (hpc : s.threads t = .appending p (.call o next))
      (hout : LogOp.Outcome mayFail o s.world r w) :
      LiveStep s
        { s.move t (.appending p (next r)) with
          world := w
          fsyncs := s.fsyncs ++ completed o r s.world.dir }
  /-- `Append` fails and releases the mutex. -/
  | unlockRefused {s : Live} {t : ThreadId} {p : Bytes} {l : Log} {e : LogErr}
      (hpc : s.threads t = .appending p (.done (l, .error e))) :
      LiveStep s { s.move t (.refused e) with mem := l, lock := none }
  /-- `Append` has written the record into the active segment and releases the mutex. -/
  | unlock {s : Live} {t : ThreadId} {p : Bytes} {l : Log} {k : Log.Ticket} {sg : Segment}
      {pl : Place} (hpc : s.threads t = .appending p (.done (l, .ok k)))
      (hactive : l.active = some sg)
      (hplace : pl = ⟨sg.file, (s.world.dir.file sg.file).writes.length⟩) :
      LiveStep s
        { s.move t (.unlocked ⟨p, k, pl⟩) with
          mem := l
          lock := none
          written := s.written ++ [p]
          placed := s.placed ++ [pl] }
  /-- `Log.Sync` takes the mutex. -/
  | lockSync {s : Live} {t : ThreadId} (hpc : s.threads t = .idle) (hlock : s.lock = none) :
      LiveStep s
        { s.move t (.syncingAll (Log.syncAll s.mem.segments)) with lock := some t }
  /-- One operation of `Log.Sync`. -/
  | syncOp {s : Live} {t : ThreadId} {o : LogOp} {next} {r : o.Resp} {w : World}
      (hpc : s.threads t = .syncingAll (.call o next))
      (hout : LogOp.Outcome mayFail o s.world r w) :
      LiveStep s
        { s.move t (.syncingAll (next r)) with
          world := w
          fsyncs := s.fsyncs ++ completed o r s.world.dir }
  /-- `Log.Sync` releases the mutex and returns. -/
  | unlockSync {s : Live} {t : ThreadId} {outcome : Except LogErr Unit}
      (hpc : s.threads t = .syncingAll (.done outcome)) :
      LiveStep s { s.move t .idle with lock := none }
  /-- `SyncNever`, and `SyncEveryN` when no sync is due. -/
  | returnUnsynced {s : Live} {t : ThreadId} {r : Pending} (hpc : s.threads t = .unlocked r)
      (hpolicy : s.mem.opts.sync = .never ∨ s.mem.opts.sync = .everyN ∧
        (r.ticket.sinceSync : Int) < s.mem.opts.syncEveryNRecords) :
      LiveStep s (s.move t (.returned r (.ok r.ticket.offset)))
  /-- `SyncAlways`, and `SyncEveryN` when a sync is due. -/
  | flushAlone {s : Live} {t : ThreadId} {r : Pending} (hpc : s.threads t = .unlocked r)
      (hpolicy : s.mem.opts.sync = .always ∨ s.mem.opts.sync = .everyN ∧
        (r.ticket.sinceSync : Int) ≥ s.mem.opts.syncEveryNRecords) :
      LiveStep s (s.move t (.capturing r .alone))
  /-- `SyncGroup`: `waitFor` up to where it first releases the coordinator's mutex. -/
  | enter {s : Live} {t : ThreadId} {r : Pending} {step : WaitStep} {c : Coord}
      (hpc : s.threads t = .unlocked r) (hpolicy : s.mem.opts.sync = .group)
      (hstep : s.world.coord.enter t r.ticket.seq = (step, c)) :
      LiveStep s (s.coordinate t (r.afterWait step) c)
  /-- A blocked thread is woken and looks again. -/
  | wake {s : Live} {t : ThreadId} {r : Pending} {step : WaitStep} {c : Coord}
      (hpc : s.threads t = .waiting r) (hnotified : t ∈ s.world.coord.notified)
      (hstep : s.world.coord.wake t r.ticket.seq = (step, c)) :
      LiveStep s (s.coordinate t (r.afterWait step) c)
  /-- `syncActive` picks the active segment, under the read lock. -/
  | capture {s : Live} {t : ThreadId} {r : Pending} {why : Purpose} {sg : Segment}
      (hpc : s.threads t = .capturing r why) (hlock : s.lock = none)
      (hactive : s.mem.active = some sg) :
      LiveStep s (s.move t (.flushing r why sg .captured))
  /-- `syncActive` of a log without segments. -/
  | captureNone {s : Live} {t : ThreadId} {r : Pending} {why : Purpose}
      (hpc : s.threads t = .capturing r why) (hlock : s.lock = none)
      (hactive : s.mem.active = none) :
      LiveStep s (s.move t (.flushed r why (.ok ())))
  /-- The fsync of the segment file begins. -/
  | beginSync {s : Live} {t : ThreadId} {r : Pending} {why : Purpose} {sg : Segment}
      (hpc : s.threads t = .flushing r why sg .captured) :
      LiveStep s
        (s.move t (.flushing r why sg (.syncing (s.world.dir.file sg.file).writes.length)))
  | endSync {s : Live} {t : ThreadId} {r : Pending} {why : Purpose} {sg : Segment} {n : Nat}
      (hpc : s.threads t = .flushing r why sg (.syncing n)) :
      LiveStep s (s.complete t (.flushing r why sg .synced) sg.file n)
  | failSync {s : Live} {t : ThreadId} {r : Pending} {why : Purpose} {sg : Segment} {n : Nat}
      (hpc : s.threads t = .flushing r why sg (.syncing n)) (hfail : mayFail (.fsync sg.file)) :
      LiveStep s (s.move t (.flushed r why (.error (.io .io))))
  /-- The fsync of the index file begins. -/
  | beginIndex {s : Live} {t : ThreadId} {r : Pending} {why : Purpose} {sg : Segment}
      (hpc : s.threads t = .flushing r why sg .synced) :
      LiveStep s (s.move t
        (.flushing r why sg (.syncingIndex (s.world.dir.file sg.index.file).writes.length)))
  | endIndex {s : Live} {t : ThreadId} {r : Pending} {why : Purpose} {sg : Segment} {n : Nat}
      (hpc : s.threads t = .flushing r why sg (.syncingIndex n)) :
      LiveStep s (s.complete t (.flushed r why (.ok ())) sg.index.file n)
  | failIndex {s : Live} {t : ThreadId} {r : Pending} {why : Purpose} {sg : Segment} {n : Nat}
      (hpc : s.threads t = .flushing r why sg (.syncingIndex n))
      (hfail : mayFail (.fsync sg.index.file)) :
      LiveStep s (s.move t (.flushed r why (.error (.io .io))))
  /-- `Append` that flushed for itself returns. -/
  | returnAlone {s : Live} {t : ThreadId} {r : Pending} {outcome : Except LogErr Unit}
      (hpc : s.threads t = .flushed r .alone outcome) :
      LiveStep s (s.move t (.returned r (outcome.map fun _ => r.ticket.offset)))
  /-- The thread that flushed for everybody reports to the coordinator. -/
  | finish {s : Live} {t : ThreadId} {r : Pending} {target : Nat}
      {outcome : Except LogErr Unit} {step : WaitStep} {c : Coord}
      (hpc : s.threads t = .flushed r (.group target) outcome)
      (hstep : s.world.coord.finish t r.ticket.seq target outcome = (step, c)) :
      LiveStep s (s.coordinate t (r.afterWait step) c)
  /-- The caller goes on to its next call. -/
  | again {s : Live} {t : ThreadId} {r : Pending} {outcome : Except LogErr Nat}
      (hpc : s.threads t = .returned r outcome) : LiveStep s (s.move t .idle)
  | againRefused {s : Live} {t : ThreadId} {e : LogErr} (hpc : s.threads t = .refused e) :
      LiveStep s (s.move t .idle)

/-- Any number of steps. -/
def LiveRun : Live → Live → Prop :=
  Relation.ReflTransGen (LiveStep crc mayFail)

end Steps

/-- What the fsyncs counted for a file cover is due to one that completed. -/
def Backed (fsyncs : List Place) (d : Dir Path) : Prop :=
  ∀ p, (d.file p).synced = 0 ∨ ⟨p, (d.file p).synced⟩ ∈ fsyncs

section Backed

variable {fsyncs : List Place} {d : Dir Path} {path : Path}

theorem Backed.mono {fsyncs' : List Place} (h : Backed fsyncs d) (hsub : fsyncs ⊆ fsyncs') :
    Backed fsyncs' d :=
  fun p => (h p).imp_right fun hmem => hsub hmem

/-- Changing the contents of a file syncs nothing. -/
theorem Backed.set (h : Backed fsyncs d) (f : File) (hf : f.synced = (d.file path).synced) :
    Backed fsyncs (d.set path f) := by
  intro p
  by_cases hp : p = path
  · subst hp
    rw [Dir.set_file_self, hf]
    exact h p
  · rw [Dir.set_file_ne d f hp]
    exact h p

theorem Backed.create (h : Backed fsyncs d) : Backed fsyncs (d.create path) := by
  intro p
  by_cases hp : p = path
  · subst hp
    rw [Dir.create_file_self]
    exact Or.inl rfl
  · rw [Dir.create_file_ne d hp]
    exact h p

/-- An fsync that completes is on record. -/
theorem Backed.syncTo (h : Backed fsyncs d) (n : Nat) :
    Backed (fsyncs ++ [⟨path, n⟩]) (d.set path ((d.file path).syncTo n)) := by
  intro p
  by_cases hp : p = path
  · subst hp
    rw [Dir.set_file_self]
    simp only [File.syncTo, List.mem_append, List.mem_singleton, Place.mk.injEq, true_and]
    rcases le_total (d.file p).synced n with hle | hle
    · rw [max_eq_right hle]
      exact Or.inr (Or.inr rfl)
    · rw [max_eq_left hle]
      exact (h p).imp_right Or.inl
  · rw [Dir.set_file_ne d _ hp]
    exact (h p).imp_right (List.mem_append_left _)

theorem synced_truncate (f : File) (n : Nat) : (f.truncate n).synced = f.synced := by
  unfold File.truncate
  split_ifs
  · rfl
  · rfl

/-- Whatever an operation does, the record of fsyncs stays complete. -/
theorem Backed.outcome {mayFail : FsOp Path → Prop} {o : LogOp} {r : o.Resp} {w w' : World}
    (h : Backed fsyncs w.dir) (hout : LogOp.Outcome mayFail o w r w') :
    Backed (fsyncs ++ completed o r w.dir) w'.dir := by
  cases hout with
  | coord o =>
      exact h.mono (List.subset_append_left _ _)
  | @fs o _ _ _ hfs =>
      cases hfs with
      | success =>
          cases o with
          | createExcl p =>
              simp only [FsOp.exec]
              split_ifs
              · exact h.mono (List.subset_append_left _ _)
              · exact h.create.mono (List.subset_append_left _ _)
          | openCreate p =>
              simp only [FsOp.exec, Dir.touch]
              split_ifs
              · exact h.mono (List.subset_append_left _ _)
              · exact h.create.mono (List.subset_append_left _ _)
          | openExisting p =>
              simp only [FsOp.exec]
              split_ifs
              · exact h.mono (List.subset_append_left _ _)
              · exact h.mono (List.subset_append_left _ _)
          | writeAt p off bs =>
              exact (h.set ((w.dir.file p).write off bs) rfl).mono (List.subset_append_left _ _)
          | truncate p n =>
              exact (h.set _ (synced_truncate _ n)).mono (List.subset_append_left _ _)
          | fsync p => exact h.syncTo _
          | _ =>
              exact h.mono (List.subset_append_left _ _)
      | failure j hfail =>
          cases o with
          | writeAt p off bs =>
              exact (h.set ((w.dir.file p).write off (bs.take j)) rfl).mono
                (List.subset_append_left _ _)
          | _ =>
              exact h.mono (List.subset_append_left _ _)

end Backed

end LedgerLine.Broker
