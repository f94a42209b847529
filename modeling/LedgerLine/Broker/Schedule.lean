import LedgerLine.Broker.Live

/-!
# Schedules of threads

A schedule says which thread begins a call, or takes its next steps.  `Live.play` carries it out
with no operation failing: a thread that is blocked, or a step that does not pass `check`, is
passed over.  `play_induction`: what every step keeps holds at the end of a schedule.
-/

namespace LedgerLine.Broker

/-- What a schedule has a thread do. -/
inductive ThreadMove
  | append (t : ThreadId) (p : Bytes)
  | sync (t : ThreadId)
  /-- So many steps of the call it is in. -/
  | steps (t : ThreadId) (count : Nat)

/-- The record and its offset, for an append that has returned success. -/
def Pc.acks? : Pc → Option (Pending × Nat)
  | .returned r (.ok k) => some (r, k)
  | _ => none

theorem Pc.acks?_eq_some_iff {pc : Pc} {r : Pending} {k : Nat} :
    pc.acks? = some (r, k) ↔ pc = .returned r (.ok k) := by
  constructor
  · intro h
    unfold Pc.acks? at h
    split at h
    · cases h
      rfl
    · cases h
  · rintro rfl
    rfl

namespace Live

variable (crc : Checksum)

/-- The next step of the call that thread `t` is in. -/
def next (s : Live) (t : ThreadId) : Live :=
  match s.threads t with
  | .appending p (.call o next) =>
      { s.move t (.appending p (next (o.exec s.world).1)) with
        world := (o.exec s.world).2
        fsyncs := s.fsyncs ++ completed o (o.exec s.world).1 s.world.dir }
  | .appending _ (.done (l, .error e)) =>
      { s.move t (.refused e) with mem := l, lock := none }
  | .appending p (.done (l, .ok k)) =>
      match l.active with
      | none => s
      | some sg =>
          let pl : Place := ⟨sg.file, (s.world.dir.file sg.file).writes.length⟩
          { s.move t (.unlocked ⟨p, k, pl⟩) with
            mem := l
            lock := none
            written := s.written ++ [p]
            placed := s.placed ++ [pl] }
  | .syncingAll (.call o next) =>
      { s.move t (.syncingAll (next (o.exec s.world).1)) with
        world := (o.exec s.world).2
        fsyncs := s.fsyncs ++ completed o (o.exec s.world).1 s.world.dir }
  | .syncingAll (.done _) => { s.move t .idle with lock := none }
  | .unlocked r =>
      match s.mem.opts.sync with
      | .never => s.move t (.returned r (.ok r.ticket.offset))
      | .everyN =>
          if (r.ticket.sinceSync : Int) < s.mem.opts.syncEveryNRecords then
            s.move t (.returned r (.ok r.ticket.offset))
          else
            s.move t (.capturing r .alone)
      | .always => s.move t (.capturing r .alone)
      | .group =>
          s.coordinate t (r.afterWait (s.world.coord.enter t r.ticket.seq).1)
            (s.world.coord.enter t r.ticket.seq).2
  | .waiting r =>
      if t ∈ s.world.coord.notified then
        s.coordinate t (r.afterWait (s.world.coord.wake t r.ticket.seq).1)
          (s.world.coord.wake t r.ticket.seq).2
      else
        s
  | .capturing r why =>
      match s.lock, s.mem.active with
      | none, some sg => s.move t (.flushing r why sg .captured)
      | none, none => s.move t (.flushed r why (.ok ()))
      | some _, _ => s
  | .flushing r why sg .captured =>
      s.move t (.flushing r why sg (.syncing (s.world.dir.file sg.file).writes.length))
  | .flushing r why sg (.syncing n) => s.complete t (.flushing r why sg .synced) sg.file n
  | .flushing r why sg .synced =>
      s.move t (.flushing r why sg
        (.syncingIndex (s.world.dir.file sg.index.file).writes.length))
  | .flushing r why sg (.syncingIndex n) => s.complete t (.flushed r why (.ok ())) sg.index.file n
  | .flushed r .alone outcome =>
      s.move t (.returned r (outcome.map fun _ => r.ticket.offset))
  | .flushed r (.group target) outcome =>
      s.coordinate t (r.afterWait (s.world.coord.finish t r.ticket.seq target outcome).1)
        (s.world.coord.finish t r.ticket.seq target outcome).2
  | .returned _ _ => s.move t .idle
  | .refused _ => s.move t .idle
  | .idle => s

/-- A call begins as soon as the mutex is free. -/
def begin (s : Live) (t : ThreadId) (pc : Pc) : Live :=
  match s.threads t, s.lock with
  | .idle, none => { s.move t pc with lock := some t }
  | _, _ => s

variable (check : Live → ThreadId → Live → Bool)

/-- A step that passes the check. -/
def guarded (s : Live) (t : ThreadId) (s' : Live) : Live :=
  if check s t s' then s' else s

/-- So many steps of thread `t`. -/
def steps (s : Live) (t : ThreadId) : Nat → Live
  | 0 => s
  | count + 1 => (s.guarded check t (s.next t)).steps t count

/-- One move. -/
def perform (s : Live) : ThreadMove → Live
  | .append t p => s.guarded check t (s.begin t (.appending p (s.mem.appendLocked crc p)))
  | .sync t => s.guarded check t (s.begin t (.syncingAll (Log.syncAll s.mem.segments)))
  | .steps t count => s.steps check t count

/-- All moves of a schedule. -/
def play (s : Live) (ms : List ThreadMove) : Live :=
  ms.foldl (perform crc check) s

end Live

section Sound

variable {crc : Checksum} {mayFail : FsOp Path → Prop}
  {check : Live → ThreadId → Live → Bool} {s s' : Live} {t : ThreadId}

/-- A step of thread `t`, or none. -/
def Moves (crc : Checksum) (mayFail : FsOp Path → Prop) (s : Live) (t : ThreadId)
    (s' : Live) : Prop :=
  s' = s ∨ LiveStep crc mayFail s s' ∧ ∃ pc, s'.threads = Function.update s.threads t pc

theorem moves_next (s : Live) (t : ThreadId) : Moves crc mayFail s t (s.next t) := by
  unfold Live.next
  split
  · rename_i hpc
    exact .inr ⟨.appendOp hpc (LogOp.outcome_exec _ _ _), _, rfl⟩
  · rename_i hpc
    exact .inr ⟨.unlockRefused hpc, _, rfl⟩
  · rename_i hpc
    split
    · exact .inl rfl
    · rename_i hactive
      exact .inr ⟨.unlock hpc hactive rfl, _, rfl⟩
  · rename_i hpc
    exact .inr ⟨.syncOp hpc (LogOp.outcome_exec _ _ _), _, rfl⟩
  · rename_i hpc
    exact .inr ⟨.unlockSync hpc, _, rfl⟩
  · rename_i hpc
    split
    · rename_i hpolicy
      exact .inr ⟨.returnUnsynced hpc (.inl hpolicy), _, rfl⟩
    · rename_i hpolicy
      split_ifs with hsince
      · exact .inr ⟨.returnUnsynced hpc (.inr ⟨hpolicy, hsince⟩), _, rfl⟩
      · exact .inr ⟨.flushAlone hpc (.inr ⟨hpolicy, not_lt.1 hsince⟩), _, rfl⟩
    · rename_i hpolicy
      exact .inr ⟨.flushAlone hpc (.inl hpolicy), _, rfl⟩
    · rename_i hpolicy
      exact .inr ⟨.enter hpc hpolicy rfl, _, rfl⟩
  · rename_i hpc
    split_ifs with hnotified
    · exact .inr ⟨.wake hpc hnotified rfl, _, rfl⟩
    · exact .inl rfl
  · rename_i hpc
    split
    · rename_i hlock hactive
      exact .inr ⟨.capture hpc hlock hactive, _, rfl⟩
    · rename_i hlock hactive
      exact .inr ⟨.captureNone hpc hlock hactive, _, rfl⟩
    · exact .inl rfl
  · rename_i hpc
    exact .inr ⟨.beginSync hpc, _, rfl⟩
  · rename_i hpc
    exact .inr ⟨.endSync hpc, _, rfl⟩
  · rename_i hpc
    exact .inr ⟨.beginIndex hpc, _, rfl⟩
  · rename_i hpc
    exact .inr ⟨.endIndex hpc, _, rfl⟩
  · rename_i hpc
    exact .inr ⟨.returnAlone hpc, _, rfl⟩
  · rename_i hpc
    exact .inr ⟨.finish hpc rfl, _, rfl⟩
  · rename_i hpc
    exact .inr ⟨.again hpc, _, rfl⟩
  · rename_i hpc
    exact .inr ⟨.againRefused hpc, _, rfl⟩
  · exact .inl rfl

theorem moves_begin {pc : Pc}
    (hstep : s.threads t = .idle → s.lock = none →
      LiveStep crc mayFail s { s.move t pc with lock := some t }) :
    Moves crc mayFail s t (s.begin t pc) := by
  unfold Live.begin
  split
  · rename_i hpc hlock
    exact .inr ⟨hstep hpc hlock, _, rfl⟩
  · exact .inl rfl

/-- What every step that passes the check keeps holds at the end of a schedule. -/
theorem play_induction {P : Live → Prop}
    (hkeep : ∀ s t s', P s → LiveStep crc mayFail s s' →
      (∃ pc, s'.threads = Function.update s.threads t pc) → check s t s' = true → P s')
    (h : P s) (ms : List ThreadMove) : P (s.play crc check ms) := by
  have hguarded : ∀ s t s', P s → Moves crc mayFail s t s' → P (s.guarded check t s') := by
    intro s t s' h hmoves
    unfold Live.guarded
    split_ifs with hcheck
    · rcases hmoves with rfl | ⟨hstep, hthreads⟩
      · exact h
      · exact hkeep s t s' h hstep hthreads hcheck
    · exact h
  have hsteps : ∀ t count s, P s → P (s.steps check t count) := by
    intro t count
    induction count with
    | zero => exact fun _ h => h
    | succ count ih =>
        exact fun s h => ih _ (hguarded s t _ h (moves_next s t))
  induction ms generalizing s with
  | nil => exact h
  | cons m ms ih =>
      refine ih ?_
      cases m with
      | append t p =>
          exact hguarded s t _ h (moves_begin fun hpc hlock => .lockAppend p hpc hlock)
      | sync t =>
          exact hguarded s t _ h (moves_begin fun hpc hlock => .lockSync hpc hlock)
      | steps t count => exact hsteps t count s h

/-- A schedule without a check is a run. -/
theorem liveRun_play (s : Live) (ms : List ThreadMove) :
    LiveRun crc mayFail s (s.play crc (fun _ _ _ => true) ms) :=
  play_induction (P := LiveRun crc mayFail s) (fun _ _ _ h hstep _ _ => h.tail hstep) .refl ms

/-- `Open` in an empty directory, with nothing failing. -/
theorem opened_empty {opts : Options} {l : Log}
    (hl : (Program.run LogOp.exec (openLog crc opts) ⟨Dir.found [] fun _ => [], Coord.new⟩).1 =
      .ok l) :
    Program.Ends (LogOp.Outcome mayFail) (openLog crc opts) ⟨Dir.found [] fun _ => [], Coord.new⟩
      (.ok l)
      (Program.run LogOp.exec (openLog crc opts) ⟨Dir.found [] fun _ => [], Coord.new⟩).2 := by
  rw [← hl]
  exact Program.ends_run (LogOp.outcome_exec mayFail) _ _

end Sound

end LedgerLine.Broker
