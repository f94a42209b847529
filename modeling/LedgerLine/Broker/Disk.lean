import LedgerLine.Broker.Coordinator

/-!
# The state the log's code acts on

A log directory holds, for every segment, a segment file and its index file;
both are named after the segment's base offset (`segmentName`, `indexName`), so a
name is that number and which of the two files it is.

The code of the log also talks to the sync coordinator while it works on the
directory.  `LogOp` therefore adds the coordinator's methods to the file
operations, and `World` is the directory together with the coordinator.
-/

namespace LedgerLine.Broker

/-- The names in a log directory. -/
inductive Path
  /-- `segmentName(baseOffset)`: twenty digits and `.log`. -/
  | segment (baseOffset : Nat)
  /-- `indexName(baseOffset)`: twenty digits and `.index`. -/
  | index (baseOffset : Nat)
deriving DecidableEq, Repr

/-- The methods of the coordinator, each up to the point where it releases the
coordinator's mutex. -/
inductive CoordOp
  | markSynced (seq : Nat)
  | enter (t : ThreadId) (seq : Nat)
  | finish (t : ThreadId) (seq target : Nat) (outcome : Except LogErr Unit)

/-- What they answer. -/
def CoordOp.Resp : CoordOp → Type
  | markSynced _ => Unit
  | enter _ _ => WaitStep
  | finish _ _ _ _ => WaitStep

/-- What they do. -/
def CoordOp.exec : (o : CoordOp) → Coord → CoordOp.Resp o × Coord
  | markSynced seq, c => ((), c.markSynced seq)
  | enter t seq, c => c.enter t seq
  | finish t seq target outcome, c => c.finish t seq target outcome

/-- The operations of the log's code. -/
inductive LogOp
  | fs (o : FsOp Path)
  | coord (o : CoordOp)

/-- What they answer. -/
def LogOp.Resp : LogOp → Type
  | fs o => o.Resp
  | coord o => o.Resp

/-- A piece of the log's code. -/
abbrev LogProgram (α : Type) := Program LogOp LogOp.Resp α

/-- The directory and the coordinator. -/
structure World where
  dir : Dir Path
  coord : Coord

/-- What an operation does when nothing goes wrong. -/
def LogOp.exec : (o : LogOp) → World → LogOp.Resp o × World
  | fs o, w => ((o.exec w.dir).1, { w with dir := (o.exec w.dir).2 })
  | coord o, w => ((o.exec w.coord).1, { w with coord := (o.exec w.coord).2 })

/-- The outcomes of an operation when some file operations may fail. -/
inductive LogOp.Outcome (mayFail : FsOp Path → Prop) :
    (o : LogOp) → World → LogOp.Resp o → World → Prop
  | fs {o : FsOp Path} {w : World} {r : o.Resp} {d : Dir Path}
      (h : FsOp.Outcome mayFail o w.dir r d) :
      Outcome mayFail (.fs o) w r { w with dir := d }
  | coord (o : CoordOp) (w : World) :
      Outcome mayFail (.coord o) w (o.exec w.coord).1
        { w with coord := (o.exec w.coord).2 }

/-- The undisturbed outcome is one of them. -/
theorem LogOp.outcome_exec (mayFail : FsOp Path → Prop) (o : LogOp) (w : World) :
    LogOp.Outcome mayFail o w (LogOp.exec o w).1 (LogOp.exec o w).2 := by
  cases o with
  | fs o =>
      exact .fs (.success o w.dir)
  | coord o => exact .coord o w

variable {α : Type}

/-- No program removes a file. -/
theorem named_of_ends {mayFail : FsOp Path → Prop} {p : LogProgram α} {w w' : World} {a : α}
    (h : Program.Ends (LogOp.Outcome mayFail) p w a w') {q : Path} (hq : q ∈ w.dir.names) :
    q ∈ w'.dir.names := by
  induction h with
  | done a w => exact hq
  | call hstep rest ih =>
      cases hstep with
      | fs hfs =>
          exact ih (hfs.names_subset hq)
      | coord o w => exact ih hq

/-- Perform one file operation. -/
def fs (o : FsOp Path) : LogProgram o.Resp :=
  Program.perform (LogOp.fs o)

theorem run_fs {o : FsOp Path} {k : o.Resp → LogProgram α} {w : World} :
    Program.run LogOp.exec (fs o >>= k) w =
      Program.run LogOp.exec (k (o.exec w.dir).1) { w with dir := (o.exec w.dir).2 } := by
  rfl

theorem yields_fs {post : α → Prop} {o : FsOp Path} {k : o.Resp → LogProgram α}
    (hk : ∀ r, Program.Yields post (k r)) : Program.Yields post (fs o >>= k) :=
  hk

/-- Call one method of the coordinator. -/
def syncer (o : CoordOp) : LogProgram o.Resp :=
  Program.perform (LogOp.coord o)

end LedgerLine.Broker
