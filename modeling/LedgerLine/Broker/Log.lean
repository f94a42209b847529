import LedgerLine.Broker.Segment
import Mathlib.Data.List.Sort

/-!
# The log

`broker/log/log.go`.  A log is its segments in order of base offset; the last one
is the active segment, the only one that accepts writes.  `Append` writes under
the log's mutex (`appendLocked`) and then, with the mutex released, makes the
record durable as far as the sync policy asks for it.
-/

namespace LedgerLine.Broker

/-- `DefaultMaxSegmentBytes`. -/
def defaultMaxSegmentBytes : Int := 64 <<< 20

/-- `DefaultSyncEveryNRecords`. -/
def defaultSyncEveryNRecords : Int := 100

/-- `SyncPolicy`: when `Append` forces data to durable storage. -/
inductive SyncPolicy
  | never
  | always
  | everyN
  | group
deriving DecidableEq, Repr

/-- `SyncPolicy.Durable`: whether a record is on disk by the time `Append` returns. -/
def SyncPolicy.durable (p : SyncPolicy) : Bool :=
  p = .always || p = .group

/-- `Options`. -/
structure Options where
  maxSegmentBytes : Int
  sync : SyncPolicy
  syncEveryNRecords : Int
deriving DecidableEq, Repr

/-- The defaults `Open` fills in. -/
def Options.withDefaults (o : Options) : Options :=
  { o with
    maxSegmentBytes :=
      if o.maxSegmentBytes ≤ 0 then defaultMaxSegmentBytes else o.maxSegmentBytes
    syncEveryNRecords :=
      if o.syncEveryNRecords ≤ 0 then defaultSyncEveryNRecords else o.syncEveryNRecords }

/-- `Log`, without the mutex and the coordinator. -/
structure Log where
  opts : Options
  segments : List Segment
  /-- Appends since the last fsync, for `everyN`. -/
  sinceSync : Nat
  /-- Sequence number of the last append. -/
  seq : Nat
deriving DecidableEq, Repr

/-- The base offsets of the segment files among the names of a directory. -/
def segmentOffsets (names : List Path) : List Nat :=
  names.filterMap fun
    | .segment baseOffset => some baseOffset
    | .index _ => none

/-- `listSegmentOffsets`: the base offsets of every segment, sorted. -/
def listSegmentOffsets : LogProgram (Except LogErr (List Nat)) := do
  match ← fs .readDir with
  | .error e => pure (.error (.io e))
  | .ok names => pure (.ok ((segmentOffsets names).insertionSort (· ≤ ·)))

section Open

variable (crc : Checksum)

/-- The loop of `Open` over the segments found. -/
def openSegments : List Nat → List Segment → LogProgram (Except LogErr (List Segment))
  | [], opened => pure (.ok opened)
  | name :: names, opened => do
      match ← openSegment crc name with
      | .error e => pure (.error e)
      | .ok s => openSegments names (opened ++ [s])

/-- `Open`: open the log in a directory, creating a first segment if there is none. -/
def openLog (opts : Options) : LogProgram (Except LogErr Log) := do
  match ← listSegmentOffsets with
  | .error e => pure (.error e)
  | .ok baseOffsets =>
    match ← openSegments crc baseOffsets [] with
    | .error e => pure (.error e)
    | .ok [] =>
      match ← createSegment 0 with
      | .error e => pure (.error e)
      | .ok s => pure (.ok ⟨opts.withDefaults, [s], 0, 0⟩)
    | .ok segments => pure (.ok ⟨opts.withDefaults, segments, 0, 0⟩)

end Open

namespace Log

/-- The active segment. -/
def active (l : Log) : Option Segment :=
  l.segments.getLast?

/-- `NextOffset`. -/
def nextOffset (l : Log) : Nat :=
  (l.active.map Segment.nextOffset).getD 0

/-- Replace the active segment. -/
def setActive (l : Log) (s : Segment) : Log :=
  { l with segments := l.segments.dropLast ++ [s] }

/-- Whether `Append` starts a new segment before writing `payload`. -/
def rolls (l : Log) (s : Segment) (payload : Bytes) : Prop :=
  s.nextOffset > s.baseOffset ∧
    (s.size : Int) + (recordHeaderSize + payload.length : Nat) > l.opts.maxSegmentBytes

instance (l : Log) (s : Segment) (payload : Bytes) : Decidable (l.rolls s payload) :=
  inferInstanceAs (Decidable (_ ∧ _))

/-- What `Append` takes with it when it releases the log's mutex. -/
structure Ticket where
  offset : Nat
  seq : Nat
  sinceSync : Nat
deriving DecidableEq, Repr

section Append

variable (crc : Checksum)

/-- The second half of `Append` under the mutex: write into the active segment `s`
and take the sequence number. -/
def writeActive (l : Log) (s : Segment) (payload : Bytes) :
    LogProgram (Log × Except LogErr Ticket) := do
  match ← s.append crc payload with
  | (s', .error e) => pure (l.setActive s', .error e)
  | (s', .ok offset) =>
      let sinceSync := l.sinceSync + 1
      pure
        ({ l.setActive s' with
            seq := l.seq + 1
            sinceSync :=
              if l.opts.sync = .everyN ∧ (sinceSync : Int) ≥ l.opts.syncEveryNRecords then 0
              else sinceSync },
          .ok ⟨offset, l.seq + 1, sinceSync⟩)

/-- Start a new segment after the active segment `s` and write there. -/
def rollTo (l : Log) (s : Segment) (payload : Bytes) :
    LogProgram (Log × Except LogErr Ticket) := do
  match ← createSegment s.nextOffset with
  | .error e => pure (l, .error e)
  | .ok next =>
      writeActive crc { l with segments := l.segments ++ [next] } next payload

/-- `Append` while it holds the log's mutex.  The outgoing segment is flushed as
part of rolling. -/
def appendLocked (l : Log) (payload : Bytes) :
    LogProgram (Log × Except LogErr Ticket) :=
  match l.active with
  | none => pure (l, .error .eof)
  | some s =>
    if l.rolls s payload then
      if l.opts.sync = .never then
        rollTo crc l s payload
      else do
        match ← s.sync with
        | .error e => pure (l, .error e)
        | .ok _ =>
            syncer (.markSynced l.seq)
            rollTo crc l s payload
    else
      writeActive crc l s payload

/-- `syncActive`. -/
def syncActive (l : Log) : LogProgram (Except LogErr Unit) :=
  match l.active with
  | none => pure (.ok ())
  | some s => s.sync

/-- The rounds of `waitFor` of a caller that flushes whenever it is its turn. -/
def waitRounds (t : ThreadId) (seq : Nat) (doSync : LogProgram (Except LogErr Unit)) :
    Nat → WaitStep → LogProgram (Except LogErr Unit)
  | _, .durable => pure (.ok ())
  | _, .failed e => pure (.error e)
  | 0, _ => pure (.error .eof)
  | _ + 1, .blocked => pure (.error .eof)
  | n + 1, .flush target => do
      let outcome ← doSync
      let step ← syncer (.finish t seq target outcome)
      waitRounds t seq doSync n step

/-- `waitFor` of a caller nobody else interferes with: after one successful flush
its own sequence is covered, so two rounds are enough. -/
def waitForAlone (seq : Nat) (doSync : LogProgram (Except LogErr Unit)) :
    LogProgram (Except LogErr Unit) := do
  let step ← syncer (.enter 0 seq)
  waitRounds 0 seq doSync 2 step

/-- What `Append` does after it has released the log's mutex, undisturbed. -/
def afterUnlock (l : Log) (k : Ticket) : LogProgram (Except LogErr Nat) :=
  match l.opts.sync with
  | .never => pure (.ok k.offset)
  | .always => do
      match ← l.syncActive with
      | .error e => pure (.error e)
      | .ok _ => pure (.ok k.offset)
  | .everyN =>
      if (k.sinceSync : Int) ≥ l.opts.syncEveryNRecords then do
        match ← l.syncActive with
        | .error e => pure (.error e)
        | .ok _ => pure (.ok k.offset)
      else
        pure (.ok k.offset)
  | .group => do
      match ← waitForAlone k.seq l.syncActive with
      | .error e => pure (.error e)
      | .ok _ => pure (.ok k.offset)

/-- `Append` of a caller that runs alone. -/
def append (l : Log) (payload : Bytes) : LogProgram (Log × Except LogErr Nat) := do
  match ← l.appendLocked crc payload with
  | (l', .error e) => pure (l', .error e)
  | (l', .ok k) => do
      let outcome ← l'.afterUnlock k
      pure (l', outcome)

/-- `Read`: the segment before the first one whose base offset is past `offset`. -/
def read (l : Log) (d : Dir Path) (offset : Nat) : Except LogErr Bytes :=
  match search l.segments.length
      (fun i => decide (((l.segments[i]?).map Segment.baseOffset).getD 0 > offset)) with
  | 0 => .error (.offsetOutOfRange offset)
  | i + 1 =>
    match l.segments[i]? with
    | none => .error (.offsetOutOfRange offset)
    | some s => s.read crc (d.file s.file).data offset

end Append

/-- The segments `Log.Sync` still has to flush. -/
def syncAll : List Segment → LogProgram (Except LogErr Unit)
  | [] => pure (.ok ())
  | s :: rest => do
      match ← s.sync with
      | .error e => pure (.error e)
      | .ok _ => syncAll rest

end Log

end LedgerLine.Broker
