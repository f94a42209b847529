import LedgerLine.Broker.Disk
import LedgerLine.Lib.Search

/-!
# The sparse index of a segment

`broker/log/index.go`.  An entry is eight bytes: which record it is about,
counted from the segment's base offset, and where in the segment file that
record starts.  The entries are held in memory and appended to the index file as
they are made.
-/

namespace LedgerLine.Broker

/-- Size of an index entry on disk. -/
def indexEntrySize : Nat := 8

/-- One entry per this many bytes of segment. -/
def indexIntervalBytes : Nat := 4 <<< 10

/-- Positions from here on do not fit an entry. -/
def maxIndexableSegment : Nat := 1 <<< 32

@[simp] theorem indexEntrySize_eq : indexEntrySize = 8 := by
  rfl

@[simp] theorem indexIntervalBytes_eq : indexIntervalBytes = 4096 := by
  rfl

@[simp] theorem maxIndexableSegment_eq : maxIndexableSegment = 4294967296 := by
  rfl

/-- `indexEntry`; both fields are `uint32`. -/
structure IndexEntry where
  relOffset : Nat
  position : Nat
deriving DecidableEq, Repr

/-- The bytes of an entry. -/
def entryBytes (e : IndexEntry) : Bytes :=
  putBE 4 e.relOffset ++ putBE 4 e.position

/-- The first `n` entries of a byte string. -/
def decodeEntries : Nat → Bytes → List IndexEntry
  | 0, _ => []
  | n + 1, raw =>
      ⟨getBE (raw.take 4), getBE ((raw.drop 4).take 4)⟩ ::
        decodeEntries n (raw.drop indexEntrySize)

/-- `index`: the open index file and the entries held in memory. -/
structure Index where
  file : Path
  entries : List IndexEntry
deriving DecidableEq, Repr

/-- `openIndex`.  A trailing partial entry is ignored; an index that cannot be
read is started empty. -/
def openIndex (path : Path) : LogProgram (Except LogErr Index) := do
  match ← fs (.openCreate path) with
  | .error e => pure (.error (.io e))
  | .ok _ =>
    match ← fs (.stat path) with
    | .error e => pure (.error (.io e))
    | .ok size =>
      if size / indexEntrySize = 0 then
        pure (.ok ⟨path, []⟩)
      else
        match ← fs (.read path) with
        | .error _ => pure (.ok ⟨path, []⟩)
        | .ok raw =>
          if raw.length < size / indexEntrySize * indexEntrySize then
            pure (.ok ⟨path, []⟩)
          else
            pure (.ok ⟨path, decodeEntries (size / indexEntrySize) raw⟩)

namespace Index

/-- `index.append`: the record at `relOffset` begins at `position`. -/
def append (ix : Index) (relOffset position : Nat) : LogProgram (Except LogErr Index) := do
  if position ≥ maxIndexableSegment then
    pure (.error (.indexPosition position))
  else
    match ← fs (.writeAt ix.file (ix.entries.length * indexEntrySize)
        (entryBytes ⟨relOffset, position⟩)) with
    | .error e => pure (.error (.io e))
    | .ok _ => pure (.ok { ix with entries := ix.entries ++ [⟨relOffset, position⟩] })

/-- `index.lookup`: the closest entry at or before `relOffset`. -/
def lookup (ix : Index) (relOffset : Nat) : Option IndexEntry :=
  match search ix.entries.length
      (fun i => decide (((ix.entries[i]?).map IndexEntry.relOffset).getD 0 > relOffset)) with
  | 0 => none
  | i + 1 => ix.entries[i]?

/-- `index.last`. -/
def last (ix : Index) : Option IndexEntry :=
  ix.entries.getLast?

/-- `index.truncateFrom`: drop every entry from the first one that points at or
beyond `position`. -/
def truncateFrom (ix : Index) (position : Nat) : LogProgram (Except LogErr Index) := do
  let kept := ix.entries.takeWhile (fun e => decide (e.position < position))
  match ← fs (.truncate ix.file (kept.length * indexEntrySize)) with
  | .error e => pure (.error (.io e))
  | .ok _ => pure (.ok { ix with entries := kept })

/-- `index.reset`. -/
def reset (ix : Index) : LogProgram (Except LogErr Index) := do
  match ← fs (.truncate ix.file 0) with
  | .error e => pure (.error (.io e))
  | .ok _ => pure (.ok { ix with entries := [] })

end Index

end LedgerLine.Broker
