import LedgerLine.Broker.Index

/-!
# Segments

`broker/log/segment.go`.  A segment is one file of the log, a sixteen-byte
header followed by records, paired with its sparse index:

    +---------+-----------+-------------+-----------------+
    | magic   | version   | baseOffset  | records...      |
    | 4 bytes | 4 bytes   | 8 bytes     |                 |
    +---------+-----------+-------------+-----------------+

Opening an existing segment always recovers it: the scan starts at the last
index entry that points inside the file, stops at the first record that cannot
be read, and cuts the file there.
-/

namespace LedgerLine.Broker

/-- `"LGLN"`. -/
def segmentMagic : Nat := 0x4C474C4E

/-- The format version this build writes. -/
def segmentVersion : Nat := 1

/-- Size of a segment's header. -/
def segmentHeaderSize : Nat := 4 + 4 + 8

@[simp] theorem segmentHeaderSize_eq : segmentHeaderSize = 16 := by
  rfl

/-- The header of a segment. -/
def headerBytes (baseOffset : Nat) : Bytes :=
  putBE 4 segmentMagic ++ putBE 4 segmentVersion ++ putBE 8 baseOffset

@[simp] theorem headerBytes_length (baseOffset : Nat) : (headerBytes baseOffset).length = 16 := by
  simp [headerBytes]

/-- `segment`: an open segment. -/
structure Segment where
  file : Path
  index : Index
  baseOffset : Nat
  nextOffset : Nat
  /-- Where the next record goes. -/
  size : Nat
  /-- Position of the most recent index entry. -/
  lastIndexed : Nat
deriving DecidableEq, Repr

/-- `createSegment`: start a new segment file at `baseOffset`. -/
def createSegment (baseOffset : Nat) : LogProgram (Except LogErr Segment) := do
  match ← fs (.createExcl (.segment baseOffset)) with
  | .error e => pure (.error (.io e))
  | .ok _ =>
    match ← fs (.writeAt (.segment baseOffset) 0 (headerBytes baseOffset)) with
    | .error e => pure (.error (.io e))
    | .ok _ =>
      match ← openIndex (.index baseOffset) with
      | .error e => pure (.error e)
      | .ok ix =>
        pure (.ok
          { file := .segment baseOffset
            index := ix
            baseOffset := baseOffset
            nextOffset := baseOffset
            size := segmentHeaderSize
            lastIndexed := segmentHeaderSize })

namespace Segment

/-- `maybeIndex`: add an index entry if one is due. -/
def maybeIndex (s : Segment) (rel position : Nat) : LogProgram (Except LogErr Segment) := do
  if 0 < s.index.entries.length ∧ (position : Int) - s.lastIndexed < indexIntervalBytes then
    pure (.ok s)
  else
    match ← s.index.append rel position with
    | .error e => pure (.error e)
    | .ok ix => pure (.ok { s with index := ix, lastIndexed := position })

section Scan

variable (crc : Checksum)

/-- The scan loop of `recover`: `rest` is what the buffered reader has left, and
`position` and `rel` say where the next record starts and which one it is. -/
def recoverLoop : Nat → Segment → Bytes → Nat → Nat → LogProgram (Except LogErr Segment)
  | 0, _, _, _, _ => pure (.error .eof)
  | fuel + 1, s, rest, position, rel =>
      match readRecord crc rest with
      | .ok (_, n) => do
          match ← s.maybeIndex rel position with
          | .error e => pure (.error e)
          | .ok s => recoverLoop fuel s (rest.drop n) (position + n) ((rel + 1) % 2 ^ 32)
      | .error .eof =>
          pure (.ok { s with size := position, nextOffset := s.baseOffset + rel })
      | .error .tornRecord => cutTail s position rel
      | .error .corruptRecord => cutTail s position rel
      | .error e => pure (.error e)
where
  /-- Everything from `position` on is unreadable: drop it and cut the index back. -/
  cutTail (s : Segment) (position rel : Nat) : LogProgram (Except LogErr Segment) := do
    match ← fs (.truncate s.file position) with
    | .error e => pure (.error (.io e))
    | .ok _ =>
      match ← s.index.truncateFrom position with
      | .error e => pure (.error e)
      | .ok ix =>
        pure (.ok { s with index := ix, size := position, nextOffset := s.baseOffset + rel })

/-- Scan the file from `position`.  Every record is at least eight bytes, so there
are fewer rounds than bytes left. -/
def scanFrom (s : Segment) (position rel : Nat) : LogProgram (Except LogErr Segment) := do
  match ← fs (.read s.file) with
  | .error e => pure (.error (.io e))
  | .ok data =>
    recoverLoop crc ((data.drop position).length + 1) { s with lastIndexed := position }
      (data.drop position) position rel

/-- `recover`: find where the good records end, repair a damaged tail and complete
the index. -/
def recover (s : Segment) : LogProgram (Except LogErr Segment) := do
  match ← fs (.stat s.file) with
  | .error e => pure (.error (.io e))
  | .ok fileSize =>
    match s.index.last with
    | none => scanFrom crc s segmentHeaderSize 0
    | some e =>
      if segmentHeaderSize ≤ e.position ∧ e.position < fileSize then
        scanFrom crc s e.position e.relOffset
      else
        match ← s.index.reset with
        | .error e => pure (.error e)
        | .ok ix => scanFrom crc { s with index := ix } segmentHeaderSize 0

end Scan

end Segment

/-- `openSegment`: open an existing segment and recover it.  The base offset is the
one in the header. -/
def openSegment (crc : Checksum) (name : Nat) : LogProgram (Except LogErr Segment) := do
  match ← fs (.openExisting (.segment name)) with
  | .error e => pure (.error (.io e))
  | .ok _ =>
    match ← fs (.read (.segment name)) with
    | .error e => pure (.error (.io e))
    | .ok data =>
      if data.length = 0 then
        pure (.error .eof)
      else if data.length < segmentHeaderSize then
        pure (.error .unexpectedEof)
      else if getBE (data.take 4) ≠ segmentMagic then
        pure (.error (.badMagic (getBE (data.take 4))))
      else if getBE ((data.drop 4).take 4) ≠ segmentVersion then
        pure (.error (.badVersion (getBE ((data.drop 4).take 4))))
      else
        match ← openIndex (.index name) with
        | .error e => pure (.error e)
        | .ok ix =>
          Segment.recover crc
            { file := .segment name
              index := ix
              baseOffset := getBE ((data.drop 8).take 8)
              nextOffset := getBE ((data.drop 8).take 8)
              size := segmentHeaderSize
              lastIndexed := segmentHeaderSize }

namespace Segment

section Access

variable (crc : Checksum)

/-- `segment.append`: write one record and return the offset it was stored at.
The segment in memory changes only when everything succeeded. -/
def append (s : Segment) (payload : Bytes) :
    LogProgram (Segment × Except LogErr Nat) := do
  match encodeRecord crc payload with
  | .error e => pure (s, .error e)
  | .ok encoded =>
    match ← fs (.writeAt s.file s.size encoded) with
    | .error e => pure (s, .error (.io e))
    | .ok _ =>
      match ← s.maybeIndex ((s.nextOffset - s.baseOffset) % 2 ^ 32) s.size with
      | .error e => pure (s, .error e)
      | .ok s' =>
        pure ({ s' with size := s'.size + encoded.length, nextOffset := s'.nextOffset + 1 },
          .ok s.nextOffset)

/-- The walk of `read`: skip `n` records from `position` on. -/
def skipRecords : Nat → Bytes → Nat → Except LogErr Nat
  | 0, _, position => .ok position
  | n + 1, r, position =>
      match skipRecord r with
      | .error e => .error e
      | .ok size => skipRecords n (r.drop size) (position + size)

/-- The section of the file from `position` to the segment's end. -/
def sectionFrom (s : Segment) (data : Bytes) (position : Nat) : Bytes :=
  (data.drop position).take (s.size - position)

/-- `segment.read`: the payload stored at `offset`, the file holding `data`. -/
def read (s : Segment) (data : Bytes) (offset : Nat) : Except LogErr Bytes :=
  if offset < s.baseOffset ∨ offset ≥ s.nextOffset then
    .error (.offsetOutOfRange offset)
  else
    let target := (offset - s.baseOffset) % 2 ^ 32
    let start := (s.index.lookup target).getD ⟨0, segmentHeaderSize⟩
    match skipRecords (target - start.relOffset) (s.sectionFrom data start.position)
        start.position with
    | .error e => .error e
    | .ok position =>
      match readRecord crc (s.sectionFrom data position) with
      | .error e => .error e
      | .ok (payload, _) => .ok payload

end Access

/-- `segment.sync`: the segment first, then its index. -/
def sync (s : Segment) : LogProgram (Except LogErr Unit) := do
  match ← fs (.fsync s.file) with
  | .error e => pure (.error (.io e))
  | .ok _ =>
    match ← fs (.fsync s.index.file) with
    | .error e => pure (.error (.io e))
    | .ok _ => pure (.ok ())

end Segment

end LedgerLine.Broker
