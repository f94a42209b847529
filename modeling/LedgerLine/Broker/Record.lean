import LedgerLine.Lib.Directory
import Mathlib.Data.List.Infix

/-!
# The record framing of the broker log

A record on disk is its length, a checksum of length and payload, and the
payload:

    +----------+----------+------------------+
    | length   | crc32c   | payload          |
    | 4 bytes  | 4 bytes  | `length` bytes   |
    +----------+----------+------------------+

`encodeRecord`, `readRecord` and `skipRecord` follow `broker/log/record.go` and
`broker/log/segment.go`.  The checksum is a parameter of all of them; the build
uses CRC-32C (`crc32c` below), and nothing in the framing depends on which
function it is.

A reader is modelled by the bytes it has left.  Recovery tells four endings
apart: a clean end, a torn record, a corrupt record, and a record.
-/

namespace LedgerLine.Broker

/-- A checksum over byte strings. -/
abbrev Checksum := Bytes → UInt32

/-- One bit of CRC-32C, reflected polynomial. -/
def crcBit (c : UInt32) : UInt32 :=
  if c &&& 1 = 1 then (c >>> 1) ^^^ 0x82F63B78 else c >>> 1

/-- One byte of CRC-32C. -/
def crcByte (c : UInt32) (b : UInt8) : UInt32 :=
  (List.range 8).foldl (fun c _ => crcBit c) (c ^^^ b.toUInt32)

/-- `crc32.New(crc32.MakeTable(crc32.Castagnoli))` over a byte string. -/
def crc32c (bs : Bytes) : UInt32 :=
  ~~~ bs.foldl crcByte 0xFFFFFFFF

/-- The errors of the log. -/
inductive LogErr
  /-- `io.EOF`: the reader is at a clean end. -/
  | eof
  /-- `io.ErrUnexpectedEOF`. -/
  | unexpectedEof
  /-- `ErrTornRecord`: the file ends in the middle of a record. -/
  | tornRecord
  /-- `ErrCorruptRecord`: wrong checksum or implausible length. -/
  | corruptRecord
  /-- `ErrRecordTooLarge`: refused before anything is written. -/
  | recordTooLarge (length : Nat)
  /-- `ErrBadMagic`: not one of our files. -/
  | badMagic (magic : Nat)
  /-- `ErrBadVersion`. -/
  | badVersion (version : Nat)
  /-- `ErrOffsetOutOfRange`. -/
  | offsetOutOfRange (offset : Nat)
  /-- A position past what a 4-byte index field can hold. -/
  | indexPosition (position : Nat)
  /-- A file operation failed. -/
  | io (e : FsErr)
deriving DecidableEq, Repr

/-- Size of the length field. -/
def lengthSize : Nat := 4

/-- Size of the checksum field. -/
def crcSize : Nat := 4

/-- Size of a record's header. -/
def recordHeaderSize : Nat := lengthSize + crcSize

/-- Upper bound on a payload, checked before any allocation. -/
def maxRecordSize : Nat := 8 <<< 20

@[simp] theorem recordHeaderSize_eq : recordHeaderSize = 8 := by
  rfl

@[simp] theorem maxRecordSize_eq : maxRecordSize = 8388608 := by
  rfl

section Codec

variable (crc : Checksum)

/-- The length field of a payload. -/
def lengthField (payload : Bytes) : Bytes :=
  putBE lengthSize payload.length

/-- The bytes of one record. -/
def recordBytes (payload : Bytes) : Bytes :=
  lengthField payload ++ putBE crcSize (crc (lengthField payload ++ payload)).toNat ++ payload

/-- `encodeRecord`: the on-disk representation of one payload. -/
def encodeRecord (payload : Bytes) : Except LogErr Bytes :=
  if payload.length > maxRecordSize then
    .error (.recordTooLarge payload.length)
  else
    .ok (recordBytes crc payload)

/-- `readRecord`: the payload and the number of bytes consumed. -/
def readRecord (r : Bytes) : Except LogErr (Bytes × Nat) :=
  if r.length = 0 then
    .error .eof
  else if r.length < recordHeaderSize then
    .error .tornRecord
  else if getBE (r.take lengthSize) > maxRecordSize then
    .error .corruptRecord
  else if (r.drop recordHeaderSize).length < getBE (r.take lengthSize) then
    .error .tornRecord
  else if (crc (r.take lengthSize ++
        (r.drop recordHeaderSize).take (getBE (r.take lengthSize)))).toNat =
      getBE ((r.drop lengthSize).take crcSize) then
    .ok ((r.drop recordHeaderSize).take (getBE (r.take lengthSize)),
      recordHeaderSize + getBE (r.take lengthSize))
  else
    .error .corruptRecord

/-- `skipRecord`: the size of the next record, its payload neither copied nor
checked. -/
def skipRecord (r : Bytes) : Except LogErr Nat :=
  if r.length = 0 then
    .error .eof
  else if r.length < recordHeaderSize then
    .error .unexpectedEof
  else if getBE (r.take lengthSize) > maxRecordSize then
    .error .corruptRecord
  else if (r.drop recordHeaderSize).length < getBE (r.take lengthSize) then
    .error .eof
  else
    .ok (recordHeaderSize + getBE (r.take lengthSize))

/-- A payload the log accepts. -/
def Legal (payload : Bytes) : Prop :=
  payload.length ≤ maxRecordSize

instance (payload : Bytes) : Decidable (Legal payload) :=
  inferInstanceAs (Decidable (payload.length ≤ maxRecordSize))

end Codec

section Frame

variable {crc : Checksum}

@[simp] theorem lengthField_length (p : Bytes) : (lengthField p).length = 4 := by
  simp [lengthField, lengthSize]

@[simp] theorem recordBytes_length (p : Bytes) : (recordBytes crc p).length = 8 + p.length := by
  simp [recordBytes, crcSize]
  omega

variable {p : Bytes}

theorem encodeRecord_of_legal (h : Legal p) : encodeRecord crc p = .ok (recordBytes crc p) := by
  simp only [encodeRecord, gt_iff_lt]
  rw [if_neg (Nat.not_lt.mpr h)]

theorem encodeRecord_of_not_legal (h : ¬ Legal p) :
    encodeRecord crc p = .error (.recordTooLarge p.length) := by
  unfold encodeRecord
  rw [if_pos (Nat.lt_of_not_le h)]

/-- The length field of a legal payload is read back. -/
theorem getBE_lengthField (h : Legal p) : getBE (lengthField p) = p.length := by
  apply getBE_putBE_of_lt
  have hlen : p.length ≤ 8388608 := h
  simp only [lengthSize]
  omega

/-- The first four bytes of anything that starts with a record are its length
field, as soon as there are four. -/
theorem take_lengthSize {p t : Bytes} :
    (recordBytes crc p ++ t).take lengthSize = lengthField p := by
  simp [recordBytes, lengthSize, List.append_assoc, List.take_left']

theorem drop_recordHeaderSize {p t : Bytes} :
    (recordBytes crc p ++ t).drop recordHeaderSize = p ++ t := by
  rw [recordBytes, List.append_assoc]
  apply List.drop_left'
  simp [crcSize]

theorem take_crcSize {p t : Bytes} :
    ((recordBytes crc p ++ t).drop lengthSize).take crcSize =
      putBE crcSize (crc (lengthField p ++ p)).toNat := by
  rw [recordBytes, List.append_assoc, List.append_assoc, List.drop_left' (by simp [lengthSize])]
  apply List.take_left'
  simp

/-- What begins with a record has a header. -/
theorem recordBytes_header (crc : Checksum) (p t : Bytes) :
    ¬ (recordBytes crc p ++ t).length = 0 ∧
      ¬ (recordBytes crc p ++ t).length < recordHeaderSize := by
  rw [List.length_append, recordBytes_length, recordHeaderSize_eq]
  omega

/-- Reading what was encoded gives the payload and consumes exactly the record. -/
theorem readRecord_recordBytes {p : Bytes} (h : Legal p) (t : Bytes) :
    readRecord crc (recordBytes crc p ++ t) = .ok (p, 8 + p.length) := by
  have hcrc : getBE (putBE crcSize (crc (lengthField p ++ p)).toNat) =
      (crc (lengthField p ++ p)).toNat := by
    apply getBE_putBE_of_lt
    have := (crc (lengthField p ++ p)).toNat_lt
    simp only [crcSize]
    omega
  obtain ⟨h0, h8⟩ := recordBytes_header crc p t
  have hbig : ¬ p.length > maxRecordSize := Nat.not_lt.mpr h
  have hrest : ¬ (p ++ t).length < p.length := by
    simp
  unfold readRecord
  rw [if_neg h0, if_neg h8, take_lengthSize, drop_recordHeaderSize, take_crcSize,
    getBE_lengthField h, hcrc, if_neg hbig, if_neg hrest, List.take_left' rfl, if_pos rfl,
    recordHeaderSize_eq]

@[simp] theorem readRecord_nil : readRecord crc [] = .error .eof := by
  rfl

/-- A record cut anywhere inside is torn. -/
theorem readRecord_torn {t : Bytes} (h : Legal p) (ht : t ≠ []) (hpre : t <+: recordBytes crc p)
    (hlt : t.length < 8 + p.length) : readRecord crc t = .error .tornRecord := by
  have hpos : ¬ t.length = 0 := by
    simpa using ht
  have hlen : p.length ≤ 8388608 := h
  unfold readRecord
  rw [if_neg hpos]
  by_cases hshort : t.length < recordHeaderSize
  · rw [if_pos hshort]
  · rw [recordHeaderSize_eq] at hshort
    have htake : t.take lengthSize = lengthField p := by
      have hfull : (recordBytes crc p).take lengthSize = lengthField p := by
        simpa using @take_lengthSize crc p []
      rw [← hfull, List.prefix_iff_eq_take.mp hpre, List.take_take,
        Nat.min_eq_left (by simp only [lengthSize]; omega)]
    rw [if_neg (by simpa using hshort), htake, getBE_lengthField h]
    have hrest : (t.drop recordHeaderSize).length < p.length := by
      simp only [List.length_drop, recordHeaderSize_eq]
      omega
    rw [if_neg (by simpa using hlen), if_pos hrest]

/-- The ways to end. -/
theorem readRecord_error {r : Bytes} {e : LogErr} (h : readRecord crc r = .error e) :
    e = .eof ∧ r = [] ∨ e = .tornRecord ∨ e = .corruptRecord := by
  unfold readRecord at h
  split_ifs at h with h0 hshort hbig hrest hcrc
  · exact Or.inl ⟨(Except.error.inj h).symm, List.length_eq_zero_iff.mp h0⟩
  · exact Or.inr (Or.inl (Except.error.inj h).symm)
  · exact Or.inr (Or.inr (Except.error.inj h).symm)
  · exact Or.inr (Or.inl (Except.error.inj h).symm)
  · exact Or.inr (Or.inr (Except.error.inj h).symm)

/-- What is read is what stands there: the bytes consumed are the encoding of
the payload returned. -/
theorem readRecord_sound {r : Bytes} {n : Nat} (h : readRecord crc r = .ok (p, n)) :
    Legal p ∧ n = 8 + p.length ∧ r = recordBytes crc p ++ r.drop n := by
  unfold readRecord at h
  split_ifs at h with h0 hshort hbig hrest hcrc
  rw [Except.ok.injEq, Prod.mk.injEq] at h
  obtain ⟨hp, hn⟩ := h
  rw [recordHeaderSize_eq] at hshort hn hrest hcrc hp
  have hlen : p.length = getBE (r.take lengthSize) := by
    rw [← hp, List.length_take]
    omega
  have hfield : lengthField p = r.take lengthSize := by
    have h4 : (r.take lengthSize).length = lengthSize := by
      rw [List.length_take]
      simp only [lengthSize]
      omega
    have hspell := putBE_getBE (r.take lengthSize)
    rw [h4, ← hlen] at hspell
    exact hspell
  have hsum : putBE crcSize (crc (lengthField p ++ p)).toNat =
      (r.drop lengthSize).take crcSize := by
    have h4 : ((r.drop lengthSize).take crcSize).length = crcSize := by
      rw [List.length_take, List.length_drop]
      simp only [lengthSize, crcSize]
      omega
    have hspell := putBE_getBE ((r.drop lengthSize).take crcSize)
    rw [h4, ← hcrc, hp, ← hfield] at hspell
    exact hspell
  refine ⟨?_, by omega, ?_⟩
  · rw [Legal, hlen]
    omega
  · have hr : r = r.take 4 ++ ((r.drop 4).take 4 ++ ((r.drop 8).take p.length ++
        r.drop (8 + p.length))) := by
      conv_lhs =>
        rw [← List.take_append_drop 4 r, ← List.take_append_drop 4 (r.drop 4),
          List.drop_drop, ← List.take_append_drop p.length (r.drop 8), List.drop_drop]
    have hn' : n = 8 + p.length := by
      omega
    have hpay : (r.drop 8).take p.length = p := by
      rw [hlen]
      exact hp
    calc
      r = r.take 4 ++ ((r.drop 4).take 4 ++ ((r.drop 8).take p.length ++
          r.drop (8 + p.length))) := hr
      _ = lengthField p ++ (putBE crcSize (crc (lengthField p ++ p)).toNat ++
          (p ++ r.drop (8 + p.length))) := by
        rw [hpay, hsum, hfield]
        rfl
      _ = recordBytes crc p ++ r.drop n := by
        rw [recordBytes, hn', List.append_assoc, List.append_assoc]

/-- Skipping over a record that is there moves by exactly its size. -/
theorem skipRecord_recordBytes (h : Legal p) (t : Bytes) :
    skipRecord (recordBytes crc p ++ t) = .ok (8 + p.length) := by
  obtain ⟨h0, h8⟩ := recordBytes_header crc p t
  have hbig : ¬ p.length > maxRecordSize := Nat.not_lt.mpr h
  have hrest : ¬ (p ++ t).length < p.length := by
    simp
  unfold skipRecord
  rw [if_neg h0, if_neg h8, take_lengthSize, drop_recordHeaderSize, getBE_lengthField h,
    if_neg hbig, if_neg hrest, recordHeaderSize_eq]

end Frame

end LedgerLine.Broker
