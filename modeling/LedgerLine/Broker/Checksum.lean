import LedgerLine.Broker.Record
import LedgerLine.Lib.Crc

/-!
# What the checksum of a record detects

`crc32c` is a register of 32 bits that is fed the bits of each byte, the lowest first
(`crcByte_eq`).  Its generator has a constant term, so damage within a window of 32 bits always
changes the checksum (`crc32c_burst`).  In a record this means: damage confined to the checksum
field, or to four consecutive bytes of the payload, is reported as corruption
(`damage_detected`).
-/

namespace LedgerLine.Broker

/-- The generator of CRC-32C. -/
def castagnoli : BitVec 32 := 0x82F63B78#32

/-- The bits of a byte, the lowest first. -/
def byteBits (b : UInt8) : List Bool :=
  (List.range 8).map b.toBitVec.getLsbD

theorem byteBits_length (b : UInt8) : (byteBits b).length = 8 := by
  simp [byteBits]

theorem byteBits_injective : Function.Injective byteBits := by
  intro a b h
  apply UInt8.eq_of_toBitVec_eq
  apply BitVec.eq_of_getLsbD_eq
  intro i hi
  have hbit := congrArg (fun l => l[i]?) h
  simpa [byteBits, hi] using hbit

theorem flatMap_byteBits_inj {xs ys : Bytes} (hlen : xs.length = ys.length)
    (h : xs.flatMap byteBits = ys.flatMap byteBits) : xs = ys := by
  induction xs generalizing ys with
  | nil =>
      exact (List.length_eq_zero_iff.1 hlen.symm).symm
  | cons x xs ih =>
      cases ys with
      | nil => cases hlen
      | cons y ys =>
          rw [List.flatMap_cons, List.flatMap_cons] at h
          obtain ⟨hfirst, hrest⟩ := List.append_inj h (by rw [byteBits_length, byteBits_length])
          rw [byteBits_injective hfirst, ih (Nat.succ.inj hlen) hrest]

theorem length_flatMap_byteBits (xs : Bytes) : (xs.flatMap byteBits).length = 8 * xs.length := by
  rw [List.length_flatMap, List.map_congr_left fun b _ => byteBits_length b, List.map_const',
    List.sum_replicate_nat, Nat.mul_comm]

/-- A step of the register without a bit of the stream. -/
theorem crcBit_eq (c : UInt32) : (crcBit c).toBitVec = feedBit castagnoli c.toBitVec false := by
  have hlow : c &&& 1 = 1 ↔ c.toBitVec.getLsbD 0 = true := by
    rw [← UInt32.toBitVec_inj, BitVec.eq_of_getLsbD_eq_iff]
    constructor
    · intro h
      simpa using h 0 (by decide)
    · intro h i hi
      cases i with
      | zero =>
          simpa using h
      | succ i =>
          have hone : (1 : UInt32).toBitVec.getLsbD (i + 1) = false := by
            rw [show (1 : UInt32).toBitVec = 1#32 from rfl, BitVec.getLsbD_one]
            simp
          rw [UInt32.toBitVec_and, BitVec.getLsbD_and, hone, Bool.and_false]
  rw [crcBit, feedBit, Bool.xor_false]
  by_cases hbit : c.toBitVec.getLsbD 0 = true
  · rw [if_pos (hlow.2 hbit), if_pos hbit]
    rfl
  · rw [if_neg fun h => hbit (hlow.1 h), if_neg hbit]
    rfl

/-- The bits of a byte are fed one by one. -/
theorem crcByte_eq (c : UInt32) (b : UInt8) :
    (crcByte c b).toBitVec = feed castagnoli c.toBitVec (byteBits b) := by
  have hsteps : ∀ (steps : List Nat) (r : UInt32),
      (steps.foldl (fun c _ => crcBit c) r).toBitVec =
        steps.foldl (fun c _ => feedBit castagnoli c false) r.toBitVec := by
    intro steps
    induction steps with
    | nil => exact fun r => rfl
    | cons i steps ih =>
        intro r
        rw [List.foldl_cons, List.foldl_cons, ih, crcBit_eq]
  have hshort : b.toUInt32.toBitVec >>> 8 = 0#32 := by
    rw [UInt8.toBitVec_toUInt32]
    apply BitVec.eq_of_getLsbD_eq
    intro i hi
    rw [BitVec.getLsbD_ushiftRight, BitVec.getLsbD_setWidth,
      BitVec.getLsbD_of_ge _ _ (by omega)]
    simp
  have hbits : (List.range 8).map b.toUInt32.toBitVec.getLsbD = byteBits b := by
    rw [byteBits]
    apply List.map_congr_left
    intro i hi
    have hlt := List.mem_range.1 hi
    rw [UInt8.toBitVec_toUInt32, BitVec.getLsbD_setWidth]
    simp only [Bool.and_eq_right_iff_imp, decide_eq_true_eq]
    omega
  rw [crcByte, hsteps, UInt32.toBitVec_xor, foldl_feedBit_xor, hbits, hshort, BitVec.xor_zero]

theorem foldl_crcByte_eq (bs : Bytes) (c : UInt32) :
    (bs.foldl crcByte c).toBitVec = feed castagnoli c.toBitVec (bs.flatMap byteBits) := by
  induction bs generalizing c with
  | nil => rfl
  | cons b bs ih =>
      rw [List.foldl_cons, ih, crcByte_eq, List.flatMap_cons, feed_append]

/-- Four bytes that differ, between the same bytes, change the checksum. -/
theorem crc32c_burst {before after xs ys : Bytes} (hlen : xs.length = ys.length)
    (hfour : xs.length ≤ 4)
    (h : crc32c (before ++ (xs ++ after)) = crc32c (before ++ (ys ++ after))) : xs = ys := by
  apply flatMap_byteBits_inj hlen
  have hregister := congrArg UInt32.toBitVec (UInt32.not_inj.1 h)
  rw [foldl_crcByte_eq, foldl_crcByte_eq] at hregister
  simp only [List.flatMap_append] at hregister
  apply eq_of_feed_burst (by decide : castagnoli.getLsbD (32 - 1) = true) _ _ hregister
  · rw [length_flatMap_byteBits, length_flatMap_byteBits, hlen]
  · rw [length_flatMap_byteBits]
    omega

section Damage

variable {crc : Checksum}

/-- Reading a record with whatever checksum in front of its payload. -/
theorem readRecord_framed {sum payload : Bytes} (hsum : sum.length = crcSize)
    (hlegal : Legal payload) (hne : getBE sum ≠ (crc (lengthField payload ++ payload)).toNat)
    (t : Bytes) :
    readRecord crc (lengthField payload ++ sum ++ payload ++ t) = .error .corruptRecord := by
  have hlen : (lengthField payload ++ sum ++ payload ++ t).length =
      8 + (payload.length + t.length) := by
    simp only [List.length_append, lengthField_length, hsum, crcSize]
    omega
  have htake : (lengthField payload ++ sum ++ payload ++ t).take lengthSize =
      lengthField payload := by
    rw [List.append_assoc, List.append_assoc]
    exact List.take_left' (lengthField_length _)
  have hdrop : (lengthField payload ++ sum ++ payload ++ t).drop recordHeaderSize =
      payload ++ t := by
    rw [List.append_assoc]
    apply List.drop_left'
    rw [List.length_append, lengthField_length, hsum]
    rfl
  have hfield : ((lengthField payload ++ sum ++ payload ++ t).drop lengthSize).take crcSize =
      sum := by
    rw [List.append_assoc, List.append_assoc, lengthSize, List.drop_left' (lengthField_length _)]
    exact List.take_left' hsum
  rw [readRecord, if_neg (by omega), if_neg (by rw [recordHeaderSize_eq]; omega), htake, hdrop,
    hfield, getBE_lengthField hlegal, if_neg (Nat.not_lt.2 hlegal),
    if_neg (by rw [List.length_append]; omega), List.take_left' rfl, if_neg (Ne.symm hne)]

end Damage

/-- `d` is as long as `e` and differs from it, but nowhere outside of the `n` positions from
`start` on. -/
structure DamagedWithin (start n : Nat) (d e : Bytes) : Prop where
  length_eq : d.length = e.length
  ne : d ≠ e
  within : ∀ i, d[i]? ≠ e[i]? → start ≤ i ∧ i < start + n

namespace DamagedWithin

variable {start n : Nat} {d e : Bytes}

theorem take_eq (h : DamagedWithin start n d e) : d.take start = e.take start := by
  apply List.ext_getElem?
  intro i
  rw [List.getElem?_take, List.getElem?_take]
  split
  · rename_i hi
    by_contra hne
    exact absurd (h.within i hne).1 (by omega)
  · rfl

theorem drop_eq (h : DamagedWithin start n d e) : d.drop (start + n) = e.drop (start + n) := by
  apply List.ext_getElem?
  intro i
  rw [List.getElem?_drop, List.getElem?_drop]
  by_contra hne
  exact absurd (h.within _ hne).2 (by omega)

/-- The damaged bytes, between what has not changed. -/
theorem split (h : DamagedWithin start n d e) :
    ∃ xs, xs.length = ((e.drop start).take n).length ∧ xs ≠ (e.drop start).take n ∧
      d = e.take start ++ (xs ++ e.drop (start + n)) := by
  have hparts : ∀ l : Bytes, l = l.take start ++ ((l.drop start).take n ++ l.drop (start + n)) := by
    intro l
    rw [← List.drop_drop, List.take_append_drop, List.take_append_drop]
  have hd := hparts d
  rw [h.take_eq, h.drop_eq] at hd
  refine ⟨(d.drop start).take n, ?_, ?_, hd⟩
  · simp only [List.length_take, List.length_drop, h.length_eq]
  · intro hsame
    rw [hsame, ← hparts] at hd
    exact h.ne hd

end DamagedWithin

theorem recordBytes_take_four (crc : Checksum) (p : Bytes) :
    (recordBytes crc p).take 4 = lengthField p := by
  have h := @take_lengthSize crc p []
  rwa [List.append_nil] at h

theorem recordBytes_checksum (crc : Checksum) (p : Bytes) :
    ((recordBytes crc p).drop 4).take 4 = putBE crcSize (crc (lengthField p ++ p)).toNat := by
  have h := @take_crcSize crc p []
  rwa [List.append_nil] at h

theorem recordBytes_payload (crc : Checksum) (p : Bytes) : (recordBytes crc p).drop 8 = p := by
  have h := @drop_recordHeaderSize crc p []
  rwa [List.append_nil, List.append_nil] at h

/-- A damaged checksum is not the checksum. -/
theorem readRecord_damaged_checksum {crc : Checksum} {p d : Bytes} (hp : Legal p)
    (h : DamagedWithin 4 4 d (recordBytes crc p)) (t : Bytes) :
    readRecord crc (d ++ t) = .error .corruptRecord := by
  obtain ⟨sum, hlen, hne, hd⟩ := h.split
  rw [recordBytes_checksum, putBE_length] at hlen
  rw [recordBytes_checksum] at hne
  rw [recordBytes_take_four, recordBytes_payload, ← List.append_assoc] at hd
  rw [hd]
  apply readRecord_framed hlen hp
  intro heq
  have hspell := putBE_getBE sum
  rw [hlen, heq] at hspell
  exact hne hspell.symm

/-- A damaged payload has another checksum. -/
theorem readRecord_damaged_payload {p d : Bytes} (hp : Legal p) {start : Nat} (hstart : 8 ≤ start)
    (h : DamagedWithin start 4 d (recordBytes crc32c p)) (t : Bytes) :
    readRecord crc32c (d ++ t) = .error .corruptRecord := by
  obtain ⟨xs, hlen, hne, hd⟩ := h.split
  obtain ⟨k, rfl⟩ : ∃ k, start = 8 + k := ⟨start - 8, by omega⟩
  -- the window, seen from the beginning of the payload
  have hwindow : ((recordBytes crc32c p).drop (8 + k)).take 4 = (p.drop k).take 4 := by
    rw [← List.drop_drop, recordBytes_payload]
  have hafter : (recordBytes crc32c p).drop (8 + k + 4) = p.drop (k + 4) := by
    rw [Nat.add_assoc, ← List.drop_drop, recordBytes_payload]
  have hbefore : (recordBytes crc32c p).take (8 + k) =
      lengthField p ++ putBE crcSize (crc32c (lengthField p ++ p)).toNat ++ p.take k := by
    have hheader : (lengthField p ++ putBE crcSize (crc32c (lengthField p ++ p)).toNat).length =
        8 := by
      rw [List.length_append, lengthField_length, putBE_length]
      rfl
    rw [recordBytes, List.take_append, hheader, Nat.add_sub_cancel_left,
      List.take_of_length_le (by omega)]
  rw [hwindow] at hlen hne
  rw [hbefore, hafter, List.append_assoc] at hd
  have hp' : p = p.take k ++ ((p.drop k).take 4 ++ p.drop (k + 4)) := by
    rw [← List.drop_drop, List.take_append_drop, List.take_append_drop]
  have hsame : (p.take k ++ (xs ++ p.drop (k + 4))).length = p.length := by
    conv_rhs => rw [hp']
    simp only [List.length_append, hlen]
  have hfield : lengthField (p.take k ++ (xs ++ p.drop (k + 4))) = lengthField p := by
    rw [lengthField, hsame, lengthField]
  rw [hd, ← hfield]
  apply readRecord_framed
  · exact putBE_length _ _
  · rw [Legal, hsame]
    exact hp
  rw [getBE_putBE_of_lt (UInt32.toNat_lt _), hfield]
  intro hsum
  apply hne
  apply @crc32c_burst (lengthField p ++ p.take k) (p.drop (k + 4)) xs ((p.drop k).take 4) hlen
  · rw [hlen, List.length_take]
    omega
  · rw [List.append_assoc, List.append_assoc, ← hp']
    exact (UInt32.toNat_inj.1 hsum).symm

/-- Damage confined to the checksum field, or to at most four consecutive bytes of the payload,
is always detected. -/
theorem damage_detected (p : Bytes) (hp : p.length ≤ maxRecordSize) :
    ∃ encoded, encodeRecord crc32c p = .ok encoded ∧
      ∀ d, DamagedWithin 4 4 d encoded ∨ (∃ start, 8 ≤ start ∧ DamagedWithin start 4 d encoded) →
        ∀ t, readRecord crc32c (d ++ t) = .error .corruptRecord := by
  refine ⟨_, encodeRecord_of_legal hp, ?_⟩
  rintro d (h | ⟨start, hstart, h⟩) t
  · exact readRecord_damaged_checksum hp h t
  · exact readRecord_damaged_payload hp hstart h t

/-- One byte of a payload of three. -/
theorem damage_detected_one_byte :
    ∃ encoded, encodeRecord crc32c [1, 2, 3] = .ok encoded ∧
      readRecord crc32c (encoded.set 9 7 ++ [5]) = .error .corruptRecord := by
  obtain ⟨encoded, hencoded, h⟩ := damage_detected [1, 2, 3] (by decide)
  have hbytes : encoded = recordBytes crc32c [1, 2, 3] := by
    rw [encodeRecord_of_legal (by decide), Except.ok.injEq] at hencoded
    exact hencoded.symm
  refine ⟨encoded, hencoded, h _ (.inr ⟨8, Nat.le_refl _, ⟨List.length_set, ?_, ?_⟩⟩) _⟩
  · rw [hbytes]
    decide +kernel
  · intro i hne
    rw [List.getElem?_set] at hne
    split at hne
    · omega
    · exact absurd rfl hne

end LedgerLine.Broker
