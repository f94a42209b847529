import LedgerLine.Lib.Calendar
import LedgerLine.Lib.Decimal
import LedgerLine.Lib.Unmarshal
import LedgerLine.Billing.Database
import Mathlib.Data.String.Basic

/-!
# Events and their fingerprints

Follows `billing/event/event.go`.  A fingerprint hashes the billable content of an event:
each field with its length in front, the quantity in canonical form and the time of the
usage as `time.RFC3339Nano` in UTC.  SHA-256 is a parameter.

`Decode` makes a JSON decoder that refuses unknown fields and takes one value from it.  How a
time and a byte slice are written is left to the packages that know it (`Formats`), and so are
the texts of the errors.  `Encode` is a parameter (`EventCodec`).

`fingerprintContent_eq_iff` says that what is hashed determines tenant, meter, quantity and
instant, and nothing else does: the digits, zeros and offsets a client chose do not matter.
-/

namespace LedgerLine.Billing

/-- `appendInt` of package `time`: a number with at least `width` digits. -/
def appendInt (x : Int) (width : Nat) : List Char :=
  if x < 0 then '-' :: zeroPadded width x.natAbs else zeroPadded width x.natAbs

/-- The digits behind the point without the zeros at the end, for a count of billionths. -/
def fractionDigits (n : Nat) : List Char :=
  (zeroPadded 9 n).rdropWhile (· = '0')

/-- A fraction with its point, or nothing if there is none. -/
def fractionChars (n : Nat) : List Char :=
  if fractionDigits n = [] then [] else '.' :: fractionDigits n

/-- Nanoseconds of a second. -/
def secondFraction (t : Time) : Nat :=
  (t % 1000000000).toNat

/-- Seconds since midnight, UTC. -/
def secondOfDay (t : Time) : Nat :=
  (t / 1000000000 % 86400).toNat

/-- The date, UTC. -/
def dateOfTime (t : Time) : Date :=
  dateOf (t / 1000000000 / 86400)

/-- `t.UTC().Format(time.RFC3339Nano)`. -/
def formatRFC3339Nano (t : Time) : List Char :=
  appendInt (dateOfTime t).year 4 ++ '-' ::
    (zeroPadded 2 (dateOfTime t).month ++ '-' ::
      (zeroPadded 2 (dateOfTime t).day ++ 'T' ::
        (zeroPadded 2 (secondOfDay t / 3600) ++ ':' ::
          (zeroPadded 2 (secondOfDay t % 3600 / 60) ++ ':' ::
            (zeroPadded 2 (secondOfDay t % 60) ++ (fractionChars (secondFraction t) ++ ['Z']))))))

/-- `CanonicalQuantity`, on the characters of the text. -/
def canonicalChars (quantity : List Char) : List Char :=
  match cutPoint quantity with
  | (integer, fraction, hasPoint) =>
      let integer :=
        if integer.dropWhile (· = '0') = [] then ['0'] else integer.dropWhile (· = '0')
      if !hasPoint then integer
      else if fraction.rdropWhile (· = '0') = [] then integer
      else integer ++ '.' :: fraction.rdropWhile (· = '0')

/-- `CanonicalQuantity`. -/
def canonicalQuantity (quantity : String) : String :=
  String.ofList (canonicalChars quantity.toList)

/-- The bytes of a string. -/
def utf8 (s : String) : Bytes :=
  s.toByteArray.data.toList

/-- What `writeField` writes: the length in eight bytes and the value. -/
def writeField (value : String) : Bytes :=
  putBE 8 (utf8 value).length ++ utf8 value

/-- The bytes that `Fingerprint` hashes. -/
def fingerprintContent (e : UsageEvent) : Bytes :=
  writeField e.tenantId ++ writeField e.meter ++ writeField (canonicalQuantity e.quantity) ++
    writeField (String.ofList (formatRFC3339Nano e.occurredAt))

/-- `Fingerprint`. -/
def fingerprint (sha256 : Bytes → Bytes) (e : UsageEvent) : Bytes :=
  sha256 (fingerprintContent e)

/-- The instants `time.Time` has a JSON form for: its year has four digits where the clock
stands, which is less than a day away from UTC. -/
def JsonTime (t : Time) : Prop :=
  -367 * 86400000000000 ≤ t ∧ t < 3652060 * 86400000000000

instance (t : Time) : Decidable (JsonTime t) :=
  inferInstanceAs (Decidable (_ ∧ _))

/-- `Encode` and `Decode`, which are `encoding/json`'s work: what is encoded is decoded again,
and a time without a JSON form is not encoded. -/
structure EventCodec where
  encode : UsageEvent → Option Bytes
  decode : Decoder
  decode_encode : ∀ e record, encode e = some record → decode record = .ok e
  times : ∀ e record, encode e = some record → JsonTime e.occurredAt ∧ JsonTime e.receivedAt

section Record

open Json

/-- Why a request body cannot be read further. -/
inductive ReadError
  /-- `http.MaxBytesError`. -/
  | tooLarge
  | failed (text : String)
deriving DecidableEq, Repr

/-- What `encoding/json` leaves to other packages. -/
structure Formats where
  /-- `time.parseStrictRFC3339`. -/
  parseTime : Bytes → Except String Time
  /-- `base64.StdEncoding.Decode`. -/
  decodeBase64 : List Char → Except String Bytes
  /-- An array of numbers, for the slice that is there. -/
  storeArray : Bytes → Option Bytes → Option Bytes × Option String

/-- `Time.UnmarshalJSON`, for a field that is written with `set`. -/
def unmarshalTime {σ : Type} (formats : Formats) (set : Time → σ → σ) (v : Bytes) (s : σ) :
    Except String σ :=
  match shape v with
  | .null => .ok s
  | .string =>
      match formats.parseTime v.tail.dropLast with
      | .ok t => .ok (set t s)
      | .error e => .error e
  | _ => .error "Time.UnmarshalJSON: input is not a JSON string"

/-- The fields of `UsageEvent`. -/
def usageEventFields (formats : Formats) : List (Field ReadError UsageEvent) :=
  [.string "tenant_id" fun x e => { e with tenantId := x },
    .string "meter" fun x e => { e with meter := x },
    .string "quantity" fun x e => { e with quantity := x },
    .unmarshaler "occurred_at" (unmarshalTime formats fun t e => { e with occurredAt := t }),
    .unmarshaler "received_at" (unmarshalTime formats fun t e => { e with receivedAt := t }),
    .string "idempotency_key" fun x e => { e with idempotencyKey := x },
    .bytes "fingerprint" formats.decodeBase64 formats.storeArray UsageEvent.fingerprint
      fun x e => { e with fingerprint := x }]

/-- The zero value of `UsageEvent`. -/
def zeroEvent : UsageEvent := ⟨"", "", "", 0, 0, "", none⟩

variable (formats : Formats) (errorText : Bytes → Json.Error ReadError → String)

/-- `Decode`, from a log record. -/
def Event.decode (record : Bytes) : Except String UsageEvent :=
  match Json.decode (usageEventFields formats) zeroEvent record .eof with
  | .ok e => .ok e
  | .error e => .error ("decode event: " ++ errorText record e)

namespace EventCodec

/-- `Decode` reads the records of events as the codec does. -/
def Agrees (codec : EventCodec) : Prop :=
  ∀ e record, codec.encode e = some record →
    Event.decode formats errorText record = codec.decode record

/-- A codec agrees with `Decode` exactly if `Decode` gives every event back from its record. -/
theorem agrees_iff {codec : EventCodec} : codec.Agrees formats errorText ↔
    ∀ e record, codec.encode e = some record → Event.decode formats errorText record = .ok e := by
  constructor
  · intro h e record hencode
    rw [h e record hencode, codec.decode_encode e record hencode]
  · intro h e record hencode
    rw [h e record hencode, codec.decode_encode e record hencode]

/-- A codec for the events of a table, with `Decode` as it is. -/
def ofTable (table : List (UsageEvent × Bytes))
    (h : ∀ y ∈ table, Event.decode formats errorText y.2 = .ok y.1 ∧
      JsonTime y.1.occurredAt ∧ JsonTime y.1.receivedAt) : EventCodec where
  encode e := (table.find? fun y => y.1 = e).map Prod.snd
  decode := Event.decode formats errorText
  decode_encode := by
    intro e record hencode
    obtain ⟨y, hfind, rfl⟩ := Option.map_eq_some_iff.1 hencode
    have hy : y.1 = e := by simpa using List.find?_some hfind
    rw [(h y (List.mem_of_find?_eq_some hfind)).1, hy]
  times := by
    intro e record hencode
    obtain ⟨y, hfind, rfl⟩ := Option.map_eq_some_iff.1 hencode
    have hy : y.1 = e := by simpa using List.find?_some hfind
    exact hy ▸ (h y (List.mem_of_find?_eq_some hfind)).2

end EventCodec

end Record

section Digits

theorem zeroPadded_injective (w : Nat) : Function.Injective (zeroPadded w) := by
  intro n m h
  rw [← ofDigitChars_zeroPadded w n, h, ofDigitChars_zeroPadded]

variable {m n : Nat}

/-- A number of known width can be read off the beginning of a text. -/
theorem zeroPadded_append_inj {w : Nat} {s t : List Char} (hw : 0 < w) (hn : n < 10 ^ w)
    (hm : m < 10 ^ w) (h : zeroPadded w n ++ s = zeroPadded w m ++ t) : n = m ∧ s = t := by
  have hlen : (zeroPadded w n).length = (zeroPadded w m).length := by
    rw [length_zeroPadded hw hn, length_zeroPadded hw hm]
  obtain ⟨hdigits, hrest⟩ := List.append_inj h hlen
  exact ⟨zeroPadded_injective w hdigits, hrest⟩

/-- Nine digits are the padded spelling of their value. -/
theorem zeroPadded_ofDigitChars {ds : List Char} {w : Nat} (hw : 0 < w) (hlen : ds.length = w)
    (hdigits : ∀ d ∈ ds, d.isDigit = true) : zeroPadded w (Nat.ofDigitChars 10 ds 0) = ds := by
  have hlt : Nat.ofDigitChars 10 ds 0 < 10 ^ w := by
    rw [← hlen]
    exact ofDigitChars_lt hdigits
  apply eq_of_ofDigitChars
  · exact fun d hd => isDigit_of_mem_zeroPadded hd
  · exact hdigits
  · rw [length_zeroPadded hw hlt, hlen]
  · exact ofDigitChars_zeroPadded _ _

theorem fractionDigits_inj (hn : n < 10 ^ 9) (hm : m < 10 ^ 9)
    (h : fractionDigits n = fractionDigits m) : n = m := by
  apply zeroPadded_injective 9
  apply eq_of_trimRight
  · rw [length_zeroPadded (by decide) hn, length_zeroPadded (by decide) hm]
  · exact h

theorem fractionChars_inj (hn : n < 10 ^ 9) (hm : m < 10 ^ 9)
    (h : fractionChars n = fractionChars m) : n = m := by
  apply fractionDigits_inj hn hm
  rw [fractionChars, fractionChars] at h
  split at h <;> split at h
  · rename_i hn' hm'
    rw [hn', hm']
  · cases h
  · cases h
  · exact (List.cons.inj h).2

theorem length_fractionChars_le (hn : n < 10 ^ 9) : (fractionChars n).length ≤ 10 := by
  have hlen := (List.rdropWhile_prefix (p := (· = '0')) (l := zeroPadded 9 n)).length_le
  rw [length_zeroPadded (by decide) hn] at hlen
  rw [fractionChars]
  split
  · exact Nat.zero_le _
  · rw [List.length_cons, fractionDigits]
    omega

end Digits

section Time

/-- The year of a time has four digits. -/
def FourDigitYear (t : Time) : Prop :=
  0 ≤ (dateOfTime t).year ∧ (dateOfTime t).year ≤ 9999

theorem secondFraction_lt (t : Time) : secondFraction t < 10 ^ 9 := by
  rw [secondFraction]
  omega

/-- A time is its date, its second of the day and its fraction. -/
theorem time_ext {s t : Time} (hdate : dateOfTime s = dateOfTime t)
    (hsecond : secondOfDay s = secondOfDay t) (hfraction : secondFraction s = secondFraction t) :
    s = t := by
  have hsplit : ∀ a b : Int, a / 1000000000 / 86400 = b / 1000000000 / 86400 →
      (a / 1000000000 % 86400).toNat = (b / 1000000000 % 86400).toNat →
      (a % 1000000000).toNat = (b % 1000000000).toNat → a = b := by
    intro a b hday hsecond hfraction
    omega
  exact hsplit s t (dateOf_injective hdate) hsecond hfraction

theorem formatRFC3339Nano_inj {s t : Time} (hs : FourDigitYear s) (ht : FourDigitYear t)
    (h : formatRFC3339Nano s = formatRFC3339Nano t) : s = t := by
  have hs' := hs.1
  have ht' := ht.1
  have hsyear : (dateOfTime s).year.natAbs < 10 ^ 4 := by
    have := hs.2
    omega
  have htyear : (dateOfTime t).year.natAbs < 10 ^ 4 := by
    have := ht.2
    omega
  have hmonth : ∀ t, (dateOfTime t).month < 10 ^ 2 := fun t =>
    Nat.lt_of_le_of_lt (month_dateOf_le _) (by decide)
  have hday : ∀ t, (dateOfTime t).day < 10 ^ 2 := fun t =>
    Nat.lt_of_le_of_lt (day_dateOf_le _) (by decide)
  have hclock : ∀ t, secondOfDay t < 86400 := by
    intro t
    rw [secondOfDay]
    omega
  have hsc := hclock s
  have htc := hclock t
  rw [formatRFC3339Nano, formatRFC3339Nano, appendInt, appendInt, if_neg (by omega),
    if_neg (by omega)] at h
  -- field by field: each has a fixed width
  obtain ⟨hyears, h⟩ := zeroPadded_append_inj (by decide) hsyear htyear h
  obtain ⟨hmonths, h⟩ := zeroPadded_append_inj (by decide) (hmonth s) (hmonth t) (List.cons.inj h).2
  obtain ⟨hdays, h⟩ := zeroPadded_append_inj (by decide) (hday s) (hday t) (List.cons.inj h).2
  obtain ⟨hhours, h⟩ := zeroPadded_append_inj (by decide) (by omega) (by omega) (List.cons.inj h).2
  obtain ⟨hminutes, h⟩ :=
    zeroPadded_append_inj (by decide) (by omega) (by omega) (List.cons.inj h).2
  obtain ⟨hseconds, h⟩ :=
    zeroPadded_append_inj (by decide) (by omega) (by omega) (List.cons.inj h).2
  have hfraction := fractionChars_inj (secondFraction_lt s) (secondFraction_lt t)
    (List.append_cancel_right h)
  apply time_ext _ (by omega) hfraction
  have hyear : (dateOfTime s).year = (dateOfTime t).year := by omega
  cases hds : dateOfTime s
  cases hdt : dateOfTime t
  simp_all

end Time

section Quantities

/-- The number a plain decimal with at most nine places denotes, in billionths. -/
def quantityNanos (quantity : String) : Nat :=
  Nat.ofDigitChars 10
    (nanoDigits (cutPoint quantity.toList).1 (cutPoint quantity.toList).2.1) 0

/-- A decimal that `NUMERIC(38, 9)` takes as it is. -/
structure PlainQuantity (quantity : String) : Prop where
  nonempty : (cutPoint quantity.toList).1 ≠ []
  integer : ∀ c ∈ (cutPoint quantity.toList).1, c.isDigit = true
  fraction : ∀ c ∈ (cutPoint quantity.toList).2.1, c.isDigit = true
  wholePlaces : ((cutPoint quantity.toList).1.dropWhile (· = '0')).length ≤ 29
  places : (cutPoint quantity.toList).2.1.length ≤ 9

namespace PlainQuantity

variable {quantity : String}

variable (h : PlainQuantity quantity)

include h

theorem nanoDigits_eq :
    nanoDigits (cutPoint quantity.toList).1 (cutPoint quantity.toList).2.1 =
      (cutPoint quantity.toList).1 ++ ((cutPoint quantity.toList).2.1 ++
        List.replicate (9 - (cutPoint quantity.toList).2.1.length) '0') := by
  rw [nanoDigits, List.take_append, List.take_of_length_le h.places, List.take_replicate,
    Nat.min_eq_left (Nat.sub_le _ _)]

/-- The integer part and the nine places of a quantity. -/
theorem nanos_eq :
    quantityNanos quantity / 10 ^ 9 = Nat.ofDigitChars 10 (cutPoint quantity.toList).1 0 ∧
      zeroPadded 9 (quantityNanos quantity % 10 ^ 9) = (cutPoint quantity.toList).2.1 ++
        List.replicate (9 - (cutPoint quantity.toList).2.1.length) '0' := by
  have hlen : ((cutPoint quantity.toList).2.1 ++
      List.replicate (9 - (cutPoint quantity.toList).2.1.length) '0').length = 9 := by
    have := h.places
    rw [List.length_append, List.length_replicate]
    omega
  have hdigits : ∀ c ∈ (cutPoint quantity.toList).2.1 ++
      List.replicate (9 - (cutPoint quantity.toList).2.1.length) '0', c.isDigit = true := by
    intro c hc
    rcases List.mem_append.1 hc with hc | hc
    · exact h.fraction c hc
    · rw [List.eq_of_mem_replicate hc]
      decide
  have hspelt := zeroPadded_ofDigitChars (by decide) hlen hdigits
  have hlt : Nat.ofDigitChars 10 ((cutPoint quantity.toList).2.1 ++
      List.replicate (9 - (cutPoint quantity.toList).2.1.length) '0') 0 < 10 ^ 9 := by
    apply (Nat.length_toDigits_le_iff (by decide) (by decide)).1
    have hpadded := congrArg List.length hspelt
    rw [zeroPadded, List.length_append, hlen] at hpadded
    omega
  have hvalue : quantityNanos quantity =
      10 ^ 9 * Nat.ofDigitChars 10 (cutPoint quantity.toList).1 0 +
        Nat.ofDigitChars 10 ((cutPoint quantity.toList).2.1 ++
          List.replicate (9 - (cutPoint quantity.toList).2.1.length) '0') 0 := by
    rw [quantityNanos, h.nanoDigits_eq, Nat.ofDigitChars_append,
      Nat.ofDigitChars_eq_ofDigitChars_zero, hlen]
  rw [hvalue, Nat.mul_add_mod, Nat.mod_eq_of_lt hlt]
  exact ⟨by omega, hspelt⟩

/-- The canonical form is determined by the number. -/
theorem canonicalChars_eq :
    canonicalChars quantity.toList =
      Nat.toDigits 10 (quantityNanos quantity / 10 ^ 9) ++
        fractionChars (quantityNanos quantity % 10 ^ 9) := by
  obtain ⟨hinteger, hplaces⟩ := h.nanos_eq
  have htrim : fractionDigits (quantityNanos quantity % 10 ^ 9) =
      (cutPoint quantity.toList).2.1.rdropWhile (· = '0') := by
    rw [fractionDigits, hplaces, trimRight_append_zeros]
  rw [hinteger, ← trimLeft_eq_toDigits h.integer, fractionChars, htrim, canonicalChars]
  simp only
  split
  · rename_i hpoint
    rw [fraction_of_no_point (by simpa using hpoint)]
    simp
  · split
    · simp
    · rfl

/-- A number below ten to the 38. -/
theorem nanos_lt : quantityNanos quantity < 10 ^ 38 := by
  obtain ⟨hinteger, -⟩ := h.nanos_eq
  have hlen : (Nat.toDigits 10 (quantityNanos quantity / 10 ^ 9)).length ≤ 29 := by
    rw [hinteger, ← trimLeft_eq_toDigits h.integer]
    split
    · decide
    · exact h.wholePlaces
  have hlt := (Nat.length_toDigits_le_iff (by decide) (by decide)).1 hlen
  omega

end PlainQuantity

/-- The point is the first one. -/
theorem takeWhile_canonical (a f : Nat) :
    (Nat.toDigits 10 a ++ fractionChars f).takeWhile (· ≠ '.') = Nat.toDigits 10 a := by
  rw [List.takeWhile_append_of_pos]
  · have hrest : (fractionChars f).takeWhile (· ≠ '.') = [] := by
      rw [fractionChars]
      split
      · rfl
      · simp
    rw [hrest, List.append_nil]
  · intro c hc
    simpa using ne_point_of_mem_toDigits hc

/-- Quantities have the same canonical form exactly if they denote the same number. -/
theorem canonicalQuantity_eq_iff {q q' : String} (h : PlainQuantity q) (h' : PlainQuantity q') :
    canonicalQuantity q = canonicalQuantity q' ↔ quantityNanos q = quantityNanos q' := by
  rw [canonicalQuantity, canonicalQuantity, String.ofList_inj, h.canonicalChars_eq,
    h'.canonicalChars_eq]
  constructor
  · intro hsame
    have hdigits : Nat.toDigits 10 (quantityNanos q / 10 ^ 9) =
        Nat.toDigits 10 (quantityNanos q' / 10 ^ 9) := by
      rw [← takeWhile_canonical _ (quantityNanos q % 10 ^ 9), hsame, takeWhile_canonical]
    have hinteger : quantityNanos q / 10 ^ 9 = quantityNanos q' / 10 ^ 9 := by
      rw [← Nat.ofDigitChars_ten_toDigits (n := quantityNanos q / 10 ^ 9), hdigits,
        Nat.ofDigitChars_ten_toDigits]
    rw [hdigits] at hsame
    have hfraction := fractionChars_inj (Nat.mod_lt _ (by decide)) (Nat.mod_lt _ (by decide))
      (List.append_cancel_left hsame)
    omega
  · intro hsame
    rw [hsame]

end Quantities

section Content

theorem utf8_injective : Function.Injective utf8 := by
  intro s t h
  rw [utf8, utf8, Array.toList_inj] at h
  exact String.toByteArray_inj.1 (ByteArray.ext h)

theorem length_utf8 (s : String) : (utf8 s).length = s.utf8ByteSize := by
  simp [utf8]

/-- A text takes at most four bytes for each character. -/
theorem length_utf8_ofList_le (cs : List Char) :
    (utf8 (String.ofList cs)).length ≤ 4 * cs.length := by
  rw [length_utf8, String.utf8ByteSize_ofList]
  induction cs with
  | nil => exact Nat.le_refl _
  | cons c cs ih =>
      have := c.utf8Size_le_four
      rw [String.utf8Len_cons, List.length_cons]
      omega

/-- A field can be read off the beginning of what is hashed. -/
theorem writeField_append_inj {s t : String} {a b : Bytes} (hs : (utf8 s).length < 2 ^ 64)
    (ht : (utf8 t).length < 2 ^ 64) (h : writeField s ++ a = writeField t ++ b) :
    s = t ∧ a = b := by
  rw [writeField, writeField, List.append_assoc, List.append_assoc] at h
  obtain ⟨hlength, h⟩ := List.append_inj h (by rw [putBE_length, putBE_length])
  have hlen : (utf8 s).length = (utf8 t).length := by
    rw [← getBE_putBE_of_lt (w := 8) hs, hlength, getBE_putBE_of_lt ht]
  obtain ⟨hvalue, hrest⟩ := List.append_inj h hlen
  exact ⟨utf8_injective hvalue, hrest⟩

/-- What ingest has made sure of before it hashes an event. -/
structure Hashable (e : UsageEvent) : Prop where
  tenant : e.tenantId.utf8ByteSize ≤ 255
  meter : e.meter.utf8ByteSize ≤ 255
  quantity : PlainQuantity e.quantity
  occurredAt : FourDigitYear e.occurredAt

theorem length_canonicalQuantity_lt {q : String} (h : PlainQuantity q) :
    (utf8 (canonicalQuantity q)).length < 2 ^ 64 := by
  have hbytes := length_utf8_ofList_le (canonicalChars q.toList)
  have hinteger : (Nat.toDigits 10 (quantityNanos q / 10 ^ 9)).length ≤ 29 := by
    apply (Nat.length_toDigits_le_iff (by decide) (by decide)).2
    have := h.nanos_lt
    omega
  have hfraction := length_fractionChars_le (Nat.mod_lt (quantityNanos q) (by decide : 0 < 10 ^ 9))
  rw [h.canonicalChars_eq, List.length_append] at hbytes
  rw [canonicalQuantity, h.canonicalChars_eq]
  omega

theorem length_formatRFC3339Nano_lt {t : Time} (h : FourDigitYear t) :
    (utf8 (String.ofList (formatRFC3339Nano t))).length < 2 ^ 64 := by
  have hbytes := length_utf8_ofList_le (formatRFC3339Nano t)
  have hfraction := length_fractionChars_le (secondFraction_lt t)
  have hyear : (zeroPadded 4 (dateOfTime t).year.natAbs).length = 4 := by
    apply length_zeroPadded (by decide)
    have := h.1
    have := h.2
    omega
  have hclock : secondOfDay t < 86400 := by
    rw [secondOfDay]
    omega
  have htwo : ∀ n, n < 100 → (zeroPadded 2 n).length = 2 := fun n hn =>
    length_zeroPadded (by decide) hn
  have hmonth := htwo (dateOfTime t).month (Nat.lt_of_le_of_lt (month_dateOf_le _) (by decide))
  have hday := htwo (dateOfTime t).day (Nat.lt_of_le_of_lt (day_dateOf_le _) (by decide))
  have hhour := htwo (secondOfDay t / 3600) (by omega)
  have hminute := htwo (secondOfDay t % 3600 / 60) (by omega)
  have hsecond := htwo (secondOfDay t % 60) (by omega)
  have hlen : (formatRFC3339Nano t).length ≤ 30 := by
    rw [formatRFC3339Nano, appendInt, if_neg (Int.not_lt.2 h.1)]
    simp only [List.length_append, List.length_cons, List.length_nil, hyear, hmonth, hday, hhour,
      hminute, hsecond]
    omega
  omega

/-- What is hashed says what was used, by whom, how much of it and when, and nothing more. -/
theorem fingerprintContent_eq_iff {e e' : UsageEvent} (h : Hashable e) (h' : Hashable e') :
    fingerprintContent e = fingerprintContent e' ↔
      e.tenantId = e'.tenantId ∧ e.meter = e'.meter ∧
        quantityNanos e.quantity = quantityNanos e'.quantity ∧ e.occurredAt = e'.occurredAt := by
  have hshort : ∀ s : String, s.utf8ByteSize ≤ 255 → (utf8 s).length < 2 ^ 64 := by
    intro s hs
    rw [length_utf8]
    omega
  rw [← canonicalQuantity_eq_iff h.quantity h'.quantity]
  constructor
  · intro hsame
    simp only [fingerprintContent, List.append_assoc] at hsame
    obtain ⟨htenant, hsame⟩ :=
      writeField_append_inj (hshort _ h.tenant) (hshort _ h'.tenant) hsame
    obtain ⟨hmeter, hsame⟩ := writeField_append_inj (hshort _ h.meter) (hshort _ h'.meter) hsame
    obtain ⟨hquantity, hsame⟩ := writeField_append_inj (length_canonicalQuantity_lt h.quantity)
      (length_canonicalQuantity_lt h'.quantity) hsame
    rw [← List.append_nil (writeField (String.ofList (formatRFC3339Nano e.occurredAt))),
      ← List.append_nil (writeField (String.ofList (formatRFC3339Nano e'.occurredAt)))] at hsame
    obtain ⟨htime, -⟩ := writeField_append_inj (length_formatRFC3339Nano_lt h.occurredAt)
      (length_formatRFC3339Nano_lt h'.occurredAt) hsame
    exact ⟨htenant, hmeter, hquantity,
      formatRFC3339Nano_inj h.occurredAt h'.occurredAt (String.ofList_inj.1 htime)⟩
  · rintro ⟨htenant, hmeter, hquantity, hoccurred⟩
    rw [fingerprintContent, fingerprintContent, htenant, hmeter, hquantity, hoccurred]

end Content

end LedgerLine.Billing
