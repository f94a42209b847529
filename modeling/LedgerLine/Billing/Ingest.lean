import LedgerLine.Billing.Event
import LedgerLine.Billing.Delivery

/-!
# Ingest

Follows `billing/ingest/validate.go` and `handler.go`: a request is validated, stamped,
fingerprinted and encoded for the log.  `ingest` ends where the record is handed to the log.

What `validate` checks and what the columns of `events` take are two different lists.
`storable_iff` says where they part: an event that was acknowledged can be stored exactly
if none of its texts holds U+0000, and one that cannot keeps its batch from ever committing.
`retry_iff` says that a request is taken for a retry of an earlier one with the same key
exactly if both ask for the same usage.  `parseQuantity_iff_validateQuantity` compares the
quantities that are accepted here with those that pricing reads.
-/

namespace LedgerLine.Billing

/-- `eventRequest`, decoded. -/
structure EventRequest where
  tenantId : String
  meter : String
  quantity : String
  occurredAt : Time
  idempotencyKey : String
deriving DecidableEq, Repr

/-- `rejection`. -/
structure Rejection where
  status : Nat
  code : String
  detail : String
deriving DecidableEq, Repr

/-- `maxFieldLen`. -/
def maxFieldLen : Nat := 255

/-- `maxIntegerDigits`. -/
def maxIntegerDigits : Nat := 29

/-- `maxFractionDigits`. -/
def maxFractionDigits : Nat := 9

/-- `maxClockSkew`: five minutes. -/
def maxClockSkew : Int := 5 * 60 * 1000000000

/-- `maxBackfillAge`: 35 days. -/
def maxBackfillAge : Int := 35 * 24 * 3600 * 1000000000

/-- `invalid`. -/
def invalid (field reason : String) : Rejection :=
  ⟨400, "invalid_field", field ++ " " ++ reason⟩

/-- `unicode.IsSpace`. -/
def isSpace (c : Char) : Bool :=
  c ∈ ['\t', '\n', '\x0b', '\x0c', '\r', ' ', '\u0085', '\u00a0', '\u1680', '\u2028',
    '\u2029', '\u202f', '\u205f', '\u3000'] || ('\u2000' ≤ c && c ≤ '\u200a')

/-- `strings.TrimSpace`. -/
def trimSpace (s : List Char) : List Char :=
  (s.dropWhile isSpace).rdropWhile isSpace

/-- `validateString`. -/
def validateString (field value : String) : Option Rejection :=
  if value = "" then
    some (invalid field "is required")
  else if value.utf8ByteSize > maxFieldLen then
    some (invalid field "must be at most 255 bytes")
  else if trimSpace value.toList ≠ value.toList then
    some (invalid field "must not have leading or trailing whitespace")
  else
    none

/-- `allDigits`. -/
def allDigits (s : List Char) : Bool :=
  s.all (fun r => !(r < '0' || '9' < r)) && !s.isEmpty

/-- `validateQuantity`. -/
def validateQuantity (value : String) : Option Rejection :=
  if value = "" then
    some (invalid "quantity" "is required")
  else if value.toList.any (fun c => c = 'e' || c = 'E') then
    some (invalid "quantity" "must not use scientific notation")
  else if value.toList.head? = some '-' then
    some (invalid "quantity" "must not be negative")
  else if value.toList.head? = some '+' then
    some (invalid "quantity" "must not have a leading plus sign")
  else
    match cutPoint value.toList with
    | (integer, fraction, hasPoint) =>
        if integer = [] then
          some (invalid "quantity" "must have at least one digit before the decimal point")
        else if hasPoint && fraction.isEmpty then
          some (invalid "quantity" "must have at least one digit after the decimal point")
        else if !allDigits integer || (hasPoint && !allDigits fraction) then
          some (invalid "quantity" "must be a decimal number")
        else if (integer.dropWhile (· = '0')).length > maxIntegerDigits then
          some (invalid "quantity" "must have at most 29 digits before the decimal point")
        else if fraction.length > maxFractionDigits then
          some (invalid "quantity" "must have at most 9 digits after the decimal point")
        else
          none

/-- `validateOccurredAt`; the zero time is what a missing field leaves behind. -/
def validateOccurredAt (occurredAt now : Time) : Option Rejection :=
  if occurredAt = 0 then
    some (invalid "occurred_at" "is required")
  else if occurredAt > now + maxClockSkew then
    some (invalid "occurred_at" "must not be in the future")
  else if occurredAt < now - maxBackfillAge then
    some ⟨422, "event_too_old",
      "occurred_at is more than 35 days old; use the backfill path"⟩
  else
    none

/-- `validate`. -/
def validate (req : EventRequest) (now : Time) : Option Rejection :=
  match validateString "tenant_id" req.tenantId with
  | some rej => some rej
  | none =>
    match validateString "meter" req.meter with
    | some rej => some rej
    | none =>
      match validateString "idempotency_key" req.idempotencyKey with
      | some rej => some rej
      | none =>
        match validateQuantity req.quantity with
        | some rej => some rej
        | none => validateOccurredAt req.occurredAt now

/-- `internalError`. -/
def internalError : Rejection :=
  ⟨500, "internal_error", "could not accept event"⟩

/-- The event for a request, with its fingerprint. -/
def eventOf (sha256 : Bytes → Bytes) (req : EventRequest) (receivedAt : Time) : UsageEvent :=
  let e : UsageEvent :=
    ⟨req.tenantId, req.meter, req.quantity, req.occurredAt, receivedAt, req.idempotencyKey, none⟩
  { e with fingerprint := some (fingerprint sha256 e) }

/-- `ServeHTTP`, from the decoded request up to the record that is appended.  The clock is
read twice. -/
def ingest (sha256 : Bytes → Bytes) (codec : EventCodec) (req : EventRequest)
    (now receivedAt : Time) : Except Rejection (UsageEvent × Bytes) :=
  match validate req now with
  | some rej => .error rej
  | none =>
      match codec.encode (eventOf sha256 req receivedAt) with
      | none => .error internalError
      | some record => .ok (eventOf sha256 req receivedAt, record)

section Accepted

variable {value : String}

theorem validateString_eq_none {field : String} (h : validateString field value = none) :
    value ≠ "" ∧ value.utf8ByteSize ≤ 255 ∧ trimSpace value.toList = value.toList := by
  rw [validateString] at h
  split at h
  · cases h
  split at h
  · cases h
  split at h
  · cases h
  rename_i hempty hlong htrim
  exact ⟨hempty, Nat.not_lt.1 hlong, by simpa using htrim⟩

/-- `allDigits` accepts digits. -/
theorem allDigits_iff {s : List Char} :
    allDigits s = true ↔ s ≠ [] ∧ ∀ c ∈ s, c.isDigit = true := by
  simp only [isDigit_iff, allDigits]
  cases s with
  | nil | cons c cs => simp

/-- What `validateQuantity` lets through. -/
theorem validateQuantity_eq_none_iff :
    validateQuantity value = none ↔ ∃ d : Decimal, value.toList = d.chars ∧
      (d.integer.dropWhile (· = '0')).length ≤ 29 ∧ d.fraction.length ≤ 9 := by
  constructor
  · intro h
    rw [validateQuantity] at h
    split at h
    · cases h
    split at h
    · cases h
    split at h
    · cases h
    split at h
    · cases h
    simp only at h
    split at h
    · cases h
    split at h
    · cases h
    rename_i hfraction
    split at h
    · cases h
    rename_i hdigits
    split at h
    · cases h
    rename_i hwhole
    split at h
    · cases h
    rename_i hplaces
    have hdigits' : allDigits (cutPoint value.toList).1 = true ∧
        ((cutPoint value.toList).2.2 = true → allDigits (cutPoint value.toList).2.1 = true) := by
      simpa using hdigits
    obtain ⟨hne, hinteger⟩ := allDigits_iff.1 hdigits'.1
    have hcut := append_cutPoint value.toList
    cases hpoint : (cutPoint value.toList).2.2 with
    | true =>
        obtain ⟨hfne, hfdigits⟩ := allDigits_iff.1 (hdigits'.2 hpoint)
        refine ⟨⟨_, _, hne, hinteger, hfdigits⟩, ?_, Nat.not_lt.1 hwhole, Nat.not_lt.1 hplaces⟩
        rw [hpoint, if_pos rfl] at hcut
        rw [Decimal.chars, if_neg hfne]
        exact hcut
    | false =>
        refine ⟨⟨_, [], hne, hinteger, List.forall_mem_nil _⟩, ?_, Nat.not_lt.1 hwhole,
          Nat.zero_le _⟩
        rw [hpoint, if_neg (by decide)] at hcut
        rw [Decimal.chars, if_pos rfl]
        exact hcut
  · rintro ⟨d, hd, hwhole, hplaces⟩
    have hempty : value ≠ "" := by
      rintro rfl
      exact d.chars_ne_nil hd.symm
    have hplain : d.chars.any (fun c => c = 'e' || c = 'E') = false := by
      rw [List.any_eq_false]
      intro c hc hodd
      have hdecimal := Decimal.digit_or_point hc
      simp only [Bool.or_eq_true, decide_eq_true_eq] at hodd
      rcases hodd with rfl | rfl
      all_goals exact absurd hdecimal (by decide)
    have hsign : ∀ c, c.isDigit = false → d.chars.head? ≠ some c := by
      intro c hc hhead
      rw [Decimal.isDigit_head hhead] at hc
      cases hc
    have hwhole' : ¬ (d.integer.dropWhile (· = '0')).length > maxIntegerDigits :=
      Nat.not_lt.2 hwhole
    have hplaces' : ¬ d.fraction.length > maxFractionDigits := Nat.not_lt.2 hplaces
    rw [validateQuantity, if_neg hempty, hd, hplain, if_neg (by decide),
      if_neg (hsign '-' (by decide)), if_neg (hsign '+' (by decide)), cutPoint_decimal]
    simp only
    rw [if_neg d.integer_ne_nil, if_neg (by simp), if_neg, if_neg hwhole', if_neg hplaces']
    have hinteger := allDigits_iff.2 ⟨d.integer_ne_nil, d.integer_digits⟩
    by_cases hnil : d.fraction = []
    · simp [hinteger, hnil]
    · simp [hinteger, allDigits_iff.2 ⟨hnil, d.fraction_digits⟩]

/-- What `validateQuantity` lets through is a decimal the column takes as it is. -/
theorem plainQuantity_of_validateQuantity (h : validateQuantity value = none) :
    PlainQuantity value := by
  obtain ⟨d, hd, hwhole, hplaces⟩ := validateQuantity_eq_none_iff.1 h
  have hcut : cutPoint value.toList = (d.integer, d.fraction, decide (d.fraction ≠ [])) := by
    rw [hd, cutPoint_decimal]
  constructor
  · rw [hcut]
    exact d.integer_ne_nil
  · rw [hcut]
    exact d.integer_digits
  · rw [hcut]
    exact d.fraction_digits
  · rw [hcut]
    exact hwhole
  · rw [hcut]
    exact hplaces

/-- `quantityNanos` is the value of a decimal with at most nine places. -/
theorem quantityNanos_eq_units {d : Decimal} (hd : value.toList = d.chars)
    (hplaces : d.fraction.length ≤ 9) : quantityNanos value = d.units 9 := by
  have hlen : (d.fraction ++ List.replicate (9 - d.fraction.length) '0').length = 9 := by
    rw [List.length_append, List.length_replicate]
    omega
  have htake : nanoDigits d.integer d.fraction =
      d.integer ++ (d.fraction ++ List.replicate (9 - d.fraction.length) '0') := by
    rw [nanoDigits, List.take_append, List.take_of_length_le hplaces, List.take_replicate,
      Nat.min_eq_left (Nat.sub_le _ _)]
  rw [quantityNanos, hd, cutPoint_decimal]
  simp only
  rw [htake, Nat.ofDigitChars_append, Nat.ofDigitChars_eq_ofDigitChars_zero, hlen,
    ofDigitChars_append_zeros, Decimal.units, Nat.mul_comm]

/-- The decimal that `CanonicalQuantity` writes. -/
def canonicalDecimal (n : Nat) : Decimal where
  integer := Nat.toDigits 10 (n / 10 ^ 9)
  fraction := fractionDigits (n % 10 ^ 9)
  integer_ne_nil := Nat.toDigits_ne_nil
  integer_digits := fun _ hc => Nat.isDigit_of_mem_toDigits (by decide) (by decide) hc
  fraction_digits := fun _ hc =>
    isDigit_of_mem_zeroPadded ((List.rdropWhile_prefix _ _).subset hc)

theorem length_canonicalDecimal (n : Nat) : (canonicalDecimal n).fraction.length ≤ 9 := by
  have hlen := (List.rdropWhile_prefix (p := (· = '0')) (l := zeroPadded 9 (n % 10 ^ 9))).length_le
  rwa [length_zeroPadded (by decide) (Nat.mod_lt n (by decide))] at hlen

/-- Nothing but zeros is missing from it. -/
theorem units_canonicalDecimal (n : Nat) : (canonicalDecimal n).units 9 = n := by
  have hzeros := trimRight_append_replicate (zeroPadded 9 (n % 10 ^ 9))
  rw [length_zeroPadded (by decide) (Nat.mod_lt n (by decide))] at hzeros
  have hvalue := congrArg (fun ds => Nat.ofDigitChars 10 ds 0) hzeros
  simp only [ofDigitChars_append_zeros, ofDigitChars_zeroPadded] at hvalue
  simp only [Decimal.units, canonicalDecimal, fractionDigits, hvalue,
    Nat.ofDigitChars_ten_toDigits]
  omega

/-- Pricing reads the quantities that ingest accepts if their value fits. -/
theorem parseQuantity_eq_ok_iff {s : String} {q : Quantity} :
    parseQuantity s = .ok q ↔ validateQuantity s = none ∧
      ∃ d : Decimal, s.toList = d.chars ∧ d.units 9 ≤ 2 ^ 63 - 1 ∧ q.toInt = d.units 9 := by
  rw [parseQuantity, parseQuantityChars_eq_ok_iff, validateQuantity_eq_none_iff]
  constructor
  · rintro ⟨d, hd, hplaces, hq⟩
    have hfits : d.units 9 ≤ 2 ^ 63 - 1 := by
      have := Int64.toInt_lt q
      omega
    refine ⟨⟨d, hd, ?_, hplaces⟩, d, hd, hfits, hq⟩
    -- a value that fits has far fewer digits than the column takes
    have hsmall : Nat.ofDigitChars 10 d.integer 0 < 10 ^ 29 := by
      rw [Decimal.units] at hfits
      omega
    have hlen := (Nat.length_toDigits_le_iff (by decide) (by decide)).2 hsmall
    rw [← trimLeft_eq_toDigits d.integer_digits] at hlen
    split at hlen
    · rename_i hnil
      rw [hnil]
      exact Nat.zero_le _
    · exact hlen
  · rintro ⟨⟨d, hd, -, hplaces⟩, e, he, -, hq⟩
    have hsame : e = d := Decimal.chars_injective (he.symm.trans hd)
    exact ⟨d, hd, hplaces, by rw [hq, hsame]⟩

/-- The canonical form of a quantity that can be read is read in the same way. -/
theorem parseQuantity_canonicalQuantity {s : String} {q : Quantity}
    (h : parseQuantity s = .ok q) : parseQuantity (canonicalQuantity s) = .ok q := by
  obtain ⟨hvalid, d, hd, -, hq⟩ := parseQuantity_eq_ok_iff.1 h
  obtain ⟨e, he, -, hplaces⟩ := validateQuantity_eq_none_iff.1 hvalid
  have hsame : e = d := Decimal.chars_injective (he.symm.trans hd)
  subst hsame
  rw [parseQuantity, canonicalQuantity, String.toList_ofList,
    (plainQuantity_of_validateQuantity hvalid).canonicalChars_eq, parseQuantityChars_eq_ok_iff]
  refine ⟨canonicalDecimal (quantityNanos s), rfl, length_canonicalDecimal _, ?_⟩
  rw [hq, units_canonicalDecimal, quantityNanos_eq_units hd hplaces]

/-- Ingest and pricing read quantities the same way: pricing refuses none that ingest has
accepted but those too large for it, and computes the exact value. -/
theorem parseQuantity_iff_validateQuantity (s : String) :
    ((∃ q, parseQuantity s = .ok q) ↔
      validateQuantity s = none ∧ ∃ d : Decimal, s.toList = d.chars ∧ d.units 9 ≤ 2 ^ 63 - 1) ∧
    ∀ q, parseQuantity s = .ok q →
      (∃ d : Decimal, s.toList = d.chars ∧ q.toInt = d.units 9) ∧
        parseQuantity (canonicalQuantity s) = .ok q := by
  refine ⟨?_, fun q h => ?_⟩
  · constructor
    · rintro ⟨q, h⟩
      obtain ⟨hvalid, d, hd, hfits, -⟩ := parseQuantity_eq_ok_iff.1 h
      exact ⟨hvalid, d, hd, hfits⟩
    · rintro ⟨hvalid, d, hd, hfits⟩
      obtain ⟨q, hq⟩ : ∃ q : Quantity, q.toInt = d.units 9 :=
        ⟨Int64.ofNat (d.units 9), Int64.toInt_ofNat_of_lt (by omega)⟩
      exact ⟨q, parseQuantity_eq_ok_iff.2 ⟨hvalid, d, hd, hfits, hq⟩⟩
  · obtain ⟨-, d, hd, -, hq⟩ := parseQuantity_eq_ok_iff.1 h
    exact ⟨⟨d, hd, hq⟩, parseQuantity_canonicalQuantity h⟩

/-- What `validate` makes sure of. -/
structure Valid (req : EventRequest) (now : Time) : Prop where
  tenant : validateString "tenant_id" req.tenantId = none
  meter : validateString "meter" req.meter = none
  idempotencyKey : validateString "idempotency_key" req.idempotencyKey = none
  quantity : validateQuantity req.quantity = none
  occurredAt : validateOccurredAt req.occurredAt now = none

theorem validate_eq_none {req : EventRequest} {now : Time} (h : validate req now = none) :
    Valid req now := by
  rw [validate] at h
  split at h
  · cases h
  split at h
  · cases h
  split at h
  · cases h
  split at h
  · cases h
  rename_i htenant _ hmeter _ hkey _ hquantity
  exact ⟨htenant, hmeter, hkey, hquantity, h⟩

variable {sha256 : Bytes → Bytes} {codec : EventCodec} {req : EventRequest}
  {now receivedAt : Time} {e : UsageEvent} {record : Bytes}

/-- What is known of an event that was handed to the log. -/
theorem ingest_eq_ok (h : ingest sha256 codec req now receivedAt = .ok (e, record)) :
    Valid req now ∧ e = eventOf sha256 req receivedAt ∧ codec.encode e = some record := by
  rw [ingest] at h
  split at h
  · cases h
  rename_i hvalid
  split at h
  · cases h
  rename_i record' hencode
  cases h
  exact ⟨validate_eq_none hvalid, rfl, hencode⟩

/-- Times that have a JSON form are within the range of the column. -/
theorem microseconds_of_jsonTime {t : Time} (h : JsonTime t) :
    microseconds t = some (t / 1000 * 1000) := by
  have hmin : timestampMin ≤ t := Int.le_trans (by decide) h.1
  have hend : t < timestampEnd := Int.lt_of_lt_of_le h.2 (by decide)
  rw [microseconds, if_pos ⟨hmin, hend⟩]

/-- A quantity that was let through is stored exactly. -/
theorem plainNumeric_of_plainQuantity {q : String} (h : PlainQuantity q) :
    plainNumeric q = some (quantityNanos q : Int) := by
  refine plainNumeric_eq rfl h.nonempty ?_ h.places h.nanos_lt
  rw [List.all_append, Bool.and_eq_true, List.all_eq_true, List.all_eq_true]
  exact ⟨h.integer, h.fraction⟩

/-- None of the texts of a request holds U+0000. -/
def Storable (req : EventRequest) : Prop :=
  storableText req.tenantId = true ∧ storableText req.meter = true ∧
    storableText req.idempotencyKey = true

/-- The row of an event that was acknowledged, unless one of its texts is refused. -/
theorem row_of_ingest (h : ingest sha256 codec req now receivedAt = .ok (e, record)) :
    ((∃ row, postgresColumns.row e = some row) ↔ Storable req) ∧
      ∀ row, postgresColumns.row e = some row → row.tenantId = req.tenantId ∧
        row.meter = req.meter ∧ row.idempotencyKey = req.idempotencyKey ∧
        row.quantity = quantityNanos req.quantity := by
  obtain ⟨hvalid, rfl, hencode⟩ := ingest_eq_ok h
  obtain ⟨hoccurred, hreceived⟩ := codec.times _ _ hencode
  have hnumeric := plainNumeric_of_plainQuantity
    (plainQuantity_of_validateQuantity hvalid.quantity)
  constructor
  · constructor
    · rintro ⟨row, hrow⟩
      obtain ⟨⟨⟨htenant, hmeter⟩, hkey⟩, -⟩ := Columns.row_eq_some.1 hrow
      exact ⟨htenant, hmeter, hkey⟩
    · rintro ⟨htenant, hmeter, hkey⟩
      exact ⟨_, Columns.row_eq_some.2 ⟨⟨⟨htenant, hmeter⟩, hkey⟩, _, hnumeric, _,
        microseconds_of_jsonTime hoccurred, _, microseconds_of_jsonTime hreceived, rfl⟩⟩
  · intro row hrow
    obtain ⟨-, quantity, hquantity, _, -, _, -, rfl⟩ := Columns.row_eq_some.1 hrow
    refine ⟨rfl, rfl, rfl, ?_⟩
    exact Option.some.inj (hquantity.symm.trans hnumeric)

/-- An acknowledged event is stored as it was sent, and no batch fails because of it, exactly
if none of its texts holds U+0000. -/
theorem storable_iff (h : ingest sha256 codec req now receivedAt = .ok (e, record)) :
    ((∃ row, postgresColumns.row e = some row ∧ row.tenantId = req.tenantId ∧
        row.meter = req.meter ∧ row.idempotencyKey = req.idempotencyKey ∧
        row.quantity = quantityNanos req.quantity) ∧
      ∀ (c : Consumer) (w : World) (p start stop : Nat), w.log[p]? = some record →
        start ≤ p → p < stop → stop ≤ w.log.length →
        (∀ i other, start ≤ i → i < stop → i ≠ p → w.log[i]? = some other →
          Passable postgresColumns codec.decode other) →
        ∃ stats, ((consumerEngine postgresColumns).runBody
          (processBatch codec.decode c start stop) ⟨w, [], []⟩).1 = .commit stats) ↔
      Storable req := by
  obtain ⟨hrow, hfields⟩ := row_of_ingest h
  obtain ⟨-, -, hencode⟩ := ingest_eq_ok h
  constructor
  · rintro ⟨⟨row, hsome, -⟩, -⟩
    exact hrow.1 ⟨row, hsome⟩
  · intro hstorable
    obtain ⟨row, hsome⟩ := hrow.2 hstorable
    refine ⟨⟨row, hsome, hfields row hsome⟩, ?_⟩
    intro c w p start stop hrecord hstart hstop hlen hothers
    apply (processBatch_commits_iff (by omega) hlen).2
    intro i other hle hlt hother
    by_cases hi : i = p
    · subst hi
      have hsame := Option.some.inj (hother.symm.trans hrecord)
      subst hsame
      intro e' he'
      cases (codec.decode_encode _ _ hencode).symm.trans he'
      exact ⟨row, hsome⟩
    · exact hothers i other hle hlt hi hother

/-- A request for one call. -/
def sampleRequest (quantity : String) : EventRequest :=
  ⟨"acme", "api_calls", quantity, 63921351600000000000, "key-1"⟩

/-- A request whose tenant holds U+0000. -/
def nulRequest : EventRequest :=
  { sampleRequest "1" with tenantId := "a\x00b" }

/-- SHA-256, for the two usages of these requests. -/
def sampleSha256 (content : Bytes) : Bytes :=
  let usage := writeField "api_calls" ++ writeField "1" ++ writeField "2026-08-03T11:00:00Z"
  if content = writeField "acme" ++ usage then
    putBE 32 0x8b6878bfc68de3070f7ea6ca802f10c1c558122a8e58a9cf5e25ce9a65935c65
  else if content = writeField "a\x00b" ++ usage then
    putBE 32 0x3eb81e969c10c73c2ea4997d387dbe8c25125186021dd0eb9bbb4d7acbda0357
  else []

/-- The times and the digests that the samples use. -/
def sampleFormats : Formats where
  parseTime raw :=
    let times : List Time :=
      [63921351600000000000, 63921351600000000001, 63921351600000000009]
    match times.find? fun t => utf8 (String.ofList (formatRFC3339Nano t)) = raw with
    | some t => .ok t
    | none => .error "not a time"
  decodeBase64 text :=
    if text = "i2h4v8aN4wcPfqbKgC8QwcVYEiqOWKnPXiXOmmWTXGU=".toList then
      .ok (putBE 32 0x8b6878bfc68de3070f7ea6ca802f10c1c558122a8e58a9cf5e25ce9a65935c65)
    else if text = "PrgelpwQxzwupJl9OH2+jCUSUYYCHdDrm7tNesvaA1c=".toList then
      .ok (putBE 32 0x3eb81e969c10c73c2ea4997d387dbe8c25125186021dd0eb9bbb4d7acbda0357)
    else .error "not base64"
  storeArray _ old := (old, none)

def sampleErrorText (_ : Bytes) (e : Json.Error ReadError) : String :=
  if e = .unexpectedEof then "unexpected EOF" else "malformed"

/-- A log record, with its texts as they are written. -/
def sampleRecord (tenant quantity receivedAt fingerprint : String) : Bytes :=
  utf8 ("\x7b\"tenant_id\":\"" ++ tenant ++ "\",\"meter\":\"api_calls\",\"quantity\":\"" ++
    quantity ++ "\",\"occurred_at\":\"2026-08-03T11:00:00Z\",\"received_at\":\"" ++ receivedAt ++
    "\",\"idempotency_key\":\"key-1\",\"fingerprint\":\"" ++ fingerprint ++ "\"\x7d")

/-- What `json.Marshal` makes of the events of a request, of a retry that spells its quantity
differently, and of the request with U+0000. -/
def sampleRecords : List (UsageEvent × Bytes) :=
  [(eventOf sampleSha256 (sampleRequest "1") 63921351600000000001,
      sampleRecord "acme" "1" "2026-08-03T11:00:00.000000001Z"
        "i2h4v8aN4wcPfqbKgC8QwcVYEiqOWKnPXiXOmmWTXGU="),
    (eventOf sampleSha256 (sampleRequest "01.0") 63921351600000000009,
      sampleRecord "acme" "01.0" "2026-08-03T11:00:00.000000009Z"
        "i2h4v8aN4wcPfqbKgC8QwcVYEiqOWKnPXiXOmmWTXGU="),
    (eventOf sampleSha256 nulRequest 63921351600000000001,
      sampleRecord "a\\u0000b" "1" "2026-08-03T11:00:00.000000001Z"
        "PrgelpwQxzwupJl9OH2+jCUSUYYCHdDrm7tNesvaA1c=")]

/-- A codec with these records. -/
def sampleCodec : EventCodec :=
  .ofTable sampleFormats sampleErrorText sampleRecords (by decide +kernel)

theorem storable_iff_sample :
    ∃ e record, ingest sampleSha256 sampleCodec (sampleRequest "1") 63921351600000000000
        63921351600000000001 = .ok (e, record) ∧
      ∃ row, postgresColumns.row e = some row ∧ row.quantity = 1000000000 := by
  obtain ⟨e, record, hingest⟩ : ∃ e record, ingest sampleSha256 sampleCodec (sampleRequest "1")
      63921351600000000000 63921351600000000001 = .ok (e, record) :=
    ⟨sampleRecords[0].1, sampleRecords[0].2, by decide +kernel⟩
  have hstorable : Storable (sampleRequest "1") := by
    unfold Storable
    decide +kernel
  obtain ⟨⟨row, hrow, -, -, -, hquantity⟩, -⟩ := (storable_iff hingest).2 hstorable
  refine ⟨e, record, hingest, row, hrow, hquantity.trans ?_⟩
  decide +kernel

/-- The request is accepted, the columns refuse its event, and no batch that has its record
ever commits. -/
theorem nul_wedges_consumer :
    ∃ codec e record, ingest sampleSha256 codec nulRequest 63921351600000000000
        63921351600000000001 = .ok (e, record) ∧
      postgresColumns.row e = none ∧
      ∀ (c : Consumer) (w : World) (p start stop : Nat), w.log[p]? = some record →
        start ≤ p → p < stop → stop ≤ w.log.length →
        ∀ stats, ((consumerEngine postgresColumns).runBody
          (processBatch codec.decode c start stop) ⟨w, [], []⟩).1 ≠ .commit stats := by
  have hrow : postgresColumns.row (eventOf sampleSha256 nulRequest 63921351600000000001) =
      none := by
    decide +kernel
  refine ⟨sampleCodec, sampleRecords[2].1, sampleRecords[2].2, by decide +kernel, hrow, ?_⟩
  intro c w p start stop hrecord hstart hstop hlen stats hcommit
  have hall := (processBatch_commits_iff (by omega) hlen).1 ⟨stats, hcommit⟩
  have hdecode : sampleCodec.decode sampleRecords[2].2 = .ok sampleRecords[2].1 := by
    decide +kernel
  obtain ⟨row, hsome⟩ := hall p _ hstart hstop hrecord _ hdecode
  rw [show postgresColumns.row sampleRecords[2].1 = none from hrow] at hsome
  cases hsome

end Accepted

section Retry

variable {cols : Columns} {sha256 : Bytes → Bytes} {codec : EventCodec}
  {consumers : Nat → Consumer}

/-- Two requests ask for the same usage, however they spell it. -/
def SameUsage (r r' : EventRequest) : Prop :=
  r.meter = r'.meter ∧ quantityNanos r.quantity = quantityNanos r'.quantity ∧
    r.occurredAt = r'.occurredAt

theorem hashable_of_ingest {req : EventRequest} {now receivedAt : Time} {e : UsageEvent}
    {record : Bytes} (h : ingest sha256 codec req now receivedAt = .ok (e, record))
    (hyear : FourDigitYear req.occurredAt) : Hashable e := by
  obtain ⟨hvalid, rfl, -⟩ := ingest_eq_ok h
  exact ⟨(validateString_eq_none hvalid.tenant).2.1, (validateString_eq_none hvalid.meter).2.1,
    plainQuantity_of_validateQuantity hvalid.quantity, hyear⟩

/-- Events of one tenant have fingerprints that conflict exactly if the usage differs. -/
theorem fingerprintConflict_iff {r r' : EventRequest} {now now' receivedAt receivedAt' : Time}
    {e e' : UsageEvent} {record record' : Bytes}
    (h : ingest sha256 codec r now receivedAt = .ok (e, record))
    (h' : ingest sha256 codec r' now' receivedAt' = .ok (e', record'))
    (htenant : r.tenantId = r'.tenantId)
    (hyear : FourDigitYear r.occurredAt) (hyear' : FourDigitYear r'.occurredAt)
    (hsha : sha256 (fingerprintContent e) = sha256 (fingerprintContent e') →
      fingerprintContent e = fingerprintContent e') :
    fingerprintConflict e.fingerprint e'.fingerprint = false ↔ SameUsage r r' := by
  have hcontent := fingerprintContent_eq_iff (hashable_of_ingest h hyear)
    (hashable_of_ingest h' hyear')
  obtain ⟨-, rfl, -⟩ := ingest_eq_ok h
  obtain ⟨-, rfl, -⟩ := ingest_eq_ok h'
  have hconflict : fingerprintConflict (eventOf sha256 r receivedAt).fingerprint
      (eventOf sha256 r' receivedAt').fingerprint = false ↔
        sha256 (fingerprintContent (eventOf sha256 r receivedAt)) =
          sha256 (fingerprintContent (eventOf sha256 r' receivedAt')) := by
    simp [fingerprintConflict, eventOf, fingerprint, fingerprintContent]
  rw [hconflict]
  constructor
  · intro hsame
    exact (hcontent.1 (hsha hsame)).2
  · intro hsame
    rw [hcontent.2 ⟨htenant, hsame⟩]

/-- Of two accepted requests with one key, the one that comes second in the log is passed
over as a retry exactly if both ask for the same usage; otherwise it becomes a dead letter.
The row that is stored is the one of the first. -/
theorem retry_iff {r r' : EventRequest} {now now' receivedAt receivedAt' : Time}
    {e e' : UsageEvent} {record record' : Bytes}
    (h : ingest sha256 codec r now receivedAt = .ok (e, record))
    (h' : ingest sha256 codec r' now' receivedAt' = .ok (e', record'))
    (htenant : r.tenantId = r'.tenantId) (hkey : r.idempotencyKey = r'.idempotencyKey)
    (hyear : FourDigitYear r.occurredAt) (hyear' : FourDigitYear r'.occurredAt)
    (hsha : sha256 (fingerprintContent e) = sha256 (fingerprintContent e') →
      fingerprintContent e = fingerprintContent e')
    {log : List Bytes} {f : Fleet}
    (hrun : Relation.ReflTransGen (DeliveryStep cols codec.decode consumers)
      (.start ⟨log, .empty, fun _ => 0⟩) f)
    {p q : Nat} (hp : f.world.log[p]? = some record) (hq : f.world.log[q]? = some record')
    (hfirst : ∀ i < p, ∀ other e₀, f.world.log[i]? = some other →
      codec.decode other = .ok e₀ → e₀.key ≠ e.key)
    {c : String} (hpq : p < q) (hconsumed : q < (f.world.db.offsets c).getD 0) :
    ((∀ row ∈ f.world.db.deadLetters, row.key ≠ (c, q)) ↔ SameUsage r r') ∧
      (¬ SameUsage r r' → keyReuseLetter c q e' record' ∈ f.world.db.deadLetters) ∧
      ∃ row ∈ f.world.db.events, cols.row e = some row ∧
        ∀ stored ∈ f.world.db.events, stored.key = e.key → stored = row := by
  have hgood : Delivery.Good cols codec.decode f.world := (Delivery.inv_of_run hrun).good
  obtain ⟨-, he, hencode⟩ := ingest_eq_ok h
  obtain ⟨-, he', hencode'⟩ := ingest_eq_ok h'
  have hdecode := codec.decode_encode _ _ hencode
  have hdecode' := codec.decode_encode _ _ hencode'
  have hsame : e.key = e'.key := by
    rw [he, he']
    exact Prod.ext htenant hkey
  have hconflict := fingerprintConflict_iff h h' htenant hyear hyear' hsha
  have hat : FirstAt UsageEvent.key (slots codec.decode f.world.log) p e := by
    refine ⟨slots_eq_some.2 ⟨record, hp, hdecode⟩, ?_⟩
    intro i hi e₀ he₀
    obtain ⟨other, hother, hdecode₀⟩ := slots_eq_some.1 he₀
    exact hfirst i hi other e₀ hother hdecode₀
  have hreached : q < f.world.reached c := by
    cases hoffset : f.world.db.offsets c with
    | none =>
        rw [hoffset] at hconsumed
        exact absurd hconsumed (Nat.not_lt_zero q)
    | some next =>
        rw [hoffset] at hconsumed
        exact Nat.lt_of_lt_of_le hconsumed (hgood.offsets c next hoffset)
  -- a dead letter that is there is the one of this record
  have hletter : ∀ row ∈ f.world.db.deadLetters, row.key = (c, q) →
      LetterAt codec.decode c f.world.log q row := by
    intro row hmem hrow
    obtain ⟨p', -, hat'⟩ := hgood.buried.sound row hmem
    have hc : row.consumer = c := congrArg Prod.fst hrow
    rw [hc] at hat'
    have hq' : p' = q := congrArg Prod.snd (hat'.key_eq.symm.trans hrow)
    exact hq' ▸ hat'
  have hreuse : ¬ SameUsage r r' →
      keyReuseLetter c q e' record' ∈ f.world.db.deadLetters := by
    intro hdiffer
    have htrue : fingerprintConflict e.fingerprint e'.fingerprint = true := by
      rw [← hconflict] at hdiffer
      simpa using hdiffer
    have hat' : LetterAt codec.decode c f.world.log q (keyReuseLetter c q e' record') :=
      .keyReuse hq hdecode' hat hsame htrue
    obtain ⟨row, hmem, hrow⟩ := hgood.buried.complete c q _ hreached hat'
    rw [hat'.unique (hletter row hmem hrow)]
    exact hmem
  refine ⟨⟨?_, ?_⟩, hreuse, ?_⟩
  · intro hnone
    by_contra hdiffer
    exact hnone _ (hreuse hdiffer) rfl
  · intro husage row hmem hrow
    have htrue := Delivery.conflict_of_letterAt (hletter row hmem hrow) hq hdecode' hat hsame
    rw [hconflict.2 husage] at htrue
    cases htrue
  · obtain ⟨m, hstored, hbehind⟩ := hgood.stored
    have hfirstRow : ∀ stored ∈ f.world.db.events, stored.key = e.key →
        cols.row e = some stored := by
      intro stored hmem hrow
      obtain ⟨p', -, first, hat', hfirst'⟩ := hstored.sound stored hmem
      rw [hat.unique hat' (hrow.symm.trans (Delivery.row_eq hfirst').1)]
      exact hfirst'
    have hpm : p < m := by
      have := hbehind c
      omega
    obtain ⟨row, hmem, hrow⟩ := hstored.complete p hpm e hat.here
    refine ⟨row, hmem, hfirstRow row hmem hrow, ?_⟩
    intro stored hmem' hrow'
    exact Option.some.inj ((hfirstRow stored hmem' hrow').symm.trans (hfirstRow row hmem hrow))

/-- A retry with another spelling of its quantity is not dead-lettered. -/
theorem retry_iff_sample :
    ∃ f : Fleet, f.world.db.offsets "billing" = some 2 ∧
      ∀ row ∈ f.world.db.deadLetters, row.key ≠ ("billing", 1) := by
  have hrun : ((Consumer.new "billing" 0).runBatch postgresColumns sampleCodec.decode
      ⟨[sampleRecords[0].2, sampleRecords[1].2], .empty, fun _ => 0⟩).1 =
        .commit ⟨2, 1, 1, 0, 0⟩ := by
    decide +kernel
  have hsteps : Relation.ReflTransGen (DrainStep postgresColumns sampleCodec.decode
      fun _ => .new "billing" 0)
      (.start ⟨[sampleRecords[0].2, sampleRecords[1].2], .empty, fun _ => 0⟩) _ :=
    DrainStep.batch_alone (t := 0) rfl (fun _ => rfl) (by decide) hrun
  have hingest : ingest sampleSha256 sampleCodec (sampleRequest "1") 63921351600000000000
      63921351600000000001 = .ok sampleRecords[0] := by
    decide +kernel
  have hingest' : ingest sampleSha256 sampleCodec (sampleRequest "01.0") 63921351600000000008
      63921351600000000009 = .ok sampleRecords[1] := by
    decide +kernel
  have hyear : FourDigitYear (sampleRequest "1").occurredAt := by
    unfold FourDigitYear
    decide +kernel
  have husage : SameUsage (sampleRequest "1") (sampleRequest "01.0") := by
    unfold SameUsage
    decide +kernel
  refine ⟨_, ?_, (retry_iff hingest hingest' rfl rfl hyear hyear (fun _ => by decide +kernel)
    (hsteps.lift id fun _ _ => .drain) (p := 0) (q := 1) ?_ ?_ ?_ Nat.zero_lt_one ?_).1.2 husage⟩
  · decide +kernel
  · decide +kernel
  · decide +kernel
  · intro i hi
    exact absurd hi (Nat.not_lt_zero i)
  · decide +kernel

end Retry

end LedgerLine.Billing
