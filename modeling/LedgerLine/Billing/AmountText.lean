import LedgerLine.Billing.Quantity

/-!
# Amounts as texts

`ParseAmount` and `Amount.String` of `billing/ledger/amount.go`.  An amount is read from an
optional sign and a decimal with at most six places; the digits are read and scaled as those of
a quantity are, so what `Quantity.lean` says about undetected wraps applies here too.

`ParseAmount` computes the magnitude first, which has to fit an int64.  The most negative amount
is printed, but its magnitude does not fit: it is the one amount that cannot be read back
(`parseAmount_amountString_iff`).
-/

namespace LedgerLine.Billing

/-- `Scale`. -/
def scale : Nat := 6

/-- `scaleFactor`. -/
def scaleFactor : Int64 := 1000000

/-- The errors of reading amounts. -/
inductive AmountErr
  /-- `ErrMalformedAmount`: the empty text. -/
  | empty
  /-- `ErrMalformedAmount`: a sign and no digits. -/
  | signOnly
  /-- `ErrMalformedAmount`: no digit before the decimal point. -/
  | noInteger
  /-- `ErrMalformedAmount`: no digit after the decimal point. -/
  | noFraction
  /-- `ErrMalformedAmount`: more than `Scale` decimal places. -/
  | tooPrecise
  /-- `ErrMalformedAmount`: something else than a digit. -/
  | notDigit
  /-- `ErrOverflow`. -/
  | overflow
deriving DecidableEq, Repr

/-- The loop of `parseDigits`, with `n` read so far. -/
def amountDigitsFrom (n : Int64) : List Char → Except AmountErr Int64
  | [] => .ok n
  | r :: rs =>
      if r < '0' ∨ '9' < r then
        .error .notDigit
      else
        let next := n * 10 + Int64.ofNat (r.toNat - '0'.toNat)
        if next < n then .error .overflow else amountDigitsFrom next rs

/-- `parseDigits`. -/
def parseDigits (s : List Char) : Except AmountErr Int64 :=
  if s = [] then .error .notDigit else amountDigitsFrom 0 s

/-- `ParseAmount` behind the sign. -/
def parseAmountBody (negative : Bool) (body : List Char) : Except AmountErr Amount :=
  if body = [] then
    .error .signOnly
  else
    match cutPoint body with
    | (integer, fraction, hasPoint) =>
        if integer = [] then
          .error .noInteger
        else if hasPoint ∧ fraction = [] then
          .error .noFraction
        else if scale < byteLength fraction then
          .error .tooPrecise
        else do
          let whole ← parseDigits integer
          let padded := fraction ++ List.replicate (scale - byteLength fraction) '0'
          let micros ← parseDigits padded
          let scaled := whole * scaleFactor
          if whole ≠ 0 ∧ scaled / scaleFactor ≠ whole then
            .error .overflow
          else
            let total := scaled + micros
            if total < scaled then
              .error .overflow
            else if negative then
              .ok (-total)
            else
              .ok total

/-- `ParseAmount`, on the characters of the text. -/
def parseAmountChars : List Char → Except AmountErr Amount
  | [] => .error .empty
  | c :: rest => if c = '-' then parseAmountBody true rest else parseAmountBody false (c :: rest)

/-- `ParseAmount`. -/
def parseAmount (s : String) : Except AmountErr Amount :=
  parseAmountChars s.toList

/-- A minus sign, or nothing. -/
def signChars (negative : Bool) : List Char :=
  if negative then ['-'] else []

/-- `Amount.String`, as characters.  The most negative amount is written out in the source. -/
def amountChars (a : Amount) : List Char :=
  if a < 0 ∧ a = Int64.minValue then
    "-9223372036854.775808".toList
  else
    let units := if a < 0 then -a else a
    signChars (decide (a < 0)) ++ (formatInt (units / scaleFactor).toInt ++
      '.' :: formatPadded scale (units % scaleFactor).toInt)

/-- `Amount.String`. -/
def amountString (a : Amount) : String :=
  String.ofList (amountChars a)

/-- The loop is that of `parseQuantityDigits` with other errors. -/
theorem amountDigitsFrom_eq_ok_iff {n m : Int64} {cs : List Char} :
    amountDigitsFrom n cs = .ok m ↔ digitsFrom n cs = .ok m := by
  induction cs generalizing n with
  | nil =>
      rw [amountDigitsFrom, digitsFrom, Except.ok.injEq, Except.ok.injEq]
  | cons r rs ih =>
      rw [amountDigitsFrom, digitsFrom]
      split
      · exact iff_of_false (by intro h; cases h) (by intro h; cases h)
      · simp only
        split
        · exact iff_of_false (by intro h; cases h) (by intro h; cases h)
        · exact ih

theorem parseDigits_eq_ok_iff {m : Int64} {cs : List Char} :
    parseDigits cs = .ok m ↔ parseQuantityDigits cs = .ok m := by
  rw [parseDigits, parseQuantityDigits]
  split
  · exact iff_of_false (by intro h; cases h) (by intro h; cases h)
  · exact amountDigitsFrom_eq_ok_iff

/-- A value of the given magnitude. -/
def signed (negative : Bool) (units : Nat) : Int :=
  if negative then -(units : Int) else units

/-- Negating a total is exact: it is not the most negative number. -/
theorem toInt_signed {negative : Bool} {total : Int64} {units : Nat} (h : total.toInt = units) :
    (if negative = true then -total else total).toInt = signed negative units := by
  cases negative with
  | false => exact h
  | true =>
      have hneg := Int64.toInt_neg total
      have hlt := Int64.toInt_lt total
      rw [Int.bmod_eq_of_le (by omega) (by omega), h] at hneg
      exact hneg

/-- Behind the sign, the decimals with at most six places whose value fits are read, exactly. -/
theorem parseAmountBody_eq_ok_iff {negative : Bool} {body : List Char} {a : Amount} :
    parseAmountBody negative body = .ok a ↔
      ∃ d : Decimal, body = d.chars ∧ d.fraction.length ≤ 6 ∧ d.units 6 ≤ 2 ^ 63 - 1 ∧
        a.toInt = signed negative (d.units 6) := by
  have hread := fun total => @readDecimal_iff scaleFactor total 6 (by decide) (by decide)
    (by decide) body
  constructor
  · intro h
    rw [parseAmountBody] at h
    split at h
    · cases h
    simp only at h
    split at h
    · cases h
    rename_i hinteger
    split at h
    · cases h
    rename_i hfraction
    split at h
    · cases h
    rename_i hlen
    obtain ⟨whole, hwhole, h⟩ := ok_of_bind h
    obtain ⟨micros, hmicros, h⟩ := ok_of_bind h
    split at h
    · cases h
    rename_i hscaled
    split at h
    · cases h
    rename_i hge
    obtain ⟨d, hd, hplaces, htotal⟩ := (hread _).1 ⟨hinteger, hfraction, hlen, whole, micros,
      parseDigits_eq_ok_iff.1 hwhole, parseDigits_eq_ok_iff.1 hmicros, hscaled, hge, rfl⟩
    have hlt := Int64.toInt_lt (whole * scaleFactor + micros)
    refine ⟨d, hd, hplaces, by omega, ?_⟩
    rw [← @toInt_signed negative _ _ htotal]
    cases negative <;> cases h <;> rfl
  · rintro ⟨d, hd, hplaces, hfits, ha⟩
    obtain ⟨total, htotal⟩ : ∃ total : Int64, total.toInt = d.units 6 :=
      ⟨Int64.ofNat (d.units 6), Int64.toInt_ofNat_of_lt (by omega)⟩
    obtain ⟨hinteger, hfraction, hlen, whole, micros, hwhole, hmicros, hscaled, hge, rfl⟩ :=
      (hread total).2 ⟨d, hd, hplaces, htotal⟩
    have hne : body ≠ [] := by
      rw [hd]
      exact d.chars_ne_nil
    rw [← @toInt_signed negative _ _ htotal, Int64.toInt_inj] at ha
    rw [parseAmountBody, if_neg hne]
    simp only
    rw [if_neg hinteger, if_neg hfraction, scale, if_neg hlen, parseDigits_eq_ok_iff.2 hwhole,
      parseDigits_eq_ok_iff.2 hmicros]
    change (if _ then _ else _) = _
    rw [if_neg hscaled, if_neg hge, ha]
    cases negative <;> rfl

/-- Only one reading of the sign is possible: a decimal does not begin with one. -/
theorem parseAmountChars_eq_ok_iff {s : List Char} {a : Amount} :
    parseAmountChars s = .ok a ↔
      ∃ (negative : Bool) (d : Decimal), s = signChars negative ++ d.chars ∧
        d.fraction.length ≤ 6 ∧ d.units 6 ≤ 2 ^ 63 - 1 ∧ a.toInt = signed negative (d.units 6) := by
  constructor
  · intro h
    cases s with
    | nil => cases h
    | cons c rest =>
        rw [parseAmountChars] at h
        split at h
        · rename_i hsign
          subst hsign
          obtain ⟨d, rfl, hd⟩ := parseAmountBody_eq_ok_iff.1 h
          exact ⟨true, d, rfl, hd⟩
        · obtain ⟨d, hbody, hd⟩ := parseAmountBody_eq_ok_iff.1 h
          exact ⟨false, d, hbody, hd⟩
  · rintro ⟨negative, d, rfl, hd⟩
    cases negative with
    | true =>
        exact parseAmountBody_eq_ok_iff.2 ⟨d, rfl, hd⟩
    | false =>
        obtain ⟨c, rest, hchars⟩ := List.exists_cons_of_ne_nil d.chars_ne_nil
        have hdigit : c.isDigit = true := by
          apply @Decimal.isDigit_head d
          rw [hchars, List.head?_cons]
        have hsign : c ≠ '-' := by
          rintro rfl
          cases hdigit
        rw [signChars, if_neg (by decide), List.nil_append, hchars, parseAmountChars, if_neg hsign]
        exact parseAmountBody_eq_ok_iff.2 ⟨d, hchars.symm, hd⟩

theorem signed_decimal_inj {negative negative' : Bool} {d d' : Decimal}
    (h : signChars negative ++ d.chars = signChars negative' ++ d'.chars) :
    negative = negative' ∧ d = d' := by
  have hsign : ∀ (e : Decimal) (rest : List Char), e.chars ≠ '-' :: rest := by
    intro e rest heq
    have hdigit := @Decimal.isDigit_head e '-' (by rw [heq, List.head?_cons])
    cases hdigit
  cases negative with
  | true =>
      cases negative' with
      | true =>
          exact ⟨rfl, Decimal.chars_injective (List.append_cancel_left h)⟩
      | false =>
          exact absurd h.symm (hsign d' _)
  | false =>
      cases negative' with
      | true => exact absurd h (hsign d _)
      | false =>
          exact ⟨rfl, Decimal.chars_injective h⟩

/-- `ParseAmount` accepts a sign and a decimal with at most six places whose magnitude fits, and
nothing else; and it computes the exact value. -/
theorem parseAmount_accepts (s : String) :
    ((∃ a, parseAmount s = .ok a) ↔
      ∃ (negative : Bool) (d : Decimal), s.toList = signChars negative ++ d.chars ∧
        d.fraction.length ≤ 6 ∧ d.units 6 ≤ 2 ^ 63 - 1) ∧
    ∀ a negative (d : Decimal), parseAmount s = .ok a → s.toList = signChars negative ++ d.chars →
      a.toInt = signed negative (d.units 6) := by
  refine ⟨?_, ?_⟩
  · constructor
    · rintro ⟨a, h⟩
      obtain ⟨negative, d, hs, hplaces, hfits, -⟩ := parseAmountChars_eq_ok_iff.1 h
      exact ⟨negative, d, hs, hplaces, hfits⟩
    · rintro ⟨negative, d, hs, hplaces, hfits⟩
      have htotal : (Int64.ofNat (d.units 6)).toInt = d.units 6 :=
        Int64.toInt_ofNat_of_lt (by omega)
      exact ⟨_, parseAmountChars_eq_ok_iff.2
        ⟨negative, d, hs, hplaces, hfits, toInt_signed htotal⟩⟩
  · intro a negative d h hs
    obtain ⟨negative', d', hs', -, -, ha⟩ := parseAmountChars_eq_ok_iff.1 h
    obtain ⟨rfl, rfl⟩ := signed_decimal_inj (hs'.symm.trans hs)
    exact ha

/-- An amount is printed as its sign and its magnitude with six places. -/
theorem amountChars_eq (a : Amount) :
    amountChars a =
      signChars (decide (a < 0)) ++ (fixedDecimal 6 a.toInt.natAbs).chars := by
  have hfactor : scaleFactor.toInt = 10 ^ 6 := by decide
  rw [amountChars]
  split
  · rename_i hmin
    rw [hmin.2]
    decide +kernel
  rename_i hmin
  -- everything else has a magnitude that fits
  obtain ⟨units, hunits, habs⟩ : ∃ units : Int64, (if a < 0 then -a else a) = units ∧
      units.toInt = a.toInt.natAbs := by
    refine ⟨_, rfl, ?_⟩
    split
    · rename_i hneg
      have hne : a ≠ Int64.minValue := fun heq => hmin ⟨hneg, heq⟩
      have hge := Int64.le_toInt a
      have hmin' : a.toInt ≠ -2 ^ 63 := by
        intro heq
        exact hne (Int64.toInt_inj.1 heq)
      rw [Int64.lt_iff_toInt_lt, Int64.toInt_zero] at hneg
      rw [Int64.toInt_neg, Int.bmod_eq_of_le (by omega) (by omega)]
      omega
    · rename_i hpos
      rw [Int64.lt_iff_toInt_lt, Int64.toInt_zero] at hpos
      omega
  have hlt := Int64.toInt_lt units
  have hdiv : (units / scaleFactor).toInt = (a.toInt.natAbs / 10 ^ 6 : Nat) := by
    rw [Int64.toInt_div, hfactor, habs, Int.tdiv_eq_ediv_of_nonneg (by omega),
      Int.bmod_eq_of_le (by omega) (by omega)]
    omega
  have hmod : (units % scaleFactor).toInt = (a.toInt.natAbs % 10 ^ 6 : Nat) := by
    rw [Int64.toInt_mod, hfactor, habs, Int.tmod_eq_emod_of_nonneg (by omega)]
    omega
  simp only
  rw [hunits, hdiv, hmod, chars_fixedDecimal (by decide), formatInt, formatPadded,
    if_neg (by omega), if_neg (by omega), Int.natAbs_natCast, Int.natAbs_natCast]
  rfl

/-- Every amount but the most negative one is read back as it was; and every amount is printed
with six decimals, and with a sign exactly if it is negative. -/
theorem parseAmount_amountString_iff (a : Amount) :
    (parseAmount (amountString a) = .ok a ↔ a ≠ Int64.minValue) ∧
    ∃ d : Decimal, (amountString a).toList = signChars (decide (a < 0)) ++ d.chars ∧
      d.fraction.length = 6 := by
  have hchars : (amountString a).toList =
      signChars (decide (a < 0)) ++ (fixedDecimal 6 a.toInt.natAbs).chars := by
    rw [amountString, String.toList_ofList, amountChars_eq]
  have hlen := length_fixedDecimal (by decide : 0 < 6) a.toInt.natAbs
  have hunits := units_fixedDecimal (by decide : 0 < 6) a.toInt.natAbs
  refine ⟨?_, _, hchars, hlen⟩
  rw [parseAmount, hchars, parseAmountChars_eq_ok_iff]
  have hlow := Int64.le_toInt a
  have hhigh := Int64.toInt_lt a
  constructor
  · rintro ⟨negative, d, hs, -, hfits, -⟩ rfl
    obtain ⟨-, rfl⟩ := signed_decimal_inj hs
    rw [hunits] at hfits
    exact absurd hfits (by decide)
  · intro hne
    have hmin : a.toInt ≠ -2 ^ 63 := fun heq => hne (Int64.toInt_inj.1 heq)
    refine ⟨_, _, rfl, Nat.le_of_eq hlen, by omega, ?_⟩
    rw [hunits, signed]
    simp only [decide_eq_true_eq, Int64.lt_iff_toInt_lt, Int64.toInt_zero]
    split
    · omega
    · omega

/-- The most negative amount is printed, and what is printed is refused. -/
theorem parseAmount_amountString_min :
    amountString Int64.minValue = "-9223372036854.775808" ∧
      parseAmount (amountString Int64.minValue) = .error .overflow := by
  decide +kernel

end LedgerLine.Billing
