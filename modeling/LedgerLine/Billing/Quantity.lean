import LedgerLine.Billing.Ledger
import LedgerLine.Lib.Decimal
import Mathlib.Algebra.Ring.Int.Defs
import Mathlib.Algebra.Ring.Nat
import Mathlib.Data.List.TakeWhile

/-!
# Quantities of usage

Follows `billing/pricing/quantity.go`.  A quantity is an int64 count of nano-units; it is
read from and written as a decimal text.  The digit loop tests each step for a sum that got
smaller, which does not catch every overflow of the multiplication by ten; what it lets
through is so large that the later test of the scaled value refuses it
(`scaledDigits_iff`).

`numericText` is how the database prints a NUMERIC with nine decimals.  Main facts:
* `parseQuantityChars_eq_ok_iff`: what is read, and that it is read exactly;
* `parseQuantity_numericText`: reading what the database prints gives the number printed;
* `quantityString_of_nonneg`: the code prints its quantities in the same way.
-/

namespace LedgerLine.Billing

/-- `pricing.Quantity`: a count of nano-units. -/
abbrev Quantity := Int64

/-- `QuantityScale`. -/
def quantityScale : Nat := 9

/-- `quantityFactor`. -/
def quantityFactor : Int64 := 1000000000

/-- The errors of reading and adding quantities. -/
inductive QuantityErr
  /-- `ErrMalformedQuantity`: the empty text. -/
  | empty
  /-- `ErrMalformedQuantity`: a minus sign. -/
  | negative
  /-- `ErrMalformedQuantity`: an exponent, a plus sign, an underscore or a blank. -/
  | notPlain
  /-- `ErrMalformedQuantity`: no digit before the decimal point. -/
  | noInteger
  /-- `ErrMalformedQuantity`: no digit after the decimal point. -/
  | noFraction
  /-- `ErrMalformedQuantity`: more than `QuantityScale` decimal places. -/
  | tooPrecise
  /-- `ErrMalformedQuantity`: something else than a digit. -/
  | notDigit
  /-- `ErrQuantityOverflow`. -/
  | overflow
deriving DecidableEq, Repr

/-- `Quantity.Add`. -/
def Quantity.add (q other : Quantity) : Except QuantityErr Quantity :=
  let sum := q + other
  if (other > 0 ∧ sum < q) ∨ (other < 0 ∧ sum > q) then
    .error .overflow
  else
    .ok sum

/-- `strings.Cut` at a decimal point: what is before it, what is after it, and whether
there is one. -/
def cutPoint (s : List Char) : List Char × List Char × Bool :=
  match s.dropWhile (· ≠ '.') with
  | [] => (s, [], false)
  | _ :: fraction => (s.takeWhile (· ≠ '.'), fraction, true)

/-- `len` of a text, in bytes. -/
def byteLength (s : List Char) : Nat :=
  (s.map Char.utf8Size).sum

/-- The loop of `parseQuantityDigits`, with `n` read so far. -/
def digitsFrom (n : Int64) : List Char → Except QuantityErr Int64
  | [] => .ok n
  | r :: rs =>
      if r < '0' ∨ '9' < r then
        .error .notDigit
      else
        let next := n * 10 + Int64.ofNat (r.toNat - '0'.toNat)
        if next < n then .error .overflow else digitsFrom next rs

/-- `parseQuantityDigits`. -/
def parseQuantityDigits (s : List Char) : Except QuantityErr Int64 :=
  if s = [] then .error .notDigit else digitsFrom 0 s

/-- `ParseQuantity`, on the characters of the text. -/
def parseQuantityChars (s : List Char) : Except QuantityErr Quantity :=
  if s = [] then
    .error .empty
  else if s.head? = some '-' then
    .error .negative
  else if s.any (fun c => c ∈ ['e', 'E', '+', '_', ' ']) then
    .error .notPlain
  else
    match cutPoint s with
    | (integer, fraction, hasPoint) =>
        if integer = [] then
          .error .noInteger
        else if hasPoint ∧ fraction = [] then
          .error .noFraction
        else if quantityScale < byteLength fraction then
          .error .tooPrecise
        else do
          let whole ← parseQuantityDigits integer
          let padded := fraction ++ List.replicate (quantityScale - byteLength fraction) '0'
          let nanos ← parseQuantityDigits padded
          let scaled := whole * quantityFactor
          if whole ≠ 0 ∧ scaled / quantityFactor ≠ whole then
            .error .overflow
          else
            let total := scaled + nanos
            if total < scaled then .error .overflow else .ok total

/-- `ParseQuantity`. -/
def parseQuantity (s : String) : Except QuantityErr Quantity :=
  parseQuantityChars s.toList

/-- A number in decimal, with at least `width` digits. -/
def zeroPadded (width n : Nat) : List Char :=
  List.replicate (width - (Nat.toDigits 10 n).length) '0' ++ Nat.toDigits 10 n

/-- `%d` of `fmt`. -/
def formatInt (i : Int) : List Char :=
  if i < 0 then '-' :: Nat.toDigits 10 i.natAbs else Nat.toDigits 10 i.natAbs

/-- `%0*d` of `fmt`: the sign counts towards the width. -/
def formatPadded (width : Nat) (i : Int) : List Char :=
  if i < 0 then '-' :: zeroPadded (width - 1) i.natAbs else zeroPadded width i.natAbs

/-- `Quantity.String`, as characters. -/
def quantityChars (q : Quantity) : List Char :=
  formatInt (q / quantityFactor).toInt ++
    '.' :: formatPadded quantityScale (q % quantityFactor).toInt

/-- `Quantity.String`. -/
def quantityString (q : Quantity) : String :=
  String.ofList (quantityChars q)

/-- A non-negative count of nano-units as a decimal with nine places. -/
def plainChars (n : Nat) : List Char :=
  Nat.toDigits 10 (n / 10 ^ 9) ++ '.' :: zeroPadded 9 (n % 10 ^ 9)

/-- `numeric::text` for a NUMERIC with nine decimals, given in nano-units. -/
def numericText (n : Int) : String :=
  String.ofList (if n < 0 then '-' :: plainChars n.natAbs else plainChars n.natAbs)

variable {cs : List Char} {m n : Int64} {q : Quantity}

/-- The digit loop never goes down. -/
theorem le_of_digitsFrom (h : digitsFrom n cs = .ok m) : n.toInt ≤ m.toInt := by
  induction cs generalizing n with
  | nil =>
      cases h
      exact Int.le_refl _
  | cons r rs ih =>
      rw [digitsFrom] at h
      split at h
      · cases h
      · simp only at h
        split at h
        · cases h
        · rename_i hge
          rw [Int64.lt_iff_toInt_lt] at hge
          have := ih h
          omega

/-- One step of the digit loop, as long as the result fits. -/
theorem toInt_digit {d : Nat} (hn : 0 ≤ n.toInt) (hd : d ≤ 9) (hfit : n.toInt * 10 + d < 2 ^ 63) :
    (n * 10 + Int64.ofNat d).toInt = n.toInt * 10 + d := by
  have hten : (10 : Int64).toInt = 10 := by decide
  have hdigit : (Int64.ofNat d).toInt = d := by
    apply Int64.toInt_ofNat_of_lt
    omega
  have hmul : (n * 10).toInt = n.toInt * 10 := by
    rw [Int64.toInt_mul, hten, Int.bmod_eq_of_le (by omega) (by omega)]
  rw [Int64.toInt_add, hmul, hdigit, Int.bmod_eq_of_le (by omega) (by omega)]

/-- The test for a digit. -/
theorem isDigit_iff {r : Char} : r.isDigit = true ↔ ¬ (r < '0' ∨ '9' < r) := by
  rw [Char.isDigit_iff_toNat, not_or, Char.not_lt, Char.not_lt]
  exact Iff.rfl

/-- A digit has a value of at most nine. -/
theorem digit_le_nine {r : Char} (h : ¬ (r < '0' ∨ '9' < r)) : r.toNat - '0'.toNat ≤ 9 := by
  have hle : r.toNat ≤ '9'.toNat := by
    rw [not_or] at h
    exact Char.le_def.1 (Char.not_lt.1 h.2)
  have hnine : '9'.toNat = 57 := by decide
  have hzero : '0'.toNat = 48 := by decide
  omega

/-- The digit loop computes the value of the digits, or the value does not fit in an int64
and the result is still larger than any number of whole units. -/
theorem digitsFrom_exact (h : digitsFrom n cs = .ok m) (hn : 0 ≤ n.toInt) :
    m.toInt = Nat.ofDigitChars 10 cs n.toInt.toNat ∨
      2 ^ 63 ≤ Nat.ofDigitChars 10 cs n.toInt.toNat ∧ 922337203685477580 ≤ m.toInt := by
  induction cs generalizing n with
  | nil =>
      cases h
      left
      rw [Nat.ofDigitChars_nil]
      omega
  | cons r rs ih =>
      rw [digitsFrom] at h
      split at h
      · cases h
      rename_i hdigit
      have hd := digit_le_nine hdigit
      simp only at h
      split at h
      · cases h
      rename_i hge
      rw [Int64.lt_iff_toInt_lt] at hge
      rw [Nat.ofDigitChars_cons]
      by_cases hfit : n.toInt * 10 + (r.toNat - '0'.toNat : Nat) < 2 ^ 63
      · have hnext := toInt_digit hn hd hfit
        have hih := ih h (by omega)
        have hvalue : (n * 10 + Int64.ofNat (r.toNat - '0'.toNat)).toInt.toNat =
            10 * n.toInt.toNat + (r.toNat - '0'.toNat) := by
          omega
        rw [hvalue] at hih
        exact hih
      · -- the product wrapped around; the test only says that it did not go down
        right
        have hmono := le_of_digitsFrom h
        constructor
        · rw [Nat.ofDigitChars_eq_ofDigitChars_zero]
          have hpow : 1 ≤ 10 ^ rs.length := Nat.one_le_pow _ _ (by decide)
          have := Nat.mul_le_mul_right (10 * n.toInt.toNat + (r.toNat - '0'.toNat)) hpow
          omega
        · omega

/-- It reads digits only. -/
theorem isDigit_of_digitsFrom (h : digitsFrom n cs = .ok m) : ∀ c ∈ cs, c.isDigit = true := by
  induction cs generalizing n with
  | nil =>
      exact List.forall_mem_nil _
  | cons r rs ih =>
      rw [digitsFrom] at h
      split at h
      · cases h
      rename_i hdigit
      simp only at h
      split at h
      · cases h
      rw [List.forall_mem_cons]
      exact ⟨isDigit_iff.2 hdigit, ih h⟩

/-- It reads all digits whose value fits. -/
theorem digitsFrom_of_fits (hdigits : ∀ c ∈ cs, c.isDigit = true) (hn : 0 ≤ n.toInt)
    (hfit : Nat.ofDigitChars 10 cs n.toInt.toNat < 2 ^ 63) :
    ∃ m, digitsFrom n cs = .ok m ∧ m.toInt = Nat.ofDigitChars 10 cs n.toInt.toNat := by
  induction cs generalizing n with
  | nil =>
      refine ⟨n, rfl, ?_⟩
      rw [Nat.ofDigitChars_nil]
      omega
  | cons r rs ih =>
      rw [List.forall_mem_cons] at hdigits
      have hdigit := isDigit_iff.1 hdigits.1
      have hd := digit_le_nine hdigit
      rw [Nat.ofDigitChars_cons] at hfit ⊢
      have hsmall : 10 * n.toInt.toNat + (r.toNat - '0'.toNat) < 2 ^ 63 := by
        refine Nat.lt_of_le_of_lt ?_ hfit
        rw [Nat.ofDigitChars_eq_ofDigitChars_zero]
        have hpow : 1 ≤ 10 ^ rs.length := Nat.one_le_pow _ _ (by decide)
        have := Nat.mul_le_mul_right (10 * n.toInt.toNat + (r.toNat - '0'.toNat)) hpow
        omega
      have hnext := toInt_digit hn hd (by omega)
      have hvalue : (n * 10 + Int64.ofNat (r.toNat - '0'.toNat)).toInt.toNat =
          10 * n.toInt.toNat + (r.toNat - '0'.toNat) := by
        omega
      rw [← hvalue] at hfit ⊢
      rw [digitsFrom, if_neg hdigit]
      simp only
      rw [if_neg]
      · exact ih hdigits.2 (by omega) hfit
      · rw [Int64.lt_iff_toInt_lt]
        omega

/-- Digits have one byte each. -/
theorem byteLength_of_digits (h : ∀ c ∈ cs, c.isDigit = true) : byteLength cs = cs.length := by
  have hone : cs.map Char.utf8Size = List.replicate cs.length 1 := by
    rw [List.eq_replicate_iff]
    refine ⟨List.length_map _, ?_⟩
    refine List.forall_mem_map.2 fun c hc => ?_
    have hdigit := h c hc
    rw [Char.isDigit_iff_toNat] at hdigit
    rw [Char.utf8Size_eq_one_iff, UInt32.le_iff_toNat_le]
    exact Nat.le_trans hdigit.2 (by decide)
  rw [byteLength, hone, List.sum_replicate_nat, Nat.mul_one]

/-- Dividing by a positive number moves towards zero. -/
theorem tdiv_bounds {x f : Int} (hf : 0 < f) :
    min x 0 ≤ x.tdiv f ∧ x.tdiv f ≤ max x 0 ∧ x.tdiv f * f ≤ max x 0 := by
  rcases Int.le_total 0 x with hx | hx
  · have hnonneg := Int.tdiv_nonneg hx (Int.le_of_lt hf)
    have hle := Int.tdiv_le_self f hx
    have hmul : x.tdiv f * f ≤ x := by
      rw [Int.tdiv_eq_ediv_of_nonneg hx]
      exact Int.ediv_mul_le x (Int.ne_of_gt hf)
    omega
  · have hnonneg := Int.tdiv_nonneg (Int.neg_nonneg.2 hx) (Int.le_of_lt hf)
    have hle := Int.tdiv_le_self f (Int.neg_nonneg.2 hx)
    rw [Int.neg_tdiv] at hnonneg hle
    have hmul : x.tdiv f * f ≤ 0 :=
      Int.mul_nonpos_of_nonpos_of_nonneg (by omega) (Int.le_of_lt hf)
    omega

/-- The two tests of the scaled value catch every overflow, and nothing else. -/
theorem scaled_eq_iff {factor whole part total : Int64} (hfactor : 0 < factor.toInt)
    (hwhole : 0 ≤ whole.toInt) (hpart : 0 ≤ part.toInt) :
    (¬ (whole ≠ 0 ∧ whole * factor / factor ≠ whole) ∧
      ¬ whole * factor + part < whole * factor ∧ whole * factor + part = total) ↔
      total.toInt = whole.toInt * factor.toInt + part.toInt := by
  have hmul := Int64.toInt_mul whole factor
  have hdiv := Int64.toInt_div (whole * factor) factor
  have hadd := Int64.toInt_add (whole * factor) part
  have hlt := Int64.toInt_lt (whole * factor)
  have hge := Int64.le_toInt (whole * factor)
  have hpartlt := Int64.toInt_lt part
  have hnonneg : 0 ≤ whole.toInt * factor.toInt := Int.mul_nonneg hwhole (Int.le_of_lt hfactor)
  obtain ⟨hlow, hhigh, hback⟩ := @tdiv_bounds (whole * factor).toInt factor.toInt hfactor
  rw [Int.bmod_eq_of_le (by omega) (by omega)] at hdiv
  constructor
  · rintro ⟨hscaled, hsum, rfl⟩
    have hexact : (whole * factor).toInt = whole.toInt * factor.toInt := by
      by_cases hzero : whole = 0
      · rw [hmul, hzero, Int64.toInt_zero, Int.zero_mul]
        rfl
      have hsame : whole * factor / factor = whole := by
        by_contra hne
        exact hscaled ⟨hzero, hne⟩
      -- what comes back from the division is too small for the product to have wrapped
      rw [hsame] at hdiv
      rw [← hdiv] at hback
      rw [hmul, Int.bmod_eq_of_le (by omega) (by omega)]
    rw [Int64.lt_iff_toInt_lt] at hsum
    rw [← hexact]
    simp only [Int.bmod_def] at hadd
    omega
  · intro htotal
    have htotallt := Int64.toInt_lt total
    have hexact : (whole * factor).toInt = whole.toInt * factor.toInt := by
      rw [hmul, Int.bmod_eq_of_le (by omega) (by omega)]
    have hsum : (whole * factor + part).toInt = total.toInt := by
      rw [hadd, hexact, ← htotal, Int.bmod_eq_of_le (by omega) (by omega)]
    refine ⟨?_, ?_, Int64.toInt_inj.1 hsum⟩
    · rintro ⟨-, hne⟩
      apply hne
      apply Int64.toInt_inj.1
      rw [hdiv, hexact, Int.mul_tdiv_cancel _ (by omega)]
    · rw [Int64.lt_iff_toInt_lt]
      omega

/-- The end of `ParseQuantity` and of `ParseAmount`: the digits before the point and the padded
ones behind it are read and put together without any wrap.  Undetected wraps of the digit loop
leave so large a number that it cannot be scaled. -/
theorem scaledDigits_iff {factor total : Int64} {places : Nat}
    (hfactor : factor.toInt = 10 ^ places) (hmore : 2 ≤ places) (hless : places ≤ 18)
    {integer padded : List Char} (hlen : padded.length = places) :
    (∃ whole part, parseQuantityDigits integer = .ok whole ∧ parseQuantityDigits padded = .ok part ∧
      ¬ (whole ≠ 0 ∧ whole * factor / factor ≠ whole) ∧
      ¬ whole * factor + part < whole * factor ∧ whole * factor + part = total) ↔
      integer ≠ [] ∧ (∀ c ∈ integer, c.isDigit = true) ∧ (∀ c ∈ padded, c.isDigit = true) ∧
        total.toInt =
          (Nat.ofDigitChars 10 integer 0 * 10 ^ places + Nat.ofDigitChars 10 padded 0 : Nat) := by
  have hpow : (100 : Int) ≤ 10 ^ places := by
    have := Nat.pow_le_pow_right (by decide : 0 < 10) hmore
    exact_mod_cast this
  have hpow' : 10 ^ places < 2 ^ 63 :=
    Nat.lt_of_le_of_lt (Nat.pow_le_pow_right (by decide) hless) (by decide)
  have hpadded : padded ≠ [] := by
    intro hnil
    rw [hnil, List.length_nil] at hlen
    omega
  rw [parseQuantityDigits, parseQuantityDigits, if_neg hpadded]
  constructor
  · rintro ⟨whole, part, hwhole, hpart, hrest⟩
    split at hwhole
    · cases hwhole
    rename_i hinteger
    have hdigits := isDigit_of_digitsFrom hpart
    have hsmall := ofDigitChars_lt hdigits
    rw [hlen] at hsmall
    have hw := digitsFrom_exact hwhole (by decide)
    have hp := digitsFrom_exact hpart (by decide)
    rw [Int64.toInt_zero, Int.toNat_zero] at hw hp
    have htotal := (scaled_eq_iff (by omega) (by omega) (by omega)).1 hrest
    rw [hfactor] at htotal
    refine ⟨hinteger, isDigit_of_digitsFrom hwhole, hdigits, ?_⟩
    rcases hw with hw | ⟨-, hw⟩
    · rw [hw] at htotal
      push_cast
      omega
    · have hbig := Int.mul_le_mul hw hpow (by decide) (by omega)
      have := Int64.toInt_lt total
      omega
  · rintro ⟨hinteger, hidigits, hpdigits, htotal⟩
    have hlt := Int64.toInt_lt total
    have hone : 1 ≤ 10 ^ places := Nat.one_le_pow _ _ (by decide)
    have hscaled := Nat.mul_le_mul_left (Nat.ofDigitChars 10 integer 0) hone
    have hzero : (0 : Int64).toInt.toNat = 0 := by decide
    obtain ⟨whole, hwhole, hw⟩ := digitsFrom_of_fits (n := 0) hidigits (by decide)
      (by rw [hzero]; omega)
    obtain ⟨part, hpart, hp⟩ := digitsFrom_of_fits (n := 0) hpdigits (by decide)
      (by rw [hzero]; omega)
    rw [hzero] at hw hp
    rw [if_neg hinteger]
    refine ⟨whole, part, hwhole, hpart, (scaled_eq_iff (by omega) (by omega) (by omega)).2 ?_⟩
    rw [htotal, hfactor, hw, hp]
    push_cast
    rfl

theorem cutPoint_append {integer fraction : List Char} (h : ∀ c ∈ integer, c ≠ '.') :
    cutPoint (integer ++ '.' :: fraction) = (integer, fraction, true) := by
  have hdrop : (integer ++ '.' :: fraction).dropWhile (· ≠ '.') = '.' :: fraction := by
    rw [List.dropWhile_append_of_pos (by simpa using h)]
    simp
  have htake : (integer ++ '.' :: fraction).takeWhile (· ≠ '.') = integer := by
    rw [List.takeWhile_append_of_pos (by simpa using h)]
    simp
  rw [cutPoint, hdrop, htake]

/-- Digits are not decimal points. -/
theorem ne_point_of_mem_toDigits {n : Nat} {c : Char} (h : c ∈ Nat.toDigits 10 n) : c ≠ '.' := by
  intro hpoint
  subst hpoint
  exact absurd (Nat.isDigit_of_mem_toDigits (by decide) (by decide) h) (by decide)

theorem length_zeroPadded {w n : Nat} (hw : 0 < w) (h : n < 10 ^ w) :
    (zeroPadded w n).length = w := by
  have hlen := (Nat.length_toDigits_le_iff (by decide) hw).2 h
  rw [zeroPadded, List.length_append, List.length_replicate]
  omega

theorem ofDigitChars_zeroPadded (width n : Nat) :
    Nat.ofDigitChars 10 (zeroPadded width n) 0 = n := by
  rw [zeroPadded, Nat.ofDigitChars_append, Nat.ofDigitChars_replicate_zero, Nat.mul_zero,
    Nat.ofDigitChars_ten_toDigits]

/-- Cutting a decimal at its point. -/
theorem cutPoint_decimal (d : Decimal) :
    cutPoint d.chars = (d.integer, d.fraction, decide (d.fraction ≠ [])) := by
  have hpoint : ∀ c ∈ d.integer, c ≠ '.' := by
    rintro c hc rfl
    exact absurd (d.integer_digits _ hc) (by decide)
  by_cases hnil : d.fraction = []
  · have hdrop : d.integer.dropWhile (· ≠ '.') = [] := by
      simpa using hpoint
    rw [Decimal.chars, if_pos hnil, List.append_nil, cutPoint, hdrop]
    simp [hnil]
  · rw [Decimal.chars, if_neg hnil, cutPoint_append hpoint]
    simp [hnil]

/-- The parts put together again. -/
theorem append_cutPoint (s : List Char) :
    s = (cutPoint s).1 ++ if (cutPoint s).2.2 = true then '.' :: (cutPoint s).2.1 else [] := by
  have hsplit := List.takeWhile_append_dropWhile (p := (· ≠ '.')) (l := s)
  rw [cutPoint]
  split
  · simp
  · rename_i c fraction hdrop
    have hc : c = '.' := by
      have hhead := List.head?_dropWhile_not (· ≠ '.') s
      rw [hdrop] at hhead
      simpa using hhead
    rw [hdrop, hc] at hsplit
    simpa using hsplit.symm

/-- Without a point there is nothing behind it. -/
theorem fraction_of_no_point {s : List Char} (h : (cutPoint s).2.2 = false) :
    (cutPoint s).2.1 = [] := by
  rw [cutPoint] at h ⊢
  split at h
  · rfl
  · cases h

/-- The tests and readings that `ParseQuantity` and `ParseAmount` have in common let through the
decimals with at most `places` places whose value fits, and compute it. -/
theorem readDecimal_iff {factor total : Int64} {places : Nat} (hfactor : factor.toInt = 10 ^ places)
    (hmore : 2 ≤ places) (hless : places ≤ 18) {s : List Char} :
    ((cutPoint s).1 ≠ [] ∧ ¬ ((cutPoint s).2.2 = true ∧ (cutPoint s).2.1 = []) ∧
      ¬ places < byteLength (cutPoint s).2.1 ∧
      ∃ whole part, parseQuantityDigits (cutPoint s).1 = .ok whole ∧
        parseQuantityDigits ((cutPoint s).2.1 ++
          List.replicate (places - byteLength (cutPoint s).2.1) '0') = .ok part ∧
        ¬ (whole ≠ 0 ∧ whole * factor / factor ≠ whole) ∧
        ¬ whole * factor + part < whole * factor ∧ whole * factor + part = total) ↔
      ∃ d : Decimal, s = d.chars ∧ d.fraction.length ≤ places ∧ total.toInt = d.units places := by
  constructor
  · rintro ⟨hinteger, hfraction, hbytes, whole, part, hwhole, hpart, hrest⟩
    have hdigits : ∀ c ∈ (cutPoint s).2.1, c.isDigit = true := by
      intro c hc
      rw [parseQuantityDigits] at hpart
      split at hpart
      · cases hpart
      · exact isDigit_of_digitsFrom hpart c (List.mem_append_left _ hc)
    rw [byteLength_of_digits hdigits, Nat.not_lt] at hbytes
    rw [byteLength_of_digits hdigits] at hpart
    obtain ⟨-, hidigits, -, htotal⟩ := (scaledDigits_iff hfactor hmore hless
      (by rw [List.length_append, List.length_replicate]; omega)).1
      ⟨whole, part, hwhole, hpart, hrest⟩
    refine ⟨⟨_, _, hinteger, hidigits, hdigits⟩, ?_, hbytes, ?_⟩
    · refine (append_cutPoint s).trans ?_
      rw [Decimal.chars]
      cases hpoint : (cutPoint s).2.2 with
      | true =>
          rw [if_pos rfl, if_neg fun hnil => hfraction ⟨hpoint, hnil⟩]
      | false =>
          rw [if_neg (by decide), if_pos (fraction_of_no_point hpoint)]
    · rw [htotal, Decimal.units, ofDigitChars_append_zeros]
  · rintro ⟨d, rfl, hlen, htotal⟩
    have hpadded : ∀ c ∈ d.fraction ++ List.replicate (places - d.fraction.length) '0',
        c.isDigit = true := by
      intro c hc
      rcases List.mem_append.1 hc with hc | hc
      · exact d.fraction_digits c hc
      · rw [List.eq_of_mem_replicate hc]
        decide
    rw [cutPoint_decimal]
    simp only [byteLength_of_digits d.fraction_digits]
    refine ⟨d.integer_ne_nil, by simp, Nat.not_lt.2 hlen, ?_⟩
    apply (scaledDigits_iff hfactor hmore hless
      (by rw [List.length_append, List.length_replicate]; omega)).2
    refine ⟨d.integer_ne_nil, d.integer_digits, hpadded, ?_⟩
    rw [htotal, Decimal.units, ofDigitChars_append_zeros]

/-- `ParseQuantity` reads the decimals with at most nine places whose value fits, exactly. -/
theorem parseQuantityChars_eq_ok_iff {s : List Char} :
    parseQuantityChars s = .ok q ↔
      ∃ d : Decimal, s = d.chars ∧ d.fraction.length ≤ 9 ∧ q.toInt = d.units 9 := by
  have hread := @readDecimal_iff quantityFactor q 9 (by decide) (by decide) (by decide) s
  constructor
  · intro h
    rw [parseQuantityChars] at h
    split at h
    · cases h
    split at h
    · cases h
    split at h
    · cases h
    simp only at h
    split at h
    · cases h
    rename_i hinteger
    split at h
    · cases h
    rename_i hfraction
    split at h
    · cases h
    rename_i hlen
    obtain ⟨whole, hwhole, h⟩ := ok_of_bind h
    obtain ⟨nanos, hnanos, h⟩ := ok_of_bind h
    split at h
    · cases h
    rename_i hscaled
    split at h
    · cases h
    rename_i hge
    cases h
    exact hread.1 ⟨hinteger, hfraction, hlen, whole, nanos, hwhole, hnanos, hscaled, hge, rfl⟩
  · intro h
    obtain ⟨hinteger, hfraction, hlen, whole, nanos, hwhole, hnanos, hscaled, hge, rfl⟩ := hread.2 h
    obtain ⟨d, rfl, -, -⟩ := h
    have hsign : d.chars.head? ≠ some '-' :=
      fun hhead => absurd (Decimal.isDigit_head hhead) (by decide)
    have hplain : d.chars.any (fun c => c ∈ ['e', 'E', '+', '_', ' ']) = false := by
      rw [List.any_eq_false]
      intro c hc hodd
      have hdecimal := Decimal.digit_or_point hc
      simp only [List.mem_cons, List.not_mem_nil, or_false, decide_eq_true_eq] at hodd
      rcases hodd with rfl | rfl | rfl | rfl | rfl
      all_goals exact absurd hdecimal (by decide)
    rw [parseQuantityChars, if_neg d.chars_ne_nil, if_neg hsign, hplain, if_neg (by decide)]
    simp only
    rw [if_neg hinteger, if_neg hfraction, quantityScale, if_neg hlen, hwhole, hnanos]
    change (if _ then _ else _) = _
    rw [if_neg hscaled, if_neg hge]

theorem isDigit_of_mem_zeroPadded {w n : Nat} {c : Char} (h : c ∈ zeroPadded w n) :
    c.isDigit = true := by
  rw [zeroPadded, List.mem_append] at h
  rcases h with h | h
  · rw [List.eq_of_mem_replicate h]
    decide
  · exact Nat.isDigit_of_mem_toDigits (by decide) (by decide) h

/-- A count of units of `places` decimal places, written with all of them. -/
def fixedDecimal (places n : Nat) : Decimal where
  integer := Nat.toDigits 10 (n / 10 ^ places)
  fraction := zeroPadded places (n % 10 ^ places)
  integer_ne_nil := Nat.toDigits_ne_nil
  integer_digits := fun _ hc => Nat.isDigit_of_mem_toDigits (by decide) (by decide) hc
  fraction_digits := fun _ hc => isDigit_of_mem_zeroPadded hc

section Fixed

variable {places : Nat} (hplaces : 0 < places) (n : Nat)
include hplaces

theorem length_fixedDecimal : (fixedDecimal places n).fraction.length = places :=
  length_zeroPadded hplaces (Nat.mod_lt n (Nat.pow_pos (by decide)))

theorem chars_fixedDecimal :
    (fixedDecimal places n).chars =
      Nat.toDigits 10 (n / 10 ^ places) ++ '.' :: zeroPadded places (n % 10 ^ places) := by
  have hlen := length_fixedDecimal hplaces n
  rw [Decimal.chars, if_neg]
  · rfl
  · intro hnil
    rw [hnil, List.length_nil] at hlen
    omega

theorem units_fixedDecimal : (fixedDecimal places n).units places = n := by
  rw [Decimal.units, length_fixedDecimal hplaces]
  simp only [fixedDecimal]
  rw [Nat.ofDigitChars_ten_toDigits, ofDigitChars_zeroPadded, Nat.sub_self, Nat.pow_zero,
    Nat.mul_one]
  exact Nat.div_add_mod' n _

end Fixed

/-- How a decimal is written says which one it is. -/
theorem Decimal.chars_injective : Function.Injective Decimal.chars := by
  intro d e h
  have hcut := congrArg cutPoint h
  rw [cutPoint_decimal, cutPoint_decimal] at hcut
  cases d
  cases e
  simp only [Prod.mk.injEq] at hcut
  simp only [Decimal.mk.injEq]
  exact ⟨hcut.1, hcut.2.1⟩

/-- Reading a plain decimal with nine places is exact. -/
theorem parsePlain_eq_ok_iff {n : Nat} :
    parseQuantityChars (plainChars n) = .ok q ↔ q.toInt = n := by
  rw [parseQuantityChars_eq_ok_iff, plainChars, ← chars_fixedDecimal (by decide)]
  constructor
  · rintro ⟨d, hd, -, hq⟩
    rw [hq, ← Decimal.chars_injective hd, units_fixedDecimal (by decide)]
  · intro hq
    refine ⟨_, rfl, Nat.le_of_eq (length_fixedDecimal (by decide) n), ?_⟩
    rw [hq, units_fixedDecimal (by decide)]

/-- Reading what the database prints is exact; a negative number is refused. -/
theorem parseQuantity_numericText {n : Int} :
    parseQuantity (numericText n) = .ok q ↔ 0 ≤ n ∧ q.toInt = n := by
  rw [parseQuantity, numericText, String.toList_ofList]
  split
  · rename_i hneg
    rw [parseQuantityChars, if_neg (List.cons_ne_nil _ _), List.head?_cons, if_pos rfl]
    refine iff_of_false (by intro h; cases h) fun h => ?_
    omega
  · rw [parsePlain_eq_ok_iff]
    omega

theorem toInt_of_parseQuantity {n : Int} (h : parseQuantity (numericText n) = .ok q) :
    q.toInt = n :=
  (parseQuantity_numericText.1 h).2

/-- A quantity that is not negative is printed as the database would. -/
theorem quantityString_of_nonneg (h : 0 ≤ q.toInt) : quantityString q = numericText q.toInt := by
  have hfactor : quantityFactor.toInt = 10 ^ 9 := by decide
  have := Int64.toInt_lt q
  have hdiv : (q / quantityFactor).toInt = q.toInt / 10 ^ 9 := by
    rw [Int64.toInt_div, hfactor, Int.tdiv_eq_ediv_of_nonneg h,
      Int.bmod_eq_of_le (by omega) (by omega)]
  have hmod : (q % quantityFactor).toInt = q.toInt % 10 ^ 9 := by
    rw [Int64.toInt_mod, hfactor, Int.tmod_eq_emod_of_nonneg h]
  have hdivAbs : (q.toInt / 10 ^ 9).natAbs = q.toInt.natAbs / 10 ^ 9 := by
    omega
  have hmodAbs : (q.toInt % 10 ^ 9).natAbs = q.toInt.natAbs % 10 ^ 9 := by
    omega
  rw [quantityString, quantityChars, numericText, plainChars, hdiv, hmod, formatInt,
    formatPadded, if_neg (by omega), if_neg (by omega), if_neg (by omega), hdivAbs, hmodAbs]
  rfl

end LedgerLine.Billing
