import Mathlib.Algebra.Ring.Nat
import Mathlib.Data.List.DropRight
import Mathlib.Data.List.Induction

/-!
# Decimal spellings

Digit strings and the numbers they spell (`Nat.ofDigitChars`).  A number has one spelling
without leading zeros (`trimLeft_eq_toDigits`) and one of every sufficient length
(`eq_of_ofDigitChars`); digits after a point are determined by what is left of them without
the zeros at the end, once their number is known (`eq_of_trimRight`).

A `Decimal` is a plain decimal numeral, digits before a point and possibly some behind it;
`Decimal.units` is its value counted in units of a fixed number of places.
-/

namespace LedgerLine

/-- A digit is the character of its value. -/
theorem digitChar_toNat {c : Char} (h : c.isDigit = true) :
    Nat.digitChar (c.toNat - '0'.toNat) = c ∧ c.toNat - '0'.toNat < 10 := by
  rw [Char.isDigit_iff_toNat] at h
  have hzero : '0'.toNat = 48 := by decide
  have hnine : '9'.toNat = 57 := by decide
  rw [hzero, hnine] at h
  rw [hzero]
  have hlt : c.toNat - 48 < 10 := by omega
  refine ⟨?_, hlt⟩
  apply Char.toNat_inj.1
  rw [Nat.toNat_digitChar_of_lt_ten hlt]
  omega

variable {ds : List Char}

/-- Digits behind those of a positive number. -/
theorem toDigits_append {n : Nat} (hn : 0 < n) (hdigits : ∀ c ∈ ds, c.isDigit = true) :
    Nat.toDigits 10 n ++ ds = Nat.toDigits 10 (Nat.ofDigitChars 10 ds n) := by
  induction ds generalizing n with
  | nil =>
      rw [Nat.ofDigitChars_nil, List.append_nil]
  | cons c ds ih =>
      rw [List.forall_mem_cons] at hdigits
      obtain ⟨hchar, hlt⟩ := digitChar_toNat hdigits.1
      have hone := Nat.toDigits_append_toDigits (by decide : 1 < 10) hn hlt
      rw [Nat.toDigits_of_lt_base hlt, hchar] at hone
      rw [Nat.ofDigitChars_cons, ← ih (by omega) hdigits.2, ← hone, List.append_assoc,
        List.singleton_append]

/-- A spelling that does not begin with a zero is the canonical one. -/
theorem toDigits_of_head {c : Char} (hc : c ≠ '0') (hdigits : ∀ d ∈ c :: ds, d.isDigit = true) :
    Nat.toDigits 10 (Nat.ofDigitChars 10 (c :: ds) 0) = c :: ds := by
  rw [List.forall_mem_cons] at hdigits
  obtain ⟨hchar, hlt⟩ := digitChar_toNat hdigits.1
  have hpos : 0 < c.toNat - '0'.toNat := by
    rcases Nat.eq_zero_or_pos (c.toNat - '0'.toNat) with hzero | hpos
    · rw [hzero] at hchar
      exact absurd hchar.symm hc
    · exact hpos
  rw [Nat.ofDigitChars_cons, Nat.mul_zero, Nat.zero_add, ← toDigits_append hpos hdigits.2,
    Nat.toDigits_of_lt_base hlt, hchar, List.singleton_append]

/-- Cutting off leading zeros leaves the canonical spelling, or nothing for zero. -/
theorem trimLeft_eq_toDigits (hdigits : ∀ d ∈ ds, d.isDigit = true) :
    (if ds.dropWhile (· = '0') = [] then ['0'] else ds.dropWhile (· = '0')) =
      Nat.toDigits 10 (Nat.ofDigitChars 10 ds 0) := by
  induction ds with
  | nil =>
      decide
  | cons c ds ih =>
      by_cases hc : c = '0'
      · subst hc
        have hsame : Nat.ofDigitChars 10 ('0' :: ds) 0 = Nat.ofDigitChars 10 ds 0 := by
          rw [Nat.ofDigitChars_cons]
          rfl
        have hdrop : ('0' :: ds).dropWhile (· = '0') = ds.dropWhile (· = '0') := by
          simp
        rw [hsame, hdrop]
        exact ih (List.forall_mem_cons.1 hdigits).2
      · have hdrop : (c :: ds).dropWhile (· = '0') = c :: ds := by
          simp [hc]
        rw [hdrop, if_neg (List.cons_ne_nil _ _), toDigits_of_head hc hdigits]

/-- Among spellings of one length, a number has one. -/
theorem eq_of_ofDigitChars {es : List Char} (hds : ∀ d ∈ ds, d.isDigit = true)
    (hes : ∀ d ∈ es, d.isDigit = true) (hlen : ds.length = es.length)
    (h : Nat.ofDigitChars 10 ds 0 = Nat.ofDigitChars 10 es 0) : ds = es := by
  induction ds using List.reverseRecOn generalizing es with
  | nil =>
      exact (List.length_eq_zero_iff.1 hlen.symm).symm
  | append_singleton ds d ih =>
      rcases List.eq_nil_or_concat' es with rfl | ⟨es, e, rfl⟩
      · simp at hlen
      have hd := digitChar_toNat (hds d (by simp))
      have he := digitChar_toNat (hes e (by simp))
      simp only [Nat.ofDigitChars_append, Nat.ofDigitChars_cons, Nat.ofDigitChars_nil] at h
      have hvalue : d.toNat - '0'.toNat = e.toNat - '0'.toNat := by omega
      have hlast : d = e := by
        rw [← hd.1, ← he.1, hvalue]
      have hfront : ds = es := ih (fun c hc => hds c (List.mem_append_left _ hc))
        (fun c hc => hes c (List.mem_append_left _ hc)) (by simpa using hlen) (by omega)
      rw [hfront, hlast]

/-- Zeros at the end do not matter when zeros at the end are cut off. -/
theorem trimRight_append_zeros (ds : List Char) (k : Nat) :
    (ds ++ List.replicate k '0').rdropWhile (· = '0') = ds.rdropWhile (· = '0') := by
  induction k with
  | zero =>
      rw [List.replicate_zero, List.append_nil]
  | succ k ih =>
      rw [List.replicate_succ', ← List.append_assoc, List.rdropWhile_concat, if_pos (by simp), ih]

/-- What was cut off are zeros. -/
theorem trimRight_append_replicate (ds : List Char) :
    ds.rdropWhile (· = '0') ++
      List.replicate (ds.length - (ds.rdropWhile (· = '0')).length) '0' = ds := by
  have hsplit := List.rdropWhile_append_rtakeWhile (p := (· = '0')) (l := ds)
  have hzeros : ds.rtakeWhile (· = '0') =
      List.replicate (ds.rtakeWhile (· = '0')).length '0' := by
    rw [List.eq_replicate_iff]
    refine ⟨rfl, ?_⟩
    intro c hc
    simpa using List.mem_rtakeWhile_imp hc
  have hlen := congrArg List.length hsplit
  rw [List.length_append] at hlen
  rw [show ds.length - (ds.rdropWhile (· = '0')).length =
    (ds.rtakeWhile (· = '0')).length by omega, ← hzeros, hsplit]

/-- Digits of a known number are determined by what is left without the zeros at the end. -/
theorem eq_of_trimRight {es : List Char} (hlen : ds.length = es.length)
    (h : ds.rdropWhile (· = '0') = es.rdropWhile (· = '0')) : ds = es := by
  rw [← trimRight_append_replicate ds, ← trimRight_append_replicate es, h, hlen]

/-- Zeros behind the digits of a number multiply it. -/
theorem ofDigitChars_append_zeros (ds : List Char) (k : Nat) :
    Nat.ofDigitChars 10 (ds ++ List.replicate k '0') 0 = Nat.ofDigitChars 10 ds 0 * 10 ^ k := by
  rw [Nat.ofDigitChars_append, Nat.ofDigitChars_replicate_zero, Nat.mul_comm]

/-- The number of digits bounds the number. -/
theorem ofDigitChars_lt (hdigits : ∀ d ∈ ds, d.isDigit = true) :
    Nat.ofDigitChars 10 ds 0 < 10 ^ ds.length := by
  induction ds using List.reverseRecOn with
  | nil =>
      decide
  | append_singleton ds d ih =>
      have hd := (digitChar_toNat (hdigits d (by simp))).2
      have hds := ih fun c hc => hdigits c (List.mem_append_left _ hc)
      rw [Nat.ofDigitChars_append, Nat.ofDigitChars_cons, Nat.ofDigitChars_nil,
        List.length_append, List.length_singleton, Nat.pow_succ]
      omega

/-- A plain decimal numeral: at least one digit, and possibly digits behind a point. -/
structure Decimal where
  integer : List Char
  fraction : List Char
  integer_ne_nil : integer ≠ []
  integer_digits : ∀ c ∈ integer, c.isDigit = true
  fraction_digits : ∀ c ∈ fraction, c.isDigit = true

namespace Decimal

/-- How it is written. -/
def chars (d : Decimal) : List Char :=
  d.integer ++ if d.fraction = [] then [] else '.' :: d.fraction

/-- Its value, in units of `places` decimal places. -/
def units (d : Decimal) (places : Nat) : Nat :=
  Nat.ofDigitChars 10 d.integer 0 * 10 ^ places +
    Nat.ofDigitChars 10 d.fraction 0 * 10 ^ (places - d.fraction.length)

theorem chars_ne_nil (d : Decimal) : d.chars ≠ [] := by
  rw [chars]
  exact List.append_ne_nil_of_left_ne_nil d.integer_ne_nil _

/-- It consists of digits and a point. -/
theorem digit_or_point {d : Decimal} {c : Char} (h : c ∈ d.chars) : c.isDigit = true ∨ c = '.' := by
  rw [chars, List.mem_append] at h
  rcases h with h | h
  · exact .inl (d.integer_digits c h)
  · split at h
    · cases h
    · rcases List.mem_cons.1 h with h | h
      · exact .inr h
      · exact .inl (d.fraction_digits c h)

/-- It begins with a digit. -/
theorem isDigit_head {d : Decimal} {c : Char} (h : d.chars.head? = some c) : c.isDigit = true := by
  obtain ⟨x, xs, hx⟩ := List.exists_cons_of_ne_nil d.integer_ne_nil
  rw [chars, hx, List.cons_append, List.head?_cons, Option.some.injEq] at h
  rw [← h]
  exact d.integer_digits x (by rw [hx]; exact List.mem_cons_self)

end Decimal

end LedgerLine
