import Mathlib.Algebra.Ring.Nat

/-!
# The Gregorian calendar

The date of a day, given by its number since 1 January of the year 1, for days before that
as well.  Years are found by cutting off cycles of 400, 100, 4 and 1 years, months by
walking over their lengths.  Different days have different dates (`dateOf_injective`).
-/

namespace LedgerLine

/-- A date. -/
structure Date where
  year : Int
  month : Nat
  day : Nat
deriving DecidableEq, Repr

/-- Whether a year has 366 days. -/
def isLeap (year : Int) : Bool :=
  year % 4 = 0 ∧ (year % 100 ≠ 0 ∨ year % 400 = 0)

/-- The days of each month. -/
def monthLengths (leap : Bool) : List Nat :=
  [31, if leap then 29 else 28, 31, 30, 31, 30, 31, 31, 30, 31, 30, 31]

/-- The year of a day and its number in that year, both from the number of the day. -/
def yearDay (day : Int) : Int × Nat :=
  let inEra := day % 146097
  let century := min (inEra / 36524) 3
  let inCentury := inEra - 36524 * century
  let inCycle := inCentury % 1461
  let year := min (inCycle / 365) 3
  (400 * (day / 146097) + 100 * century + 4 * (inCentury / 1461) + year + 1,
    (inCycle - 365 * year).toNat)

/-- Month and day of a day given by its number in the year, from `month` on. -/
def monthDay : List Nat → Nat → Nat → Nat × Nat
  | [], month, n => (month, n + 1)
  | length :: lengths, month, n =>
      if n < length then (month, n + 1) else monthDay lengths (month + 1) (n - length)

/-- The date of a day. -/
def dateOf (day : Int) : Date :=
  let md := monthDay (monthLengths (isLeap (yearDay day).1)) 1 (yearDay day).2
  ⟨(yearDay day).1, md.1, md.2⟩

/-- The cycles a day lies in, which its year counts. -/
theorem yearDay_cycles (day : Int) :
    ∃ era century cycle year n : Int,
      day = 146097 * era + 36524 * century + 1461 * cycle + 365 * year + n ∧
      (0 ≤ century ∧ century ≤ 3) ∧ (0 ≤ cycle ∧ cycle ≤ 24) ∧ (0 ≤ year ∧ year ≤ 3) ∧
      (0 ≤ n ∧ n < 366) ∧
      yearDay day = (400 * era + 100 * century + 4 * cycle + year + 1, n.toNat) := by
  refine ⟨_, _, _, _, _, ?_, ?_, ?_, ?_, ?_, rfl⟩ <;> omega

/-- A year never has more than 366 days. -/
theorem yearDay_lt (day : Int) : (yearDay day).2 < 366 := by
  obtain ⟨era, century, cycle, year, n, -, -, -, -, hn, hday⟩ := yearDay_cycles day
  rw [hday]
  simp only
  omega

theorem yearDay_injective : Function.Injective yearDay := by
  intro a b h
  obtain ⟨era, century, cycle, year, n, ha, hcentury, hcycle, hyear, hn, hday⟩ :=
    yearDay_cycles a
  obtain ⟨era', century', cycle', year', n', hb, hcentury', hcycle', hyear', hn', hday'⟩ :=
    yearDay_cycles b
  rw [hday, hday', Prod.mk.injEq] at h
  -- the year spells the cycles in mixed radix
  have hera : era = era' := by omega
  have hcenturies : century = century' := by omega
  have hcycles : cycle = cycle' := by omega
  omega

/-- A month is not before the one the walk starts from. -/
theorem le_monthDay (lengths : List Nat) (month n : Nat) :
    month ≤ (monthDay lengths month n).1 := by
  induction lengths generalizing month n with
  | nil => exact Nat.le_refl _
  | cons length lengths ih =>
      rw [monthDay]
      split
      · exact Nat.le_refl _
      · exact Nat.le_trans (Nat.le_succ _) (ih _ _)

theorem monthDay_injective (lengths : List Nat) (month : Nat) :
    Function.Injective (monthDay lengths month) := by
  intro a b h
  induction lengths generalizing month a b with
  | nil =>
      simpa [monthDay] using h
  | cons length lengths ih =>
      rw [monthDay, monthDay] at h
      split at h <;> split at h
      · simpa using h
      · have hle := le_monthDay lengths (month + 1) (b - length)
        rw [← h] at hle
        exact absurd hle (Nat.not_succ_le_self _)
      · have hle := le_monthDay lengths (month + 1) (a - length)
        rw [h] at hle
        exact absurd hle (Nat.not_succ_le_self _)
      · have := ih _ h
        omega

/-- Different days have different dates. -/
theorem dateOf_injective : Function.Injective dateOf := by
  intro a b h
  simp only [dateOf, Date.mk.injEq] at h
  obtain ⟨hyear, hmonth, hday⟩ := h
  rw [hyear] at hmonth hday
  have hnumber := monthDay_injective _ _ (Prod.ext hmonth hday)
  exact yearDay_injective (Prod.ext hyear hnumber)

/-- The walk ends after the last month at the latest. -/
theorem monthDay_le (lengths : List Nat) (month n : Nat) :
    (monthDay lengths month n).1 ≤ month + lengths.length := by
  induction lengths generalizing month n with
  | nil => exact Nat.le_refl _
  | cons length lengths ih =>
      rw [monthDay]
      split
      · exact Nat.le_add_right _ _
      · have := ih (month + 1) (n - length)
        rw [List.length_cons]
        omega

/-- A day of a month is at most the 31st. -/
theorem monthDay_day_le {lengths : List Nat} (hlengths : ∀ l ∈ lengths, l ≤ 31) {month n : Nat}
    (hn : n < lengths.sum + 31) : (monthDay lengths month n).2 ≤ 31 := by
  induction lengths generalizing month n with
  | nil =>
      simp [monthDay] at hn ⊢
      omega
  | cons length lengths ih =>
      rw [List.forall_mem_cons] at hlengths
      rw [List.sum_cons] at hn
      rw [monthDay]
      split
      · have := hlengths.1
        simp only
        omega
      · exact ih hlengths.2 (by omega)

theorem month_dateOf_le (day : Int) : (dateOf day).month ≤ 13 :=
  monthDay_le _ _ _

theorem day_dateOf_le (day : Int) : (dateOf day).day ≤ 31 := by
  have hlt := yearDay_lt day
  apply monthDay_day_le
  · cases isLeap (yearDay day).1 <;> decide
  · cases isLeap (yearDay day).1
    · exact Nat.lt_trans hlt (by decide)
    · exact Nat.lt_trans hlt (by decide)

example : dateOf 0 = ⟨1, 1, 1⟩ := by
  decide +kernel

example : dateOf 719162 = ⟨1970, 1, 1⟩ := by
  decide +kernel

example : dateOf 737483 = ⟨2020, 2, 29⟩ := by
  decide +kernel

end LedgerLine
