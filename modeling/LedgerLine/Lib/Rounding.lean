import Mathlib.Algebra.Order.Floor.Ring
import Mathlib.Tactic.Linarith
import Mathlib.Tactic.FieldSimp
import Mathlib.Tactic.Ring

/-!
# Rounding half away from zero

`roundAway x` is the integer nearest to `x`; of two that are equally near it is the one
further from zero (`roundAway_eq_iff`).  Rounding is monotone.  For a quotient of integers it is
what division with remainder gives (`roundAway_div`, `roundAway_div_emod`).
-/

namespace LedgerLine

variable {K : Type} [Field K] [LinearOrder K] [FloorRing K]

/-- The nearest integer, halves away from zero. -/
def roundAway (x : K) : ℤ :=
  if 0 ≤ x then ⌊x + 1 / 2⌋ else ⌈x - 1 / 2⌉

variable {x : K} {n d : ℤ}

theorem roundAway_eq_iff_of_nonneg (hx : 0 ≤ x) :
    roundAway x = n ↔ (n : K) ≤ x + 1 / 2 ∧ x + 1 / 2 < n + 1 := by
  rw [roundAway, if_pos hx, Int.floor_eq_iff]

theorem roundAway_eq_iff_of_neg (hx : x < 0) :
    roundAway x = n ↔ (n : K) - 1 < x - 1 / 2 ∧ x - 1 / 2 ≤ n := by
  rw [roundAway, if_neg (not_le.2 hx), Int.ceil_eq_iff]

variable [IsStrictOrderedRing K]

/-- The distance to an integer decides, and on a tie the sign. -/
theorem roundAway_eq_iff :
    roundAway x = n ↔
      |x - n| < 1 / 2 ∨ (x - n = 1 / 2 ∧ x < 0) ∨ (x - n = -(1 / 2) ∧ 0 < x) := by
  rw [abs_lt]
  rcases le_or_gt 0 x with hx | hx
  · rw [roundAway_eq_iff_of_nonneg hx]
    constructor
    · rintro ⟨hle, hlt⟩
      rcases hle.lt_or_eq with hle | heq
      · exact .inl ⟨by linarith, by linarith⟩
      · -- a tie below `n`, so `x` is not zero
        refine .inr (.inr ⟨by linarith, lt_of_le_of_ne hx ?_⟩)
        rintro rfl
        have hcast : (n : K) * 2 = 1 := by linarith
        have hint : n * 2 = 1 := by exact_mod_cast hcast
        omega
    · rintro (⟨hlow, hhigh⟩ | ⟨-, hneg⟩ | ⟨heq, -⟩)
      · exact ⟨by linarith, by linarith⟩
      · exact absurd hneg (not_lt.2 hx)
      · exact ⟨by linarith, by linarith⟩
  · rw [roundAway_eq_iff_of_neg hx]
    constructor
    · rintro ⟨hlt, hle⟩
      rcases hle.lt_or_eq with hle | heq
      · exact .inl ⟨by linarith, by linarith⟩
      · exact .inr (.inl ⟨by linarith, hx⟩)
    · rintro (⟨hlow, hhigh⟩ | ⟨heq, -⟩ | ⟨-, hpos⟩)
      · exact ⟨by linarith, by linarith⟩
      · exact ⟨by linarith, by linarith⟩
      · exact absurd hpos (not_lt.2 hx.le)

/-- Rounding is off by one half at most. -/
theorem abs_sub_roundAway_le (x : K) : |x - roundAway x| ≤ 1 / 2 := by
  rcases roundAway_eq_iff.1 (rfl : roundAway x = roundAway x) with h | ⟨h, -⟩ | ⟨h, -⟩
  · exact h.le
  · rw [h, abs_of_pos (by norm_num)]
  · rw [h, abs_neg, abs_of_pos (by norm_num)]

@[simp] theorem roundAway_zero : roundAway (0 : K) = 0 := by
  rw [roundAway_eq_iff]
  left
  norm_num

theorem roundAway_mono {y : K} (h : x ≤ y) : roundAway x ≤ roundAway y := by
  rcases le_or_gt 0 x with hx | hx
  · rw [roundAway, roundAway, if_pos hx, if_pos (hx.trans h)]
    exact Int.floor_mono (by linarith)
  · rcases le_or_gt 0 y with hy | hy
    · rw [roundAway, roundAway, if_neg (not_le.2 hx), if_pos hy]
      have hceil : ⌈x - 1 / 2⌉ ≤ 0 := by
        rw [Int.ceil_le]
        push_cast
        linarith
      have hfloor : 0 ≤ ⌊y + 1 / 2⌋ := by
        rw [Int.le_floor]
        push_cast
        linarith
      exact hceil.trans hfloor
    · rw [roundAway, roundAway, if_neg (not_le.2 hx), if_neg (not_le.2 hy)]
      exact Int.ceil_mono (by linarith)

/-- A quotient of integers is rounded to `n` if what `n` leaves of `a` is half the divisor at
most, and just half only on the side towards zero. -/
theorem roundAway_div_eq_iff {a : ℤ} (hd : 0 < d) :
    roundAway ((a : K) / d) = n ↔
      if a < 0 then -d < 2 * (a - d * n) ∧ 2 * (a - d * n) ≤ d
      else -d ≤ 2 * (a - d * n) ∧ 2 * (a - d * n) < d := by
  have hdK : (0 : K) < d := by exact_mod_cast hd
  have hleft : (2 * (a - d * n) : K) = (2 * ((a : K) / d - n)) * d := by
    field_simp
  split_ifs with ha
  · have hneg : (a : K) / d < 0 := div_neg_of_neg_of_pos (by exact_mod_cast ha) hdK
    rw [roundAway_eq_iff_of_neg hneg, ← @Int.cast_lt K, ← @Int.cast_le K]
    push_cast
    rw [hleft, ← neg_one_mul (d : K), mul_lt_mul_iff_left₀ hdK, mul_le_iff_le_one_left hdK]
    constructor <;> rintro ⟨hlow, hhigh⟩ <;> constructor <;> linarith
  · have hnonneg : 0 ≤ (a : K) / d := div_nonneg (by exact_mod_cast not_lt.1 ha) hdK.le
    rw [roundAway_eq_iff_of_nonneg hnonneg, ← @Int.cast_lt K, ← @Int.cast_le K]
    push_cast
    rw [hleft, ← neg_one_mul (d : K), mul_le_mul_iff_left₀ hdK, mul_lt_iff_lt_one_left hdK]
    constructor <;> rintro ⟨hlow, hhigh⟩ <;> constructor <;> linarith

/-- A quotient of integers: the truncated quotient, one further from zero if the remainder is
at least half the divisor. -/
theorem roundAway_div (a : ℤ) (hd : 0 < d) :
    roundAway ((a : K) / d) =
      if d ≤ (2 * (a.tmod d).natAbs : ℕ) then (if a < 0 then a.tdiv d - 1 else a.tdiv d + 1)
      else a.tdiv d := by
  have hdiv := Int.mul_tdiv_add_tmod a d
  have hlow := Int.lt_tmod_of_pos a hd
  have hhigh := Int.tmod_lt_of_pos a hd
  -- the remainder has the sign of `a`
  have hpos : 0 ≤ a → 0 ≤ a.tmod d := Int.tmod_nonneg d
  have hneg : 0 ≤ -a → 0 ≤ -a.tmod d := fun ha => Int.neg_tmod a d ▸ Int.tmod_nonneg d ha
  rw [roundAway_div_eq_iff hd]
  split_ifs <;> simp only [mul_add, mul_sub, mul_one] <;> omega

/-- A quotient of integers: the one below, and one more if the remainder is more than half the
divisor, or just half of it and `a` is not negative. -/
theorem roundAway_div_emod (a : ℤ) (hd : 0 < d) :
    roundAway ((a : K) / d) =
      a / d + if d < 2 * (a % d) ∨ d = 2 * (a % d) ∧ 0 ≤ a then 1 else 0 := by
  have hdiv := Int.mul_ediv_add_emod a d
  have hlow := Int.emod_nonneg a hd.ne'
  have hhigh := Int.emod_lt_of_pos a hd
  rw [roundAway_div_eq_iff hd]
  split_ifs <;> simp only [mul_add, mul_one, mul_zero] <;> omega

end LedgerLine
