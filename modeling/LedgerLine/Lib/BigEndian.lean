import Mathlib.Data.List.Induction
import Mathlib.Tactic.Ring

/-!
# Fixed-width big-endian numbers

The byte strings and the big-endian integer fields that binary file formats
are made of.  A field of `w` bytes holds a number modulo `256 ^ w`.

Main facts:
* `getBE_putBE`: reading a written field gives the number back, modulo the
  width of the field;
* `putBE_getBE`: writing what was read gives the same bytes back, so a field
  has exactly one spelling.
-/

namespace LedgerLine

/-- A byte string. -/
abbrev Bytes := List UInt8

/-- The low `8 * w` bits of `n`, most significant byte first. -/
def putBE : Nat → Nat → Bytes
  | 0, _ => []
  | w + 1, n => putBE w (n / 256) ++ [UInt8.ofNat n]

/-- The number a byte string spells, most significant byte first. -/
def getBE (bs : Bytes) : Nat :=
  bs.foldl (fun acc b => acc * 256 + b.toNat) 0

@[simp] theorem putBE_length (w n : Nat) : (putBE w n).length = w := by
  induction w generalizing n with
  | zero => rfl
  | succ w ih => simp [putBE, ih]

@[simp] theorem getBE_nil : getBE [] = 0 := by
  rfl

theorem getBE_concat (bs : Bytes) (b : UInt8) : getBE (bs ++ [b]) = getBE bs * 256 + b.toNat := by
  simp [getBE]

/-- Reading a written field gives the number back, up to the field's width. -/
theorem getBE_putBE (w n : Nat) : getBE (putBE w n) = n % 256 ^ w := by
  induction w generalizing n with
  | zero => simp [putBE, Nat.mod_one]
  | succ w ih =>
      have hlast : (UInt8.ofNat n).toNat = n % 256 := by
        simp [UInt8.toNat_ofNat']
      rw [putBE, getBE_concat, ih, hlast, pow_succ, Nat.mul_comm (256 ^ w) 256,
        Nat.mod_mul]
      ring

/-- A number that fits the field is read back unchanged. -/
theorem getBE_putBE_of_lt {w n : Nat} (h : n < 256 ^ w) : getBE (putBE w n) = n := by
  rw [getBE_putBE, Nat.mod_eq_of_lt h]

/-- Every field has exactly one spelling. -/
theorem putBE_getBE (bs : Bytes) : putBE bs.length (getBE bs) = bs := by
  induction bs using List.reverseRecOn with
  | nil => rfl
  | append_singleton bs b ih =>
      have hb : b.toNat < 256 := b.toNat_lt
      have hdiv : (getBE bs * 256 + b.toNat) / 256 = getBE bs := by
        omega
      have hlast : UInt8.ofNat (getBE bs * 256 + b.toNat) = b := by
        apply UInt8.toNat_inj.mp
        rw [UInt8.toNat_ofNat']
        omega
      rw [List.length_append, List.length_singleton, getBE_concat, putBE, hdiv, ih,
        hlast]

end LedgerLine
