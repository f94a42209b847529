import Mathlib.Data.List.Basic
import Mathlib.Data.List.Induction
import Mathlib.Logic.Function.Basic

/-!
# Cyclic redundancy checks

A register of `w` bits that is fed bit by bit: each bit is added to the lowest one of the
register, the register is shifted down, and if the sum was one the generator is added to it.
This is the reflected form, in which the generator is given without its leading term and its
highest bit stands for the constant term.

If that bit is set, which bit was added can be seen from the highest bit of the result.  So
feeding is injective in the register (`feed_injective`), and two streams that differ in a window
of at most `w` bits leave different registers (`eq_of_feed_burst`).
-/

namespace LedgerLine

section Crc

variable {w : Nat} (poly : BitVec w)

/-- Feed one bit. -/
def feedBit (c : BitVec w) (b : Bool) : BitVec w :=
  if c.getLsbD 0 ^^ b then (c >>> 1) ^^^ poly else c >>> 1

/-- Feed several bits. -/
def feed (c : BitVec w) (bits : List Bool) : BitVec w :=
  bits.foldl (feedBit poly) c

@[simp] theorem feed_nil (c : BitVec w) : feed poly c [] = c := by
  rfl

theorem feed_append (c : BitVec w) (xs ys : List Bool) :
    feed poly c (xs ++ ys) = feed poly (feed poly c xs) ys :=
  List.foldl_append

theorem feed_concat (c : BitVec w) (xs : List Bool) (x : Bool) :
    feed poly c (xs ++ [x]) = feedBit poly (feed poly c xs) x :=
  feed_append poly c xs [x]

/-- The bits of the new register. -/
theorem getLsbD_feedBit (c : BitVec w) (b : Bool) (i : Nat) :
    (feedBit poly c b).getLsbD i =
      (c.getLsbD (i + 1) ^^ ((c.getLsbD 0 ^^ b) && poly.getLsbD i)) := by
  rw [feedBit]
  cases hb : c.getLsbD 0 ^^ b with
  | true =>
      simp [BitVec.getLsbD_xor, BitVec.getLsbD_ushiftRight, Nat.add_comm 1 i]
  | false =>
      simp [BitVec.getLsbD_ushiftRight, Nat.add_comm 1 i]

/-- What is added to the register and not to the stream: its lowest bit acts as a bit of the
stream, the others move down. -/
theorem feedBit_xor (c x : BitVec w) :
    feedBit poly (c ^^^ x) false = feedBit poly c (x.getLsbD 0) ^^^ (x >>> 1) := by
  apply BitVec.eq_of_getLsbD_eq
  intro i _
  rw [BitVec.getLsbD_xor, getLsbD_feedBit, getLsbD_feedBit, BitVec.getLsbD_xor, BitVec.getLsbD_xor,
    BitVec.getLsbD_ushiftRight, Nat.add_comm 1 i, Bool.xor_false, Bool.xor_assoc, Bool.xor_assoc,
    Bool.xor_comm (x.getLsbD (i + 1))]

/-- Adding `k` bits at once and then shifting `k` times is feeding them one by one. -/
theorem foldl_feedBit_xor (c x : BitVec w) (k : Nat) :
    (List.range k).foldl (fun c _ => feedBit poly c false) (c ^^^ x) =
      feed poly c ((List.range k).map x.getLsbD) ^^^ (x >>> k) := by
  induction k with
  | zero => simp
  | succ k ih =>
      rw [List.range_succ, List.foldl_append, ih, List.map_append, List.map_singleton, feed_concat,
        List.foldl_cons, List.foldl_nil, feedBit_xor, BitVec.getLsbD_ushiftRight, Nat.add_zero,
        BitVec.shiftRight_add]

variable {poly}

section Top

variable (htop : poly.getLsbD (w - 1) = true)
include htop

/-- The highest bit tells whether the generator was added. -/
theorem getLsbD_feedBit_top (c : BitVec w) (b : Bool) :
    (feedBit poly c b).getLsbD (w - 1) = (c.getLsbD 0 ^^ b) := by
  rw [getLsbD_feedBit, BitVec.getLsbD_of_ge c (w - 1 + 1) (by omega), htop, Bool.and_true,
    Bool.false_xor]

theorem feedBit_injective (b : Bool) : Function.Injective fun c => feedBit poly c b := by
  intro c c' h
  have hbits : ∀ i, (feedBit poly c b).getLsbD i = (feedBit poly c' b).getLsbD i :=
    fun i => congrArg (fun d => BitVec.getLsbD d i) h
  have hlow : c.getLsbD 0 = c'.getLsbD 0 := by
    have := hbits (w - 1)
    rwa [getLsbD_feedBit_top htop, getLsbD_feedBit_top htop, Bool.xor_left_inj] at this
  apply BitVec.eq_of_getLsbD_eq
  intro i _
  cases i with
  | zero => exact hlow
  | succ i =>
      have := hbits i
      rwa [getLsbD_feedBit, getLsbD_feedBit, hlow, Bool.xor_left_inj] at this

/-- Feeding the same bits keeps different registers different. -/
theorem feed_injective (bits : List Bool) : Function.Injective fun c => feed poly c bits := by
  induction bits with
  | nil =>
      exact Function.injective_id
  | cons b bits ih =>
      exact ih.comp (feedBit_injective htop b)

/-- Streams that start from one register and lead to registers that agree above their `k` lowest
bits are equal, if they are short enough.

The induction is on the streams from their end: the last bits are told apart by the highest bit
of the registers, and before them the registers agree above their `k + 1` lowest bits. -/
theorem eq_of_feed_agree {c : BitVec w} {xs ys : List Bool} (hlen : xs.length = ys.length) {k : Nat}
    (hk : xs.length + k ≤ w)
    (h : ∀ i, k ≤ i → (feed poly c xs).getLsbD i = (feed poly c ys).getLsbD i) : xs = ys := by
  induction xs using List.reverseRecOn generalizing ys k with
  | nil =>
      exact (List.length_eq_zero_iff.1 hlen.symm).symm
  | append_singleton xs x ih =>
      rcases List.eq_nil_or_concat' ys with rfl | ⟨ys, y, rfl⟩
      · simp at hlen
      simp only [List.length_append, List.length_singleton, Nat.add_right_cancel_iff] at hlen hk
      simp only [feed_concat] at h
      have hsum : ((feed poly c xs).getLsbD 0 ^^ x) = ((feed poly c ys).getLsbD 0 ^^ y) := by
        have := h (w - 1) (by omega)
        rwa [getLsbD_feedBit_top htop, getLsbD_feedBit_top htop] at this
      have hbefore : xs = ys := by
        apply ih hlen (by omega : xs.length + (k + 1) ≤ w)
        intro i hi
        obtain ⟨j, rfl⟩ : ∃ j, i = j + 1 := ⟨i - 1, by omega⟩
        have := h j (by omega)
        rwa [getLsbD_feedBit, getLsbD_feedBit, hsum, Bool.xor_left_inj] at this
      subst hbefore
      rw [Bool.xor_right_inj] at hsum
      rw [hsum]

/-- Two streams that differ in a window of at most `w` bits leave different registers. -/
theorem eq_of_feed_burst {c : BitVec w} {before after xs ys : List Bool}
    (hlen : xs.length = ys.length) (hw : xs.length ≤ w)
    (h : feed poly c (before ++ (xs ++ after)) = feed poly c (before ++ (ys ++ after))) :
    xs = ys := by
  rw [feed_append, feed_append, feed_append, feed_append] at h
  have hwindow := feed_injective htop after h
  apply eq_of_feed_agree htop hlen (k := 0) hw
  intro i _
  rw [hwindow]

end Top

end Crc

end LedgerLine
