import Mathlib.Data.List.Nodup
import Mathlib.Data.List.Infix

/-!
# First occurrences of keys

A sequence of slots, each empty or holding a value with a key.  `FirstAt s q a` says that
`a` is in slot `q` and no earlier slot has its key; `keepFirst` lists these values.

The notion is monotone: an occurrence that is first stays first when slots are added at the
end (`FirstAt.mono`), and it is first in any beginning that contains it (`firstAt_take`).
-/

namespace LedgerLine

variable {α κ : Type} [DecidableEq κ] {key : α → κ}

/-- The values whose key has not occurred before them. -/
def keepFirst (key : α → κ) : List (Option α) → List α
  | [] => []
  | none :: s => keepFirst key s
  | some a :: s => a :: (keepFirst key s).filter (fun b => key b ≠ key a)

/-- Slot `q` holds `a`, and no slot before it holds a value with the same key. -/
structure FirstAt (key : α → κ) (s : List (Option α)) (q : Nat) (a : α) : Prop where
  here : s[q]? = some (some a)
  before : ∀ p < q, ∀ b, s[p]? = some (some b) → key b ≠ key a

namespace FirstAt

omit [DecidableEq κ]

variable {s t : List (Option α)} {q q' : Nat} {a a' : α}

theorem lt_length (h : FirstAt key s q a) : q < s.length :=
  (List.getElem?_eq_some_iff.1 h.here).1

/-- A key has one first occurrence. -/
theorem unique (h : FirstAt key s q a) (h' : FirstAt key s q' a') (hkey : key a = key a') :
    a = a' := by
  rcases Nat.lt_trichotomy q q' with hlt | heq | hgt
  · exact absurd hkey (h'.before q hlt a h.here)
  · subst heq
    have := h.here.symm.trans h'.here
    simpa using this
  · exact absurd hkey.symm (h.before q' hgt a' h'.here)

theorem mono (h : FirstAt key s q a) (hst : s <+: t) : FirstAt key t q a := by
  obtain ⟨u, rfl⟩ := hst
  constructor
  · rw [List.getElem?_append_left h.lt_length]
    exact h.here
  · intro p hp b hb
    rw [List.getElem?_append_left (Nat.lt_trans hp h.lt_length)] at hb
    exact h.before p hp b hb

end FirstAt

omit [DecidableEq κ] in
theorem firstAt_take {s : List (Option α)} {n q : Nat} {a : α} :
    FirstAt key (s.take n) q a ↔ q < n ∧ FirstAt key s q a := by
  constructor
  · intro h
    have hq : q < n := by
      have := h.lt_length
      rw [List.length_take] at this
      omega
    exact ⟨hq, h.mono (List.take_prefix n s)⟩
  · rintro ⟨hq, h⟩
    constructor
    · rw [List.getElem?_take_of_lt hq]
      exact h.here
    · intro p hp b hb
      rw [List.getElem?_take_of_lt (Nat.lt_trans hp hq)] at hb
      exact h.before p hp b hb

variable {s : List (Option α)}

omit [DecidableEq κ] in
/-- Every value has a first occurrence of its key, not after it. -/
theorem exists_firstAt {p : Nat} {b : α} (h : s[p]? = some (some b)) :
    ∃ q a, q ≤ p ∧ key a = key b ∧ FirstAt key s q a := by
  induction p using Nat.strong_induction_on generalizing b with
  | _ p ih =>
      by_cases hfirst : ∀ p' < p, ∀ b', s[p']? = some (some b') → key b' ≠ key b
      · exact ⟨p, b, Nat.le_refl p, rfl, h, hfirst⟩
      · push Not at hfirst
        obtain ⟨p', hp', b', hb', hkey⟩ := hfirst
        obtain ⟨q, a, hq, ha, hat⟩ := ih p' hp' hb'
        exact ⟨q, a, by omega, ha.trans hkey, hat⟩

omit [DecidableEq κ] in
theorem firstAt_none_cons {s : List (Option α)} {a : α} :
    (∃ q, FirstAt key (none :: s) q a) ↔ ∃ q, FirstAt key s q a := by
  constructor
  · rintro ⟨q, h⟩
    cases q with
    | zero =>
        exact absurd h.here (by simp)
    | succ q =>
        exact ⟨q, h.here, fun p hp b hb => h.before (p + 1) (by omega) b hb⟩
  · rintro ⟨q, h⟩
    refine ⟨q + 1, h.here, ?_⟩
    intro p hp b hb
    cases p with
    | zero => exact absurd hb (by simp)
    | succ p =>
        exact h.before p (by omega) b hb

omit [DecidableEq κ] in
theorem firstAt_some_cons {s : List (Option α)} {a c : α} :
    (∃ q, FirstAt key (some c :: s) q a) ↔
      a = c ∨ (∃ q, FirstAt key s q a) ∧ key a ≠ key c := by
  constructor
  · rintro ⟨q, h⟩
    cases q with
    | zero =>
        left
        have := h.here
        simpa using this.symm
    | succ q =>
        right
        refine ⟨⟨q, h.here, fun p hp b hb => h.before (p + 1) (by omega) b hb⟩, ?_⟩
        exact (h.before 0 (by omega) c rfl).symm
  · rintro (rfl | ⟨⟨q, h⟩, hne⟩)
    · exact ⟨0, rfl, fun p hp => absurd hp (Nat.not_lt_zero p)⟩
    · refine ⟨q + 1, h.here, ?_⟩
      intro p hp b hb
      cases p with
      | zero =>
          have hbc : c = b := by simpa using hb
          rw [← hbc]
          exact hne.symm
      | succ p =>
          exact h.before p (by omega) b hb

/-- `keepFirst` lists the first occurrences. -/
theorem mem_keepFirst {a : α} : a ∈ keepFirst key s ↔ ∃ q, FirstAt key s q a := by
  induction s with
  | nil =>
      constructor
      · intro h
        cases h
      · rintro ⟨q, h⟩
        exact absurd h.here (by simp)
  | cons o s ih =>
      cases o with
      | none =>
          rw [keepFirst, ih, firstAt_none_cons]
      | some c =>
          rw [keepFirst, List.mem_cons, List.mem_filter, ih, firstAt_some_cons]
          simp

/-- Every key once. -/
theorem nodup_keepFirst (s : List (Option α)) : ((keepFirst key s).map key).Nodup := by
  induction s with
  | nil => exact List.nodup_nil
  | cons o s ih =>
      rcases o with _ | c
      · exact ih
      rw [keepFirst, List.map_cons, List.nodup_cons]
      constructor
      · intro h
        obtain ⟨b, hb, hkey⟩ := List.mem_map.1 h
        have := (List.mem_filter.1 hb).2
        simp [hkey] at this
      · exact ih.sublist (List.filter_sublist.map key)

end LedgerLine
