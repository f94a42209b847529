import Mathlib.Data.List.Induction
import Mathlib.Order.Basic

/-!
# Binary search by a predicate

The half-interval search of a sorted sequence: the smallest index in `[0, n)`
at which a monotone predicate holds, and `n` when it holds nowhere.  The loop
is written out, not specified, because a caller may hand it a predicate that is
not monotone; what it returns then is whatever the loop returns.

Main facts:
* `search_pred_false`: the predicate is false just before the answer, whatever
  the predicate;
* `search_eq_of_split`: on a predicate that is false below `r` and true from
  `r` on, the answer is `r`;
* `search_keys`: in a list with keys, the search for the first key past `k`.
-/

namespace LedgerLine

/-- The search loop on the half-open interval `[i, j)`. -/
def searchLoop (f : Nat → Bool) : Nat → Nat → Nat → Nat
  | 0, i, _ => i
  | fuel + 1, i, j =>
      if i < j then
        if f ((i + j) / 2) then
          searchLoop f fuel i ((i + j) / 2)
        else
          searchLoop f fuel ((i + j) / 2 + 1) j
      else
        i

/-- Search `[0, n)`.  Every round shortens the interval, so `n` rounds suffice. -/
def search (n : Nat) (f : Nat → Bool) : Nat :=
  searchLoop f n 0 n

variable {f : Nat → Bool} {r : Nat}

theorem searchLoop_pred_false :
    ∀ (fuel i j : Nat), (∀ k, i = k + 1 → f k = false) →
      searchLoop f fuel i j = r + 1 → f r = false
  | 0, i, _, hi, hr => hi r hr
  | fuel + 1, i, j, hi, hr => by
      unfold searchLoop at hr
      split_ifs at hr with hlt hf
      · exact searchLoop_pred_false fuel i _ hi hr
      · refine searchLoop_pred_false fuel _ j ?_ hr
        intro k hk
        have hk' : k = (i + j) / 2 := by
          omega
        rw [hk']
        simpa using hf
      · exact hi r hr

/-- The predicate is false just before the answer. -/
theorem search_pred_false {n : Nat} (h : search n f = r + 1) : f r = false :=
  searchLoop_pred_false n 0 n (fun k hk => absurd hk (by omega)) h

/-- The loop keeps the boundary of the predicate inside its interval. -/
theorem searchLoop_eq_of_split :
    ∀ (fuel i j : Nat), j - i ≤ fuel → i ≤ r → r ≤ j →
      (∀ k, k < r → f k = false) →
      (∀ k, r ≤ k → k < j → f k = true) →
      searchLoop f fuel i j = r
  | 0, i, j, hfuel, hir, hrj, _, _ => by
      unfold searchLoop
      omega
  | fuel + 1, i, j, hfuel, hir, hrj, hlow, hhigh => by
      unfold searchLoop
      by_cases hlt : i < j
      · rw [if_pos hlt]
        by_cases hmid : r ≤ (i + j) / 2
        · have hf : f ((i + j) / 2) = true := hhigh _ hmid (by omega)
          rw [if_pos hf]
          exact searchLoop_eq_of_split fuel i _ (by omega) hir hmid hlow
            (fun k hk hkj => hhigh k hk (by omega))
        · have hf : f ((i + j) / 2) = false := hlow _ (by omega)
          rw [if_neg (by simp [hf])]
          exact searchLoop_eq_of_split fuel _ j (by omega) (by omega) hrj hlow hhigh
      · rw [if_neg hlt]
        omega

/-- On a predicate that turns from false to true at `r` the search finds `r`. -/
theorem search_eq_of_split {n : Nat} (hr : r ≤ n) (hlow : ∀ k, k < r → f k = false)
    (hhigh : ∀ k, r ≤ k → k < n → f k = true) : search n f = r :=
  searchLoop_eq_of_split n 0 n (by omega) (Nat.zero_le r) hr hlow hhigh

/-- The search for the first key past `k` in a list that is split at its last element with a
key up to `k`. -/
theorem search_keys {ε : Type} {key : ε → Nat} {l init post : List ε} {e : ε} {k : Nat}
    (hl : l = init ++ e :: post) (hinit : ∀ a ∈ init, key a ≤ k) (he : key e ≤ k)
    (hpost : ∀ a ∈ post, k < key a) :
    search l.length (fun i => decide (((l[i]?).map key).getD 0 > k)) = init.length + 1 := by
  apply search_eq_of_split
  · rw [hl]
    simp
  · intro i hi
    rw [decide_eq_false_iff_not, Nat.not_lt, hl]
    rcases Nat.lt_or_ge i init.length with hlt | hge
    · rw [List.getElem?_append_left hlt, List.getElem?_eq_getElem hlt]
      exact hinit _ (List.getElem_mem hlt)
    · have hieq : i = init.length := by
        omega
      rw [hieq, List.getElem?_append_right (Nat.le_refl _), Nat.sub_self]
      exact he
  · intro i hi hlen
    rw [hl] at hlen ⊢
    rw [decide_eq_true_eq, List.getElem?_append_right (by omega)]
    obtain ⟨j, hj⟩ := Nat.exists_eq_add_of_le hi
    have hij : i - init.length = j + 1 := by
      omega
    have hjlt : j < post.length := by
      simp at hlen
      omega
    rw [hij, List.getElem?_cons_succ, List.getElem?_eq_getElem hjlt]
    exact hpost _ (List.getElem_mem hjlt)

example : search 5 (fun k => decide (3 ≤ k)) = 3 := by decide

end LedgerLine
