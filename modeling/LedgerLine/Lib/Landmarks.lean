import Mathlib.Data.List.Infix
import Mathlib.Data.List.TakeWhile

/-!
# Landmarks on a numbered sequence

A sparse index of a sequence of items is a list of landmarks, each set at one item, its `key`.
Whoever looks for item `k` starts at a landmark at or before it; `near e k` says that the walk
from landmark `e` to item `k` is short enough.

`Landmarked` is what a reader of item `k` needs.  `Spaced` is what a list of landmarks keeps when
it loses its end: everything before a landmark is covered by the landmarks set before it, so
every first part of the list is as good as the whole, as far as it reaches.

Main facts:
* `Spaced.of_isPrefix`, `Spaced.concat`: losing landmarks at the end, and setting one more;
* `Spaced.landmarked_last`: a list that ends at a landmark covers what is before it;
* `Landmarked.takeWhile`: cutting the list behind item `k` does not matter to item `k`;
* `exists_greatest`: where a search for item `k` ends.
-/

namespace LedgerLine.Landmarks

variable {ε : Type} (key : ε → Nat) (near : ε → Nat → Prop)

/-- A landmark at or before item `k` is near enough. -/
def Landmarked (es : List ε) (k : Nat) : Prop :=
  ∃ e ∈ es, key e ≤ k ∧ near e k

/-- Before each landmark, all items are covered by earlier landmarks. -/
def Spaced (es : List ε) : Prop :=
  ∀ init e, init ++ [e] <+: es → ∀ k < key e, Landmarked key near init k

variable {key near}
variable {near' : ε → Nat → Prop} {es es' : List ε} {e : ε} {k n : Nat}

theorem Landmarked.subset (h : Landmarked key near es k) (hes : es ⊆ es') :
    Landmarked key near es' k := by
  obtain ⟨e, he, hle, hnear⟩ := h
  exact ⟨e, hes he, hle, hnear⟩

theorem Landmarked.imp (h : Landmarked key near es k) (hnear : ∀ e ∈ es, near e k → near' e k) :
    Landmarked key near' es k := by
  obtain ⟨e, he, hle, hk⟩ := h
  exact ⟨e, he, hle, hnear e he hk⟩

/-- With the keys in order, a cut behind item `k` keeps every landmark item `k` can use. -/
theorem Landmarked.takeWhile {p : ε → Bool} (h : Landmarked key near es k)
    (hsorted : es.Pairwise fun a b => key a < key b) (hp : ∀ e ∈ es, key e ≤ k → p e = true) :
    Landmarked key near (es.takeWhile p) k := by
  obtain ⟨e, he, hle, hnear⟩ := h
  obtain ⟨init, rest, rfl⟩ := List.append_of_mem he
  have hinit : ∀ a ∈ init, p a = true := by
    intro a ha
    have hlt := (List.pairwise_append.mp hsorted).2.2 a ha e List.mem_cons_self
    exact hp a (List.mem_append_left _ ha) (by omega)
  refine ⟨e, ?_, hle, hnear⟩
  rw [List.takeWhile_append_of_pos hinit, List.takeWhile_cons_of_pos (hp e he hle)]
  exact List.mem_append_right _ List.mem_cons_self

/-- The landmarks up to item `k` come first. -/
theorem exists_split (hsorted : es.Pairwise fun a b => key a < key b) (k : Nat) :
    ∃ low high, es = low ++ high ∧ (∀ a ∈ low, key a ≤ k) ∧ ∀ a ∈ high, k < key a := by
  induction es with
  | nil =>
      exact ⟨[], [], rfl, by simp, by simp⟩
  | cons e es ih =>
      rw [List.pairwise_cons] at hsorted
      by_cases hle : key e ≤ k
      · obtain ⟨low, high, rfl, hlow, hhigh⟩ := ih hsorted.2
        exact ⟨e :: low, high, rfl, List.forall_mem_cons.mpr ⟨hle, hlow⟩, hhigh⟩
      · refine ⟨[], e :: es, rfl, by simp, List.forall_mem_cons.mpr ⟨by omega, ?_⟩⟩
        intro a ha
        have := hsorted.1 a ha
        omega

/-- The last landmark up to item `k`, given that there is one. -/
theorem exists_greatest (hsorted : es.Pairwise fun a b => key a < key b) (he : e ∈ es)
    (hle : key e ≤ k) :
    ∃ init a post, es = init ++ a :: post ∧ (∀ x ∈ init, key x ≤ k) ∧ key a ≤ k ∧
      (∀ x ∈ post, k < key x) ∧ key e ≤ key a := by
  obtain ⟨low, high, rfl, hlow, hhigh⟩ := exists_split hsorted k
  have he' : e ∈ low := by
    rcases List.mem_append.mp he with he | he
    · exact he
    · have := hhigh e he
      omega
  obtain ⟨init, a, rfl⟩ := List.eq_nil_or_concat' low |>.resolve_left (List.ne_nil_of_mem he')
  refine ⟨init, a, high, by simp, fun x hx => hlow x (by simp [hx]), hlow a (by simp), hhigh, ?_⟩
  rcases List.mem_append.mp he' with he' | he'
  · have hlt := (List.pairwise_append.mp (List.pairwise_append.mp hsorted).1).2.2 e he' a (by simp)
    omega
  · rw [List.mem_singleton.mp he']

theorem Spaced.nil : Spaced key near [] := by
  intro init e hpre
  have hnil := List.prefix_nil.mp hpre
  simp at hnil

variable (h : Spaced key near es)

include h

theorem Spaced.of_isPrefix (hpre : es' <+: es) : Spaced key near es' :=
  fun init e hinit => h init e (hinit.trans hpre)

/-- A landmark may be set where everything before is covered. -/
theorem Spaced.concat (hmarked : ∀ k < key e, Landmarked key near es k) :
    Spaced key near (es ++ [e]) := by
  intro init a hpre
  rcases List.prefix_concat_iff.mp hpre with heq | hpre
  · obtain ⟨rfl, ha⟩ := List.append_inj' heq rfl
    obtain rfl : a = e := by
      simpa using ha
    exact hmarked
  · exact h init a hpre

theorem Spaced.landmarked_last (hlast : es.getLast? = some e) (hk : k < key e) :
    Landmarked key near es k := by
  obtain ⟨init, rfl⟩ := List.getLast?_eq_some_iff.mp hlast
  exact (h init e (List.prefix_refl _) k hk).subset (List.subset_append_left _ _)

/-- The sequence may change behind the landmarks. -/
theorem Spaced.imp (hkeys : ∀ e ∈ es, key e ≤ n) (hnear : ∀ e ∈ es, ∀ k < n, near e k → near' e k) :
    Spaced key near' es := by
  intro init e hpre k hk
  have hsub : init ++ [e] ⊆ es := hpre.subset
  have hkn : k < n := lt_of_lt_of_le hk (hkeys e (hsub (by simp)))
  exact (h init e hpre k hk).imp fun a ha => hnear a (hsub (List.mem_append_left _ ha)) k hkn

end LedgerLine.Landmarks
