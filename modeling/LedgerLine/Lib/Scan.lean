import Mathlib.Data.List.Basic

/-!
# Scanners

A scanner takes a beginning off its input, or stops: because the input ends too early, or
because it is not what the scanner expects.  A stream that has more to come can go on after the
former but not after the latter.

What a scanner has read is described by a relation between its result and the text it took
(`Sound`).  `Refines` compares two scanners, one of which may see more of the input or have more
room; a scanner that is composed of parts refines another one if its parts do.  `munch` reads
as far as a deterministic automaton goes.
-/

namespace LedgerLine

/-- Why a scanner stops. -/
inductive Stop
  | more
  | malformed
deriving DecidableEq, Repr

/-- A scanner of symbols `τ`. -/
def Scan (τ α : Type) : Type :=
  List τ → Except Stop (α × List τ)

namespace Scan

variable {τ α β σ : Type}

instance : Monad (Scan τ) where
  pure x := fun bs => .ok (x, bs)
  bind s f := fun bs =>
    match s bs with
    | .ok (x, rest) => f x rest
    | .error e => .error e

/-- Read nothing and stop. -/
def stop (e : Stop) : Scan τ α :=
  fun _ => .error e

/-- The next symbol. -/
def next : Scan τ τ
  | [] => .error .more
  | c :: bs => .ok (c, bs)

/-- The next symbol, which stays. -/
def peek : Scan τ τ
  | [] => .error .more
  | c :: bs => .ok (c, c :: bs)

/-- Go on while the automaton has a transition.  The symbol it ends at is looked at. -/
def munch (step : σ → τ → Option σ) (final : σ → Bool) (s : σ) : Scan τ (List τ)
  | [] => .error .more
  | c :: bs =>
      match step s c with
      | some s' =>
          match munch step final s' bs with
          | .ok (text, rest) => .ok (c :: text, rest)
          | .error e => .error e
      | none => if final s then .ok ([], c :: bs) else .error .malformed

/-- The symbols that satisfy `p`, up to the first that does not. -/
def span (p : τ → Bool) : Scan τ (List τ) :=
  munch (fun _ c => if p c then some () else none) (fun _ => true) ()

section Bind

variable {s : Scan τ α} {f : α → Scan τ β} {bs mid rest : List τ} {x : α} {y : β}

theorem bind_of_ok (h : s bs = .ok (x, mid)) : (s >>= f) bs = f x mid := by
  change (match s bs with | .ok (x, rest) => f x rest | .error e => .error e) = _
  rw [h]

theorem bind_of_error {e : Stop} (h : s bs = .error e) : (s >>= f) bs = .error e := by
  change (match s bs with | .ok (x, rest) => f x rest | .error e => .error e) = _
  rw [h]

theorem bind_eq_ok (h : (s >>= f) bs = .ok (y, rest)) :
    ∃ x mid, s bs = .ok (x, mid) ∧ f x mid = .ok (y, rest) := by
  cases hs : s bs with
  | error e =>
      rw [bind_of_error hs] at h
      cases h
  | ok r =>
      obtain ⟨x, mid⟩ := r
      rw [bind_of_ok hs] at h
      exact ⟨x, mid, rfl, h⟩

end Bind

/-- What the scanner returns and the text it has taken for it are related by `G`. -/
def Sound (G : α → List τ → Prop) (s : Scan τ α) : Prop :=
  ∀ bs x rest, s bs = .ok (x, rest) → ∃ text, bs = text ++ rest ∧ G x text

section Sound

variable {G : α → List τ → Prop} {H : β → List τ → Prop} {s : Scan τ α} {f : α → Scan τ β}

theorem sound_pure {x : α} (h : G x []) : Sound G (pure x : Scan τ α) := by
  intro bs y rest hy
  cases hy
  exact ⟨[], rfl, h⟩

theorem sound_stop (e : Stop) : Sound G (stop e : Scan τ α) := by
  intro bs y rest hy
  cases hy

/-- What is read second is read behind what was read first. -/
theorem Sound.bind (hs : Sound G s)
    (hf : ∀ x a, G x a → Sound (fun y b => H y (a ++ b)) (f x)) : Sound H (s >>= f) := by
  intro bs y rest h
  obtain ⟨x, mid, hx, hy⟩ := bind_eq_ok h
  obtain ⟨a, rfl, ha⟩ := hs bs x mid hx
  obtain ⟨b, rfl, hb⟩ := hf x a ha mid y rest hy
  exact ⟨a ++ b, (List.append_assoc a b rest).symm, hb⟩

theorem Sound.mono {G' : α → List τ → Prop} (hs : Sound G s) (h : ∀ x a, G x a → G' x a) :
    Sound G' s := by
  intro bs x rest hx
  obtain ⟨text, hbs, htext⟩ := hs bs x rest hx
  exact ⟨text, hbs, h x text htext⟩

theorem sound_next : Sound (fun c text => text = [c]) (next : Scan τ τ) := by
  intro bs c rest h
  cases bs with
  | nil => cases h
  | cons c bs =>
      cases h
      exact ⟨[c], rfl, rfl⟩

end Sound

/-- Wherever `s` succeeds, `t` does the same, also with more input behind it; where `s` needs
more input, so does `t`. -/
structure Refines (s t : Scan τ α) : Prop where
  ok : ∀ {bs x rest} (more : List τ), s bs = .ok (x, rest) → t (bs ++ more) = .ok (x, rest ++ more)
  more : ∀ {bs}, s bs = .error .more → t bs = .error .more

section Refines

variable {s t : Scan τ α} {f g : α → Scan τ β}

theorem Refines.same (h : Refines s t) {bs rest : List τ} {x : α} (hs : s bs = .ok (x, rest)) :
    t bs = .ok (x, rest) := by
  have ht := h.ok [] hs
  rwa [List.append_nil, List.append_nil] at ht

theorem refines_pure (x : α) : Refines (pure x : Scan τ α) (pure x) where
  ok := by
    intro bs y rest more h
    cases h
    rfl
  more := by
    intro bs h
    cases h

theorem refines_malformed (t : Scan τ α) : Refines (stop .malformed) t where
  ok := by
    intro bs y rest more h
    cases h
  more := by
    intro bs h
    cases h

theorem refines_next : Refines (next : Scan τ τ) next where
  ok := by
    intro bs c rest more h
    cases bs with
    | nil => cases h
    | cons c bs =>
        cases h
        rfl
  more := id

theorem refines_peek : Refines (peek : Scan τ τ) peek where
  ok := by
    intro bs c rest more h
    cases bs with
    | nil => cases h
    | cons c bs =>
        cases h
        rfl
  more := id

theorem Refines.bind (h : Refines s t) (hf : ∀ x, Refines (f x) (g x)) :
    Refines (s >>= f) (t >>= g) where
  ok := by
    intro bs y rest more hy
    obtain ⟨x, mid, hx, hy⟩ := bind_eq_ok hy
    rw [bind_of_ok (h.ok more hx)]
    exact (hf x).ok more hy
  more := by
    intro bs hbs
    cases hs : s bs with
    | error e =>
        rw [bind_of_error hs] at hbs
        cases hbs
        exact bind_of_error (h.more hs)
    | ok r =>
        obtain ⟨x, mid⟩ := r
        rw [bind_of_ok hs] at hbs
        rw [bind_of_ok (h.same hs)]
        exact (hf x).more hbs

end Refines

/-- The automaton reads `text` and ends in a final state. -/
def Accepts (step : σ → τ → Option σ) (final : σ → Bool) : σ → List τ → Prop
  | s, [] => final s = true
  | s, c :: text => ∃ s', step s c = some s' ∧ Accepts step final s' text

section Munch

variable {step : σ → τ → Option σ} {final : σ → Bool} {s : σ} {c : τ} {text rest : List τ}

theorem munch_of_step {s' : σ} (h : step s c = some s') (bs : List τ) :
    munch step final s (c :: bs) = (munch step final s' >>= fun text => pure (c :: text)) bs := by
  rw [munch, h]
  dsimp only
  cases hm : munch step final s' bs with
  | error e =>
      rw [bind_of_error hm]
  | ok r =>
      obtain ⟨text, rest⟩ := r
      rw [bind_of_ok hm]
      rfl

theorem munch_of_end (h : step s c = none) (bs : List τ) :
    munch step final s (c :: bs) = if final s then .ok ([], c :: bs) else .error .malformed := by
  rw [munch, h]

theorem sound_munch (s : σ) :
    Sound (fun x text => x = text ∧ Accepts step final s text) (munch step final s) := by
  intro bs
  induction bs generalizing s with
  | nil =>
      intro x rest h
      cases h
  | cons c bs ih =>
      intro x rest h
      cases hstep : step s c with
      | some s' =>
          rw [munch_of_step hstep] at h
          obtain ⟨text, mid, htext, hx⟩ := bind_eq_ok h
          cases hx
          obtain ⟨read, rfl, rfl, haccepts⟩ := ih s' text rest htext
          exact ⟨c :: text, rfl, rfl, s', hstep, haccepts⟩
      | none =>
          rw [munch_of_end hstep] at h
          split at h
          · rename_i hfinal
            cases h
            exact ⟨[], rfl, rfl, hfinal⟩
          · cases h

theorem munch_complete (h : Accepts step final s text)
    (hc : ∀ s, final s = true → step s c = none) :
    munch step final s (text ++ c :: rest) = .ok (text, c :: rest) := by
  induction text generalizing s with
  | nil =>
      have hfinal : final s = true := h
      rw [List.nil_append, munch_of_end (hc s hfinal), if_pos hfinal]
  | cons d text ih =>
      obtain ⟨s', hstep, haccepts⟩ := h
      rw [List.cons_append, munch_of_step hstep, bind_of_ok (ih haccepts)]
      rfl

theorem refines_munch (s : σ) : Refines (munch step final s) (munch step final s) where
  ok := by
    intro bs
    induction bs generalizing s with
    | nil =>
        intro x rest more h
        cases h
    | cons c bs ih =>
        intro x rest more h
        cases hstep : step s c with
        | some s' =>
            rw [munch_of_step hstep] at h
            obtain ⟨text, mid, htext, hx⟩ := bind_eq_ok h
            cases hx
            rw [List.cons_append, munch_of_step hstep, bind_of_ok (ih s' more htext)]
            rfl
        | none =>
            rw [munch_of_end hstep] at h
            rw [List.cons_append, munch_of_end hstep]
            split at h
            · cases h
              rw [if_pos (by assumption)]
              rfl
            · cases h
  more := id

end Munch

section Span

variable {p : τ → Bool} {c : τ} {text rest : List τ}

theorem accepts_span_iff :
    Accepts (fun (_ : Unit) c => if p c then some () else none) (fun _ => true) () text ↔
      ∀ c ∈ text, p c = true := by
  induction text with
  | nil => simp [Accepts]
  | cons c text ih =>
      rw [Accepts, List.forall_mem_cons]
      constructor
      · rintro ⟨_, hstep, haccepts⟩
        refine ⟨?_, ih.mp haccepts⟩
        by_contra hc
        rw [if_neg hc] at hstep
        cases hstep
      · rintro ⟨hc, htext⟩
        exact ⟨(), if_pos hc, ih.mpr htext⟩

theorem sound_span : Sound (fun x text => x = text ∧ ∀ c ∈ text, p c = true) (span p) :=
  (sound_munch ()).mono fun _ _ h => ⟨h.1, accepts_span_iff.mp h.2⟩

theorem span_complete (h : ∀ c ∈ text, p c = true) (hc : p c = false) :
    span p (text ++ c :: rest) = .ok (text, c :: rest) :=
  munch_complete (accepts_span_iff.mpr h) (by simp [hc])

theorem refines_span : Refines (span p) (span p) :=
  refines_munch ()

end Span

end Scan
end LedgerLine
