import Mathlib.Data.List.Basic
import Mathlib.Logic.Relation

/-!
# Programs as sequences of operations

A program performs operations on a shared state, one at a time, and goes on
with the response of each.  Between two operations anything may happen: the
process can be killed, an operation can fail, and other threads or transactions
can take their own steps.  Writing the code as a value of `Program` keeps every
one of those points visible.

Readings of one program:
* `run`: no interference and no failure;
* `Point`: the states between two consecutive operations of that run; `Runs` is
  the run together with an invariant of all of them, and composes (`Runs.bind`);
* `Always rely step inv post`: `inv` holds at every point and `post` at the end,
  whatever interference satisfying `rely` happens at the points and whatever
  outcome allowed by `step` the operations have.

`Always` is compositional (`always_bind`, `always_and`), monotone (`always_mono`), stable
under interference (`always_stable`) and sound for runs that end (`post_of_ends`).  It is
obtained operation by operation (`always_of_only`) or from an undisturbed run whose operations
do not notice the interference (`always_of_runs`).
-/

namespace LedgerLine

/-- A program over the operations `Op`, an operation `o` answering in `Resp o`. -/
inductive Program (Op : Type) (Resp : Op → Type) (α : Type) : Type
  | done (a : α) : Program Op Resp α
  | call (o : Op) (next : Resp o → Program Op Resp α) : Program Op Resp α

namespace Program

variable {Op : Type} {Resp : Op → Type} {α β : Type} {S : Type}

/-- Sequential composition. -/
def bind : Program Op Resp α → (α → Program Op Resp β) → Program Op Resp β
  | done a, k => k a
  | call o next, k => call o (fun r => bind (next r) k)

instance : Monad (Program Op Resp) where
  pure := done
  bind := bind

/-- The program that performs one operation. -/
def perform (o : Op) : Program Op Resp (Resp o) :=
  call o done

@[simp] theorem pure_eq (a : α) : (pure a : Program Op Resp α) = done a := by
  rfl

@[simp] theorem done_bind (a : α) (k : α → Program Op Resp β) : (done a >>= k) = k a := by
  rfl

section Run

variable (exec : (o : Op) → S → Resp o × S)

/-- The undisturbed run: the result and the state it ends in. -/
def run : Program Op Resp α → S → α × S
  | done a, s => (a, s)
  | call o next, s => run (next (exec o s).1) (exec o s).2

@[simp] theorem run_done (a : α) (s : S) : run exec (done a : Program Op Resp α) s = (a, s) := by
  rfl

theorem run_bind (p : Program Op Resp α) (k : α → Program Op Resp β) (s : S) :
    run exec (p >>= k) s = run exec (k (run exec p s).1) (run exec p s).2 := by
  induction p generalizing s with
  | done a => rfl
  | call o next ih =>
      exact ih (exec o s).1 (exec o s).2

/-- The states at which the undisturbed run can be cut off: before its first
operation, between two of them, and after the last. -/
inductive Point : Program Op Resp α → S → S → Prop
  | here (p : Program Op Resp α) (s : S) : Point p s s
  | next {o : Op} {next : Resp o → Program Op Resp α} {s t : S}
      (rest : Point (next (exec o s).1) (exec o s).2 t) :
      Point (call o next) s t

/-- The state after the first `n` operations. -/
def stateAfter : Nat → Program Op Resp α → S → S
  | 0, _, s => s
  | _ + 1, done _, s => s
  | n + 1, call o next, s => stateAfter n (next (exec o s).1) (exec o s).2

theorem point_stateAfter (n : Nat) (p : Program Op Resp α) (s : S) :
    Point exec p s (stateAfter exec n p s) := by
  induction n generalizing p s with
  | zero => exact .here p s
  | succ n ih =>
      cases p with
      | done a => exact .here _ s
      | call o next => exact .next (ih _ _)

/-- The undisturbed run ends in `a` and `t`, and `inv` holds wherever it can be
cut off. -/
inductive Runs (inv : S → Prop) : Program Op Resp α → S → α → S → Prop
  | done {a : α} {s : S} (h : inv s) : Runs inv (done a) s a s
  | call {o : Op} {next : Resp o → Program Op Resp α} {s t : S} {a : α} (h : inv s)
      (rest : Runs inv (next (exec o s).1) (exec o s).2 a t) :
      Runs inv (call o next) s a t

end Run

section Runs

variable {exec : (o : Op) → S → Resp o × S} {inv : S → Prop}

variable {s t : S} {p : Program Op Resp α} {a : α}

theorem Runs.run_eq (h : Runs exec inv p s a t) : run exec p s = (a, t) := by
  induction h with
  | done h => rfl
  | call h rest ih => exact ih

theorem runs_run (p : Program Op Resp α) (s : S) :
    Runs exec (fun _ => True) p s (run exec p s).1 (run exec p s).2 := by
  induction p generalizing s with
  | done a => exact .done trivial
  | call o next ih =>
      exact .call trivial (ih _ _)

theorem Runs.start (h : Runs exec inv p s a t) : inv s := by
  cases h with
  | done h | call h rest => exact h

theorem Runs.final (h : Runs exec inv p s a t) : inv t := by
  induction h with
  | done h => exact h
  | call h rest ih => exact ih

/-- The invariant holds wherever the run is cut off. -/
theorem Runs.point {u : S} (h : Runs exec inv p s a t) (hu : Point exec p s u) : inv u := by
  induction hu with
  | here p s => exact h.start
  | next rest ih =>
      cases h with
      | call h rest' => exact ih rest'

theorem Runs.mono {inv' : S → Prop} (hinv : ∀ s, inv s → inv' s) (h : Runs exec inv p s a t) :
    Runs exec inv' p s a t := by
  induction h with
  | done h => exact .done (hinv _ h)
  | call h rest ih => exact .call (hinv _ h) ih

/-- Runs compose. -/
theorem Runs.bind {k : α → Program Op Resp β} {u : S} {b : β} (h : Runs exec inv p s a t)
    (hk : Runs exec inv (k a) t b u) : Runs exec inv (p >>= k) s b u := by
  induction h with
  | done h => exact hk
  | call h rest ih => exact .call h (ih hk)

end Runs

section Always

variable (rely : S → S → Prop)
variable (step : (o : Op) → S → Resp o → S → Prop)

/-- `inv` at every point and `post` at the end, under interference. -/
def Always (inv : S → Prop) (post : α → S → Prop) :
    Program Op Resp α → S → Prop
  | done a, s => ∀ s', rely s s' → inv s' ∧ post a s'
  | call o next, s =>
      ∀ s', rely s s' → inv s' ∧
        ∀ r s'', step o s' r s'' → Always inv post (next r) s''

variable {rely step} {inv : S → Prop} {post : α → S → Prop}

variable {s t : S} {p : Program Op Resp α} {post' : α → S → Prop} {k : α → Program Op Resp β}
  {P : Op → Prop}

/-- The invariant holds at the current point. -/
theorem inv_of_always (hrefl : ∀ s, rely s s) (h : Always rely step inv post p s) : inv s := by
  cases p with
  | done a | call o next => exact (h s (hrefl s)).1

/-- Interference does not invalidate what remains of a program. -/
theorem always_stable (htrans : ∀ a b c, rely a b → rely b c → rely a c) {s' : S}
    (h : Always rely step inv post p s) (hs : rely s s') : Always rely step inv post p s' := by
  cases p with
  | done a | call o next =>
      intro t ht
      exact h t (htrans _ _ _ hs ht)

/-- Weaker invariants and postconditions follow. -/
theorem always_mono {inv' : S → Prop} (hinv : ∀ s, inv s → inv' s)
    (hpost : ∀ a s, post a s → post' a s) (h : Always rely step inv post p s) :
    Always rely step inv' post' p s := by
  induction p generalizing s with
  | done a =>
      intro t ht
      exact ⟨hinv t (h t ht).1, hpost a t (h t ht).2⟩
  | call o next ih =>
      intro t ht
      exact ⟨hinv t (h t ht).1, fun r u hu => ih r ((h t ht).2 r u hu)⟩

/-- Sequential composition: the first program's result feeds the second. -/
theorem always_bind (hrefl : ∀ s, rely s s) {post' : β → S → Prop} {p : Program Op Resp α}
    {k : α → Program Op Resp β} {s : S} (h : Always rely step inv post p s)
    (hk : ∀ a s, post a s → Always rely step inv post' (k a) s) :
    Always rely step inv post' (p >>= k) s := by
  induction p generalizing s with
  | done a =>
      exact hk a s (h s (hrefl s)).2
  | call o next ih =>
      intro t ht
      exact ⟨(h t ht).1, fun r u hu => ih r ((h t ht).2 r u hu)⟩

/-- Sequential composition with something that performs no operation. -/
theorem always_finish {post' : β → S → Prop} (h : Always rely step inv post p s)
    (hk : ∀ a, ∃ b, k a = done b ∧ ∀ s, post a s → post' b s) :
    Always rely step inv post' (p >>= k) s := by
  induction p generalizing s with
  | done a =>
      obtain ⟨b, hb, hpost⟩ := hk a
      rw [done_bind, hb]
      intro t ht
      exact ⟨(h t ht).1, hpost t (h t ht).2⟩
  | call o next ih =>
      intro t ht
      exact ⟨(h t ht).1, fun r u hu => ih r ((h t ht).2 r u hu)⟩

/-- A postcondition on the result that no answer of an operation can spoil. -/
def Yields (post : α → Prop) : Program Op Resp α → Prop
  | done a => post a
  | call _ next => ∀ r, Yields post (next r)

theorem yields_bind {post : α → Prop} {post' : β → Prop} (h : Yields post p)
    (hk : ∀ a, post a → Yields post' (k a)) : Yields post' (p >>= k) := by
  induction p with
  | done a => exact hk a h
  | call o next ih => exact fun r => ih r (h r)

theorem yields_mono {post post' : α → Prop} (hpost : ∀ a, post a → post' a) (h : Yields post p) :
    Yields post' p := by
  induction p with
  | done a => exact hpost a h
  | call o next ih => exact fun r => ih r (h r)

theorem yields_true (p : Program Op Resp α) : Yields (fun _ => True) p := by
  induction p with
  | done a => trivial
  | call o next ih => exact ih

theorem always_of_yields {post : α → Prop} (h : Yields post p) (s : S) :
    Always rely step (fun _ => True) (fun a _ => post a) p s := by
  induction p generalizing s with
  | done a =>
      exact fun t _ => ⟨trivial, h⟩
  | call o next ih =>
      exact fun t _ => ⟨trivial, fun r u _ => ih r (h r) u⟩

/-- Two specifications of one program hold together. -/
theorem always_and {inv' : S → Prop} (h : Always rely step inv post p s)
    (h' : Always rely step inv' post' p s) :
    Always rely step (fun s => inv s ∧ inv' s) (fun a s => post a s ∧ post' a s) p s := by
  induction p generalizing s with
  | done a =>
      intro t ht
      exact ⟨⟨(h t ht).1, (h' t ht).1⟩, (h t ht).2, (h' t ht).2⟩
  | call o next ih =>
      intro t ht
      exact ⟨⟨(h t ht).1, (h' t ht).1⟩,
        fun r u hu => ih r ((h t ht).2 r u hu) ((h' t ht).2 r u hu)⟩

/-- A program that performs only operations satisfying `P`, whatever the answers. -/
def Only (P : Op → Prop) : Program Op Resp α → Prop
  | done _ => True
  | call o next => P o ∧ ∀ r, Only P (next r)

theorem only_bind (h : Only P p) (hk : ∀ a, Only P (k a)) : Only P (p >>= k) := by
  induction p with
  | done a => exact hk a
  | call o next ih =>
      exact ⟨h.1, fun r => ih r (h.2 r)⟩

theorem only_mono {Q : Op → Prop} (hPQ : ∀ o, P o → Q o) (h : Only P p) : Only Q p := by
  induction p with
  | done a => trivial
  | call o next ih =>
      exact ⟨hPQ o h.1, fun r => ih r (h.2 r)⟩

theorem only_true (p : Program Op Resp α) : Only (fun _ => True) p := by
  induction p with
  | done a => trivial
  | call o next ih => exact ⟨trivial, ih⟩

/-- What every operation of a program keeps, the program keeps. -/
theorem always_of_only (hrely : ∀ s s', rely s s' → inv s → inv s')
    (hstep : ∀ o s r s', P o → inv s → step o s r s' → inv s') (honly : Only P p) (h : inv s) :
    Always rely step inv (fun _ => inv) p s := by
  induction p generalizing s with
  | done a =>
      intro t ht
      exact ⟨hrely s t ht h, hrely s t ht h⟩
  | call o next ih =>
      intro t ht
      have hinv := hrely s t ht h
      exact ⟨hinv, fun r u hu => ih r (honly.2 r) (hstep o t r u honly.1 hinv hu)⟩

variable {exec : (o : Op) → S → Resp o × S}

/-- An undisturbed run, lifted to interference that the operations do not notice: with
`le` between the undisturbed and the disturbed state, every point of the disturbed run
lies above a point of the undisturbed one. -/
theorem always_of_runs {le : S → S → Prop} {P : Op → Prop}
    (hrely : ∀ s t u, le s t → rely t u → le s u)
    (hexec : ∀ o s t r u, P o → le s t → step o t r u → r = (exec o s).1 ∧ le (exec o s).2 u)
    {p : Program Op Resp α} {s s' : S} {a : α} (hruns : Runs exec inv p s a s')
    (honly : Only P p) {t : S} (hle : le s t) :
    Always rely step (fun u => ∃ v, inv v ∧ le v u) (fun b u => b = a ∧ le s' u) p t := by
  induction hruns generalizing t with
  | done h =>
      intro u hu
      have hle' := hrely _ _ _ hle hu
      exact ⟨⟨_, h, hle'⟩, rfl, hle'⟩
  | call h rest ih =>
      intro u hu
      have hle' := hrely _ _ _ hle hu
      refine ⟨⟨_, h, hle'⟩, ?_⟩
      intro r v hv
      obtain ⟨hr, hnext⟩ := hexec _ _ _ _ _ honly.1 hle' hv
      subst hr
      exact ih (honly.2 _) hnext

/-- An execution without interference, every operation having some allowed outcome. -/
inductive Ends (step : (o : Op) → S → Resp o → S → Prop) : Program Op Resp α → S → α → S → Prop
  | done (a : α) (s : S) : Ends step (done a) s a s
  | call {o : Op} {next : Resp o → Program Op Resp α} {s u t : S} {r : Resp o} {a : α}
      (hstep : step o s r u) (rest : Ends step (next r) u a t) : Ends step (call o next) s a t

/-- Such an execution ends in a state satisfying the postcondition. -/
theorem post_of_ends (hrefl : ∀ s, rely s s) {a : α} (he : Ends step p s a t)
    (h : Always rely step inv post p s) : post a t := by
  induction he with
  | done a s => exact (h s (hrefl s)).2
  | call hstep rest ih =>
      exact ih ((h _ (hrefl _)).2 _ _ hstep)

/-- What holds at every point holds wherever the undisturbed run is cut off. -/
theorem inv_of_point (hrefl : ∀ s, rely s s) (hexec : ∀ o s, step o s (exec o s).1 (exec o s).2)
    {u : S} (hu : Point exec p s u) (h : Always rely step inv post p s) : inv u := by
  induction hu with
  | here p s =>
      exact inv_of_always hrefl h
  | next rest ih =>
      exact ih ((h _ (hrefl _)).2 _ _ (hexec _ _))

/-- An execution of a sequence of two programs. -/
theorem ends_bind {b : β} (h : Ends step (p >>= k) s b t) :
    ∃ u a, Ends step p s a u ∧ Ends step (k a) u b t := by
  induction p generalizing s with
  | done a => exact ⟨s, a, .done a s, h⟩
  | call o next ih =>
      cases h with
      | call hstep rest =>
          obtain ⟨u, a, hfirst, hlast⟩ := ih _ rest
          exact ⟨u, a, .call hstep hfirst, hlast⟩

theorem yields_of_ends {post : α → Prop} {a : α} (he : Ends step p s a t) (h : Yields post p) :
    post a := by
  induction he with
  | done a s => exact h
  | call hstep rest ih => exact ih (h _)

/-- The undisturbed run is one. -/
theorem ends_run (hexec : ∀ o s, step o s (exec o s).1 (exec o s).2) (p : Program Op Resp α)
    (s : S) : Ends step p s (run exec p s).1 (run exec p s).2 := by
  induction p generalizing s with
  | done a => exact .done a s
  | call o next ih =>
      exact .call (hexec o s) (ih _ _)

end Always

end Program

end LedgerLine
