import LedgerLine.Lib.Transaction
import Mathlib.Data.List.Induction
import Mathlib.Data.List.Nodup

/-!
# Concurrent calls

A call runs its code in one transaction, and asks for a rollback as soon as a statement
fails (`GivesUp`).  What such a call has done when it commits is determined by its answered
statements, each with what it saw: its code followed those answers (`Engine.Path`), and its
changes are the changes of those statements (`Engine.writesOf`).

What the statements saw is tied to the committed data by a chain of states
(`Engine.Chain`): each statement saw what was committed at one of them, with the call's own
changes on top, and from one state to the next the data moved as the call allows, which may
depend on what it has done so far.

`CallStep` is one step of any number of calls.  A `CallContract` says which invariant of
the committed data commits keep, and what they do to the data other calls have seen;
`CallInv.step` and `callInv_of_run` are the invariant of all calls that follows.

Identities from sequences are handed out once (`Numbering`, `Numbered`).
-/

namespace LedgerLine

open Function (update)

variable {Stmt : Type} {Answer : Stmt → Type} {Err Data Write Lock α β ε I : Type}

/-- Code that ends at once when a statement fails, with a result of the given kind. -/
def StopsWith (failure : α → Prop) : Body Stmt Answer Err α → Prop
  | .done _ => True
  | .call _ next =>
      (∀ e, ∃ a, next (.error e) = .done a ∧ failure a) ∧ ∀ a, StopsWith failure (next (.ok a))

/-- Code that asks for a rollback when a statement fails. -/
abbrev GivesUp (body : Body Stmt Answer Err (Outcome ε β)) : Prop :=
  StopsWith (fun out => ∃ e, out = .rollback e) body

/-- Code that passes a failure on. -/
abbrev PassesOn (body : Body Stmt Answer Err (Except ε β)) : Prop :=
  StopsWith (fun r => ∃ e, r = .error e) body

theorem passesOn_perform (o : Stmt) :
    PassesOn (Program.perform o : Body Stmt Answer Err (Except Err (Answer o))) :=
  ⟨fun e => ⟨_, rfl, e, rfl⟩, fun _ => trivial⟩

/-- A sequence of two pieces of code stops on failures if both do. -/
theorem stopsWith_bind {failure : β → Prop} {ε α : Type} {body : Body Stmt Answer Err (Except ε α)}
    {next : Except ε α → Body Stmt Answer Err β} (h : PassesOn body)
    (hfail : ∀ e, ∃ b, next (.error e) = .done b ∧ failure b)
    (hnext : ∀ a, StopsWith failure (next (.ok a))) : StopsWith failure (body >>= next) := by
  induction body with
  | done r =>
      cases r with
      | error e =>
          obtain ⟨b, hb, -⟩ := hfail e
          rw [Program.done_bind, hb]
          trivial
      | ok a => exact hnext a
  | call o k ih =>
      refine ⟨?_, fun a => ih _ (h.2 a)⟩
      intro e
      obtain ⟨_, hk, e', rfl⟩ := h.1 e
      obtain ⟨b, hb, hfailed⟩ := hfail e'
      refine ⟨b, ?_, hfailed⟩
      show (k (.error e) >>= next) = _
      rw [hk, Program.done_bind, hb]

section Relabel

variable {ε' β' : Type} (f : ε → ε') (g : β → β')

/-- An outcome in other words. -/
def Outcome.relabel : Outcome ε β → Outcome ε' β'
  | .commit b => .commit (g b)
  | .rollback e => .rollback (f e)

/-- Code that puts its outcome in other words: calls of different kinds get one type. -/
def relabel (body : Body Stmt Answer Err (Outcome ε β)) : Body Stmt Answer Err (Outcome ε' β') :=
  body >>= fun out => .done (out.relabel f g)

theorem givesUp_relabel {body : Body Stmt Answer Err (Outcome ε β)} (h : GivesUp body) :
    GivesUp (relabel f g body) := by
  induction body with
  | done out => trivial
  | call o next ih =>
      refine ⟨?_, fun a => ih _ (h.2 a)⟩
      intro e
      obtain ⟨_, hnext, e', rfl⟩ := h.1 e
      refine ⟨_, ?_, f e', rfl⟩
      show (next (.error e) >>= fun out => .done (out.relabel f g)) = _
      rw [hnext]
      rfl

end Relabel

namespace Engine

variable (E : Engine Stmt Answer Err Data Write Lock)

/-- The changes of statements that saw what they saw. -/
def writesOf (seen : List (Stmt × Data)) : List Write :=
  seen.flatMap fun entry => (E.exec entry.1 entry.2).2

@[simp] theorem writesOf_nil : E.writesOf [] = [] := by
  rfl

@[simp] theorem writesOf_cons (o : Stmt) (d : Data) (seen : List (Stmt × Data)) :
    E.writesOf ((o, d) :: seen) = (E.exec o d).2 ++ E.writesOf seen := by
  rfl

@[simp] theorem writesOf_append (seen seen' : List (Stmt × Data)) :
    E.writesOf (seen ++ seen') = E.writesOf seen ++ E.writesOf seen' := by
  simp [writesOf]

/-- Code goes through answered statements and arrives at what is still to run. -/
inductive Path : Body Stmt Answer Err α → List (Stmt × Data) → Body Stmt Answer Err α → Prop
  | refl (body : Body Stmt Answer Err α) : Path body [] body
  | step {o : Stmt} {next : Except Err (Answer o) → Body Stmt Answer Err α} {d : Data}
      {seen : List (Stmt × Data)} {body : Body Stmt Answer Err α}
      (rest : Path (next (E.exec o d).1) seen body) : Path (.call o next) ((o, d) :: seen) body

/-- Code ends with a result. -/
abbrev PathTo (body : Body Stmt Answer Err α) (seen : List (Stmt × Data)) (a : α) : Prop :=
  E.Path body seen (.done a)

section Path

variable {E}

variable {o : Stmt} {seen : List (Stmt × Data)} {body body' : Body Stmt Answer Err α}
  {next : Except Err (Answer o) → Body Stmt Answer Err α}

theorem Path.snoc (h : E.Path body seen (.call o next)) (d : Data) :
    E.Path body (seen ++ [(o, d)]) (next (E.exec o d).1) := by
  generalize hend : (.call o next : Body Stmt Answer Err α) = stop at h
  induction h with
  | refl body =>
      subst hend
      exact .step (.refl _)
  | step rest ih => exact .step (ih hend)

theorem path_done {a b : α} (h : E.PathTo (.done a) seen b) : seen = [] ∧ a = b := by
  cases h with
  | refl body => exact ⟨rfl, rfl⟩

theorem path_call {a : α} (h : E.PathTo (.call o next) seen a) :
    ∃ d rest, seen = (o, d) :: rest ∧ E.PathTo (next (E.exec o d).1) rest a := by
  cases h with
  | step rest => exact ⟨_, _, rfl, rest⟩

/-- A sequence of two pieces of code goes through the statements of both. -/
theorem path_bind {body : Body Stmt Answer Err α} {next : α → Body Stmt Answer Err β}
    {seen : List (Stmt × Data)} {b : β} (h : E.PathTo (body >>= next) seen b) :
    ∃ first rest a, seen = first ++ rest ∧ E.PathTo body first a ∧ E.PathTo (next a) rest b := by
  induction body generalizing seen with
  | done a =>
      exact ⟨[], seen, a, rfl, .refl _, h⟩
  | call o k ih =>
      obtain ⟨d, rest, rfl, hrest⟩ := path_call h
      obtain ⟨first, last, a, rfl, hfirst, hlast⟩ := ih _ hrest
      exact ⟨(o, d) :: first, last, a, rfl, .step hfirst, hlast⟩

/-- If an error of the first piece ends in something else, the first piece has succeeded. -/
theorem path_bind_ok {ε : Type} {body : Body Stmt Answer Err (Except ε α)}
    {next : Except ε α → Body Stmt Answer Err β} {b : β} (h : E.PathTo (body >>= next) seen b)
    (hstop : ∀ e, ∃ b', next (.error e) = .done b' ∧ b' ≠ b) :
    ∃ first rest a, seen = first ++ rest ∧ E.PathTo body first (.ok a) ∧
      E.PathTo (next (.ok a)) rest b := by
  obtain ⟨first, rest, r, hseen, hfirst, hrest⟩ := path_bind h
  cases r with
  | error e =>
      obtain ⟨b', hnext, hne⟩ := hstop e
      rw [hnext] at hrest
      exact absurd (path_done hrest).2 hne
  | ok a =>
      exact ⟨first, rest, a, hseen, hfirst, hrest⟩

theorem path_perform {r : Except Err (Answer o)}
    (h : E.PathTo (Program.perform o : Body Stmt Answer Err _) seen r) :
    ∃ d, seen = [(o, d)] ∧ r = (E.exec o d).1 := by
  obtain ⟨d, rest, rfl, hrest⟩ := path_call h
  obtain ⟨rfl, hr⟩ := path_done hrest
  exact ⟨d, rfl, hr.symm⟩

theorem path_relabel {ε' β' : Type} {f : ε → ε'} {g : β → β'}
    {body : Body Stmt Answer Err (Outcome ε β)} {b' : β'}
    (h : E.PathTo (relabel f g body) seen (.commit b')) :
    ∃ b, b' = g b ∧ E.PathTo body seen (.commit b) := by
  obtain ⟨first, rest, out, rfl, hfirst, hrest⟩ := path_bind h
  obtain ⟨rfl, hout⟩ := path_done hrest
  rw [List.append_nil]
  cases out with
  | commit b =>
      cases hout
      exact ⟨b, rfl, hfirst⟩
  | rollback e => cases hout

/-- The statements of a path are statements of the code. -/
theorem only_of_path {P : Stmt → Prop} (h : E.Path body seen body') (honly : Program.Only P body) :
    ∀ e ∈ seen, P e.1 := by
  induction h with
  | refl body =>
      exact nofun
  | step rest ih =>
      rw [List.forall_mem_cons]
      exact ⟨honly.1, ih (honly.2 _)⟩

/-- What is left of code that stops on failures does so too. -/
theorem stopsWith_of_path {failure : α → Prop} (h : E.Path body seen body')
    (hbody : StopsWith failure body) : StopsWith failure body' := by
  induction h with
  | refl body => exact hbody
  | @step o next d seen body rest ih =>
      apply ih
      cases hr : (E.exec o d).1 with
      | error e =>
          obtain ⟨out, hout, -⟩ := hbody.1 e
          rw [hout]
          trivial
      | ok a => exact hbody.2 a

end Path

/-- Identities that are handed out by sequences. -/
structure Numbering (I : Type) where
  /-- The identity a change uses for the first time. -/
  ident : Write → Option I
  /-- The identities handed out so far. -/
  issued : Data → I → Prop
  fresh : ∀ o d w i, w ∈ (E.exec o d).2 → ident w = some i → ¬ issued d i
  drawn : ∀ o d ws w i, w ∈ (E.exec o (E.view d ws)).2 → ident w = some i →
    issued (E.draw o d) i
  once : ∀ o d, ((E.exec o d).2.filterMap ident).Nodup
  draw_mono : ∀ o d i, issued d i → issued (E.draw o d) i
  apply_iff : ∀ d w i, issued (E.apply d w) i ↔ issued d i

namespace Numbering

variable {E} (N : E.Numbering I)

theorem view_iff (d : Data) (ws : List Write) (i : I) :
    N.issued (E.view d ws) i ↔ N.issued d i := by
  induction ws generalizing d with
  | nil => rfl
  | cons w ws ih =>
      rw [view_cons, ih, N.apply_iff]

/-- The identities some changes use. -/
def idents (ws : List Write) : List I :=
  ws.filterMap N.ident

theorem idents_append (ws ws' : List Write) :
    N.idents (ws ++ ws') = N.idents ws ++ N.idents ws' := by
  simp [idents]

/-- The identities of open transactions are theirs alone. -/
structure Numbered (p : Pool Stmt Answer Err Data Write α) : Prop where
  issued : ∀ t s, p.sessions t = some s → ∀ i ∈ N.idents s.writes, N.issued p.data i
  nodup : ∀ t s, p.sessions t = some s → (N.idents s.writes).Nodup
  apart : ∀ t u s s', t ≠ u → p.sessions t = some s → p.sessions u = some s' →
    ∀ i ∈ N.idents s.writes, i ∉ N.idents s'.writes

variable {N} {p : Pool Stmt Answer Err Data Write α}

theorem Numbered.withData (h : N.Numbered p) {d : Data}
    (hd : ∀ i, N.issued p.data i → N.issued d i) : N.Numbered (p.withData d) where
  issued := fun t s hs i hi => hd i (h.issued t s hs i hi)
  nodup := h.nodup
  apart := h.apart

theorem Numbered.close (h : N.Numbered p) (t : Nat) : N.Numbered (p.close t) := by
  constructor
  · exact fun u s hs => h.issued u s (Pool.session_of_close hs).2
  · exact fun u s hs => h.nodup u s (Pool.session_of_close hs).2
  · exact fun u v s s' huv hs hs' =>
      h.apart u v s s' huv (Pool.session_of_close hs).2 (Pool.session_of_close hs').2

theorem Numbered.put (h : N.Numbered p) {t : Nat} {s : Session Stmt Answer Err Data Write α}
    (hissued : ∀ i ∈ N.idents s.writes, N.issued p.data i) (hnodup : (N.idents s.writes).Nodup)
    (hapart : ∀ u s', u ≠ t → p.sessions u = some s' →
      ∀ i ∈ N.idents s.writes, i ∉ N.idents s'.writes) : N.Numbered (p.put t s) := by
  have hself := Pool.sessions_put_self (p := p) t s
  have hother : ∀ u, u ≠ t → (p.put t s).sessions u = p.sessions u :=
    fun u hu => Pool.sessions_put_ne s hu
  constructor
  · intro u s' hs'
    by_cases hu : u = t
    · subst hu
      rw [hself] at hs'
      cases hs'
      exact hissued
    · rw [hother u hu] at hs'
      exact h.issued u s' hs'
  · intro u s' hs'
    by_cases hu : u = t
    · subst hu
      rw [hself] at hs'
      cases hs'
      exact hnodup
    · rw [hother u hu] at hs'
      exact h.nodup u s' hs'
  · intro u v s₁ s₂ huv hs₁ hs₂ i hi
    by_cases hu : u = t
    · subst hu
      rw [hself] at hs₁
      rw [hother v huv.symm] at hs₂
      cases hs₁
      exact hapart v s₂ huv.symm hs₂ i hi
    · rw [hother u hu] at hs₁
      by_cases hv : v = t
      · subst hv
        rw [hself] at hs₂
        cases hs₂
        exact fun hmem => hapart u s₁ hu hs₁ i hmem hi
      · rw [hother v hv] at hs₂
        exact h.apart u v s₁ s₂ huv hs₁ hs₂ i hi

/-- A statement takes identities nobody has. -/
theorem Numbered.statement (h : N.Numbered p) {t : Nat} {p' : Pool Stmt Answer Err Data Write α}
    (hstep : E.PoolStatement t p p') : N.Numbered p' := by
  cases hstep with
  | @step o next ws seen r x hs hstep hfree =>
      have hissued : ∀ i ∈ N.idents ws, N.issued p.data i := h.issued t _ hs
      have hnodup : (N.idents ws).Nodup := h.nodup t _ hs
      have hapart : ∀ u s', u ≠ t → p.sessions u = some s' →
          ∀ i ∈ N.idents ws, i ∉ N.idents s'.writes :=
        fun u s' hu hs' => h.apart t u _ s' hu.symm hs hs'
      have hdrawn : N.Numbered (p.withData (E.draw o p.data)) := h.withData (N.draw_mono o p.data)
      cases hstep with
      | answered =>
          have hnew : ∀ i ∈ N.idents (E.exec o (E.view p.data ws)).2, ¬ N.issued p.data i := by
            intro i hi hold
            obtain ⟨w, hw, hident⟩ := List.mem_filterMap.1 hi
            exact N.fresh o _ w i hw hident ((N.view_iff _ _ _).2 hold)
          refine hdrawn.put ?_ ?_ ?_
          · intro i hi
            rw [after, N.idents_append] at hi
            rcases List.mem_append.1 hi with hi | hi
            · exact N.draw_mono o _ i (hissued i hi)
            · obtain ⟨w, hw, hident⟩ := List.mem_filterMap.1 hi
              exact N.drawn o p.data ws w i hw hident
          · rw [after, N.idents_append]
            refine List.Nodup.append hnodup (N.once o _) ?_
            intro i hold hi
            exact hnew i hi (hissued i hold)
          · intro u s' hu hs' i hi
            rw [after, N.idents_append] at hi
            rcases List.mem_append.1 hi with hi | hi
            · exact hapart u s' hu hs' i hi
            · exact fun hmem => hnew i hi (h.issued u s' hs' i hmem)
      | failed e =>
          exact (h.withData fun i hi => hi).put hissued hnodup hapart
      | failedLate e =>
          exact hdrawn.put (fun i hi => N.draw_mono o _ i (hissued i hi)) hnodup hapart

end Numbering

/-- The states at which statements were answered, and how the data moved in between. -/
inductive Chain (Fine : Data → Prop) (R : List (Stmt × Data) → Data → Data → Prop)
    (start : Data) : List (Stmt × Data) → Data → Prop
  | start {d : Data} (hfine : Fine start) (hmove : R [] start d) : Chain Fine R start [] d
  | answered {seen : List (Stmt × Data)} {base d : Data} {o : Stmt}
      (before : Chain Fine R start seen base) (hfine : Fine base)
      (hmove : R (seen ++ [(o, E.view base (E.writesOf seen))]) (E.draw o base) d) :
      Chain Fine R start (seen ++ [(o, E.view base (E.writesOf seen))]) d

variable {seen : List (Stmt × Data)} {R : List (Stmt × Data) → Data → Data → Prop}

/-- The data move on. -/
theorem Chain.move {E : Engine Stmt Answer Err Data Write Lock} {Fine : Data → Prop}
    (htrans : ∀ seen d₁ d₂ d₃, R seen d₁ d₂ → R seen d₂ d₃ → R seen d₁ d₃) {start d d' : Data}
    (h : E.Chain Fine R start seen d) (hd : R seen d d') : E.Chain Fine R start seen d' := by
  cases h with
  | start hfine hmove =>
      exact .start hfine (htrans _ _ _ _ hmove hd)
  | answered before hfine hmove =>
      exact .answered before hfine (htrans _ _ _ _ hmove hd)

/-- The last statement, with the state it was answered at. -/
theorem Chain.last {E : Engine Stmt Answer Err Data Write Lock} {Fine : Data → Prop}
    {R : List (Stmt × Data) → Data → Data → Prop} {start d sight : Data} {seen : List (Stmt × Data)}
    {o : Stmt} (h : E.Chain Fine R start (seen ++ [(o, sight)]) d) :
    ∃ base, E.Chain Fine R start seen base ∧ Fine base ∧ sight = E.view base (E.writesOf seen) ∧
      R (seen ++ [(o, sight)]) (E.draw o base) d := by
  generalize hall : seen ++ [(o, sight)] = all at h
  cases h with
  | start hfine hmove => simp at hall
  | @answered seen' base d o' before hfine hmove =>
      obtain ⟨rfl, hentry⟩ := List.append_inj' hall rfl
      cases hentry
      exact ⟨base, before, hfine, rfl, hmove⟩

/-- Any statement, with the state it was answered at: from there the data moved as the call
allows. -/
theorem Chain.entry {E : Engine Stmt Answer Err Data Write Lock} {Fine : Data → Prop}
    (htrans : ∀ seen d₁ d₂ d₃, R seen d₁ d₂ → R seen d₂ d₃ → R seen d₁ d₃)
    (hmono : ∀ seen seen' d d', R (seen ++ seen') d d' → R seen d d')
    (hdraw : ∀ seen o d, Fine d → R seen d (E.draw o d)) {start d sight : Data}
    {seen' : List (Stmt × Data)} {o : Stmt}
    (h : E.Chain Fine R start (seen ++ (o, sight) :: seen') d) :
    ∃ base, E.Chain Fine R start seen base ∧ Fine base ∧ sight = E.view base (E.writesOf seen) ∧
      R (seen ++ [(o, sight)]) (E.draw o base) d := by
  induction seen' using List.reverseRecOn generalizing d with
  | nil => exact h.last
  | append_singleton seen' entry ih =>
      obtain ⟨o', sight'⟩ := entry
      rw [← List.cons_append, ← List.append_assoc] at h
      obtain ⟨base', hbefore, hfine', -, hmove'⟩ := h.last
      obtain ⟨base, hchain, hfine, hsight, hmove⟩ := ih hbefore
      refine ⟨base, hchain, hfine, hsight, ?_⟩
      have hlater : R (seen ++ [(o, sight)]) base' d := by
        refine htrans _ _ _ _ (hdraw _ o' _ hfine') ?_
        apply hmono _ (seen' ++ [(o', sight')])
        simpa using hmove'
      exact htrans _ _ _ _ hmove hlater

end Engine

/-- A call that has committed. -/
structure Finished (Stmt Data Write β : Type) where
  /-- Which of the calls. -/
  call : Nat
  /-- What was committed when it began. -/
  start : Data
  result : β
  /-- Its transaction when it committed. -/
  txn : Txn Stmt Data Write

/-- The open transactions, what was committed when each began, and the calls that have
committed. -/
structure Calls (Stmt : Type) (Answer : Stmt → Type) (Err Data Write ε β : Type) where
  pool : Pool Stmt Answer Err Data Write (Outcome ε β)
  begun : Nat → Data
  finished : List (Finished Stmt Data Write β)

/-- Nothing has been called yet. -/
def Calls.start (d : Data) : Calls Stmt Answer Err Data Write ε β :=
  ⟨⟨d, fun _ => none⟩, fun _ => d, []⟩

section Calls

variable (E : Engine Stmt Answer Err Data Write Lock)
  (calls : Nat → Body Stmt Answer Err (Outcome ε β))
  (check : Data → List Write → Prop)
  (allowed : Calls Stmt Answer Err Data Write ε β → Nat → Stmt → Prop)

/-- One step of call `t`.  A commit goes through if the constraints that are deferred to it
are met. -/
inductive CallStep :
    Calls Stmt Answer Err Data Write ε β → Calls Stmt Answer Err Data Write ε β → Prop
  | begin {c : Calls Stmt Answer Err Data Write ε β} {t : Nat}
      (hnew : c.pool.sessions t = none) :
      CallStep c { c with
        pool := c.pool.put t (.start (calls t))
        begun := update c.begun t c.pool.data }
  | statement {c : Calls Stmt Answer Err Data Write ε β} {t : Nat} {o : Stmt}
      {next : Except Err (Answer o) → Body Stmt Answer Err (Outcome ε β)} {ws : List Write}
      {seen : List (Stmt × Data)} {pool : Pool Stmt Answer Err Data Write (Outcome ε β)}
      (hs : c.pool.sessions t = some ⟨.call o next, ws, seen⟩) (hallowed : allowed c t o)
      (hstep : E.PoolStatement t c.pool pool) : CallStep c { c with pool := pool }
  | commit {c : Calls Stmt Answer Err Data Write ε β} {t : Nat} {b : β} {ws : List Write}
      {seen : List (Stmt × Data)}
      (hs : c.pool.sessions t = some ⟨.done (.commit b), ws, seen⟩)
      (hcheck : check c.pool.data ws) :
      CallStep c { c with
        pool := (c.pool.withData (E.view c.pool.data ws)).close t
        finished := c.finished ++ [⟨t, c.begun t, b, ⟨c.pool.data, ws, seen⟩⟩] }
  /-- The transaction is rolled back. -/
  | abandon {c : Calls Stmt Answer Err Data Write ε β} {t : Nat} :
      CallStep c { c with pool := c.pool.close t }

variable (N : E.Numbering I)

/-- An invariant of the committed data, and what calls rely on. -/
structure CallContract where
  Good : Data → List (Finished Stmt Data Write β) → Prop
  /-- How the data may move while a call has been answered so much. -/
  R : Nat → List (Stmt × Data) → Data → Data → Prop
  /-- What separates two open calls. -/
  Apart : List (Stmt × Data) → List (Stmt × Data) → Prop
  givesUp : ∀ t, GivesUp (calls t)
  refl : ∀ t seen d, R t seen d d
  trans : ∀ t seen d₁ d₂ d₃, R t seen d₁ d₂ → R t seen d₂ d₃ → R t seen d₁ d₃
  draw : ∀ t seen o d fs, Good d fs → R t seen d (E.draw o d)
  good_draw : ∀ o d fs, Good d fs → Good (E.draw o d) fs
  apart_symm : ∀ seen seen', Apart seen seen' → Apart seen' seen
  apart_nil : ∀ seen, Apart [] seen
  /-- An allowed statement keeps two calls apart. -/
  apart_step : ∀ (c : Calls Stmt Answer Err Data Write ε β) t u o next ws seen s,
    u ≠ t → c.pool.sessions t = some ⟨.call o next, ws, seen⟩ → c.pool.sessions u = some s →
    allowed c t o → Apart seen s.seen →
    Apart (seen ++ [(o, E.view c.pool.data ws)]) s.seen
  /-- A commit keeps the invariant. -/
  commit : ∀ t start b d fs seen, Good d fs → E.PathTo (calls t) seen (.commit b) →
    E.Chain (fun d => ∃ fs, Good d fs) (R t) start seen d →
    (N.idents (E.writesOf seen)).Nodup → check d (E.writesOf seen) →
    Good (E.view d (E.writesOf seen)) (fs ++ [⟨t, start, b, ⟨d, E.writesOf seen, seen⟩⟩])
  /-- A commit is what the other calls allow. -/
  others : ∀ t u start start' b d fs seen seen' body, u ≠ t → Good d fs →
    E.PathTo (calls t) seen (.commit b) →
    E.Chain (fun d => ∃ fs, Good d fs) (R t) start seen d →
    check d (E.writesOf seen) →
    E.Path (calls u) seen' body → E.Chain (fun d => ∃ fs, Good d fs) (R u) start' seen' d →
    (∀ a ∈ E.writesOf seen, ∀ b ∈ E.writesOf seen', E.lock a ≠ none → E.lock a ≠ E.lock b) →
    (∀ i ∈ N.idents (E.writesOf seen), i ∉ N.idents (E.writesOf seen')) → Apart seen seen' →
    R u seen' d (E.view d (E.writesOf seen))

variable {E calls check allowed N}

/-- What is known of an open transaction of call `t`: it is to be rolled back, or it is on
its path. -/
def CallContract.Traced (K : CallContract E calls check allowed N) (t : Nat)
    (start d : Data) (s : Session Stmt Answer Err Data Write (Outcome ε β)) : Prop :=
  (∃ out, s.body = .done (.rollback out)) ∨
    E.Path (calls t) s.seen s.body ∧ s.writes = E.writesOf s.seen ∧
      E.Chain (fun d => ∃ fs, K.Good d fs) (K.R t) start s.seen d

/-- The invariant of all calls under a contract. -/
structure CallInv (K : CallContract E calls check allowed N)
    (c : Calls Stmt Answer Err Data Write ε β) : Prop where
  good : K.Good c.pool.data c.finished
  exclusive : E.Exclusive c.pool
  numbered : N.Numbered c.pool
  apart : ∀ t u s s', t ≠ u → c.pool.sessions t = some s → c.pool.sessions u = some s' →
    K.Apart s.seen s'.seen
  traced : ∀ t s, c.pool.sessions t = some s → K.Traced t (c.begun t) c.pool.data s

namespace CallContract

variable {K : CallContract E calls check allowed N}

/-- What is known of a call survives what it allows. -/
theorem Traced.move {t : Nat} {start d d' : Data}
    {s : Session Stmt Answer Err Data Write (Outcome ε β)} (h : K.Traced t start d s)
    (hd : K.R t s.seen d d') : K.Traced t start d' s := by
  rcases h with hback | ⟨hpath, hwrites, hchain⟩
  · exact .inl hback
  · exact .inr ⟨hpath, hwrites, hchain.move (K.trans t) hd⟩

/-- What is known of a call after one of its statements. -/
theorem Traced.statement {t : Nat} {start d : Data} {o : Stmt}
    {next : Except Err (Answer o) → Body Stmt Answer Err (Outcome ε β)} {ws : List Write}
    {seen : List (Stmt × Data)} {fs : List (Finished Stmt Data Write β)} {r : Except Err (Answer o)}
    {x : Txn Stmt Data Write} (hgood : K.Good d fs)
    (h : K.Traced t start d ⟨.call o next, ws, seen⟩) (hstep : E.Statement o ⟨d, ws, seen⟩ r x) :
    K.Traced t start x.data ⟨next r, x.writes, x.seen⟩ := by
  rcases h with ⟨out, hback⟩ | ⟨hpath, hwrites, hchain⟩
  · cases hback
  change ws = E.writesOf seen at hwrites
  have hback : ∀ e, ∃ out, next (.error e) = .done (.rollback out) := by
    intro e
    obtain ⟨a, ha, out, rfl⟩ := (Engine.stopsWith_of_path hpath (K.givesUp t)).1 e
    exact ⟨out, ha⟩
  cases hstep with
  | answered =>
      refine .inr ⟨hpath.snoc _, ?_, ?_⟩
      · show ws ++ _ = E.writesOf (seen ++ _)
        rw [hwrites]
        simp [Engine.sight]
      · have hsight : E.sight ⟨d, ws, seen⟩ = E.view d (E.writesOf seen) := by
          rw [Engine.sight, hwrites]
        show E.Chain _ _ start (seen ++ [(o, E.sight ⟨d, ws, seen⟩)]) (E.draw o d)
        rw [hsight]
        exact .answered hchain ⟨fs, hgood⟩ (K.refl t _ _)
  | failed e | failedLate e => exact .inl (hback e)

end CallContract

namespace CallInv

variable {K : CallContract E calls check allowed N}
  {c c' : Calls Stmt Answer Err Data Write ε β}

theorem start {d : Data} (hgood : K.Good d []) : CallInv K (.start d) where
  good := hgood
  exclusive := fun _ _ _ _ ⟨_, hs, _⟩ => nomatch hs
  numbered := {
    issued := nofun
    nodup := nofun
    apart := nofun }
  apart := nofun
  traced := nofun

theorem abandon (h : CallInv K c) (t : Nat) :
    CallInv K { c with pool := c.pool.close t } where
  good := h.good
  exclusive := Engine.exclusive_close h.exclusive t
  numbered := h.numbered.close t
  apart := fun u v s s' huv hs hs' =>
    h.apart u v s s' huv (Pool.session_of_close hs).2 (Pool.session_of_close hs').2
  traced := fun u s hs => h.traced u s (Pool.session_of_close hs).2

theorem begin (h : CallInv K c) (t : Nat) :
    CallInv K { c with
      pool := c.pool.put t (.start (calls t))
      begun := update c.begun t c.pool.data } where
  good := h.good
  exclusive := Engine.exclusive_start h.exclusive t _
  numbered := h.numbered.put nofun List.nodup_nil
    nofun
  apart := by
    intro u v s s' huv hs hs'
    by_cases hu : u = t
    · subst hu
      rw [Pool.sessions_put_self] at hs
      cases hs
      exact K.apart_nil _
    · rw [Pool.sessions_put_ne _ hu] at hs
      by_cases hv : v = t
      · subst hv
        rw [Pool.sessions_put_self] at hs'
        cases hs'
        exact K.apart_symm _ _ (K.apart_nil _)
      · rw [Pool.sessions_put_ne _ hv] at hs'
        exact h.apart u v s s' huv hs hs'
  traced := by
    intro u s hs
    by_cases hu : u = t
    · subst hu
      rw [Pool.sessions_put_self] at hs
      cases hs
      show K.Traced u (update c.begun u c.pool.data u) c.pool.data _
      rw [Function.update_self]
      exact .inr ⟨.refl _, rfl, .start ⟨_, h.good⟩ (K.refl u _ _)⟩
    · rw [Pool.sessions_put_ne _ hu] at hs
      show K.Traced u (update c.begun t c.pool.data u) c.pool.data s
      rw [Function.update_of_ne hu]
      exact h.traced u s hs

/-- A statement moves the data by what it draws at most. -/
theorem statement_data {o : Stmt} {x y : Txn Stmt Data Write} {r : Except Err (Answer o)}
    (h : E.Statement o x r y) : y.data = x.data ∨ y.data = E.draw o x.data := by
  cases h with
  | answered => exact .inr rfl
  | failed e => exact .inl rfl
  | failedLate e => exact .inr rfl

theorem statement (h : CallInv K c) {t : Nat} {o : Stmt}
    {next : Except Err (Answer o) → Body Stmt Answer Err (Outcome ε β)} {ws : List Write}
    {seen : List (Stmt × Data)} {pool : Pool Stmt Answer Err Data Write (Outcome ε β)}
    (hs : c.pool.sessions t = some ⟨.call o next, ws, seen⟩) (hallowed : allowed c t o)
    (hstep : E.PoolStatement t c.pool pool) : CallInv K { c with pool := pool } := by
  have hexclusive := Engine.exclusive_statement h.exclusive hstep
  have hnumbered := h.numbered.statement hstep
  cases hstep with
  | @step o' next' ws' seen' r x hs' hstatement hfree =>
      rw [hs] at hs'
      cases hs'
      have hmove : ∀ u seen', K.R u seen' c.pool.data x.data := by
        intro u seen'
        rcases statement_data hstatement with hdata | hdata <;> rw [hdata]
        · exact K.refl u _ _
        · exact K.draw u _ o _ _ h.good
      have happend : x.seen = seen ∨ x.seen = seen ++ [(o, E.view c.pool.data ws)] := by
        cases hstatement with
        | answered => exact .inr rfl
        | failed e | failedLate e => exact .inl rfl
      have hown : ∀ u s, u ≠ t → c.pool.sessions u = some s → K.Apart x.seen s.seen := by
        intro u s hu hopen
        have hapart := h.apart t u _ s hu.symm hs hopen
        rcases happend with heq | heq <;> rw [heq]
        · exact hapart
        · exact K.apart_step c t u o next ws seen s hu hs hopen hallowed hapart
      refine ⟨?_, hexclusive, hnumbered, ?_, ?_⟩
      · show K.Good x.data c.finished
        rcases statement_data hstatement with hdata | hdata <;> rw [hdata]
        · exact h.good
        · exact K.good_draw o _ _ h.good
      · intro u v s s' huv hu hv
        by_cases hut : u = t
        · subst hut
          rw [Pool.sessions_put_self] at hu
          rw [Pool.sessions_put_ne _ huv.symm] at hv
          cases hu
          exact hown v s' huv.symm hv
        · rw [Pool.sessions_put_ne _ hut] at hu
          by_cases hvt : v = t
          · subst hvt
            rw [Pool.sessions_put_self] at hv
            cases hv
            exact K.apart_symm _ _ (hown u s hut hu)
          · rw [Pool.sessions_put_ne _ hvt] at hv
            exact h.apart u v s s' huv hu hv
      · intro u s hu
        by_cases hut : u = t
        · subst hut
          rw [Pool.sessions_put_self] at hu
          cases hu
          exact (h.traced u _ hs).statement h.good hstatement
        · rw [Pool.sessions_put_ne _ hut] at hu
          exact (h.traced u s hu).move (hmove u _)

/-- What is known of a call that asks for a commit. -/
theorem path_of_commit (h : CallInv K c) {t : Nat} {b : β} {ws : List Write}
    {seen : List (Stmt × Data)} (hs : c.pool.sessions t = some ⟨.done (.commit b), ws, seen⟩) :
    E.PathTo (calls t) seen (.commit b) ∧ ws = E.writesOf seen ∧
      E.Chain (fun d => ∃ fs, K.Good d fs) (K.R t) (c.begun t) seen c.pool.data := by
  rcases h.traced t _ hs with ⟨out, hback⟩ | htraced
  · cases hback
  · exact htraced

theorem commit (h : CallInv K c) {t : Nat} {b : β} {ws : List Write} {seen : List (Stmt × Data)}
    (hs : c.pool.sessions t = some ⟨.done (.commit b), ws, seen⟩) (hcheck : check c.pool.data ws) :
    CallInv K { c with
      pool := (c.pool.withData (E.view c.pool.data ws)).close t
      finished := c.finished ++ [⟨t, c.begun t, b, ⟨c.pool.data, ws, seen⟩⟩] } := by
  obtain ⟨hpath, rfl, hchain⟩ := h.path_of_commit hs
  refine ⟨?_, ?_, ?_, ?_, ?_⟩
  · exact K.commit t _ b _ _ seen h.good hpath hchain (h.numbered.nodup t _ hs) hcheck
  · exact Engine.exclusive_close (Engine.exclusive_withData h.exclusive _) t
  · exact (h.numbered.withData fun i hi => (N.view_iff _ _ i).2 hi).close t
  · intro u v s s' huv hu hv
    exact h.apart u v s s' huv (Pool.session_of_close hu).2 (Pool.session_of_close hv).2
  · intro u s hu
    obtain ⟨hut, hu⟩ := Pool.session_of_close hu
    change c.pool.sessions u = some s at hu
    rcases h.traced u s hu with hback | ⟨hpath', hwrites, hchain'⟩
    · exact .inl hback
    refine .inr ⟨hpath', hwrites, hchain'.move (K.trans u) ?_⟩
    apply K.others t u _ _ b _ _ seen s.seen s.body hut h.good hpath hchain hcheck hpath' hchain'
    · intro a ha b' hb hlock heq
      obtain ⟨l, hl⟩ := Option.ne_none_iff_exists'.1 hlock
      rw [← hwrites] at hb
      exact h.exclusive t u l hut.symm ⟨_, hs, a, ha, hl⟩ ⟨s, hu, b', hb, heq.symm.trans hl⟩
    · intro i hi
      rw [← hwrites]
      exact h.numbered.apart t u _ s hut.symm hs hu i hi
    · exact h.apart t u _ s hut.symm hs hu

/-- Every step of a call keeps the invariant. -/
theorem step (h : CallInv K c) (hstep : CallStep E calls check allowed c c') : CallInv K c' := by
  cases hstep with
  | @begin t hnew => exact h.begin t
  | statement hs hallowed hstep =>
      exact h.statement hs hallowed hstep
  | commit hs hcheck => exact h.commit hs hcheck
  | @abandon t => exact h.abandon t

end CallInv

variable {K : CallContract E calls check allowed N} {c c' : Calls Stmt Answer Err Data Write ε β}

/-- The invariant holds in every state that calls can reach. -/
theorem callInv_of_run (h : CallInv K c)
    (hrun : Relation.ReflTransGen (CallStep E calls check allowed) c c') : CallInv K c' := by
  induction hrun with
  | refl => exact h
  | tail _ hstep ih => exact ih.step hstep

/-- What drawing and every commit keep holds in every state that calls can reach.  A commit is on
the path of its call, and a contract says what the call has relied on. -/
theorem holds_of_run {K : CallContract E calls check allowed N} {P : Data → Prop}
    (hdraw : ∀ o d, P d → P (E.draw o d))
    (hcommit : ∀ t start b d seen, P d → E.PathTo (calls t) seen (.commit b) →
      E.Chain (fun d => ∃ fs, K.Good d fs) (K.R t) start seen d →
      P (E.view d (E.writesOf seen)))
    {c c' : Calls Stmt Answer Err Data Write ε β} (h : CallInv K c)
    (hrun : Relation.ReflTransGen (CallStep E calls check allowed) c c') (hp : P c.pool.data) :
    P c'.pool.data := by
  induction hrun with
  | refl => exact hp
  | @tail c₁ c₂ hrun hstep ih =>
      have hinv := callInv_of_run h hrun
      cases hstep with
      | begin hnew => exact ih
      | statement hs hallowed hstep =>
          cases hstep with
          | step hs' hstatement hfree =>
              rcases CallInv.statement_data hstatement with hdata | hdata
              · exact hdata.symm ▸ ih
              · exact hdata.symm ▸ hdraw _ _ ih
      | commit hs hcheck =>
          obtain ⟨hpath, rfl, hchain⟩ := hinv.path_of_commit hs
          exact hcommit _ _ _ _ _ ih hpath hchain
      | abandon => exact ih

/-- Call `t` has run from beginning to end, with nothing else going on. -/
def Calls.committed (E : Engine Stmt Answer Err Data Write Lock)
    (c : Calls Stmt Answer Err Data Write ε β) (t : Nat) (b : β) (x : Txn Stmt Data Write) :
    Calls Stmt Answer Err Data Write ε β :=
  ⟨c.pool.withData (E.view x.data x.writes), update c.begun t c.pool.data,
    c.finished ++ [⟨t, c.pool.data, b, x⟩]⟩

section Alone

variable {c : Calls Stmt Answer Err Data Write ε β} {t : Nat}

/-- Statements of a call that is alone are steps of the calls. -/
theorem CallStep.statements
    (hallowed : ∀ (c : Calls Stmt Answer Err Data Write ε β) o,
      (∀ u, u ≠ t → c.pool.sessions u = none) → allowed c t o)
    (halone : ∀ u, u ≠ t → c.pool.sessions u = none)
    {p : Pool Stmt Answer Err Data Write (Outcome ε β)}
    (h : Relation.ReflTransGen (E.PoolStatement t) c.pool p) :
    Relation.ReflTransGen (CallStep E calls check allowed) c { c with pool := p } ∧
      ∀ u, u ≠ t → p.sessions u = none := by
  induction h with
  | refl => exact ⟨.refl, halone⟩
  | @tail p p' _ hstep ih =>
      refine ⟨ih.1.tail ?_, ?_⟩
      · have hs := hstep
        cases hs with
        | step hs hstatement hfree =>
            exact .statement (c := { c with pool := p }) hs (hallowed _ _ ih.2) hstep
      · cases hstep with
        | step hs hstatement hfree =>
            intro u hu
            rw [Pool.sessions_put_ne _ hu]
            exact ih.2 u hu

/-- A call that is alone runs as its code does undisturbed. -/
theorem CallStep.alone
    (hallowed : ∀ (c : Calls Stmt Answer Err Data Write ε β) o,
      (∀ u, u ≠ t → c.pool.sessions u = none) → allowed c t o)
    (halone : ∀ u, c.pool.sessions u = none) {b : β}
    (hresult : (E.runBody (calls t) ⟨c.pool.data, [], []⟩).1 = .commit b)
    (hcheck : check (E.runBody (calls t) ⟨c.pool.data, [], []⟩).2.data
      (E.runBody (calls t) ⟨c.pool.data, [], []⟩).2.writes) :
    Relation.ReflTransGen (CallStep E calls check allowed) c
      (c.committed E t b (E.runBody (calls t) ⟨c.pool.data, [], []⟩).2) := by
  have hrun : E.runBody (calls t) ⟨c.pool.data, [], []⟩ =
      (.commit b, (E.runBody (calls t) ⟨c.pool.data, [], []⟩).2) :=
    Prod.ext hresult rfl
  generalize (E.runBody (calls t) ⟨c.pool.data, [], []⟩).2 = x at hcheck hrun
  have hself := Pool.sessions_put_self (p := c.pool.withData x.data) t
    ⟨.done (.commit b), x.writes, x.seen⟩
  have hstatements := E.statements_alone_start (t := t) halone hrun
  have hbegin : CallStep E calls check allowed c _ := .begin (halone t)
  have hothers : ∀ u, u ≠ t → (c.pool.put t (.start (calls t))).sessions u = none := by
    intro u hu
    rw [Pool.sessions_put_ne _ hu]
    exact halone u
  have hall : Relation.ReflTransGen (CallStep E calls check allowed) _ _ :=
    (CallStep.statements hallowed (c := ⟨c.pool.put t (.start (calls t)),
      update c.begun t c.pool.data, c.finished⟩) hothers hstatements).1
  refine Relation.ReflTransGen.head hbegin (hall.tail ?_)
  have hcommit : CallStep E calls check allowed _ _ :=
    .commit (c := ⟨(c.pool.withData x.data).put t ⟨.done (.commit b), x.writes, x.seen⟩,
      update c.begun t c.pool.data, c.finished⟩) hself hcheck
  have hpool : (((c.pool.withData x.data).put t ⟨.done (.commit b), x.writes, x.seen⟩).withData
      (E.view x.data x.writes)).close t = c.pool.withData (E.view x.data x.writes) := by
    simp only [Pool.withData, Pool.put, Pool.close, Function.update_idem]
    rw [Function.update_eq_self_iff.2 (halone t).symm]
  have hbegun : update c.begun t c.pool.data t = c.pool.data := Function.update_self _ _ _
  simp only at hcommit
  rw [hbegun] at hcommit
  convert hcommit using 1
  rw [Calls.committed, ← hpool]
  rfl

end Alone

end Calls

end LedgerLine
