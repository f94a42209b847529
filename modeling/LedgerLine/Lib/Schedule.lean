import LedgerLine.Lib.Calls

/-!
# Schedules

A schedule says which call takes the next step, and of what kind.  `Calls.play` carries it
out, as long as at most the first `n` calls are open, each statement is allowed and nothing
keeps it waiting; `reachable_of_play`: what it arrives at can be reached by the calls.
-/

namespace LedgerLine

/-- What a schedule has a call do. -/
inductive Move
  | begin (t : Nat)
  /-- So many statements, none of which fails. -/
  | statements (t count : Nat)
  | commit (t : Nat)

variable {Stmt : Type} {Answer : Stmt → Type} {Err Data Write Lock ε β : Type}

namespace Calls

section Play

variable [DecidableEq Lock] (E : Engine Stmt Answer Err Data Write Lock)
  (calls : Nat → Body Stmt Answer Err (Outcome ε β)) (check : Data → List Write → Prop)
  [∀ d ws, Decidable (check d ws)]
  (allow : Calls Stmt Answer Err Data Write ε β → Nat → Stmt → Bool) (n : Nat)

/-- Whether none of the first `n` calls, `t` apart, has locked one of the rows. -/
def free (c : Calls Stmt Answer Err Data Write ε β) (t : Nat) (rows : List Lock) : Bool :=
  (List.range n).all fun u => u = t || match c.pool.sessions u with
    | none => true
    | some s => s.writes.all fun w => match E.lock w with
        | none => true
        | some l => l ∉ rows

/-- One statement of call `t`. -/
def state (c : Calls Stmt Answer Err Data Write ε β) (t : Nat) :
    Option (Calls Stmt Answer Err Data Write ε β) :=
  match c.pool.sessions t with
  | some ⟨.call o next, ws, seen⟩ =>
      let x : Txn Stmt Data Write := ⟨c.pool.data, ws, seen⟩
      if allow c t o ∧ free E n c t (E.waits o (E.sight x)) then
        some { c with
          pool := (c.pool.withData (E.after o x).data).put t
            ⟨next (E.exec o (E.sight x)).1, (E.after o x).writes, (E.after o x).seen⟩ }
      else
        none
  | _ => none

/-- So many statements of call `t`. -/
def states (t : Nat) : Nat → Calls Stmt Answer Err Data Write ε β →
    Option (Calls Stmt Answer Err Data Write ε β)
  | 0, c => some c
  | count + 1, c => (state E allow n c t).bind (states t count)

/-- One move. -/
def move (c : Calls Stmt Answer Err Data Write ε β) : Move →
    Option (Calls Stmt Answer Err Data Write ε β)
  | .begin t =>
      if (c.pool.sessions t).isNone ∧ t < n then
        some { c with
          pool := c.pool.put t (.start (calls t))
          begun := Function.update c.begun t c.pool.data }
      else
        none
  | .statements t count => states E allow n t count c
  | .commit t =>
      match c.pool.sessions t with
      | some ⟨.done (.commit b), ws, seen⟩ =>
          if check c.pool.data ws then
            some { c with
              pool := (c.pool.withData (E.view c.pool.data ws)).close t
              finished := c.finished ++ [⟨t, c.begun t, b, ⟨c.pool.data, ws, seen⟩⟩] }
          else
            none
      | _ => none

/-- All moves of a schedule. -/
def play : List Move → Calls Stmt Answer Err Data Write ε β →
    Option (Calls Stmt Answer Err Data Write ε β)
  | [], c => some c
  | m :: ms, c => (move E calls check allow n c m).bind (play ms)

end Play

/-- Only the first `n` calls are open. -/
def Within (n : Nat) (c : Calls Stmt Answer Err Data Write ε β) : Prop :=
  ∀ t, n ≤ t → c.pool.sessions t = none

section Sound

variable [DecidableEq Lock] {E : Engine Stmt Answer Err Data Write Lock}
  {calls : Nat → Body Stmt Answer Err (Outcome ε β)} {check : Data → List Write → Prop}
  {allow : Calls Stmt Answer Err Data Write ε β → Nat → Stmt → Bool}
  {allowed : Calls Stmt Answer Err Data Write ε β → Nat → Stmt → Prop} {n : Nat}
  {c c' : Calls Stmt Answer Err Data Write ε β}

variable {t : Nat}

theorem free_sound (hwithin : Within n c) {o : Stmt} {d : Data}
    (h : free E n c t (E.waits o d) = true) : E.Free c.pool t o d := by
  rintro u l hu hl ⟨s, hs, w, hw, hlock⟩
  have hlt : u < n := by
    by_contra hge
    rw [hwithin u (Nat.le_of_not_lt hge)] at hs
    cases hs
  rw [free, List.all_eq_true] at h
  have hrow := h u (List.mem_range.2 hlt)
  rw [hs] at hrow
  simp only [hu, decide_false, Bool.false_or, List.all_eq_true] at hrow
  have hwrite := hrow w hw
  rw [hlock] at hwrite
  exact (of_decide_eq_true hwrite) hl

theorem Within.put (h : Within n c) (ht : t < n) {d : Data}
    (s : Session Stmt Answer Err Data Write (Outcome ε β)) :
    ∀ u, n ≤ u → ((c.pool.withData d).put t s).sessions u = none := by
  intro u hu
  rw [Pool.sessions_put_ne s (Nat.ne_of_gt (Nat.lt_of_lt_of_le ht hu))]
  exact h u hu

theorem lt_of_session (h : Within n c) {s : Session Stmt Answer Err Data Write (Outcome ε β)}
    (hs : c.pool.sessions t = some s) : t < n := by
  by_contra hge
  rw [h t (Nat.le_of_not_lt hge)] at hs
  cases hs

/-- What a call may do next, and only the first calls stay open. -/
abbrev Plays (E : Engine Stmt Answer Err Data Write Lock)
    (calls : Nat → Body Stmt Answer Err (Outcome ε β)) (check : Data → List Write → Prop)
    (allowed : Calls Stmt Answer Err Data Write ε β → Nat → Stmt → Prop) (n : Nat)
    (c c' : Calls Stmt Answer Err Data Write ε β) : Prop :=
  Relation.ReflTransGen (CallStep E calls check allowed) c c' ∧ Within n c'

variable (hallow : ∀ c t o, Within n c → allow c t o = true → allowed c t o)

include hallow

theorem state_sound (hwithin : Within n c) (h : state E allow n c t = some c') :
    Plays E calls check allowed n c c' := by
  rw [state] at h
  split at h
  · rename_i o next ws seen hs
    simp only at h
    split at h
    · rename_i hfree
      cases h
      refine ⟨.single (.statement hs (hallow c t o hwithin hfree.1) ?_),
        hwithin.put (lt_of_session hwithin hs) _⟩
      exact .step hs (.answered _) (.inl (free_sound hwithin hfree.2))
    · cases h
  · cases h

theorem states_sound {t count : Nat} (hwithin : Within n c)
    (h : states E allow n t count c = some c') : Plays E calls check allowed n c c' := by
  induction count generalizing c with
  | zero =>
      cases h
      exact ⟨.refl, hwithin⟩
  | succ count ih =>
      obtain ⟨c₁, hfirst, hrest⟩ := Option.bind_eq_some_iff.1 h
      obtain ⟨hstep, hwithin₁⟩ : Plays E calls check allowed n c c₁ :=
        state_sound hallow hwithin hfirst
      obtain ⟨hsteps, hwithin'⟩ := ih hwithin₁ hrest
      exact ⟨hstep.trans hsteps, hwithin'⟩

variable [∀ d ws, Decidable (check d ws)]

theorem move_sound (hwithin : Within n c) {m : Move}
    (h : move E calls check allow n c m = some c') : Plays E calls check allowed n c c' := by
  cases m with
  | begin t =>
      rw [move] at h
      split at h
      · rename_i hnew
        cases h
        rw [Option.isNone_iff_eq_none] at hnew
        refine ⟨.single (.begin hnew.1), fun u hu => ?_⟩
        exact hwithin.put hnew.2 (d := c.pool.data) _ u hu
      · cases h
  | statements t count =>
      exact states_sound hallow hwithin h
  | commit t =>
      rw [move] at h
      split at h
      · rename_i b ws seen hs
        split at h
        · rename_i hcheck
          cases h
          refine ⟨.single (.commit hs hcheck), fun u hu => ?_⟩
          by_cases hut : u = t
          · subst hut
            exact Pool.sessions_close_self u
          · rw [Pool.sessions_close_ne hut]
            exact hwithin u hu
        · cases h
      · cases h

theorem play_sound (hwithin : Within n c) {ms : List Move}
    (h : play E calls check allow n ms c = some c') : Plays E calls check allowed n c c' := by
  induction ms generalizing c with
  | nil =>
      cases h
      exact ⟨.refl, hwithin⟩
  | cons m ms ih =>
      obtain ⟨c₁, hfirst, hrest⟩ := Option.bind_eq_some_iff.1 h
      obtain ⟨hstep, hwithin₁⟩ := move_sound hallow hwithin hfirst
      obtain ⟨hsteps, hwithin'⟩ := ih hwithin₁ hrest
      exact ⟨hstep.trans hsteps, hwithin'⟩

/-- What a schedule arrives at can be reached. -/
theorem reachable_of_play {d : Data} {ms : List Move}
    (h : play E calls check allow n ms (.start d) = some c') :
    Relation.ReflTransGen (CallStep E calls check allowed) (.start d) c' :=
  (play_sound hallow (fun _ _ => rfl) h).1

end Sound

end Calls

end LedgerLine
