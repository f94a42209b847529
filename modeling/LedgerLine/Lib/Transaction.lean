import LedgerLine.Lib.Program
import Mathlib.Logic.Function.Basic

/-!
# Transactions under READ COMMITTED

Open transactions work on shared data, one statement at a time.  A transaction keeps its
changes to itself: a statement sees what is committed when it goes through, with the
transaction's own changes on top (`Engine.view`), and a commit puts the changes into the
data.  Only sequences, which hand out identities, move at once and are never set back
(`Engine.draw`).

A change locks the row it is made to until the transaction ends.  A statement says which
rows it has to own (`Engine.waits`) and does not go through while another open transaction
holds one of them.  Any statement may fail, and a transaction may be abandoned at any time.

The code of a transaction is a `Program` that ends by asking for a commit or for a
rollback.  Main facts:
* `exclusive_statement` and its companions: no row is ever locked twice;
* `meets_statement`, `meets_change`: specifications of the open transactions' code under
  interference (`Program.Always`) stay true along a run, provided what the others do is
  within the interference they allow.
-/

namespace LedgerLine

open Function (update)

/-- How the code of a transaction ends. -/
inductive Outcome (ε α : Type) : Type
  | commit (a : α)
  | rollback (e : ε)
deriving DecidableEq, Repr

/-- The code of a transaction: every statement is answered or refused. -/
abbrev Body (Stmt : Type) (Answer : Stmt → Type) (Err α : Type) :=
  Program Stmt (fun o => Except Err (Answer o)) α

/-- What statements do to the data. -/
structure Engine (Stmt : Type) (Answer : Stmt → Type) (Err Data Write Lock : Type) where
  /-- What a statement answers and changes, given what it sees. -/
  exec : (o : Stmt) → Data → Except Err (Answer o) × List Write
  /-- What it takes from the sequences. -/
  draw : Stmt → Data → Data
  /-- The effect of a change. -/
  apply : Data → Write → Data
  /-- The row a change locks. -/
  lock : Write → Option Lock
  /-- The rows a statement has to own. -/
  waits : Stmt → Data → List Lock
  /-- A statement owns every row it changes. -/
  lock_mem_waits : ∀ o d w l, w ∈ (exec o d).2 → lock w = some l → l ∈ waits o d

/-- The committed data, and what one open transaction has changed and seen. -/
structure Txn (Stmt Data Write : Type) where
  data : Data
  writes : List Write
  /-- The statements answered so far, each with what it saw. -/
  seen : List (Stmt × Data)

/-- An open transaction: the code still to run, the changes made, the statements
answered. -/
structure Session (Stmt : Type) (Answer : Stmt → Type) (Err Data Write α : Type) where
  body : Body Stmt Answer Err α
  writes : List Write
  seen : List (Stmt × Data)

/-- The committed data and all open transactions. -/
structure Pool (Stmt : Type) (Answer : Stmt → Type) (Err Data Write α : Type) where
  data : Data
  sessions : Nat → Option (Session Stmt Answer Err Data Write α)

variable {Stmt : Type} {Answer : Stmt → Type} {Err Data Write Lock α : Type}

/-- The transaction as its code experiences it. -/
def Session.on (s : Session Stmt Answer Err Data Write α) (d : Data) :
    Txn Stmt Data Write :=
  ⟨d, s.writes, s.seen⟩

/-- A transaction that has just begun. -/
def Session.start (body : Body Stmt Answer Err α) :
    Session Stmt Answer Err Data Write α :=
  ⟨body, [], []⟩

namespace Pool

/-- Transaction `t` is no longer open. -/
def close (p : Pool Stmt Answer Err Data Write α) (t : Nat) :
    Pool Stmt Answer Err Data Write α :=
  { p with sessions := update p.sessions t none }

/-- Transaction `t` is open. -/
def put (p : Pool Stmt Answer Err Data Write α) (t : Nat)
    (s : Session Stmt Answer Err Data Write α) : Pool Stmt Answer Err Data Write α :=
  { p with sessions := update p.sessions t (some s) }

/-- The committed data are now `d`. -/
def withData (p : Pool Stmt Answer Err Data Write α) (d : Data) :
    Pool Stmt Answer Err Data Write α :=
  { p with data := d }

variable {p : Pool Stmt Answer Err Data Write α}

/-- The last state of a transaction is the one that counts. -/
theorem put_withData_put (d d' : Data) (t : Nat) (s s' : Session Stmt Answer Err Data Write α) :
    (((p.withData d).put t s).withData d').put t s' = (p.withData d').put t s' := by
  simp [put, withData]

theorem sessions_close_self (t : Nat) : (p.close t).sessions t = none := by
  simp [close]

variable {u t : Nat}

theorem sessions_close_ne (hu : u ≠ t) : (p.close t).sessions u = p.sessions u := by
  simp [close, Function.update_of_ne hu]

/-- The open transactions other than `t` are those that were open before. -/
theorem session_of_close {s : Session Stmt Answer Err Data Write α}
    (hs : (p.close t).sessions u = some s) : u ≠ t ∧ p.sessions u = some s := by
  by_cases hu : u = t
  · subst hu
    rw [sessions_close_self] at hs
    cases hs
  · rw [sessions_close_ne hu] at hs
    exact ⟨hu, hs⟩

theorem sessions_put_self (t : Nat) (s : Session Stmt Answer Err Data Write α) :
    (p.put t s).sessions t = some s := by
  simp [put]

theorem sessions_put_ne (s : Session Stmt Answer Err Data Write α) (hu : u ≠ t) :
    (p.put t s).sessions u = p.sessions u := by
  simp [put, Function.update_of_ne hu]

end Pool

namespace Engine

variable (E : Engine Stmt Answer Err Data Write Lock)

/-- The data with some changes applied, in order. -/
def view (d : Data) (ws : List Write) : Data :=
  ws.foldl E.apply d

@[simp] theorem view_nil (d : Data) : E.view d [] = d := by
  rfl

@[simp] theorem view_cons (d : Data) (w : Write) (ws : List Write) :
    E.view d (w :: ws) = E.view (E.apply d w) ws := by
  rfl

theorem view_append (d : Data) (ws ws' : List Write) :
    E.view d (ws ++ ws') = E.view (E.view d ws) ws' := by
  exact List.foldl_append

/-- What the next statement of a transaction sees. -/
def sight (x : Txn Stmt Data Write) : Data :=
  E.view x.data x.writes

/-- The transaction after a statement that was answered. -/
def after (o : Stmt) (x : Txn Stmt Data Write) : Txn Stmt Data Write :=
  ⟨E.draw o x.data, x.writes ++ (E.exec o (E.sight x)).2, x.seen ++ [(o, E.sight x)]⟩

/-- One statement, as the transaction's code experiences it. -/
inductive Statement (o : Stmt) :
    Txn Stmt Data Write → Except Err (Answer o) → Txn Stmt Data Write → Prop
  | answered (x : Txn Stmt Data Write) :
      Statement o x (E.exec o (E.sight x)).1 (E.after o x)
  | failed (x : Txn Stmt Data Write) (e : Err) :
      Statement o x (.error e) x
  /-- The statement failed after it had taken a value from a sequence. -/
  | failedLate (x : Txn Stmt Data Write) (e : Err) :
      Statement o x (.error e) { x with data := E.draw o x.data }

/-- Transaction `t` has locked row `l`. -/
def Holds (p : Pool Stmt Answer Err Data Write α) (t : Nat) (l : Lock) : Prop :=
  ∃ s, p.sessions t = some s ∧ ∃ w ∈ s.writes, E.lock w = some l

/-- No row is locked by two transactions. -/
def Exclusive (p : Pool Stmt Answer Err Data Write α) : Prop :=
  ∀ t u l, t ≠ u → E.Holds p t l → ¬ E.Holds p u l

/-- Nothing keeps a statement of transaction `t` waiting. -/
def Free (p : Pool Stmt Answer Err Data Write α) (t : Nat) (o : Stmt) (d : Data) : Prop :=
  ∀ u l, u ≠ t → l ∈ E.waits o d → ¬ E.Holds p u l

/-- One statement of transaction `t`: it goes through if nothing keeps it waiting, or if it
has no row to change. -/
inductive PoolStatement (t : Nat) :
    Pool Stmt Answer Err Data Write α → Pool Stmt Answer Err Data Write α → Prop
  | step {p : Pool Stmt Answer Err Data Write α} {o : Stmt}
      {next : Except Err (Answer o) → Body Stmt Answer Err α} {ws : List Write}
      {seen : List (Stmt × Data)} {r : Except Err (Answer o)} {x : Txn Stmt Data Write}
      (hs : p.sessions t = some ⟨.call o next, ws, seen⟩)
      (hstep : E.Statement o ⟨p.data, ws, seen⟩ r x)
      (hfree : E.Free p t o (E.view p.data ws) ∨ x.writes = ws) :
      PoolStatement t p ((p.withData x.data).put t ⟨next r, x.writes, x.seen⟩)

section Exclusive

variable {E} {p : Pool Stmt Answer Err Data Write α}

variable {t : Nat} {s : Session Stmt Answer Err Data Write α} {l : Lock}

/-- Only the transaction that is put holds other rows than before. -/
theorem holds_put_ne {u : Nat} (hu : u ≠ t) : E.Holds (p.put t s) u l ↔ E.Holds p u l := by
  simp [Holds, Pool.sessions_put_ne s hu]

theorem holds_put_self : E.Holds (p.put t s) t l ↔ ∃ w ∈ s.writes, E.lock w = some l := by
  simp [Holds, Pool.sessions_put_self]

/-- Ending a transaction releases its rows and no others. -/
theorem holds_close {u : Nat} (h : E.Holds (p.close t) u l) : E.Holds p u l := by
  obtain ⟨s, hs, hw⟩ := h
  exact ⟨s, (Pool.session_of_close hs).2, hw⟩

theorem exclusive_withData (h : E.Exclusive p) (d : Data) : E.Exclusive (p.withData d) :=
  h

theorem exclusive_close (h : E.Exclusive p) (t : Nat) : E.Exclusive (p.close t) := by
  intro u v l huv hu hv
  exact h u v l huv (holds_close hu) (holds_close hv)

/-- Putting a transaction that holds nothing the others hold. -/
theorem exclusive_put (h : E.Exclusive p)
    (hs : ∀ w ∈ s.writes, ∀ l, E.lock w = some l → ∀ u, u ≠ t → ¬ E.Holds p u l) :
    E.Exclusive (p.put t s) := by
  intro u v l huv hu hv
  by_cases hut : u = t
  · subst hut
    obtain ⟨w, hw, hl⟩ := holds_put_self.1 hu
    exact hs w hw l hl v huv.symm ((holds_put_ne huv.symm).1 hv)
  · by_cases hvt : v = t
    · subst hvt
      obtain ⟨w, hw, hl⟩ := holds_put_self.1 hv
      exact hs w hw l hl u hut ((holds_put_ne hut).1 hu)
    · exact h u v l huv ((holds_put_ne hut).1 hu) ((holds_put_ne hvt).1 hv)

theorem exclusive_start (h : E.Exclusive p) (t : Nat) (body : Body Stmt Answer Err α) :
    E.Exclusive (p.put t (.start body)) := by
  apply exclusive_put h
  intro w hw
  cases hw

/-- The rows a statement's changes are made to were held before or are free. -/
theorem writes_of_statement {o : Stmt} {ws : List Write} {seen : List (Stmt × Data)}
    {r : Except Err (Answer o)} {x : Txn Stmt Data Write}
    (hstep : E.Statement o ⟨p.data, ws, seen⟩ r x)
    (hfree : E.Free p t o (E.view p.data ws) ∨ x.writes = ws) {w : Write} (hw : w ∈ x.writes) :
    w ∈ ws ∨ ∀ l, E.lock w = some l → ∀ u, u ≠ t → ¬ E.Holds p u l := by
  rcases hfree with hfree | hsame
  · cases hstep with
    | answered =>
        rcases List.mem_append.1 hw with hold | hnew
        · exact .inl hold
        · exact .inr fun l hl u hu => hfree u l hu (E.lock_mem_waits o _ w l hnew hl)
    | failed e | failedLate e => exact .inl hw
  · rw [hsame] at hw
    exact .inl hw

theorem exclusive_statement (h : E.Exclusive p) {p' : Pool Stmt Answer Err Data Write α}
    (hstep : E.PoolStatement t p p') : E.Exclusive p' := by
  cases hstep with
  | step hs hstep hfree =>
      apply exclusive_put (exclusive_withData h _)
      intro w hw l hl u hu
      rcases writes_of_statement hstep hfree hw with hold | hnew
      · exact h t u l hu.symm ⟨_, hs, w, hold, hl⟩
      · exact hnew l hl u hu

end Exclusive

section Meets

variable (rely : Nat → Txn Stmt Data Write → Txn Stmt Data Write → Prop)
variable (post : Nat → α → Txn Stmt Data Write → Prop)

/-- The code of every open transaction meets its specification, whatever interference
within `rely` the others cause. -/
def Meets (p : Pool Stmt Answer Err Data Write α) : Prop :=
  ∀ t s, p.sessions t = some s →
    Program.Always (rely t) E.Statement (fun _ => True) (post t) s.body (s.on p.data)

variable {E rely post} {p : Pool Stmt Answer Err Data Write α}

theorem meets_close (h : E.Meets rely post p) (t : Nat) : E.Meets rely post (p.close t) := by
  intro u s hs
  exact h u s (Pool.session_of_close hs).2

variable {t : Nat}

theorem meets_put (h : E.Meets rely post p) {s : Session Stmt Answer Err Data Write α}
    (hs : Program.Always (rely t) E.Statement (fun _ => True) (post t) s.body (s.on p.data)) :
    E.Meets rely post (p.put t s) := by
  intro u s' hs'
  by_cases hu : u = t
  · subst hu
    rw [Pool.sessions_put_self] at hs'
    cases hs'
    exact hs
  · rw [Pool.sessions_put_ne s hu] at hs'
    exact h u s' hs'

variable (hrefl : ∀ t x, rely t x x)
variable (htrans : ∀ t x y z, rely t x y → rely t y z → rely t x z)

include htrans in
/-- The committed data change within what the open transactions allow. -/
theorem meets_change (h : E.Meets rely post p) {d : Data}
    (hd : ∀ t s, p.sessions t = some s → rely t (s.on p.data) (s.on d)) :
    E.Meets rely post (p.withData d) := by
  intro t s hs
  exact Program.always_stable (htrans t) (h t s hs) (hd t s hs)

include hrefl in
/-- A transaction whose code has ended satisfies its postcondition. -/
theorem post_of_meets (h : E.Meets rely post p) {a : α} {ws : List Write}
    {seen : List (Stmt × Data)} (hs : p.sessions t = some ⟨.done a, ws, seen⟩) :
    post t a ⟨p.data, ws, seen⟩ :=
  (h t _ hs _ (hrefl t _)).2

include hrefl htrans in
/-- A statement of one transaction keeps the specifications of all of them, if the others
do not mind what it takes from the sequences. -/
theorem meets_statement (h : E.Meets rely post p) {t : Nat}
    {p' : Pool Stmt Answer Err Data Write α} (hstep : E.PoolStatement t p p')
    (hdraw : ∀ u o x, rely u x { x with data := E.draw o x.data }) :
    E.Meets rely post p' := by
  cases hstep with
  | @step o next ws seen r x hs hstep hfree =>
      have hnext := (h t _ hs _ (hrefl t _)).2 r x hstep
      have hdata : x.data = p.data ∨ x.data = E.draw o p.data := by
        cases hstep with
        | answered => exact .inr rfl
        | failed e => exact .inl rfl
        | failedLate e => exact .inr rfl
      apply meets_put _ hnext
      apply meets_change htrans h
      intro u s _
      rcases hdata with hdata | hdata <;> rw [hdata]
      · exact hrefl u _
      · exact hdraw u o (s.on p.data)

end Meets

section Alone

variable {p : Pool Stmt Answer Err Data Write α} {t : Nat}

/-- The code of a transaction that is never kept waiting, disturbed or refused. -/
def runBody (body : Body Stmt Answer Err α) (x : Txn Stmt Data Write) :
    α × Txn Stmt Data Write :=
  body.run (fun o x => ((E.exec o (E.sight x)).1, E.after o x)) x

theorem runBody_bind {β : Type} (body : Body Stmt Answer Err α)
    (next : α → Body Stmt Answer Err β) (x : Txn Stmt Data Write) :
    E.runBody (body >>= next) x =
      E.runBody (next (E.runBody body x).1) (E.runBody body x).2 :=
  Program.run_bind _ _ _ _

variable {body : Body Stmt Answer Err α}

/-- A transaction that is alone can go through all of its statements. -/
theorem statements_alone {ws : List Write} {seen : List (Stmt × Data)}
    (halone : ∀ u, u ≠ t → p.sessions u = none) (hs : p.sessions t = some ⟨body, ws, seen⟩) :
    Relation.ReflTransGen (E.PoolStatement t) p
      ((p.withData (E.runBody body ⟨p.data, ws, seen⟩).2.data).put t
        ⟨.done (E.runBody body ⟨p.data, ws, seen⟩).1,
          (E.runBody body ⟨p.data, ws, seen⟩).2.writes,
          (E.runBody body ⟨p.data, ws, seen⟩).2.seen⟩) := by
  induction body generalizing p ws seen with
  | done a =>
      have hsame : (p.withData p.data).put t ⟨.done a, ws, seen⟩ = p := by
        simp [Pool.withData, Pool.put, ← hs]
      rw [runBody, Program.run_done, hsame]
  | call o next ih =>
      have hfree : E.Free p t o (E.view p.data ws) := by
        rintro u l hu - ⟨s, hu', -⟩
        rw [halone u hu] at hu'
        cases hu'
      have hstep := PoolStatement.step hs (.answered ⟨p.data, ws, seen⟩) (.inl hfree)
      have hself := Pool.sessions_put_self (p := p.withData (E.draw o p.data)) t
        ⟨next (E.exec o (E.sight ⟨p.data, ws, seen⟩)).1, (E.after o ⟨p.data, ws, seen⟩).writes,
          (E.after o ⟨p.data, ws, seen⟩).seen⟩
      have hrest := ih _ (p := (p.withData (E.draw o p.data)).put t _)
        (fun u hu => (Pool.sessions_put_ne _ hu).trans (halone u hu)) hself
      rw [Pool.put_withData_put] at hrest
      exact .head hstep hrest

/-- The same from the beginning of the transaction. -/
theorem statements_alone_start {a : α} {x : Txn Stmt Data Write} (halone : ∀ u, p.sessions u = none)
    (hrun : E.runBody body ⟨p.data, [], []⟩ = (a, x)) :
    Relation.ReflTransGen (E.PoolStatement t) (p.put t (.start body))
      ((p.withData x.data).put t ⟨.done a, x.writes, x.seen⟩) := by
  have hall := E.statements_alone (fun u hu => (Pool.sessions_put_ne _ hu).trans (halone u))
    (Pool.sessions_put_self (p := p) t (.start body))
  have hdata : (p.put t (.start body)).data = p.data := rfl
  rw [hdata, hrun] at hall
  simpa [Pool.put, Pool.withData] using hall

end Alone

end Engine

end LedgerLine
