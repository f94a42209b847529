import LedgerLine.Lib.Calls

/-!
# Transactions one at a time

A transaction that runs with nothing else going on sees the committed data with its own
changes, all along.  Its statements may still fail, and so may its commit (`Engine.Alone`);
what it takes from the sequences stays taken (`Engine.Drawn`).

Main facts: `alone_commit`, such a transaction that commits has gone through a path of its
code, and every statement has seen the data it began with, up to what was drawn; and
`runBody_alike`, two runs of one transaction over related data are related throughout.
-/

namespace LedgerLine.Engine

variable {Stmt : Type} {Answer : Stmt → Type} {Err Data Write Lock α β ε : Type}
variable (E : Engine Stmt Answer Err Data Write Lock)

/-- The second data are the first after some statements have drawn from the sequences. -/
def Drawn : Data → Data → Prop :=
  Relation.ReflTransGen fun d d' => ∃ o, d' = E.draw o d

/-- A transaction on its own: what it returned if it committed, and the data it leaves. -/
inductive Alone (check : Data → List Write → Prop)
    (body : Body Stmt Answer Err (Outcome ε β)) : Data → Option β → Data → Prop
  | commit {d : Data} {b : β} {x : Txn Stmt Data Write}
      (hends : Program.Ends E.Statement body ⟨d, [], []⟩ (.commit b) x)
      (hcheck : check x.data x.writes) : Alone check body d (some b) (E.view x.data x.writes)
  | rollback {d : Data} {out : Outcome ε β} {x : Txn Stmt Data Write}
      (hends : Program.Ends E.Statement body ⟨d, [], []⟩ out x) : Alone check body d none x.data

/-- The states behind what a transaction on its own has seen. -/
abbrev SerialChain := E.Chain (fun _ => True) fun _ => E.Drawn

variable {E}

variable {d : Data} {y x : Txn Stmt Data Write} {a : α} {body : Body Stmt Answer Err α}
  {check : Data → List Write → Prop}

theorem SerialChain.drawn {start : Data} {seen : List (Stmt × Data)}
    (h : E.SerialChain start seen d) : E.Drawn start d := by
  induction h with
  | start _ hmove => exact hmove
  | @answered seen base d o before _ hmove ih =>
      exact (Relation.ReflTransGen.tail ih ⟨o, rfl⟩).trans hmove

/-- Every statement has seen the data at the beginning, up to what was drawn, with the
changes made before. -/
theorem SerialChain.sight {start sight : Data} {before after : List (Stmt × Data)} {o : Stmt}
    (h : E.SerialChain start (before ++ (o, sight) :: after) d) :
    ∃ base, E.Drawn start base ∧ sight = E.view base (E.writesOf before) ∧
      E.Drawn (E.draw o base) d := by
  obtain ⟨base, hchain, -, hsight, hmove⟩ := h.entry
    (fun _ _ _ _ => Relation.ReflTransGen.trans) (fun _ _ _ _ h => h)
    (fun _ o _ _ => .single ⟨o, rfl⟩)
  exact ⟨base, SerialChain.drawn hchain, hsight, hmove⟩

theorem trace_of_ends (start : Data) (h : Program.Ends E.Statement body x a y)
    (hwrites : x.writes = E.writesOf x.seen) (hchain : E.SerialChain start x.seen x.data) :
    y.writes = E.writesOf y.seen ∧ E.SerialChain start y.seen y.data := by
  induction h with
  | done a x => exact ⟨hwrites, hchain⟩
  | @call o next x u y r a hstep rest ih =>
      cases hstep with
      | answered =>
          have hsight : E.sight x = E.view x.data (E.writesOf x.seen) := by
            rw [sight, hwrites]
          apply ih
          · rw [after, hwrites]
            simp
          · show E.Chain _ _ start (x.seen ++ [(o, E.sight x)]) (E.draw o x.data)
            rw [hsight]
            exact .answered hchain trivial .refl
      | failed e => exact ih hwrites hchain
      | failedLate e =>
          exact ih hwrites
            (hchain.move (fun _ _ _ _ => Relation.ReflTransGen.trans) (.single ⟨o, rfl⟩))

/-- Code that stops on failures and has not failed has met none. -/
theorem path_of_ends {failure : α → Prop} (h : Program.Ends E.Statement body x a y)
    (hstops : StopsWith failure body) (ha : ¬ failure a) :
    ∃ new, y.seen = x.seen ++ new ∧ E.PathTo body new a := by
  induction h with
  | done a x =>
      exact ⟨[], by simp, .refl _⟩
  | @call o next x u y r a hstep rest ih =>
      cases hstep with
      | answered =>
          have hnext : StopsWith failure (next (E.exec o (E.sight x)).1) :=
            stopsWith_of_path (.step (.refl _)) hstops
          obtain ⟨new, hseen, hpath⟩ := ih hnext ha
          exact ⟨(o, E.sight x) :: new, by rw [hseen, after]; simp, .step hpath⟩
      | failed e | failedLate e =>
          obtain ⟨_, hback, hfailure⟩ := hstops.1 e
          rw [hback] at rest
          cases rest
          exact absurd hfailure ha

/-- One statement, answered or not. -/
theorem ends_perform {o : Stmt} {r : Except Err (Answer o)}
    (h : Program.Ends E.Statement (Program.perform o) x r y) :
    (r = (E.exec o (E.sight x)).1 ∧ y = E.after o x) ∨ ∃ e, r = .error e := by
  cases h with
  | call hstep rest =>
      cases rest with
      | done =>
          cases hstep with
          | answered => exact .inl ⟨rfl, rfl⟩
          | failed e | failedLate e => exact .inr ⟨e, rfl⟩

/-- A transaction on its own that commits. -/
theorem alone_commit {body : Body Stmt Answer Err (Outcome ε β)} {d' : Data} {b : β}
    (hgives : GivesUp body) (h : E.Alone check body d (some b) d') :
    ∃ base seen, E.PathTo body seen (.commit b) ∧ E.SerialChain d seen base ∧
      d' = E.view base (E.writesOf seen) := by
  cases h with
  | @commit _ x hends hcheck =>
      obtain ⟨hwrites, hchain⟩ := trace_of_ends d hends rfl (.start trivial .refl)
      obtain ⟨new, hseen, hpath⟩ := path_of_ends hends hgives fun ⟨_, hback⟩ => (nomatch hback)
      rw [List.nil_append] at hseen
      subst hseen
      exact ⟨x.data, x.seen, hpath, hchain, by rw [hwrites]⟩

/-- A transaction on its own that is rolled back. -/
theorem alone_rollback {body : Body Stmt Answer Err (Outcome ε β)} {d' : Data}
    (h : E.Alone check body d none d') : E.Drawn d d' := by
  cases h with
  | @rollback out x hends =>
      exact SerialChain.drawn
        (trace_of_ends d hends rfl (.start trivial .refl)).2

section Invariant

variable {P : Data → Prop}

/-- What every statement keeps holds of what a transaction on its own sees. -/
theorem SerialChain.invariant
    (hexec : ∀ base ws o, P (E.view base ws) →
      P (E.view (E.draw o base) (ws ++ (E.exec o (E.view base ws)).2)))
    (hdraw : ∀ base ws o, P (E.view base ws) → P (E.view (E.draw o base) ws))
    {start d : Data} {seen : List (Stmt × Data)} (h : E.SerialChain start seen d)
    (hstart : P start) : P (E.view d (E.writesOf seen)) := by
  have hdrawn : ∀ {base d : Data} (ws : List Write), E.Drawn base d → P (E.view base ws) →
      P (E.view d ws) := by
    intro base d ws hdrawn hbase
    induction hdrawn with
    | refl => exact hbase
    | tail _ hstep ih =>
        obtain ⟨o, rfl⟩ := hstep
        exact hdraw _ ws o ih
  induction h with
  | start _ hmove =>
      exact hdrawn [] hmove hstart
  | @answered seen base d o before _ hmove ih =>
      rw [writesOf_append, writesOf_cons, writesOf_nil, List.append_nil]
      exact hdrawn _ hmove (hexec base (E.writesOf seen) o ih)

/-- What every statement keeps is kept by a transaction on its own. -/
theorem Alone.invariant
    (hexec : ∀ base ws o, P (E.view base ws) →
      P (E.view (E.draw o base) (ws ++ (E.exec o (E.view base ws)).2)))
    (hdraw : ∀ base ws o, P (E.view base ws) → P (E.view (E.draw o base) ws))
    {check : Data → List Write → Prop} {body : Body Stmt Answer Err (Outcome ε β)} {d d' : Data}
    {out : Option β} (h : E.Alone check body d out d') (hd : P d) : P d' := by
  cases h with
  | @commit b x hends hcheck =>
      obtain ⟨hwrites, hchain⟩ := trace_of_ends d hends rfl (.start trivial .refl)
      rw [hwrites]
      exact SerialChain.invariant hexec hdraw hchain hd
  | @rollback out x hends =>
      have hdrawn := SerialChain.drawn (trace_of_ends d hends rfl (.start trivial .refl)).2
      exact SerialChain.invariant hexec hdraw (.start trivial hdrawn) hd

end Invariant

/-- How a call comes back. -/
inductive Ending (ε β : Type)
  | committed (b : β)
  | rolledBack (e : ε)
  /-- The commit failed on a deferred constraint. -/
  | refused
deriving DecidableEq, Repr

/-- A call on its own without failures of the database: how it comes back, and the data it
leaves. -/
def call (E : Engine Stmt Answer Err Data Write Lock) (check : Data → List Write → Prop)
    [∀ d ws, Decidable (check d ws)] (body : Body Stmt Answer Err (Outcome ε β)) (d : Data) :
    Ending ε β × Data :=
  match E.runBody body ⟨d, [], []⟩ with
  | (.commit b, x) =>
      if check x.data x.writes then (.committed b, E.view x.data x.writes) else (.refused, x.data)
  | (.rollback e, x) => (.rolledBack e, x.data)

section Call

variable {check : Data → List Write → Prop} [∀ d ws, Decidable (check d ws)]
  {body : Body Stmt Answer Err (Outcome ε β)} {d : Data}

theorem ends_runBody (body : Body Stmt Answer Err α) (x : Txn Stmt Data Write) :
    Program.Ends E.Statement body x (E.runBody body x).1 (E.runBody body x).2 :=
  Program.ends_run (fun _ x => Statement.answered x) body x

/-- Such a call is a transaction on its own. -/
theorem alone_of_call {b : β} (h : (E.call check body d).1 = .committed b) :
    E.Alone check body d (some b) (E.call check body d).2 := by
  have hends := ends_runBody (E := E) body (⟨d, [], []⟩ : Txn Stmt Data Write)
  rw [call] at h ⊢
  split at h
  · rename_i b' x hrun
    rw [hrun] at hends
    split at h
    · rename_i hcheck
      cases h
      rw [if_pos hcheck]
      exact .commit hends hcheck
    · cases h
  · cases h

end Call

/-- Code that stops on failures and has not failed has gone the way of the run without
failures. -/
theorem runBody_of_ends {failure : α → Prop} (h : Program.Ends E.Statement body x a y)
    (hstops : StopsWith failure body) (ha : ¬ failure a) : E.runBody body x = (a, y) := by
  induction h with
  | done a x => rfl
  | @call o next x u y r a hstep rest ih =>
      cases hstep with
      | answered =>
          exact ih (stopsWith_of_path (.step (.refl _)) hstops) ha
      | failed e | failedLate e =>
          obtain ⟨_, hback, hfailure⟩ := hstops.1 e
          rw [hback] at rest
          cases rest
          exact absurd hfailure ha

section Alike

variable {related : Data → Data → Prop} {alike : Write → Write → Prop}

/-- Two transactions side by side, on related data and with changes that are alike. -/
structure TxnAlike (related : Data → Data → Prop) (alike : Write → Write → Prop)
    (x y : Txn Stmt Data Write) : Prop where
  data : related x.data y.data
  writes : List.Forall₂ alike x.writes y.writes

/-- Changes that are alike keep data related. -/
def Keeps (E : Engine Stmt Answer Err Data Write Lock) (related : Data → Data → Prop)
    (alike : Write → Write → Prop) : Prop :=
  ∀ d d' c c', related d d' → alike c c' → related (E.apply d c) (E.apply d' c')

theorem view_related (hkeeps : E.Keeps related alike) {d d' : Data} {ws ws' : List Write}
    (hd : related d d') (hws : List.Forall₂ alike ws ws') :
    related (E.view d ws) (E.view d' ws') := by
  induction hws generalizing d d' with
  | nil => exact hd
  | cons hc _ ih =>
      exact ih (hkeeps _ _ _ _ hd hc)

variable {x y : Txn Stmt Data Write}

/-- One statement on either side, the changes of the two being alike. -/
theorem TxnAlike.after {o o' : Stmt} (h : TxnAlike related alike x y)
    (hdraw : related (E.draw o x.data) (E.draw o' y.data))
    (hwrites : List.Forall₂ alike (E.exec o (E.sight x)).2 (E.exec o' (E.sight y)).2) :
    TxnAlike related alike (E.after o x) (E.after o' y) :=
  ⟨hdraw, List.rel_append h.writes hwrites⟩

/-- The same code on either side, as long as its statements are answered alike. -/
theorem runBody_alike (hkeeps : E.Keeps related alike)
    (hdraw : ∀ o d d', related d d' → related (E.draw o d) (E.draw o d')) {P : Stmt → Prop}
    (hexec : ∀ o, P o → ∀ d d', related d d' →
      (E.exec o d).1 = (E.exec o d').1 ∧ List.Forall₂ alike (E.exec o d).2 (E.exec o d').2)
    {body : Body Stmt Answer Err α} (honly : Program.Only P body) {x y : Txn Stmt Data Write}
    (h : TxnAlike related alike x y) :
    (E.runBody body x).1 = (E.runBody body y).1 ∧
      TxnAlike related alike (E.runBody body x).2 (E.runBody body y).2 := by
  induction body generalizing x y with
  | done a => exact ⟨rfl, h⟩
  | call o next ih =>
      obtain ⟨hanswer, hwrites⟩ := hexec o honly.1 _ _ (view_related hkeeps h.data h.writes)
      have hafter := h.after (hdraw o _ _ h.data) hwrites
      have hrest := ih _ (honly.2 (E.exec o (E.sight x)).1) hafter
      have hy : E.runBody (.call o next) y =
          E.runBody (next (E.exec o (E.sight x)).1) (E.after o y) :=
        congrArg (fun r => E.runBody (next r) (E.after o y)) hanswer.symm
      rw [hy]
      exact hrest

/-- Two calls that end alike leave related data. -/
theorem call_related {check : Data → List Write → Prop} [∀ d ws, Decidable (check d ws)]
    {body body' : Body Stmt Answer Err (Outcome ε β)} {d d' : Data}
    (hkeeps : E.Keeps related alike)
    (hcheck : ∀ x y : Txn Stmt Data Write, TxnAlike related alike x y →
      (check x.data x.writes ↔ check y.data y.writes))
    (hends : TxnAlike related alike (E.runBody body ⟨d, [], []⟩).2 (E.runBody body' ⟨d', [], []⟩).2)
    (hcommits : (∃ b, (E.runBody body ⟨d, [], []⟩).1 = .commit b) ↔
      ∃ b, (E.runBody body' ⟨d', [], []⟩).1 = .commit b) :
    related (E.call check body d).2 (E.call check body' d').2 := by
  rw [call, call]
  rcases hx : E.runBody body ⟨d, [], []⟩ with ⟨b | e, x⟩
  · rcases hy : E.runBody body' ⟨d', [], []⟩ with ⟨b' | e', y⟩
    · rw [hx, hy] at hends
      by_cases hpass : check x.data x.writes
      · simp only [if_pos hpass, if_pos ((hcheck x y hends).1 hpass)]
        exact view_related hkeeps hends.data hends.writes
      · simp only [if_neg hpass, if_neg fun h => hpass ((hcheck x y hends).2 h)]
        exact hends.data
    · rw [hx, hy] at hcommits
      obtain ⟨_, h⟩ := hcommits.1 ⟨b, rfl⟩
      cases h
  · rcases hy : E.runBody body' ⟨d', [], []⟩ with ⟨b' | e', y⟩
    · rw [hx, hy] at hcommits
      obtain ⟨_, h⟩ := hcommits.2 ⟨b', rfl⟩
      cases h
    · rw [hx, hy] at hends
      exact hends.data

end Alike

end LedgerLine.Engine
