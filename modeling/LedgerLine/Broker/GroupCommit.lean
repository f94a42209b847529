import LedgerLine.Broker.Coordinator
import Mathlib.Logic.Relation
import Mathlib.Logic.Function.Basic

/-!
# The coordinator after a failed fsync

Any number of callers go through `waitFor` of `broker/log/sync.go`, and segment rolls call
`markSynced`, in any order and with fsyncs that succeed or fail.  A caller between two of its
steps is blocked on the condition variable or inside its fsync (`Phase`).

The comment on `err` says that it is cleared when the next sync attempt begins.  The loop
returns a recorded error before it gets there, so no attempt begins: a later call is served
exactly if no fsync has failed so far (`served_iff`).
-/

namespace LedgerLine.Broker

/-- Where a caller of `waitFor` is while it does not hold the mutex. -/
inductive Phase
  | idle
  /-- In `cond.Wait`. -/
  | blocked (seq : Nat)
  /-- In `doSync`. -/
  | flushing (seq target : Nat)
deriving DecidableEq, Repr

/-- Where a round of the loop leaves its caller. -/
def WaitStep.phase (seq : Nat) : WaitStep → Phase
  | .durable => .idle
  | .failed _ => .idle
  | .blocked => .blocked seq
  | .flush target => .flushing seq target

/-- The coordinator and its callers. -/
structure Group where
  coord : Coord
  phase : ThreadId → Phase
  /-- The largest sequence in any call so far. -/
  used : Nat
  /-- Whether an fsync has failed so far. -/
  failed : Bool

namespace Group

/-- Nothing has happened yet. -/
def init : Group :=
  ⟨Coord.new, fun _ => .idle, 0, false⟩

/-- The caller `t` has gone through the loop. -/
def move (g : Group) (t : ThreadId) (seq : Nat) (r : WaitStep × Coord) : Group :=
  { g with coord := r.2, phase := Function.update g.phase t (r.1.phase seq) }

/-- One step of one caller, or a `markSynced`. -/
inductive Step : Group → Group → Prop
  | markSynced (g : Group) (seq : Nat) :
      Step g { g with coord := g.coord.markSynced seq, used := max g.used seq }
  | enter (g : Group) (t : ThreadId) (seq : Nat) (hidle : g.phase t = .idle) :
      Step g { g.move t seq (g.coord.enter t seq) with used := max g.used seq }
  | wake (g : Group) (t : ThreadId) (seq : Nat) (hblocked : g.phase t = .blocked seq)
      (hnotified : t ∈ g.coord.notified) :
      Step g (g.move t seq (g.coord.wake t seq))
  | synced (g : Group) (t : ThreadId) (seq target : Nat)
      (hflushing : g.phase t = .flushing seq target) :
      Step g (g.move t seq (g.coord.finish t seq target (.ok ())))
  | syncFailed (g : Group) (t : ThreadId) (seq target : Nat) (e : LogErr)
      (hflushing : g.phase t = .flushing seq target) :
      Step g { g.move t seq (g.coord.finish t seq target (.error e)) with failed := true }

/-- The states of any interleaving. -/
def Reachable (g : Group) : Prop :=
  Relation.ReflTransGen Step init g

/-- No caller is in `doSync`. -/
def NoneInFlight (g : Group) : Prop :=
  ∀ t seq target, g.phase t ≠ .flushing seq target

end Group

namespace Coord

/-- The rounds of a caller that runs alone and whose fsyncs all end with `outcome`: what
`waitFor` returns, unless it blocks or needs more than `n` fsyncs. -/
def rounds (outcome : Except LogErr Unit) (t : ThreadId) (seq : Nat) :
    Nat → WaitStep × Coord → Option (Except LogErr Unit × Coord)
  | _, (.durable, c) => some (.ok (), c)
  | _, (.failed e, c) => some (.error e, c)
  | _, (.blocked, _) => none
  | 0, (.flush _, _) => none
  | n + 1, (.flush target, c) => rounds outcome t seq n (c.finish t seq target outcome)

/-- `waitFor` of a caller that runs alone: its own fsync covers its sequence. -/
def waitAlone (c : Coord) (outcome : Except LogErr Unit) (t : ThreadId) (seq : Nat) :
    Option (Except LogErr Unit × Coord) :=
  rounds outcome t seq 1 (c.enter t seq)

end Coord

namespace Group

/-- What holds in every reachable state. -/
structure Inv (g : Group) : Prop where
  /-- The flag is up only while somebody flushes. -/
  syncing : g.coord.syncing = true → ¬ g.NoneInFlight
  /-- An error is recorded for good. -/
  failed : g.failed = g.coord.err.isSome
  synced : g.coord.synced ≤ g.used
  pending : g.coord.pending ≤ g.used
  target : ∀ t seq target, g.phase t = .flushing seq target → target ≤ g.used

theorem phase_move_self (g : Group) (t : ThreadId) (seq : Nat) (r : WaitStep × Coord) :
    (g.move t seq r).phase t = r.1.phase seq :=
  Function.update_self t _ g.phase

variable {t : ThreadId} {g : Group}

theorem phase_move_ne {u : ThreadId} (h : u ≠ t) (seq : Nat) (r : WaitStep × Coord) :
    (g.move t seq r).phase u = g.phase u :=
  Function.update_of_ne h _ g.phase

/-- A round of the loop changes neither the recorded error nor, unless the caller flushes
now, the flag. -/
theorem loop_flag (c : Coord) (t : ThreadId) (seq : Nat) :
    (c.loop t seq).2.err = c.err ∧
      ((c.loop t seq).2.syncing = c.syncing ∨ (c.loop t seq).1 = .flush c.pending) := by
  rcases Coord.loop_cases c t seq with ⟨_, h⟩ | ⟨e, _, _, h⟩ | ⟨_, _, _, h⟩ | ⟨_, herr, _, h⟩
  · rw [h]
    exact ⟨rfl, .inl rfl⟩
  · rw [h]
    exact ⟨rfl, .inl rfl⟩
  · rw [h]
    exact ⟨rfl, .inl rfl⟩
  · rw [h]
    exact ⟨herr.symm, .inr rfl⟩

/-- A round of the loop keeps the invariant, from a coordinator whose flag is up only for
another caller. -/
theorem Inv.loop {seq : Nat} {c : Coord} (h : g.Inv)
    (hsyncing : c.syncing = true → ∃ u ≠ t, ∃ seq target, g.phase u = .flushing seq target)
    (herr : c.err = g.coord.err) (hsynced : c.synced ≤ g.used) (hpending : c.pending ≤ g.used) :
    (g.move t seq (c.loop t seq)).Inv := by
  obtain ⟨hkeeps, hflag⟩ := loop_flag c t seq
  obtain ⟨hsynced', hpending'⟩ := Coord.loop_synced_pending c t seq
  constructor
  · intro hup hnone
    rcases hflag with hsame | hflush
    · obtain ⟨u, hu, s, target, hflushing⟩ := hsyncing (hsame.symm.trans hup)
      exact hnone u s target ((phase_move_ne hu seq _).trans hflushing)
    · refine hnone t seq c.pending ?_
      rw [phase_move_self, hflush]
      rfl
  · exact h.failed.trans (by rw [← herr, ← hkeeps]; rfl)
  · exact hsynced'.trans_le hsynced
  · exact hpending'.trans_le hpending
  · intro u s target hu
    by_cases hut : u = t
    · subst hut
      rw [phase_move_self] at hu
      cases hstep : (c.loop u seq).1 with
      | flush target' =>
          rw [hstep] at hu
          cases hu
          rw [Coord.loop_flush hstep]
          exact hpending
      | durable | failed e | blocked =>
          rw [hstep] at hu
          cases hu
    · rw [phase_move_ne hut] at hu
      exact h.target u s target hu

/-- A flag that is up belongs to a caller other than one that does not flush. -/
theorem Inv.flusher (h : g.Inv) (ht : ∀ seq target, g.phase t ≠ .flushing seq target)
    (hup : g.coord.syncing = true) : ∃ u ≠ t, ∃ seq target, g.phase u = .flushing seq target := by
  have hsome := h.syncing hup
  simp only [NoneInFlight, not_forall, not_not] at hsome
  obtain ⟨u, seq, target, hu⟩ := hsome
  refine ⟨u, ?_, seq, target, hu⟩
  rintro rfl
  exact ht seq target hu

theorem Inv.use (h : g.Inv) (seq : Nat) : Inv { g with used := max g.used seq } :=
  ⟨h.syncing, h.failed, le_trans h.synced (le_max_left _ _),
    le_trans h.pending (le_max_left _ _),
    fun t s target ht => le_trans (h.target t s target ht) (le_max_left _ _)⟩

theorem inv_init : init.Inv :=
  ⟨nofun, rfl, Nat.le_refl 0, Nat.le_refl 0, nofun⟩

theorem Inv.step {g g' : Group} (h : g.Inv) (hstep : Step g g') : g'.Inv := by
  cases hstep with
  | markSynced seq =>
      exact ⟨h.syncing, h.failed, max_le_max_right seq h.synced, max_le_max_right seq h.pending,
        (h.use seq).target⟩
  | enter t seq hidle =>
      refine (h.use seq).loop ?_ rfl (h.use seq).synced (max_le_max_right seq h.pending)
      exact h.flusher fun s target hflushing => (nomatch hidle.symm.trans hflushing)
  | wake t seq hblocked hnotified =>
      refine h.loop ?_ rfl h.synced h.pending
      exact h.flusher fun s target hflushing => (nomatch hblocked.symm.trans hflushing)
  | synced t seq target hflushing =>
      refine h.loop nofun rfl ?_ h.pending
      exact max_le h.synced (h.target t seq target hflushing)
  | syncFailed t seq target e hflushing =>
      refine ⟨nofun, rfl, h.synced, h.pending, ?_⟩
      intro u s target' hu
      by_cases hut : u = t
      · subst hut
        have hself := phase_move_self g u seq (g.coord.finish u seq target (.error e))
        cases hself.symm.trans hu
      · exact h.target u s target' ((phase_move_ne hut seq _).symm.trans hu)

theorem inv_of_reachable (h : Reachable g) : g.Inv := by
  induction h with
  | refl => exact inv_init
  | tail _ hstep ih => exact ih.step hstep

/-- With no fsync in flight, a call with a new sequence and an fsync that succeeds is served
exactly if no fsync has failed before. -/
theorem served_iff {g : Group} (hreach : Reachable g) (hnone : g.NoneInFlight) {t : ThreadId}
    {seq : Nat} (hseq : g.used < seq) :
    (∃ c, g.coord.waitAlone (.ok ()) t seq = some (.ok (), c) ∧
        c.syncs = g.coord.syncs + 1 ∧ seq ≤ c.synced) ↔
      g.failed = false := by
  have h := inv_of_reachable hreach
  have hsyncing : g.coord.syncing = false := by
    cases hup : g.coord.syncing with
    | false => rfl
    | true =>
        exact absurd hnone (h.syncing hup)
  have hnew : ¬ g.coord.synced ≥ seq := by
    have := h.synced
    omega
  rw [h.failed]
  cases herr : g.coord.err with
  | some e =>
      simp [Coord.waitAlone, Coord.enter, Coord.loop, Coord.rounds, hnew, herr]
  | none =>
      simp [Coord.waitAlone, Coord.enter, Coord.loop, Coord.rounds, Coord.finish, Coord.broadcast,
        hnew, herr, hsyncing]

/-- A caller is in the fsync of sequence 1. -/
def entered : Group :=
  { init.move 0 1 (init.coord.enter 0 1) with used := max init.used 1 }

theorem reachable_entered : Reachable entered :=
  .single (.enter init 0 1 rfl)

theorem noneInFlight_entered {r : WaitStep × Coord} (h : r.1.phase 1 = .idle) :
    (entered.move 0 1 r).NoneInFlight := by
  intro t seq target hflushing
  by_cases ht : t = 0
  · subst ht
    cases h.symm.trans ((phase_move_self entered 0 1 r).symm.trans hflushing)
  · have hidle : (entered.move 0 1 r).phase t = .idle :=
      (phase_move_ne ht 1 _).trans (phase_move_ne ht 1 _)
    cases hidle.symm.trans hflushing

/-- That fsync has succeeded. -/
def afterSuccess : Group :=
  entered.move 0 1 (entered.coord.finish 0 1 1 (.ok ()))

theorem served_second :
    afterSuccess.coord.syncs = 1 ∧ ∃ c, afterSuccess.coord.waitAlone (.ok ()) 1 2 =
        some (.ok (), c) ∧ c.syncs = afterSuccess.coord.syncs + 1 ∧ 2 ≤ c.synced :=
  ⟨by decide, (served_iff (reachable_entered.tail (.synced entered 0 1 1 rfl))
    (noneInFlight_entered rfl) (by decide : afterSuccess.used < 2)).2 rfl⟩

/-- That fsync has failed. -/
def afterFailure : Group :=
  { entered.move 0 1 (entered.coord.finish 0 1 1 (.error (.io .io))) with failed := true }

/-- A single failed fsync: a later call with a working disk gets the old error, and no sync is
attempted. -/
theorem failure_is_sticky :
    Reachable afterFailure ∧ afterFailure.NoneInFlight ∧ afterFailure.used < 2 ∧
      afterFailure.coord.waitAlone (.ok ()) 1 2 =
        some (.error (.io .io), { afterFailure.coord with pending := 2 }) ∧
      afterFailure.coord.syncs = 1 :=
  ⟨reachable_entered.tail (.syncFailed entered 0 1 1 (.io .io) rfl), noneInFlight_entered rfl,
    by decide, by decide, by decide⟩

end Group

end LedgerLine.Broker
