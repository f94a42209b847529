import LedgerLine.Broker.Record

/-!
# Group commit: the sync coordinator

`broker/log/sync.go`.  Many appends wait on one shared fsync.  Every method
takes the coordinator's mutex, so what happens between taking it and letting go
of it is one atomic step on the coordinator's fields:

* `markSynced`: a segment roll has flushed everything up to a sequence;
* `enter`: a caller of `waitFor` arrives and goes through the loop once;
* `wake`: a caller woken from `cond.Wait` goes through the loop again;
* `finish`: the caller that ran the fsync reports its outcome, wakes everybody
  and, after a success, goes through the loop again.

Going through the loop once ends in one of four ways (`WaitStep`): the sequence
is durable, a sync has failed, somebody else is flushing, or the caller becomes
the one who flushes.
-/

namespace LedgerLine.Broker

/-- A caller of the coordinator. -/
abbrev ThreadId := Nat

/-- `syncCoordinator`.  The condition variable is the callers blocked on it:
`waiting` since the last broadcast, `notified` by a broadcast not yet delivered. -/
structure Coord where
  synced : Nat
  pending : Nat
  syncing : Bool
  err : Option LogErr
  syncs : Nat
  waiting : List ThreadId
  notified : List ThreadId
deriving DecidableEq, Repr

/-- How one round of the loop in `waitFor` ends. -/
inductive WaitStep
  /-- `return nil`. -/
  | durable
  /-- `return c.err`. -/
  | failed (e : LogErr)
  /-- `c.cond.Wait()`. -/
  | blocked
  /-- The caller flushes and may claim everything up to `target`. -/
  | flush (target : Nat)
deriving DecidableEq, Repr

namespace Coord

/-- `newSyncCoordinator`. -/
def new : Coord := ⟨0, 0, false, none, 0, [], []⟩

/-- `cond.Broadcast()`. -/
def broadcast (c : Coord) : Coord :=
  { c with waiting := [], notified := c.notified ++ c.waiting }

/-- `markSynced`: everything up to `seq` is durable by another route. -/
def markSynced (c : Coord) (seq : Nat) : Coord :=
  broadcast { c with synced := max c.synced seq, pending := max c.pending seq }

/-- One round of the loop in `waitFor`. -/
def loop (c : Coord) (t : ThreadId) (seq : Nat) : WaitStep × Coord :=
  if c.synced ≥ seq then
    (.durable, c)
  else
    match c.err with
    | some e => (.failed e, c)
    | none =>
      if c.syncing then
        (.blocked, { c with waiting := c.waiting ++ [t] })
      else
        (.flush c.pending, { c with syncing := true, err := none, syncs := c.syncs + 1 })

/-- `waitFor` up to the first point where the mutex is released. -/
def enter (c : Coord) (t : ThreadId) (seq : Nat) : WaitStep × Coord :=
  loop { c with pending := max c.pending seq } t seq

/-- A broadcast is delivered to a blocked caller, which looks again. -/
def wake (c : Coord) (t : ThreadId) (seq : Nat) : WaitStep × Coord :=
  loop { c with notified := c.notified.erase t } t seq

/-- The flushing caller takes the mutex again with the outcome of its fsync. -/
def finish (c : Coord) (t : ThreadId) (seq target : Nat) :
    Except LogErr Unit → WaitStep × Coord
  | .error e => (.failed e, broadcast { c with syncing := false, err := some e })
  | .ok _ =>
      loop (broadcast { c with syncing := false, synced := max c.synced target }) t seq

@[simp] theorem markSynced_synced (c : Coord) (seq : Nat) :
    (c.markSynced seq).synced = max c.synced seq := by
  rfl

@[simp] theorem markSynced_pending (c : Coord) (seq : Nat) :
    (c.markSynced seq).pending = max c.pending seq := by
  rfl

/-- The four ways one round of the loop can end, with what decides between them. -/
theorem loop_cases (c : Coord) (t : ThreadId) (seq : Nat) :
    (seq ≤ c.synced ∧ c.loop t seq = (.durable, c)) ∨
    (∃ e, c.synced < seq ∧ c.err = some e ∧ c.loop t seq = (.failed e, c)) ∨
    (c.synced < seq ∧ c.err = none ∧ c.syncing = true ∧
      c.loop t seq = (.blocked, { c with waiting := c.waiting ++ [t] })) ∨
    (c.synced < seq ∧ c.err = none ∧ c.syncing = false ∧
      c.loop t seq =
        (.flush c.pending, { c with syncing := true, err := none, syncs := c.syncs + 1 })) := by
  unfold loop
  by_cases hs : c.synced ≥ seq
  · left
    exact ⟨hs, if_pos hs⟩
  · right
    have hlt : c.synced < seq := Nat.lt_of_not_le hs
    rw [if_neg hs]
    cases he : c.err with
    | some e =>
        left
        exact ⟨e, hlt, rfl, rfl⟩
    | none =>
        right
        cases hf : c.syncing with
        | true =>
            left
            exact ⟨hlt, rfl, rfl, if_pos rfl⟩
        | false =>
            right
            exact ⟨hlt, rfl, rfl, if_neg (by simp)⟩

/-- Going through the loop changes neither what is durable nor what is pending. -/
theorem loop_synced_pending (c : Coord) (t : ThreadId) (seq : Nat) :
    (c.loop t seq).2.synced = c.synced ∧ (c.loop t seq).2.pending = c.pending := by
  rcases loop_cases c t seq with ⟨_, h⟩ | ⟨e, _, _, h⟩ | ⟨_, _, _, h⟩ | ⟨_, _, _, h⟩ <;>
    rw [h] <;> exact ⟨rfl, rfl⟩

/-- The loop reports a sequence as durable only when it is claimed to be. -/
theorem loop_durable {c : Coord} {t : ThreadId} {seq : Nat}
    (hd : (c.loop t seq).1 = .durable) : seq ≤ c.synced := by
  rcases loop_cases c t seq with ⟨hs, _⟩ | ⟨e, _, _, h⟩ | ⟨_, _, _, h⟩ | ⟨_, _, _, h⟩
  · exact hs
  · rw [h] at hd
    cases hd
  · rw [h] at hd
    cases hd
  · rw [h] at hd
    cases hd

/-- Whoever flushes may claim what was pending when it took over. -/
theorem loop_flush {c : Coord} {t : ThreadId} {seq target : Nat}
    (hf : (c.loop t seq).1 = .flush target) : target = c.pending := by
  rcases loop_cases c t seq with ⟨_, h⟩ | ⟨e, _, _, h⟩ | ⟨_, _, _, h⟩ | ⟨_, _, _, h⟩
  · rw [h] at hf
    cases hf
  · rw [h] at hf
    cases hf
  · rw [h] at hf
    cases hf
  · rw [h] at hf
    cases hf
    rfl

end Coord

end LedgerLine.Broker
