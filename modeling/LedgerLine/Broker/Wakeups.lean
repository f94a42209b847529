import LedgerLine.Broker.GroupCommit

/-!
# No lost wakeup

The interleavings of `GroupCommit` once more: any number of calls of `waitFor` and
`markSynced`, with fsyncs that succeed or fail.  `Matched` relates the coordinator to the callers:
the flag says whether somebody is in `doSync`, the condition variable holds exactly the callers
in `cond.Wait`, each once, and nobody waits for a broadcast that no flusher is going to issue.

A caller that takes the mutex is in neither place until its round of the loop ends.  So each
step is treated in two halves: what the caller does before the loop keeps `Matched` with the
caller counted as idle (`Matched.woken`, `Matched.finished`), and a round of the loop puts it back
(`Matched.loop`).
-/

namespace LedgerLine.Broker

section Matched

variable {phase : ThreadId → Phase} {c : Coord} {t u : ThreadId} {seq target : Nat}

/-- The caller `t` is inside `doSync`. -/
def InDoSync (phase : ThreadId → Phase) (t : ThreadId) : Prop :=
  ∃ seq target, phase t = .flushing seq target

/-- The caller `t` is inside `cond.Wait`. -/
def InWait (phase : ThreadId → Phase) (t : ThreadId) : Prop :=
  ∃ seq, phase t = .blocked seq

/-- The coordinator and its callers are in step. -/
structure Matched (c : Coord) (phase : ThreadId → Phase) : Prop where
  alone : ∀ t u, InDoSync phase t → InDoSync phase u → t = u
  flag : c.syncing = true ↔ ∃ t, InDoSync phase t
  synced : c.synced ≤ c.pending
  target : ∀ t seq target, phase t = .flushing seq target → target ≤ c.pending
  /-- Nobody stands in the queue of the condition variable twice. -/
  once : (c.waiting ++ c.notified).Nodup
  queued : ∀ t, t ∈ c.waiting ++ c.notified ↔ InWait phase t
  /-- Whoever no broadcast has reached yet can count on the flusher's. -/
  owed : c.waiting ≠ [] → c.syncing = true

theorem not_inDoSync_of_idle (h : phase t = .idle) : ¬ InDoSync phase t := by
  rintro ⟨seq, target, hflushing⟩
  rw [h] at hflushing
  cases hflushing

theorem not_inWait_of_idle (h : phase t = .idle) : ¬ InWait phase t := by
  rintro ⟨seq, hblocked⟩
  rw [h] at hblocked
  cases hblocked

theorem inDoSync_update_ne {x : Phase} (h : u ≠ t) :
    InDoSync (Function.update phase t x) u ↔ InDoSync phase u := by
  rw [InDoSync, Function.update_of_ne h]
  exact Iff.rfl

theorem inWait_update_ne {x : Phase} (h : u ≠ t) :
    InWait (Function.update phase t x) u ↔ InWait phase u := by
  rw [InWait, Function.update_of_ne h]
  exact Iff.rfl

/-- A caller that is idle in the update is another one. -/
theorem ne_of_inDoSync_idle (h : InDoSync (Function.update phase t .idle) u) : u ≠ t := by
  rintro rfl
  exact not_inDoSync_of_idle (Function.update_self u _ phase) h

theorem ne_of_inWait_idle (h : InWait (Function.update phase t .idle) u) : u ≠ t := by
  rintro rfl
  exact not_inWait_of_idle (Function.update_self u _ phase) h

namespace Matched

variable (h : Matched c phase)

include h

/-- The caller `t` joins the queue behind a flusher. -/
theorem block (ht : phase t = .idle) (hup : c.syncing = true) (seq : Nat) :
    Matched { c with waiting := c.waiting ++ [t] } (Function.update phase t (.blocked seq)) := by
  have hself : Function.update phase t (.blocked seq) t = .blocked seq :=
    Function.update_self t _ phase
  have hsame : ∀ u, InDoSync (Function.update phase t (.blocked seq)) u ↔ InDoSync phase u := by
    intro u
    by_cases hut : u = t
    · subst hut
      refine iff_of_false ?_ (not_inDoSync_of_idle ht)
      rintro ⟨s, target, hflushing⟩
      cases hself.symm.trans hflushing
    · exact inDoSync_update_ne hut
  have hnew : t ∉ c.waiting ++ c.notified := by
    rw [h.queued]
    exact not_inWait_of_idle ht
  have hperm : (c.waiting ++ [t] ++ c.notified).Perm (t :: (c.waiting ++ c.notified)) := by
    rw [List.append_assoc]
    exact List.perm_middle
  refine ⟨?_, ?_, h.synced, ?_, ?_, ?_, fun _ => hup⟩
  · intro a b ha hb
    exact h.alone a b ((hsame a).mp ha) ((hsame b).mp hb)
  · rw [exists_congr hsame]
    exact h.flag
  · intro u s target hu
    by_cases hut : u = t
    · subst hut
      cases hself.symm.trans hu
    · rw [Function.update_of_ne hut] at hu
      exact h.target u s target hu
  · exact hperm.nodup_iff.mpr (List.nodup_cons.mpr ⟨hnew, h.once⟩)
  · intro u
    rw [hperm.mem_iff, List.mem_cons, h.queued]
    by_cases hut : u = t
    · subst hut
      exact iff_of_true (.inl rfl) ⟨seq, hself⟩
    · rw [inWait_update_ne hut]
      exact or_iff_right hut

/-- The caller `t` becomes the flusher. -/
theorem flush (ht : phase t = .idle) (hdown : c.syncing = false) (seq : Nat) :
    Matched { c with syncing := true, err := none, syncs := c.syncs + 1 }
      (Function.update phase t (.flushing seq c.pending)) := by
  have hself : Function.update phase t (.flushing seq c.pending) t = .flushing seq c.pending :=
    Function.update_self t _ phase
  have hnone : ∀ u, ¬ InDoSync phase u := by
    intro u hu
    have hup := h.flag.mpr ⟨u, hu⟩
    rw [hdown] at hup
    cases hup
  have honly : ∀ u, InDoSync (Function.update phase t (.flushing seq c.pending)) u → u = t := by
    intro u hu
    by_contra hut
    exact hnone u ((inDoSync_update_ne hut).mp hu)
  refine ⟨?_, iff_of_true rfl ⟨t, seq, c.pending, hself⟩, h.synced, ?_, h.once, ?_, fun _ => rfl⟩
  · intro a b ha hb
    exact (honly a ha).trans (honly b hb).symm
  · intro u s target hu
    obtain rfl := honly u ⟨s, target, hu⟩
    cases hself.symm.trans hu
    exact le_refl _
  · intro u
    rw [h.queued]
    by_cases hut : u = t
    · subst hut
      refine iff_of_false (not_inWait_of_idle ht) ?_
      rintro ⟨s, hblocked⟩
      cases hself.symm.trans hblocked
    · exact (inWait_update_ne hut).symm

/-- A round of the loop, for a caller that was counted as idle. -/
theorem loop (ht : phase t = .idle) (seq : Nat) :
    Matched (c.loop t seq).2 (Function.update phase t ((c.loop t seq).1.phase seq)) := by
  have hidle : Function.update phase t .idle = phase := by
    rw [← ht]
    exact Function.update_eq_self t phase
  rcases Coord.loop_cases c t seq with ⟨_, hl⟩ | ⟨e, _, _, hl⟩ | ⟨_, _, hup, hl⟩ |
    ⟨_, _, hdown, hl⟩
  · rw [hl, WaitStep.phase, hidle]
    exact h
  · rw [hl, WaitStep.phase, hidle]
    exact h
  · rw [hl]
    exact h.block ht hup seq
  · rw [hl]
    exact h.flush ht hdown seq

/-- A call raises what is pending. -/
theorem raise (seq : Nat) : Matched { c with pending := max c.pending seq } phase :=
  { h with
    synced := le_trans h.synced (le_max_left _ _)
    target := fun t s target ht => le_trans (h.target t s target ht) (le_max_left _ _) }

/-- `markSynced`: everybody in the queue is notified. -/
theorem markSynced (seq : Nat) : Matched (c.markSynced seq) phase :=
  { h.raise seq with
    synced := max_le_max_right seq h.synced
    once := by
      rw [Coord.markSynced, Coord.broadcast, List.nil_append]
      exact List.perm_append_comm.nodup_iff.mp h.once
    queued := by
      intro t
      rw [Coord.markSynced, Coord.broadcast, List.nil_append, List.perm_append_comm.mem_iff]
      exact h.queued t
    owed := fun hne => absurd rfl hne }

/-- A broadcast is delivered to `t`, which leaves the queue. -/
theorem woken (ht : phase t = .blocked seq) (hnotified : t ∈ c.notified) :
    Matched { c with notified := c.notified.erase t } (Function.update phase t .idle) := by
  have hsame : ∀ u, InDoSync (Function.update phase t .idle) u ↔ InDoSync phase u := by
    intro u
    by_cases hut : u = t
    · subst hut
      refine iff_of_false (not_inDoSync_of_idle (Function.update_self u _ phase)) ?_
      rintro ⟨s, target, hflushing⟩
      cases ht.symm.trans hflushing
    · exact inDoSync_update_ne hut
  have hfresh : t ∉ c.waiting := fun hwaiting =>
    (List.nodup_append.mp h.once).2.2 t hwaiting t hnotified rfl
  have herase : c.waiting ++ c.notified.erase t = (c.waiting ++ c.notified).erase t :=
    (List.erase_append_right _ hfresh).symm
  refine ⟨?_, ?_, h.synced, ?_, ?_, ?_, h.owed⟩
  · intro a b ha hb
    exact h.alone a b ((hsame a).mp ha) ((hsame b).mp hb)
  · rw [exists_congr hsame]
    exact h.flag
  · intro u s target hu
    have hut : u ≠ t := ne_of_inDoSync_idle ⟨s, target, hu⟩
    rw [Function.update_of_ne hut] at hu
    exact h.target u s target hu
  · rw [herase]
    exact h.once.erase t
  · intro u
    rw [herase, h.once.mem_erase_iff, h.queued]
    constructor
    · rintro ⟨hut, hu⟩
      exact (inWait_update_ne hut).mpr hu
    · intro hu
      have hut := ne_of_inWait_idle hu
      exact ⟨hut, (inWait_update_ne hut).mp hu⟩

/-- The flusher `t` takes the flag down and wakes everybody. -/
theorem finished (ht : phase t = .flushing seq target) {synced : Nat} {err : Option LogErr}
    (hsynced : synced ≤ c.pending) :
    Matched (Coord.broadcast { c with syncing := false, synced := synced, err := err })
      (Function.update phase t .idle) := by
  have hnone : ∀ u, ¬ InDoSync (Function.update phase t .idle) u := by
    intro u hu
    have hut := ne_of_inDoSync_idle hu
    exact hut (h.alone u t ((inDoSync_update_ne hut).mp hu) ⟨seq, target, ht⟩)
  refine ⟨fun a _ ha _ => absurd ha (hnone a), iff_of_false Bool.false_ne_true ?_, hsynced,
    fun u s target hu => absurd ⟨s, target, hu⟩ (hnone u), ?_, ?_, fun hne => absurd rfl hne⟩
  · rintro ⟨u, hu⟩
    exact hnone u hu
  · rw [Coord.broadcast, List.nil_append]
    exact List.perm_append_comm.nodup_iff.mp h.once
  · intro u
    rw [Coord.broadcast, List.nil_append, List.perm_append_comm.mem_iff, h.queued]
    by_cases hut : u = t
    · subst hut
      refine iff_of_false ?_ (not_inWait_of_idle (Function.update_self u _ phase))
      rintro ⟨s, hblocked⟩
      cases ht.symm.trans hblocked
    · exact (inWait_update_ne hut).symm

end Matched

end Matched

namespace Group

theorem matched_init : Matched init.coord init.phase := by
  have hnone : ∀ t, ¬ InDoSync init.phase t := fun t => not_inDoSync_of_idle rfl
  refine ⟨fun t _ ht _ => absurd ht (hnone t), iff_of_false Bool.false_ne_true ?_, le_refl 0,
    fun t s target ht => absurd ⟨s, target, ht⟩ (hnone t), List.nodup_nil, ?_,
    fun hne => absurd rfl hne⟩
  · rintro ⟨t, ht⟩
    exact hnone t ht
  · intro t
    exact iff_of_false List.not_mem_nil (not_inWait_of_idle rfl)

variable {g g' : Group}

/-- A caller that was taken out ends its round of the loop. -/
theorem matched_move {t : ThreadId} {seq : Nat} {c : Coord}
    (h : Matched c (Function.update g.phase t .idle)) :
    Matched (g.move t seq (c.loop t seq)).coord (g.move t seq (c.loop t seq)).phase := by
  have hloop := h.loop (Function.update_self t _ g.phase) seq
  rw [Function.update_idem] at hloop
  exact hloop

theorem matched_step (h : Matched g.coord g.phase) (hstep : Step g g') :
    Matched g'.coord g'.phase := by
  cases hstep with
  | markSynced seq => exact h.markSynced seq
  | enter t seq hidle =>
      exact (h.raise seq).loop hidle seq
  | wake t seq hblocked hnotified =>
      exact matched_move (h.woken hblocked hnotified)
  | synced t seq target hflushing =>
      refine matched_move (h.finished hflushing ?_)
      exact max_le h.synced (h.target t seq target hflushing)
  | syncFailed t seq target e hflushing =>
      exact h.finished hflushing h.synced

theorem matched_of_reachable (h : Reachable g) : Matched g.coord g.phase := by
  induction h with
  | refl => exact matched_init
  | tail _ hstep ih =>
      exact matched_step ih hstep

theorem synced_le_step (hstep : Step g g') : g.coord.synced ≤ g'.coord.synced := by
  cases hstep with
  | markSynced seq => exact le_max_left _ _
  | enter t seq hidle =>
      let c : Coord := { g.coord with pending := max g.coord.pending seq }
      exact (Coord.loop_synced_pending c t seq).1.ge
  | wake t seq hblocked hnotified =>
      let c : Coord := { g.coord with notified := g.coord.notified.erase t }
      exact (Coord.loop_synced_pending c t seq).1.ge
  | synced t seq target hflushing =>
      let c : Coord := Coord.broadcast
        { g.coord with syncing := false, synced := max g.coord.synced target }
      exact le_trans (le_max_left _ target) (Coord.loop_synced_pending c t seq).1.ge
  | syncFailed t seq target e hflushing => exact le_refl _

/-- What is durable stays so along every run. -/
theorem synced_le_run (hrun : Relation.ReflTransGen Step g g') :
    g.coord.synced ≤ g'.coord.synced := by
  induction hrun with
  | refl => exact le_refl _
  | tail _ hstep ih =>
      exact le_trans ih (synced_le_step hstep)

/-- One fsync at a time, and no lost wakeup: a caller in `cond.Wait` has seen no broadcast
since it blocked and somebody is flushing, or a later broadcast is on its way to it. -/
theorem no_lost_wakeup {g : Group} (hreach : Reachable g) :
    (∀ t u, InDoSync g.phase t → InDoSync g.phase u → t = u) ∧
      (g.coord.syncing = true ↔ ∃ t, InDoSync g.phase t) ∧
      (∀ g', Relation.ReflTransGen Step g g' → g.coord.synced ≤ g'.coord.synced) ∧
      g.coord.synced ≤ g.coord.pending ∧
      ∀ t, InWait g.phase t →
        (t ∈ g.coord.waiting ∧ t ∉ g.coord.notified ∧ ∃ u, InDoSync g.phase u) ∨
          (t ∈ g.coord.notified ∧ t ∉ g.coord.waiting) := by
  have h := matched_of_reachable hreach
  have hapart := (List.nodup_append.mp h.once).2.2
  refine ⟨h.alone, h.flag, fun g' hrun => synced_le_run hrun, h.synced, ?_⟩
  intro t ht
  rcases List.mem_append.mp ((h.queued t).mpr ht) with hwaiting | hnotified
  · left
    refine ⟨hwaiting, fun hnotified => hapart t hwaiting t hnotified rfl, h.flag.mp ?_⟩
    exact h.owed (List.ne_nil_of_mem hwaiting)
  · right
    exact ⟨hnotified, fun hwaiting => hapart t hwaiting t hnotified rfl⟩

/-- A second caller queues behind the fsync of the first. -/
def crowded : Group :=
  { entered.move 1 2 (entered.coord.enter 1 2) with used := max entered.used 2 }

theorem crowded_waits_for_flusher :
    InWait crowded.phase 1 ∧ 1 ∉ crowded.coord.notified ∧ ∃ u, InDoSync crowded.phase u := by
  have hentered : Reachable entered := .single (.enter init 0 1 rfl)
  have hreach : Reachable crowded := hentered.tail (.enter entered 1 2 rfl)
  have hwait : InWait crowded.phase 1 := ⟨2, rfl⟩
  obtain ⟨_, _, _, _, hall⟩ := no_lost_wakeup hreach
  rcases hall 1 hwait with ⟨_, hnot, hflusher⟩ | ⟨hnotified, _⟩
  · exact ⟨hwait, hnot, hflusher⟩
  · exact absurd hnotified (by decide)

end Group

end LedgerLine.Broker
