import LedgerLine.Broker.Stacked
import LedgerLine.Broker.Readable

/-!
# Failed appends and what a reopened log reads

Any number of threads append to a log, any write of `segment.append` may fail after any number
of its bytes, the process may be killed at any moment, also while it opens the log, and the log
is opened again.  `FaultRun` is every such history, with the appends that were acknowledged, the
payloads that were passed to `Append`, and what was `untracked` at the kills: the records that
can be read behind the tracked end of the newest segment.

Acknowledged records stay where they are.  Everything else the log returns was passed to
`Append` or was untracked at some kill (`reads_after_failures`), and a longer record whose write
failed, partly covered by a shorter one, can leave an untracked record that nobody passed
(`phantom_record`).
-/

namespace LedgerLine.Broker

open Program

/-- Where the log in memory expects the next record of segment `b`. -/
def Log.trackedSize (l : Log) (b : Nat) : Nat :=
  ((l.segments.find? fun s => decide (s.file = .segment b)).map Segment.size).getD
    segmentHeaderSize

/-- The records that can be read behind the tracked end of the newest segment. -/
def Log.untracked (crc : Checksum) (l : Log) (d : Dir Path) : List Bytes :=
  match (segmentOffsets d.names).max? with
  | none => []
  | some b => behind crc b (l.trackedSize b) d

section Killed

variable {crc : Checksum} {init : List (Segment × List Bytes)} {s : Segment}
variable {recs ps : List Bytes} {l : Log} {d : Dir Path} {b : Nat} {bs : List Nat}

theorem Names.newest (h : Names (bs ++ [b]) d) (hsorted : (bs ++ [b]).Pairwise (· < ·)) :
    (segmentOffsets d.names).max? = some b := by
  refine List.max?_eq_some_iff.mpr ⟨h.1.mem_iff.mpr (by simp), fun c hc => ?_⟩
  rcases List.mem_append.mp (h.1.mem_iff.mp hc) with hc | hc
  · exact le_of_lt ((List.pairwise_append.mp hsorted).2.2 c hc b (by simp))
  · rw [List.mem_singleton.mp hc]

/-- A segment with everything that can be read behind its records. -/
def grown (crc : Checksum) (d : Dir Path) (x : Nat × List Bytes) : Nat × List Bytes :=
  (x.1, x.2 ++ behind crc x.1 (position crc x.2 x.2.length) d)

theorem map_fst_grown (segs : List (Nat × List Bytes)) :
    (segs.map (grown crc d)).map Prod.fst = segs.map Prod.fst := by
  rw [List.map_map]
  rfl

variable {ss : List (Segment × List Bytes)}

theorem LooseAll.resting (h : LooseAll crc ss d) :
    ∀ x ∈ (located ss).map (grown crc d), Resting crc x.1 x.2 d := by
  refine List.forall_mem_map.mpr fun y hy => ?_
  obtain ⟨z, hz, rfl⟩ := List.mem_map.mp hy
  exact (h z hz).resting

/-- A segment that the log in memory does not know has no records yet. -/
theorem trackedSize_new (hseg : l.segments = ss.map Prod.fst)
    (hfile : ∀ x ∈ ss, x.1.file = .segment x.1.baseOffset) (hb : b ∉ (located ss).map Prod.fst) :
    l.trackedSize b = segmentHeaderSize := by
  have hnone : (l.segments.find? fun s => decide (s.file = .segment b)) = none := by
    rw [List.find?_eq_none, hseg]
    refine List.forall_mem_map.mpr fun x hx => ?_
    rw [hfile x hx, decide_eq_true_eq, Path.segment.injEq]
    rintro rfl
    exact hb (List.mem_map.mpr ⟨_, List.mem_map.mpr ⟨x, hx, rfl⟩, rfl⟩)
  rw [Log.trackedSize, hnone]
  rfl

theorem trackedSize_active (hseg : l.segments = (init ++ [(s, ps)]).map Prod.fst)
    (hfile : ∀ x ∈ init ++ [(s, ps)], x.1.file = .segment x.1.baseOffset)
    (hs : s.baseOffset ∉ (located init).map Prod.fst) : l.trackedSize s.baseOffset = s.size := by
  have hinit : ((init.map Prod.fst).find? fun t => decide (t.file = .segment s.baseOffset)) =
      none := by
    rw [List.find?_eq_none]
    refine List.forall_mem_map.mpr fun x hx => ?_
    rw [hfile x (List.mem_append_left _ hx), decide_eq_true_eq, Path.segment.injEq]
    intro heq
    exact hs (heq ▸ List.mem_map.mpr ⟨_, List.mem_map.mpr ⟨x, hx, rfl⟩, rfl⟩)
  have hself : s.file = .segment s.baseOffset := hfile (s, ps) (by simp)
  rw [Log.trackedSize, hseg, List.map_append, List.find?_append, hinit]
  simp [hself]

/-- What a kill at any point of an append leaves. -/
theorem Midway.cold (h : Midway crc l recs d) : Cold crc (recs ++ l.untracked crc d) d := by
  obtain ⟨init, s, ps, hseg, hspans, htracked, hloose, hnames⟩ := h
  have hsorted := hspans.sorted
  have hfits : ∀ x ∈ (located (init ++ [(s, ps)])).map (grown crc d), x.1 < 2 ^ 64 := by
    refine List.forall_mem_map.mpr fun y hy => ?_
    obtain ⟨z, hz, rfl⟩ := List.mem_map.mp hy
    exact (htracked z hz).1
  have hresting := hloose.resting
  rw [located_concat] at hspans
  rcases hnames with hnames | ⟨hne, hfit, hnames, hnew⟩
  · -- the newest segment is the active one
    rw [located_concat, List.map_append] at hsorted
    have hnewest : (segmentOffsets d.names).max? = some s.baseOffset := by
      rw [located_concat, List.map_append] at hnames
      exact hnames.newest hsorted
    have hsize : l.trackedSize s.baseOffset = position crc ps ps.length := by
      rw [trackedSize_active hseg fun x hx => (htracked x hx).2.1]
      · exact (htracked (s, ps) (by simp)).2.2
      · intro hmem
        exact Nat.lt_irrefl _ ((List.pairwise_append.mp hsorted).2.2 _ hmem _ (by simp))
    right
    left
    refine ⟨(located (init ++ [(s, ps)])).map (grown crc d), ?_, ?_, hfits, hresting⟩
    · have hwide := (hspans.extend (behind crc s.baseOffset (position crc ps ps.length) d)).widen
        fun x => behind crc x.1 (position crc x.2 x.2.length) d
      rw [Log.untracked, hnewest]
      dsimp only
      rw [hsize, located_concat, List.map_append]
      exact hwide
    · rw [map_fst_grown]
      exact hnames
  · have hroll := hspans.roll hne
    rw [Nat.zero_add, ← located_concat] at hroll
    have hsorted' := hroll.sorted
    rw [List.map_append] at hsorted'
    have hnewest : (segmentOffsets d.names).max? = some recs.length := hnames.newest hsorted'
    rcases hnew with hblank | hnew
    · right
      right
      refine ⟨(located (init ++ [(s, ps)])).map (grown crc d), recs.length, ?_, ?_, hfits, hresting,
        hblank⟩
      · rw [map_fst_grown]
        exact hnames
      · rw [map_fst_grown]
        exact hsorted'
    · have hsize : l.trackedSize recs.length = position crc [] 0 := by
        rw [position_zero, ← segmentHeaderSize_eq]
        refine trackedSize_new hseg (fun x hx => (htracked x hx).2.1) ?_
        intro hmem
        exact Nat.lt_irrefl _ ((List.pairwise_append.mp hsorted').2.2 _ hmem _ (by simp))
      right
      left
      refine ⟨(located (init ++ [(s, ps)])).map (grown crc d) ++ [grown crc d (recs.length, [])],
        ?_, ?_, ?_, ?_⟩
      · have hwide := (hroll.extend (behind crc recs.length (position crc [] 0) d)).widen
          fun x => behind crc x.1 (position crc x.2 x.2.length) d
        rw [Log.untracked, hnewest]
        dsimp only
        rw [hsize]
        exact hwide
      · rw [List.map_append, map_fst_grown]
        exact hnames
      · exact List.forall_mem_append.mpr ⟨hfits, List.forall_mem_singleton.mpr hfit⟩
      · exact List.forall_mem_append.mpr ⟨hresting, List.forall_mem_singleton.mpr hnew.resting⟩

end Killed

/-- The process: not running, or running with the log open. -/
inductive Machine
  | off (d : Dir Path)
  | on (s : Live)

section Runs

variable (crc : Checksum)

/-- Histories from an empty directory: which appends were acknowledged, what was passed to
`Append`, and what was untracked at a kill.  There are fewer records than offsets. -/
inductive FaultRun : Machine → (Nat → Bytes → Prop) → List Bytes → List Bytes → Prop
  | start : FaultRun (.off Dir.empty) (fun _ _ => False) [] []
  | opened {d : Dir Path} {acked : Nat → Bytes → Prop} {passed found : List Bytes}
      (opts : Options) {l : Log} {w : World} (h : FaultRun (.off d) acked passed found)
      (hrun : run LogOp.exec (openLog crc opts) ⟨d, Coord.new⟩ = (.ok l, w)) :
      FaultRun (.on (Live.start l w)) acked passed found
  | killedOpening {d : Dir Path} {acked : Nat → Bytes → Prop} {passed found : List Bytes}
      (opts : Options) {u : World} (h : FaultRun (.off d) acked passed found)
      (hpoint : Point LogOp.exec (openLog crc opts) ⟨d, Coord.new⟩ u) :
      FaultRun (.off u.dir) acked passed found
  | stepped {s s' : Live} {acked : Nat → Bytes → Prop} {passed found : List Bytes}
      (h : FaultRun (.on s) acked passed found) (hstep : LiveStep crc AppendWrite s s')
      (hroom : s.mem.nextOffset < 2 ^ 64) :
      FaultRun (.on s') (fun k p => acked k p ∨ s'.Acks k p) (passed ++ s'.inFlight) found
  | killed {s : Live} {acked : Nat → Bytes → Prop} {passed found : List Bytes}
      (h : FaultRun (.on s) acked passed found) :
      FaultRun (.off s.world.dir) acked passed (found ++ s.mem.untracked crc s.world.dir)

end Runs

section Threads

variable {crc : Checksum} {mayFail : FsOp Path → Prop} {s s' : Live} {t : ThreadId}

/-- Who holds the mutex, what `Log.Sync` does with it, and which offset `Append` returns. -/
structure Orderly (s : Live) : Prop where
  lock : ∀ t, (s.threads t).Holds ↔ s.lock = some t
  syncing : ∀ t rest, s.threads t = .syncingAll rest → Only FlushOp rest
  returned : ∀ t r k, s.threads t = .returned r (.ok k) → k = r.ticket.offset

variable {pc pc₀ : Pc}

/-- One thread moves on. -/
theorem Orderly.move (h : Orderly s) (hthreads : s'.threads = Function.update s.threads t pc)
    (hpc : pc.Holds ↔ s'.lock = some t)
    (hothers : ∀ t', t' ≠ t → (s.lock = some t' ↔ s'.lock = some t'))
    (hsyncing : ∀ rest, pc = .syncingAll rest → Only FlushOp rest)
    (hreturned : ∀ r k, pc = .returned r (.ok k) → k = r.ticket.offset) : Orderly s' := by
  have hself : s'.threads t = pc := by
    rw [hthreads, Function.update_self]
  have hother : ∀ t', t' ≠ t → s'.threads t' = s.threads t' := by
    intro t' ht
    rw [hthreads, Function.update_of_ne ht]
  refine ⟨fun t' => ?_, fun t' => ?_, fun t' => ?_⟩
  · by_cases ht : t' = t
    · rw [ht, hself]
      exact hpc
    · rw [hother t' ht, h.lock t']
      exact hothers t' ht
  · by_cases ht : t' = t
    · rw [ht, hself]
      exact hsyncing
    · rw [hother t' ht]
      exact h.syncing t'
  · by_cases ht : t' = t
    · rw [ht, hself]
      exact hreturned
    · rw [hother t' ht]
      exact h.returned t'

/-- A thread that does not hold the mutex and does not take it. -/
theorem Orderly.outside (h : Orderly s) (hpc₀ : s.threads t = pc₀)
    (hthreads : s'.threads = Function.update s.threads t pc) (hlock : s'.lock = s.lock)
    (hbefore : ¬ pc₀.Holds) (hafter : ¬ pc.Holds)
    (hreturned : ∀ r k, pc = .returned r (.ok k) → k = r.ticket.offset) : Orderly s' := by
  refine h.move hthreads ?_ (fun t' _ => by rw [hlock]) ?_ hreturned
  · rw [hlock, ← h.lock t, hpc₀]
    exact iff_of_false hafter hbefore
  · rintro rest rfl
    exact absurd trivial hafter

/-- A thread that holds the mutex and keeps it. -/
theorem Orderly.inside (h : Orderly s) (hpc₀ : s.threads t = pc₀)
    (hthreads : s'.threads = Function.update s.threads t pc) (hlock : s'.lock = s.lock)
    (hbefore : pc₀.Holds) (hafter : pc.Holds)
    (hsyncing : ∀ rest, pc = .syncingAll rest → Only FlushOp rest) : Orderly s' := by
  refine h.move hthreads ?_ (fun t' _ => by rw [hlock]) hsyncing ?_
  · rw [hlock, ← h.lock t, hpc₀]
    exact iff_of_true hafter hbefore
  · rintro r k rfl
    exact hafter.elim

/-- A thread takes the mutex. -/
theorem Orderly.take (h : Orderly s) (hfree : s.lock = none)
    (hthreads : s'.threads = Function.update s.threads t pc) (hlock : s'.lock = some t)
    (hafter : pc.Holds) (hsyncing : ∀ rest, pc = .syncingAll rest → Only FlushOp rest) :
    Orderly s' := by
  refine h.move hthreads (iff_of_true hafter hlock) ?_ hsyncing ?_
  · intro t' ht
    rw [hfree, hlock, Option.some.injEq]
    exact iff_of_false (by intro heq; cases heq) (Ne.symm ht)
  · rintro r k rfl
    exact hafter.elim

/-- A thread releases the mutex. -/
theorem Orderly.release (h : Orderly s) (hpc₀ : s.threads t = pc₀)
    (hthreads : s'.threads = Function.update s.threads t pc) (hlock : s'.lock = none)
    (hbefore : pc₀.Holds) (hafter : ¬ pc.Holds)
    (hreturned : ∀ r k, pc = .returned r (.ok k) → k = r.ticket.offset) : Orderly s' := by
  have hheld : s.lock = some t := by
    rw [← h.lock t, hpc₀]
    exact hbefore
  refine h.move hthreads ?_ ?_ ?_ hreturned
  · rw [hlock]
    exact iff_of_false hafter (by intro heq; cases heq)
  · intro t' ht
    rw [hheld, hlock, Option.some.injEq]
    exact iff_of_false (Ne.symm ht) (by intro heq; cases heq)
  · rintro rest rfl
    exact absurd trivial hafter

/-- The offset that a round of `waitFor` may return. -/
theorem afterWait_returned {r r' : Pending} {step : WaitStep} {k : Nat}
    (h : r.afterWait step = .returned r' (.ok k)) : k = r'.ticket.offset := by
  cases step with
  | durable =>
      cases h
      rfl
  | failed e | blocked | flush target => cases h

theorem Orderly.step (h : Orderly s) (hstep : LiveStep crc mayFail s s') : Orderly s' := by
  have hno : ∀ {pc : Pc}, (∀ r o, pc ≠ .returned r o) →
      ∀ r k, pc = .returned r (.ok k) → k = r.ticket.offset :=
    fun hpc r k heq => absurd heq (hpc r _)
  cases hstep with
  | lockAppend p hpc hlock =>
      exact h.take hlock rfl rfl trivial (by intro rest heq; cases heq)
  | appendOp hpc hout =>
      exact h.inside hpc rfl rfl trivial trivial (by intro rest heq; cases heq)
  | unlockRefused hpc | unlock hpc hactive hplace =>
      exact h.release hpc rfl rfl trivial id (hno (by intro r o heq; cases heq))
  | lockSync hpc hlock =>
      refine h.take hlock rfl rfl trivial ?_
      rintro rest ⟨⟩
      exact syncAll_only _
  | @syncOp t o next r w hpc hout =>
      refine h.inside hpc rfl rfl trivial trivial ?_
      rintro rest ⟨⟩
      exact (h.syncing t _ hpc).2 r
  | unlockSync hpc =>
      exact h.release hpc rfl rfl trivial id (hno (by intro r o heq; cases heq))
  | returnUnsynced hpc hpolicy =>
      refine h.outside hpc rfl rfl id id ?_
      rintro r k ⟨⟩
      rfl
  | @enter t r step c hpc hpolicy hstep | @wake t r step c hpc hnotified hstep
  | @finish t r target outcome step c hpc hstep =>
      exact h.outside hpc rfl rfl id (afterWait_not_holds r step) fun r' k => afterWait_returned
  | @returnAlone t r outcome hpc =>
      refine h.outside hpc rfl rfl id id ?_
      intro r' k heq
      rcases outcome with e | _
      · cases heq
      cases heq
      rfl
  | flushAlone hpc _ | capture hpc _ _ | captureNone hpc _ _ | beginSync hpc | endSync hpc
  | failSync hpc _ | beginIndex hpc | endIndex hpc | failIndex hpc _ | again hpc
  | againRefused hpc =>
      exact h.outside hpc rfl rfl id id (hno (by intro r o heq; cases heq))

theorem Orderly.mem_inFlight (h : Orderly s) {p : Bytes}
    {rest : LogProgram (Log × Except LogErr Log.Ticket)} (hpc : s.threads t = .appending p rest) :
    p ∈ s.inFlight := by
  have hheld := (h.lock t).mp (by rw [hpc]; trivial)
  unfold Live.inFlight
  rw [hheld]
  simp only [hpc, List.mem_singleton]

end Threads

/-- How the log looks while `s` runs: when nobody is appending it is open, and otherwise what
remains of the append leads there. -/
structure Laid (crc : Checksum) (recs : List Bytes) (s : Live) : Prop where
  steady : (∀ t, ¬ (s.threads t).Appending) → ∃ ss, Racked crc ss recs s.mem s.world.dir
  appending : ∀ t p rest, s.threads t = .appending p rest →
    Always OnlySyncs (LogOp.Outcome AppendWrite) (fun u => Midway crc s.mem recs u.dir)
      (fun out u => AppendedTo crc recs p out u.dir) rest s.world

/-- What is known of the records of a log. -/
structure Accounted (recs : List Bytes) (acked : Nat → Bytes → Prop) (passed found : List Bytes) :
    Prop where
  acked : ∀ k p, acked k p → recs[k]? = some p
  known : ∀ q ∈ recs, q ∈ passed ∨ q ∈ found
  kept : ∀ q ∈ found, q ∈ recs

/-- The invariant of a history. -/
def FaultInv (crc : Checksum) (acked : Nat → Bytes → Prop) (passed found : List Bytes) :
    Machine → Prop
  | .off d => ∃ recs, Cold crc recs d ∧ Accounted recs acked passed found
  | .on s => Orderly s ∧ s.inFlight ⊆ passed ∧ ∃ recs, Laid crc recs s ∧
      (∀ t r, (s.threads t).pending? = some r → recs[r.ticket.offset]? = some r.payload) ∧
      Accounted recs acked passed found

section Step

variable {crc : Checksum} {recs : List Bytes} {s s' : Live} {t : ThreadId}
variable {acked : Nat → Bytes → Prop} {passed found : List Bytes}

/-- A step outside the critical section of `Append`. -/
theorem Laid.move (h : Laid crc recs s) {pc : Pc}
    (hthreads : s'.threads = Function.update s.threads t pc) (hmem : s'.mem = s.mem)
    (hdir : s.world.dir.SameBytes s'.world.dir) (hbefore : ¬ (s.threads t).Appending)
    (hafter : ¬ pc.Appending) : Laid crc recs s' := by
  have happending : ∀ t' p rest, s'.threads t' = .appending p rest →
      s.threads t' = .appending p rest := by
    intro t' p rest hpc
    rw [hthreads] at hpc
    exact (appending_of_update hafter hpc).2
  refine ⟨fun hidle => ?_, fun t' p rest hpc => ?_⟩
  · have hidle' : ∀ t', ¬ (s.threads t').Appending := by
      rintro t' ⟨p, rest, hpc⟩
      by_cases ht : t' = t
      · exact hbefore (ht ▸ ⟨p, rest, hpc⟩)
      · refine hidle t' ⟨p, rest, ?_⟩
        rw [hthreads, Function.update_of_ne ht]
        exact hpc
    obtain ⟨ss, hracked⟩ := h.steady hidle'
    rw [hmem]
    exact ⟨ss, Racked.steadfast _ _ hdir hracked⟩
  · rw [hmem]
    have htrans : ∀ a b c, OnlySyncs a b → OnlySyncs b c → OnlySyncs a c :=
      fun _ _ _ => Dir.SameBytes.trans
    exact always_stable htrans
      (h.appending t' p rest (happending t' p rest hpc)) hdir

/-- The log when the critical section of `Append` is entered or an operation of it is done. -/
theorem Laid.enter {p : Bytes} {rest : LogProgram (Log × Except LogErr Log.Ticket)}
    (hthreads : s'.threads = Function.update s.threads t (.appending p rest))
    (hothers : ∀ t', t' ≠ t → ¬ (s.threads t').Appending)
    (hrest : Always OnlySyncs (LogOp.Outcome AppendWrite)
      (fun u => Midway crc s'.mem recs u.dir) (fun out u => AppendedTo crc recs p out u.dir) rest
      s'.world) : Laid crc recs s' := by
  have hself : s'.threads t = .appending p rest := by
    rw [hthreads, Function.update_self]
  refine ⟨fun hidle => absurd ⟨p, rest, hself⟩ (hidle t), fun t' p' rest' hpc => ?_⟩
  by_cases ht : t' = t
  · rw [ht, hself] at hpc
    cases hpc
    exact hrest
  · rw [hthreads, Function.update_of_ne ht] at hpc
    exact absurd ⟨p', rest', hpc⟩ (hothers t' ht)

/-- The log when the critical section is left. -/
theorem Laid.leave {pc : Pc} {recs' : List Bytes}
    (hthreads : s'.threads = Function.update s.threads t pc)
    (hothers : ∀ t', t' ≠ t → ¬ (s.threads t').Appending) (hafter : ¬ pc.Appending)
    (hracked : ∃ ss, Racked crc ss recs' s'.mem s'.world.dir) : Laid crc recs' s' := by
  refine ⟨fun _ => hracked, fun t' p rest hpc => ?_⟩
  rw [hthreads] at hpc
  obtain ⟨ht, hpc⟩ := appending_of_update hafter hpc
  exact absurd ⟨p, rest, hpc⟩ (hothers t' ht)

/-- Where an append that is about to release the mutex has brought the log. -/
theorem Laid.landed (h : Laid crc recs s) {p : Bytes} {out : Log × Except LogErr Log.Ticket}
    (hpc : s.threads t = .appending p (.done out)) : AppendedTo crc recs p out s.world.dir :=
  (h.appending t p _ hpc s.world (OnlySyncs.refl _)).2

/-- A flush under the mutex changes no byte. -/
theorem sameBytes_of_flush {o : LogOp} {r : o.Resp} {w w' : World} (ho : FlushOp o)
    (hout : LogOp.Outcome AppendWrite o w r w') : w.dir.SameBytes w'.dir := by
  cases hout with
  | @fs o _ _ _ hfs =>
      cases hfs with
      | success =>
          cases o with
          | fsync p =>
              exact w.dir.sameBytes_syncTo p _
          | _ => exact ho.elim
      | failure j hfail =>
          cases o with
          | fsync p => exact hfail.elim
          | _ => exact ho.elim
  | coord o => exact ho.elim

/-- A step keeps the records of the log, and may add the one that has been written. -/
theorem Laid.step (h : Laid crc recs s) (ho : Orderly s) (hstep : LiveStep crc AppendWrite s s')
    (hroom : s.mem.nextOffset < 2 ^ 64) :
    ∃ more, Laid crc (recs ++ more) s' ∧ more ⊆ s.inFlight ∧
      ∀ t r, (s'.threads t).pending? = some r →
        (s.threads t).pending? = some r ∨ (recs ++ more)[r.ticket.offset]? = some r.payload := by
  have hsame : Laid crc recs s' → s'.written = s.written → ∃ more, Laid crc (recs ++ more) s' ∧
      more ⊆ s.inFlight ∧ ∀ t r, (s'.threads t).pending? = some r →
        (s.threads t).pending? = some r ∨
          (recs ++ more)[r.ticket.offset]? = some r.payload := by
    intro hlaid hwritten
    refine ⟨[], by rw [List.append_nil]; exact hlaid, List.nil_subset _, fun t r hr => Or.inl ?_⟩
    rcases written_of_step hstep with ⟨-, hold⟩ | ⟨t', p, l, k, pl, -, hwritten', -⟩
    · exact hold t r hr
    · rw [hwritten] at hwritten'
      simp at hwritten'
  have hrefl := Dir.SameBytes.refl s.world.dir
  have hfree : s.lock = none → ∀ t t', t' ≠ t → ¬ (s.threads t').Appending :=
    fun hlock _ t' _ => not_appending_of_free ho.lock hlock t'
  have hheld : ∀ {t : ThreadId} {p : Bytes}
      {rest : LogProgram (Log × Except LogErr Log.Ticket)}, s.threads t = .appending p rest →
      ∀ t', t' ≠ t → ¬ (s.threads t').Appending := by
    intro t p rest hpc t' hne happ
    exact hne (appending_eq_of_holds ho.lock (holds_of_pc hpc trivial) happ)
  have hmove : ∀ {t : ThreadId} {pc₀ pc : Pc}, s.threads t = pc₀ →
      s'.threads = Function.update s.threads t pc → s'.mem = s.mem → s'.written = s.written →
      s.world.dir.SameBytes s'.world.dir → ¬ pc₀.Appending → ¬ pc.Appending →
      ∃ more, Laid crc (recs ++ more) s' ∧ more ⊆ s.inFlight ∧
        ∀ t r, (s'.threads t).pending? = some r →
          (s.threads t).pending? = some r ∨
            (recs ++ more)[r.ticket.offset]? = some r.payload := by
    intro t pc₀ pc hpc hthreads hmem hwritten hdir hbefore hafter
    rw [← hpc] at hbefore
    exact hsame (h.move hthreads hmem hdir hbefore hafter) hwritten
  cases hstep with
  | @lockAppend t p hpc hlock =>
      obtain ⟨ss, hracked⟩ := h.steady (not_appending_of_free ho.lock hlock)
      exact hsame (Laid.enter rfl (hfree hlock t)
        (appendLocked_safely hracked hroom p s.world rfl)) rfl
  | @appendOp t p o next r w hpc hout =>
      exact hsame (Laid.enter rfl (hheld hpc)
        ((h.appending t p _ hpc s.world (OnlySyncs.refl _)).2 r w hout)) rfl
  | unlockRefused hpc =>
      exact hsame (Laid.leave rfl (hheld hpc) (not_appending id) ((h.landed hpc).refused _ rfl)) rfl
  | @unlock t p l k sg pl hpc hactive hplace =>
      obtain ⟨hoffset, hracked⟩ := (h.landed hpc).stored k rfl
      refine ⟨[p], Laid.leave rfl (hheld hpc) (not_appending id) hracked, ?_, fun t' r hr => ?_⟩
      · intro q hq
        rw [List.mem_singleton.mp hq]
        exact ho.mem_inFlight hpc
      · by_cases ht : t' = t
        · right
          rw [ht] at hr
          have heq : r = ⟨p, k, pl⟩ := by
            simpa [Live.move, Pc.pending?] using hr.symm
          rw [heq]
          show (recs ++ [p])[k.offset]? = some p
          rw [hoffset, List.getElem?_concat_length]
        · left
          simpa [Live.move, Function.update_of_ne ht] using hr
  | lockSync hpc hlock =>
      exact hmove hpc rfl rfl rfl hrefl (not_appending id) not_appending_sync
  | @syncOp t o next r w hpc hout =>
      exact hmove hpc rfl rfl rfl (sameBytes_of_flush (ho.syncing t _ hpc).1 hout)
        not_appending_sync not_appending_sync
  | unlockSync hpc =>
      exact hmove hpc rfl rfl rfl hrefl not_appending_sync (not_appending id)
  | @enter t r step c hpc hpolicy hstep | @wake t r step c hpc hnotified hstep
  | @finish t r target outcome step c hpc hstep =>
      exact hmove hpc rfl rfl rfl hrefl (not_appending id)
        (not_appending (afterWait_not_holds r step))
  | endSync hpc | endIndex hpc =>
      exact hmove hpc rfl rfl rfl (s.world.dir.sameBytes_syncTo _ _) (not_appending id)
        (not_appending id)
  | returnUnsynced hpc _ | flushAlone hpc _ | capture hpc _ _ | captureNone hpc _ _
  | beginSync hpc | failSync hpc _ | beginIndex hpc | failIndex hpc _ | returnAlone hpc
  | again hpc | againRefused hpc =>
      exact hmove hpc rfl rfl rfl hrefl (not_appending id) (not_appending id)

/-- The log at any moment, as far as a kill is concerned. -/
theorem Laid.midway (h : Laid crc recs s) : Midway crc s.mem recs s.world.dir := by
  by_cases hidle : ∀ t, ¬ (s.threads t).Appending
  · obtain ⟨ss, hracked⟩ := h.steady hidle
    obtain ⟨init, sg, ps, rfl, -⟩ := hracked.exists_active
    exact ⟨init, sg, ps, hracked.segments, hracked.spans, hracked.tracked, hracked.looseAll,
      Or.inl hracked.names⟩
  · obtain ⟨t, ht⟩ := not_forall.mp hidle
    obtain ⟨p, rest, hpc⟩ := not_not.mp ht
    exact inv_of_always (S := World) OnlySyncs.refl (h.appending t p rest hpc)

theorem FaultInv.step (h : FaultInv crc acked passed found (.on s))
    (hstep : LiveStep crc AppendWrite s s') (hroom : s.mem.nextOffset < 2 ^ 64) :
    FaultInv crc (fun k p => acked k p ∨ s'.Acks k p) (passed ++ s'.inFlight) found (.on s') := by
  obtain ⟨ho, hpassed, recs, hlaid, hpending, hknown⟩ := h
  have ho' := ho.step hstep
  obtain ⟨more, hlaid', hmore, hpending'⟩ := hlaid.step ho hstep hroom
  have hnoted : ∀ t r, (s'.threads t).pending? = some r →
      (recs ++ more)[r.ticket.offset]? = some r.payload := by
    intro t r hr
    rcases hpending' t r hr with hold | hnew
    · exact getElem?_of_isPrefix (List.prefix_append _ _) (hpending t r hold)
    · exact hnew
  refine ⟨ho', List.subset_append_right _ _, recs ++ more, hlaid', hnoted, ?_, ?_, ?_⟩
  · rintro k p (hk | ⟨t, r, hpc, rfl⟩)
    · exact getElem?_of_isPrefix (List.prefix_append _ _) (hknown.acked k p hk)
    · rw [ho'.returned t r k hpc]
      exact hnoted t r (by rw [hpc]; rfl)
  · intro q hq
    rcases List.mem_append.mp hq with hq | hq
    · exact (hknown.known q hq).imp_left (List.mem_append_left _)
    · exact Or.inl (List.mem_append_left _ (hpassed (hmore hq)))
  · intro q hq
    exact List.mem_append_left _ (hknown.kept q hq)

theorem FaultInv.killed (h : FaultInv crc acked passed found (.on s)) :
    FaultInv crc acked passed (found ++ s.mem.untracked crc s.world.dir) (.off s.world.dir) := by
  obtain ⟨-, -, recs, hlaid, -, hknown⟩ := h
  refine ⟨_, hlaid.midway.cold, ?_, ?_, ?_⟩
  · intro k p hk
    exact getElem?_of_isPrefix (List.prefix_append _ _) (hknown.acked k p hk)
  · intro q hq
    rcases List.mem_append.mp hq with hq | hq
    · exact (hknown.known q hq).imp_right (List.mem_append_left _)
    · exact Or.inr (List.mem_append_right _ hq)
  · intro q hq
    rcases List.mem_append.mp hq with hq | hq
    · exact List.mem_append_left _ (hknown.kept q hq)
    · exact List.mem_append_right _ hq

/-- The invariant, by induction on the history. -/
theorem faultInv_of_run {m : Machine} (h : FaultRun crc m acked passed found) :
    FaultInv crc acked passed found m := by
  induction h with
  | start =>
      refine ⟨[], Or.inl ⟨⟨List.Perm.refl _, fun c hc => ?_⟩, rfl⟩, ?_, ?_, ?_⟩
      · simp [Dir.empty] at hc
      · exact fun _ _ hk => hk.elim
      · exact List.forall_mem_nil _
      · exact List.forall_mem_nil _
  | @opened d acked passed found opts l w h hrun ih =>
      obtain ⟨recs, hcold, hknown⟩ := ih
      have hends := ends_run (LogOp.outcome_exec AppendWrite) (openLog crc opts) ⟨d, Coord.new⟩
      rw [hrun] at hends
      obtain ⟨ss, hracked⟩ :=
        post_of_ends OnlySyncs.refl hends (openLog_safely hcold opts ⟨d, Coord.new⟩ rfl) l rfl
      refine ⟨⟨fun t => ?_, ?_, ?_⟩, List.nil_subset _, recs, ⟨fun _ => ⟨ss, hracked⟩, ?_⟩, ?_,
        hknown⟩
      · exact iff_of_false id (by intro heq; cases heq)
      · intro t rest hpc
        cases hpc
      · intro t r k hpc
        cases hpc
      · intro t p rest hpc
        cases hpc
      · intro t r hr
        cases hr
  | killedOpening opts h hpoint ih =>
      obtain ⟨recs, hcold, hknown⟩ := ih
      exact ⟨recs, inv_of_point OnlySyncs.refl (LogOp.outcome_exec AppendWrite) hpoint
        (openLog_safely hcold opts _ rfl), hknown⟩
  | stepped h hstep hroom ih =>
      exact FaultInv.step ih hstep hroom
  | killed h ih => exact FaultInv.killed ih

end Step

/-- Whatever writes of `segment.append` have failed and however often the process was killed,
every record whose `Append` returned success is read at the offset it returned; and every
payload that `Read` returns was passed to `Append` exactly if every record that was untracked at
a kill was. -/
theorem reads_after_failures {crc : Checksum} {s : Live} {acked : Nat → Bytes → Prop}
    {passed found : List Bytes} (h : FaultRun crc (.on s) acked passed found)
    (hlock : s.lock = none) :
    (∀ k p, acked k p → s.mem.read crc s.world.dir k = .ok p) ∧
      ((∀ k p, s.mem.read crc s.world.dir k = .ok p → p ∈ passed) ↔
        ∀ q ∈ found, q ∈ passed) := by
  obtain ⟨ho, -, recs, hlaid, -, hknown⟩ := faultInv_of_run h
  obtain ⟨ss, hracked⟩ := hlaid.steady (not_appending_of_free ho.lock hlock)
  have hread : ∀ k p, recs[k]? = some p ↔ s.mem.read crc s.world.dir k = .ok p := by
    intro k p
    rw [hracked.read_eq]
    cases recs[k]? with
    | none | some q => simp
  refine ⟨fun k p hk => (hread k p).mp (hknown.acked k p hk), fun hall q hq => ?_,
    fun hall k p hk => ?_⟩
  · obtain ⟨k, hk⟩ := List.mem_iff_getElem?.mp (hknown.kept q hq)
    exact hall k q ((hread k q).mp hk)
  · rcases hknown.known p (List.mem_of_getElem? ((hread k p).mpr hk)) with hp | hp
    · exact hp
    · exact hall p hp

theorem FaultRun.reopened {crc : Checksum} {d : Dir Path} {acked : Nat → Bytes → Prop}
    {passed found : List Bytes} (h : FaultRun crc (.off d) acked passed found) (opts : Options)
    {l : Log} (hl : (run LogOp.exec (openLog crc opts) ⟨d, Coord.new⟩).1 = .ok l) :
    FaultRun crc (.on (Live.start l (run LogOp.exec (openLog crc opts) ⟨d, Coord.new⟩).2)) acked
      passed found :=
  h.opened opts (Prod.ext hl rfl)

/-- The log of the runs below, as it is after its first `Open`. -/
def unsyncedLog : Log := ⟨⟨4096, .never, 100⟩, [newSegment 0], 0, 0⟩

/-- The log after it has been opened again, with `n` records in `size` bytes. -/
def reopenedLog (n size : Nat) : Log :=
  { unsyncedLog with segments := [⟨.segment 0, ⟨.index 0, [⟨0, 16⟩]⟩, 0, n, size, 16⟩] }

/-- A write that fails after three bytes, and an append that covers them: the reopened log reads
the acknowledged record and nothing that was not passed. -/
theorem reads_after_covered_failure :
    ∃ s acked passed found, FaultRun crc32c (.on s) acked passed found ∧ s.lock = none ∧
      acked 0 [] ∧ s.mem.read crc32c s.world.dir 0 = .ok [] ∧ (∀ q ∈ found, q ∈ passed) ∧
      ∀ k p, s.mem.read crc32c s.world.dir k = .ok p → p ∈ passed := by
  have h₀ := @FaultRun.reopened crc32c _ _ _ _ .start ⟨4096, .never, 0⟩ unsyncedLog
    (by decide +kernel)
  have h₁ := h₀.stepped (.lockAppend (t := 0) [7] rfl rfl) (by decide +kernel)
  have h₂ := h₁.stepped (.appendOp (t := 0) rfl (.fs (.failure _ _ 3 (Nat.le_refl 16))))
    (by decide +kernel)
  have h₃ := h₂.stepped (.unlockRefused (t := 0) rfl) (by decide +kernel)
  have h₄ := h₃.stepped (.lockAppend (t := 1) [] rfl rfl) (by decide +kernel)
  have h₅ := h₄.stepped (.appendOp (t := 1) rfl (LogOp.outcome_exec _ _ _)) (by decide +kernel)
  have h₆ := h₅.stepped (.appendOp (t := 1) rfl (LogOp.outcome_exec _ _ _)) (by decide +kernel)
  have h₇ := h₆.stepped (.unlock (t := 1) rfl rfl rfl) (by decide +kernel)
  have h₈ := h₇.stepped (.returnUnsynced (t := 1) rfl (Or.inl rfl)) (by decide +kernel)
  have h₉ := @FaultRun.reopened crc32c _ _ _ _ h₈.killed ⟨4096, .never, 0⟩ (reopenedLog 1 24)
    (by decide +kernel)
  obtain ⟨hkept, hpassed⟩ := reads_after_failures h₉ rfl
  exact ⟨_, _, _, _, h₉, rfl, Or.inr ⟨1, _, rfl, rfl⟩, hkept 0 [] (Or.inr ⟨1, _, rfl, rfl⟩),
    by decide +kernel, hpassed.mpr (by decide +kernel)⟩

/-- A longer payload that holds the bytes of a record of `[7]` fails after all but its last
byte; the empty payload that follows is acknowledged and covers its header only.  The reopened
log reads `[7]`, which nobody has appended. -/
theorem phantom_record :
    ∃ s acked passed found, FaultRun crc32c (.on s) acked passed found ∧ s.lock = none ∧
      acked 0 [] ∧ s.mem.read crc32c s.world.dir 1 = .ok [7] ∧ [7] ∉ passed := by
  have h₀ := @FaultRun.reopened crc32c _ _ _ _ .start ⟨4096, .never, 0⟩ unsyncedLog
    (by decide +kernel)
  have h₁ := h₀.stepped (.lockAppend (t := 0) (recordBytes crc32c [7] ++ [0]) rfl rfl)
    (by decide +kernel)
  have h₂ := h₁.stepped (.appendOp (t := 0) rfl (.fs (.failure _ _ 17 (Nat.le_refl 16))))
    (by decide +kernel)
  have h₃ := h₂.stepped (.unlockRefused (t := 0) rfl) (by decide +kernel)
  have h₄ := h₃.stepped (.lockAppend (t := 1) [] rfl rfl) (by decide +kernel)
  have h₅ := h₄.stepped (.appendOp (t := 1) rfl (LogOp.outcome_exec _ _ _)) (by decide +kernel)
  have h₆ := h₅.stepped (.appendOp (t := 1) rfl (LogOp.outcome_exec _ _ _)) (by decide +kernel)
  have h₇ := h₆.stepped (.unlock (t := 1) rfl rfl rfl) (by decide +kernel)
  have h₈ := h₇.stepped (.returnUnsynced (t := 1) rfl (Or.inl rfl)) (by decide +kernel)
  have h₉ := h₈.killed
  have h₁₀ := @FaultRun.reopened crc32c _ _ _ _ h₉ ⟨4096, .never, 0⟩ (reopenedLog 2 33)
    (by decide +kernel)
  exact ⟨_, _, _, _, h₁₀, rfl, Or.inr ⟨1, _, rfl, rfl⟩, by decide +kernel, by decide +kernel⟩

end LedgerLine.Broker
