import LedgerLine.Broker.Flushing
import LedgerLine.Broker.Schedule
import Mathlib.Data.Set.Card
import Mathlib.Order.Interval.Finset.Nat

/-!
# How many acknowledged records `SyncEveryN` leaves unsynced

Under `SyncEveryN` the log counts its appends, and every `N`th one flushes; the others return at
once.  The counter is reset under the mutex, before the flush it stands for, which runs outside
the mutex and may fail or be overtaken.

Records fall into batches of `N`: the counter of a ticket says which place in its batch a record
has (`Numbered`).  If an append returns without a flush only when the records of all earlier
batches are covered, then the records that are acknowledged and not covered are of one batch, and
the last one of the batch is not among them (`exposed_le`).

Main facts:
* `appendLocked_counted`: what an append does to the counter;
* `exposureInv_of_run`: the invariant of every run;
* `exposed_le`: the bound.
-/

namespace LedgerLine.Broker

open Program

/-- Some thread has just been told that its record `r` is stored. -/
def Live.Returns (s : Live) (r : Pending) : Prop :=
  ∃ t k, s.threads t = .returned r (.ok k)

section Runs

variable (crc : Checksum) (mayFail : FsOp Path → Prop) (mayReturn : Live → Pending → Prop)

/-- Runs from `s₀`, with the records that have been acknowledged.  `mayReturn` says when an
append returns without a flush. -/
inductive AckRun (s₀ : Live) : Live → (Pending → Prop) → Prop
  | start : AckRun s₀ s₀ (fun _ => False)
  | step {s s' : Live} {acked : Pending → Prop} (h : AckRun s₀ s acked)
      (hstep : LiveStep crc mayFail s s')
      (hmay : ∀ t r k, s.threads t = .unlocked r → s'.threads t = .returned r (.ok k) →
        mayReturn s r) :
      AckRun s₀ s' (fun r => acked r ∨ s'.Returns r)

end Runs

/-- Record `i`, counted from the opening of the log, is acknowledged and no fsync covers it. -/
def Exposed (s : Live) (acked : Pending → Prop) (i : Nat) : Prop :=
  ∃ r pl, acked r ∧ r.ticket.seq = i + 1 ∧ s.placed[i]? = some pl ∧ ¬ Covered s.world.dir pl

/-- Every record before the batch of `r`, that is, written before the counter was last reset, is
covered. -/
def EarlierCovered (placed : List Place) (d : Dir Path) (r : Pending) : Prop :=
  ∀ i pl, i < r.ticket.seq - r.ticket.sinceSync → placed[i]? = some pl → Covered d pl

section Counter

variable {crc : Checksum}

/-- What an append does to the counter of the log. -/
structure Counted (l : Log) (out : Log × Except LogErr Log.Ticket) : Prop where
  refused : ∀ e, out.2 = .error e → out.1.sinceSync = l.sinceSync
  ticket : ∀ k, out.2 = .ok k → k.sinceSync = l.sinceSync + 1 ∧
    out.1.sinceSync =
      if l.opts.sync = .everyN ∧ ((l.sinceSync + 1 : Nat) : Int) ≥ l.opts.syncEveryNRecords then 0
      else l.sinceSync + 1

theorem counted_refused (l : Log) (e : LogErr) : Counted l (l, .error e) :=
  ⟨fun _ _ => rfl, by intro k hk; cases hk⟩

theorem writeActive_counted (l : Log) (s : Segment) (p : Bytes) :
    Yields (Counted l) (l.writeActive crc s p) := by
  unfold Log.writeActive
  refine yields_bind (yields_true _) ?_
  rintro ⟨s', e | offset⟩ -
  · exact ⟨fun _ _ => rfl, by intro k hk; cases hk⟩
  · refine ⟨(by intro e he; cases he), ?_⟩
    rintro k ⟨⟩
    exact ⟨rfl, rfl⟩

theorem rollTo_counted (l : Log) (s : Segment) (p : Bytes) :
    Yields (Counted l) (l.rollTo crc s p) := by
  unfold Log.rollTo
  refine yields_bind (yields_true _) ?_
  rintro (e | next) -
  · exact counted_refused l e
  · refine yields_mono ?_ (writeActive_counted { l with segments := l.segments ++ [next] } next p)
    exact fun out h => ⟨h.refused, h.ticket⟩

theorem appendLocked_counted (l : Log) (p : Bytes) : Yields (Counted l) (l.appendLocked crc p) := by
  unfold Log.appendLocked
  rcases l.active with _ | s
  · exact counted_refused l _
  simp only
  split_ifs
  · exact rollTo_counted l s p
  · refine yields_bind (yields_true _) ?_
    rintro (e | _) -
    · exact counted_refused l e
    · exact fun _ => rollTo_counted l s p
  · exact writeActive_counted l s p

end Counter

/-- The counter of a ticket says which place the record has in its batch. -/
structure Numbered (n : Nat) (k : Log.Ticket) : Prop where
  seq_pos : 1 ≤ k.seq
  place : k.sinceSync = (k.seq - 1) % n + 1

/-- What is known of the counter under `SyncEveryN` with batches of `n`. -/
structure CountInv (n : Nat) (s : Live) : Prop where
  policy : s.mem.opts.sync = .everyN
  batch : s.mem.opts.syncEveryNRecords = n
  counter : s.mem.sinceSync = s.mem.seq % n
  tickets : ∀ t r, (s.threads t).pending? = some r → Numbered n r.ticket
  appending : ∀ t p rest, s.threads t = .appending p rest → Yields (Counted s.mem) rest

section Steps

variable {crc : Checksum} {mayFail : FsOp Path → Prop} {s s' : Live}
variable {spared : List Place → Dir Path → Pending → Prop} {n : Nat} {acked : Pending → Prop}

/-- Most steps neither enter nor leave `Append`'s critical section, nor write a record. -/
structure Aside (s s' : Live) : Prop where
  mem : s'.mem = s.mem
  appending : ∀ t p rest, s'.threads t = .appending p rest → s.threads t = .appending p rest
  pending : ∀ t r, (s'.threads t).pending? = some r → (s.threads t).pending? = some r

theorem aside_move {t : ThreadId} {pc : Pc} (hmem : s'.mem = s.mem)
    (hthreads : s'.threads = Function.update s.threads t pc) (hpc : ¬ pc.Appending)
    (hpending : ∀ r, pc.pending? = some r → (s.threads t).pending? = some r) : Aside s s' := by
  refine ⟨hmem, ?_, ?_⟩
  · intro t' p rest h
    rw [hthreads] at h
    exact (appending_of_update hpc h).2
  · intro t' r h
    rw [hthreads] at h
    by_cases ht : t' = t
    · subst ht
      rw [Function.update_self] at h
      exact hpending r h
    · rwa [Function.update_of_ne ht] at h

theorem CountInv.aside (h : CountInv n s) (ha : Aside s s') : CountInv n s' := by
  refine ⟨by rw [ha.mem]; exact h.policy, by rw [ha.mem]; exact h.batch,
    by rw [ha.mem]; exact h.counter, fun t r hr => h.tickets t r (ha.pending t r hr), ?_⟩
  intro t p rest hpc
  rw [ha.mem]
  exact h.appending t p rest (ha.appending t p rest hpc)

variable {t : ThreadId} {pc : Pc}

/-- A thread moves on with a ticket in order, or without one. -/
theorem CountInv.tickets_update (h : CountInv n s)
    (hpc : ∀ r, pc.pending? = some r → Numbered n r.ticket) :
    ∀ t' r, (Function.update s.threads t pc t').pending? = some r → Numbered n r.ticket := by
  intro t' r hr
  by_cases ht : t' = t
  · subst ht
    rw [Function.update_self] at hr
    exact hpc r hr
  · rw [Function.update_of_ne ht] at hr
    exact h.tickets t' r hr

/-- Nobody is in the critical section once its holder has left it. -/
theorem FlushInv.not_appending_update (h : FlushInv crc mayFail spared s)
    (hholds : (s.threads t).Holds) (hpc : ¬ pc.Appending) {t' : ThreadId} {p : Bytes}
    {rest : LogProgram (Log × Except LogErr Log.Ticket)} :
    Function.update s.threads t pc t' ≠ .appending p rest := by
  intro heq
  obtain ⟨ht, hold⟩ := appending_of_update hpc heq
  exact h.others_of_holds hholds t' ht (holds_of_pc hold trivial)

/-- The counter and the sequence number go together. -/
theorem succ_mod_batch {m : Nat} (hn : 0 < n) :
    (m + 1) % n = if n ≤ m % n + 1 then 0 else m % n + 1 := by
  have hlt := Nat.mod_lt m hn
  rw [Nat.add_mod]
  split_ifs with hfull
  · have hlast : m % n + 1 = n := by omega
    rcases Nat.lt_or_ge 1 n with hone | hone
    · rw [Nat.mod_eq_of_lt hone, hlast, Nat.mod_self]
    · obtain rfl : n = 1 := by omega
      exact Nat.mod_one _
  · rw [Nat.mod_eq_of_lt (by omega : 1 < n), Nat.mod_eq_of_lt (by omega)]

/-- An append releases the mutex with its record written. -/
theorem CountInv.unlock (h : CountInv n s) (hflush : FlushInv crc mayFail spared s) (hn : 0 < n)
    {t : ThreadId} {p : Bytes} {l : Log} {k : Log.Ticket} {pl : Place}
    (hpc : s.threads t = .appending p (.done (l, .ok k))) (hmem : s'.mem = l)
    (hthreads : s'.threads = Function.update s.threads t (.unlocked ⟨p, k, pl⟩)) :
    CountInv n s' := by
  have hholds := holds_of_pc hpc trivial
  have hlanded := ((hflush.appending t p _ hpc).2 s.world (Quiet.refl _)).2
  have hcounted : Counted s.mem (l, .ok k) := h.appending t p _ hpc
  obtain ⟨hseq, hkseq⟩ := hlanded.ticket k rfl
  obtain ⟨hksince, hsince⟩ := hcounted.ticket k rfl
  rw [h.counter] at hksince hsince
  rw [h.policy, h.batch] at hsince
  refine ⟨?_, ?_, ?_, ?_, ?_⟩
  · rw [hmem, hlanded.opts]
    exact h.policy
  · rw [hmem, hlanded.opts]
    exact h.batch
  · rw [hmem, hseq, succ_mod_batch hn]
    simpa only [true_and, ge_iff_le, Nat.cast_le] using hsince
  · rw [hthreads]
    apply h.tickets_update
    intro r hr
    obtain rfl := Option.some.inj hr
    refine ⟨?_, ?_⟩
    · dsimp only
      omega
    · dsimp only
      rw [hksince, hkseq, Nat.add_sub_cancel]
  · intro t' p' rest hpc'
    rw [hthreads] at hpc'
    exact absurd hpc' (hflush.not_appending_update hholds (not_appending id))

/-- An append gives up and releases the mutex. -/
theorem CountInv.unlockRefused (h : CountInv n s) (hflush : FlushInv crc mayFail spared s)
    {p : Bytes} {l : Log} {e : LogErr} (hpc : s.threads t = .appending p (.done (l, .error e)))
    (hmem : s'.mem = l) (hthreads : s'.threads = Function.update s.threads t (.refused e)) :
    CountInv n s' := by
  have hholds := holds_of_pc hpc trivial
  have hlanded := ((hflush.appending t p _ hpc).2 s.world (Quiet.refl _)).2
  have hcounted : Counted s.mem (l, .error e) := h.appending t p _ hpc
  refine ⟨?_, ?_, ?_, ?_, ?_⟩
  · rw [hmem, hlanded.opts]
    exact h.policy
  · rw [hmem, hlanded.opts]
    exact h.batch
  · rw [hmem, hlanded.seq e rfl, hcounted.refused e rfl]
    exact h.counter
  · rw [hthreads]
    apply h.tickets_update
    intro r hr
    cases hr
  · intro t' p' rest hpc'
    rw [hthreads] at hpc'
    exact absurd hpc' (hflush.not_appending_update hholds (not_appending id))

/-- An append takes the mutex, or goes on inside. -/
theorem CountInv.enter (h : CountInv n s) {t : ThreadId} {p : Bytes}
    {rest : LogProgram (Log × Except LogErr Log.Ticket)} (hmem : s'.mem = s.mem)
    (hthreads : s'.threads = Function.update s.threads t (.appending p rest))
    (hrest : Yields (Counted s.mem) rest) : CountInv n s' := by
  refine ⟨by rw [hmem]; exact h.policy, by rw [hmem]; exact h.batch,
    by rw [hmem]; exact h.counter, ?_, ?_⟩
  · rw [hthreads]
    apply h.tickets_update
    intro r hr
    cases hr
  · intro t' p' rest' hpc'
    rw [hthreads] at hpc'
    rw [hmem]
    by_cases ht : t' = t
    · subst ht
      rw [Function.update_self] at hpc'
      cases hpc'
      exact hrest
    · rw [Function.update_of_ne ht] at hpc'
      exact h.appending t' p' rest' hpc'

/-- Every step keeps the counter and the tickets in order. -/
theorem CountInv.step (h : CountInv n s) (hflush : FlushInv crc mayFail spared s) (hn : 0 < n)
    (hstep : LiveStep crc mayFail s s') : CountInv n s' := by
  have hmove : ∀ {t : ThreadId} {pc pc' : Pc}, s.threads t = pc → s'.mem = s.mem →
      s'.threads = Function.update s.threads t pc' → ¬ pc'.Appending →
      (∀ r, pc'.pending? = some r → pc.pending? = some r) → CountInv n s' := by
    intro t pc pc' hpc hmem hthreads hafter hpending
    subst hpc
    exact h.aside (aside_move hmem hthreads hafter hpending)
  cases hstep with
  | lockAppend p hpc hlock =>
      exact h.enter rfl rfl (appendLocked_counted _ p)
  | appendOp hpc hout =>
      exact h.enter rfl rfl (h.appending _ _ _ hpc _)
  | unlockRefused hpc =>
      exact h.unlockRefused hflush hpc rfl rfl
  | unlock hpc hactive hplace =>
      exact h.unlock hflush hn hpc rfl rfl
  | lockSync hpc hlock | syncOp hpc hout =>
      exact hmove hpc rfl rfl not_appending_sync (by intro r hr; cases hr)
  | unlockSync hpc =>
      exact hmove hpc rfl rfl (not_appending id) (by intro r hr; cases hr)
  | @enter t r step c hpc hpolicy hstep | @wake t r step c hpc hnotified hstep
  | @finish t r target outcome step c hpc hstep =>
      exact hmove hpc rfl rfl (not_appending (afterWait_not_holds r step))
        (fun r' hr => congrArg some (afterWait_pending hr))
  | again hpc | againRefused hpc =>
      exact hmove hpc rfl rfl (not_appending id) (by intro r hr; cases hr)
  | returnUnsynced hpc hpolicy | flushAlone hpc hpolicy | capture hpc hlock hactive
  | captureNone hpc hlock hactive | beginSync hpc | endSync hpc | failSync hpc hfail
  | beginIndex hpc | endIndex hpc | failIndex hpc hfail | returnAlone hpc =>
      exact hmove hpc rfl rfl (not_appending id) (fun r hr => hr)

end Steps

/-- An append that may return without a flush: its record is not the last of its batch, and the
earlier batches are covered. -/
def Batched (n : Nat) (placed : List Place) (d : Dir Path) (r : Pending) : Prop :=
  r.ticket.sinceSync < n ∧ EarlierCovered placed d r

theorem stable_batched (crc : Checksum) (n : Nat) : Stable crc (Batched n) := by
  rintro placed placed' d d' r howns hnamed hd hp ⟨hsince, hearlier⟩
  refine ⟨hsince, ?_⟩
  intro i pl hi hpl
  have hlt : i < placed.length := by
    have := howns.seq_le
    omega
  have hold : placed[i]? = some pl := by
    obtain ⟨rest, rfl⟩ := hp
    rwa [List.getElem?_append_left hlt] at hpl
  exact (hearlier i pl hi hold).extends (hnamed pl (List.mem_of_getElem? hold)) hd

/-- The invariant of a log under `SyncEveryN`, with what has been acknowledged. -/
structure ExposureInv (crc : Checksum) (mayFail : FsOp Path → Prop) (n : Nat) (s : Live)
    (acked : Pending → Prop) : Prop where
  flush : FlushInv crc mayFail (Batched n) s
  count : CountInv n s
  segments : s.mem.active ≠ none
  acked : ∀ r, acked r → Numbered n r.ticket ∧ Owns crc s.placed s.world.dir r ∧
    (Covered s.world.dir r.place ∨ Batched n s.placed s.world.dir r)

section Bound

variable {crc : Checksum} {mayFail : FsOp Path → Prop} {s s' : Live} {n : Nat}
variable {acked : Pending → Prop}

/-- Every step keeps the invariant, if appends that return without a flush find the earlier
batches covered. -/
theorem ExposureInv.step (h : ExposureInv crc mayFail n s acked) (hn : 0 < n)
    (hstep : LiveStep crc mayFail s s')
    (hmay : ∀ t r k, s.threads t = .unlocked r → s'.threads t = .returned r (.ok k) →
      EarlierCovered s.placed s.world.dir r) :
    ExposureInv crc mayFail n s' (fun r => acked r ∨ s'.Returns r) := by
  have hflush : FlushInv crc mayFail (Batched n) s' := by
    refine h.flush.step (stable_batched crc n) hstep (fun _ _ _ _ _ => h.segments) ?_
      (fun _ _ _ _ _ hnone => absurd hnone h.segments)
    intro t r hpc hpc' hunsynced
    refine ⟨?_, hmay t r _ hpc hpc'⟩
    rcases hunsynced with hnever | ⟨-, hlt⟩
    · exact absurd hnever h.flush.policy
    · rw [h.count.batch] at hlt
      exact_mod_cast hlt
  have hcount := h.count.step h.flush hn hstep
  obtain ⟨hdir, hplaced⟩ := h.flush.extends_step hstep
  refine ⟨hflush, hcount, h.flush.active_step hstep h.segments, ?_⟩
  rintro r (hold | ⟨t, k, hpc⟩)
  · obtain ⟨hnumbered, howns, hcovered⟩ := h.acked r hold
    refine ⟨hnumbered, howns.extends hdir hplaced, ?_⟩
    rcases hcovered with hcovered | hbatched
    · exact Or.inl (hcovered.extends howns.named hdir)
    · exact Or.inr (stable_batched crc n _ _ _ _ r howns h.flush.named hdir hplaced hbatched)
  · have hr := hflush.threads t
    rw [hpc] at hr
    exact ⟨hcount.tickets t r (by rw [hpc]; rfl), hr.1, (hr.2 k rfl).2⟩

/-- What is exposed is of one batch, that of the last record exposed, and not the whole of it. -/
theorem ExposureInv.exposed_subset (h : ExposureInv crc mayFail n s acked) {i : Nat}
    (hi : Exposed s acked i) : i % n + 1 < n ∧ ∀ j, Exposed s acked j → i - i % n ≤ j := by
  obtain ⟨r, pl, hacked, hseq, hpl, hopen⟩ := hi
  obtain ⟨hnumbered, howns, hcovered⟩ := h.acked r hacked
  have hplace : r.place = pl := by
    have := howns.place
    rw [hseq, Nat.add_sub_cancel, hpl] at this
    exact (Option.some.inj this).symm
  rw [hplace] at hcovered
  obtain ⟨hsince, hearlier⟩ := hcovered.resolve_left hopen
  have hnum := hnumbered.place
  rw [hseq, Nat.add_sub_cancel] at hnum
  rw [hnum] at hsince
  refine ⟨hsince, ?_⟩
  rintro j ⟨-, pl', -, -, hpl', hopen'⟩
  by_contra hlt
  apply hopen'
  apply hearlier j pl' _ hpl'
  rw [hseq, hnum]
  omega

theorem ExposureInv.encard_le (h : ExposureInv crc mayFail n s acked) :
    {i | Exposed s acked i}.encard ≤ n := by
  classical
  have hbound : ∀ i, Exposed s acked i → i ≤ s.placed.length := by
    rintro i ⟨-, pl, -, -, hpl, -⟩
    exact le_of_lt (List.getElem?_eq_some_iff.1 hpl).1
  rcases Set.eq_empty_or_nonempty {i | Exposed s acked i} with hnone | ⟨i, hi⟩
  · rw [hnone, Set.encard_empty]
    exact zero_le
  · -- the last one that is exposed
    have hlast : Exposed s acked (Nat.findGreatest (Exposed s acked) s.placed.length) :=
      Nat.findGreatest_spec (hbound i hi) hi
    obtain ⟨hroom, hfirst⟩ := h.exposed_subset hlast
    have hsub : {i | Exposed s acked i} ⊆
        ↑(Finset.Icc
          (Nat.findGreatest (Exposed s acked) s.placed.length -
            Nat.findGreatest (Exposed s acked) s.placed.length % n)
          (Nat.findGreatest (Exposed s acked) s.placed.length)) := by
      intro j hj
      rw [Finset.mem_coe, Finset.mem_Icc]
      exact ⟨hfirst j hj, Nat.le_findGreatest (hbound j hj) hj⟩
    refine le_trans (Set.encard_le_encard hsub) ?_
    rw [Set.encard_coe_eq_coe_finsetCard, Nat.card_Icc, Nat.cast_le]
    omega

/-- The default batch is not empty. -/
theorem Options.withDefaults_batch_pos (opts : Options) :
    0 < opts.withDefaults.syncEveryNRecords := by
  simp only [Options.withDefaults]
  split_ifs
  · decide
  · omega

/-- `Open` starts counting at zero. -/
theorem opened_counter {d : Dir Path} {opts : Options} {l : Log} {w : World}
    (hopen : Ends (LogOp.Outcome mayFail) (openLog crc opts) ⟨d, Coord.new⟩ (.ok l) w) :
    l.seq = 0 ∧ l.sinceSync = 0 := by
  have hyields : Yields (fun out => ∀ l, out = .ok l → l.seq = 0 ∧ l.sinceSync = 0)
      (openLog crc opts) := by
    unfold openLog
    refine yields_bind (yields_true _) ?_
    rintro (e | names) -
    · intro l hl
      cases hl
    refine yields_bind (yields_true _) ?_
    rintro (e | _ | ⟨s, ss⟩) -
    · intro l hl
      cases hl
    · refine yields_bind (yields_true _) ?_
      rintro (e | s) -
      · intro l hl
        cases hl
      · rintro l ⟨⟩
        exact ⟨rfl, rfl⟩
    · rintro l ⟨⟩
      exact ⟨rfl, rfl⟩
  exact yields_of_ends hopen hyields l rfl

/-- The invariant holds in every state of every run. -/
theorem exposureInv_of_run {d : Dir Path} {opts : Options} {l : Log} {w : World}
    (hfound : Backed [] d) (hpolicy : opts.sync = .everyN)
    (hopen : Ends (LogOp.Outcome mayFail) (openLog crc opts) ⟨d, Coord.new⟩ (.ok l) w)
    (hrun : AckRun crc mayFail (fun s r => EarlierCovered s.placed s.world.dir r)
      (Live.start l w) s acked) :
    ExposureInv crc mayFail opts.withDefaults.syncEveryNRecords.toNat s acked := by
  have hpos : 0 < opts.withDefaults.syncEveryNRecords := opts.withDefaults_batch_pos
  induction hrun with
  | start =>
      obtain ⟨hopts, hactive⟩ := opened_log hopen
      obtain ⟨hseq, hsince⟩ := opened_counter hopen
      refine ⟨FlushInv.start hfound (by rw [hpolicy]; decide) hopen,
        ⟨?_, ?_, ?_, (by intro t r hr; cases hr), (by intro t p rest hpc; cases hpc)⟩, hactive,
        fun r hr => hr.elim⟩
      · change l.opts.sync = .everyN
        rw [hopts]
        exact hpolicy
      · change l.opts.syncEveryNRecords = _
        rw [hopts]
        omega
      · change l.sinceSync = l.seq % _
        rw [hseq, hsince, Nat.zero_mod]
  | step _ hstep hmay ih =>
      exact ih.step (by omega) hstep hmay

/-- Open a log in any directory under `SyncEveryN`, let any number of threads append and sync in
any order, and let any file operation fail.  As long as an append returns without a flush only
when every record written before the counter was last reset is covered, at most as many
acknowledged records are uncovered as a batch has. -/
theorem exposed_le {names : List Path} {content : Path → Bytes} {opts : Options} {l : Log}
    {w : World} (hpolicy : opts.sync = .everyN)
    (hopen : Ends (LogOp.Outcome mayFail) (openLog crc opts)
      ⟨Dir.found names content, Coord.new⟩ (.ok l) w)
    (hrun : AckRun crc mayFail (fun s r => EarlierCovered s.placed s.world.dir r)
      (Live.start l w) s acked) :
    {i | Exposed s acked i}.encard ≤ l.opts.syncEveryNRecords.toNat := by
  rw [(opened_log hopen).1]
  exact (exposureInv_of_run (fun _ => Or.inl rfl) hpolicy hopen hrun).encard_le

end Bound

section Samples

/-- An empty log with batches of two, as `Open` returns it. -/
def emptyPairsLog : Log :=
  ⟨⟨4096, .everyN, 2⟩, [⟨.segment 0, ⟨.index 0, []⟩, 0, 0, 16, 16⟩], 0, 0⟩

/-- The directory after `Open` of an empty one. -/
def pairsWorld : World :=
  (run LogOp.exec (openLog crc32c ⟨4096, .everyN, 2⟩) ⟨Dir.found [] fun _ => [], Coord.new⟩).2

theorem opened_emptyPairsLog (mayFail : FsOp Path → Prop) :
    Ends (LogOp.Outcome mayFail) (openLog crc32c ⟨4096, .everyN, 2⟩)
      ⟨Dir.found [] fun _ => [], Coord.new⟩ (.ok emptyPairsLog) pairsWorld :=
  opened_empty (by decide +kernel)

/-- Whether an append that returns without a flush may do so. -/
def returnsIf (may : Live → Pending → Bool) (s : Live) (t : ThreadId) (s' : Live) : Bool :=
  match s.threads t, (s'.threads t).acks? with
  | .unlocked r, some _ => may s r
  | _, _ => true

/-- At the end of a schedule everything that has returned is acknowledged. -/
theorem ackRun_play {crc : Checksum} {mayFail : FsOp Path → Prop}
    {mayReturn : Live → Pending → Prop} {may : Live → Pending → Bool}
    (hmay : ∀ s r, may s r = true → mayReturn s r) (l : Log) (w : World) (ms : List ThreadMove) :
    ∃ acked, AckRun crc mayFail mayReturn (Live.start l w)
        ((Live.start l w).play crc (returnsIf may) ms) acked ∧
      ∀ r, ((Live.start l w).play crc (returnsIf may) ms).Returns r → acked r := by
  refine @play_induction crc mayFail _ _ (fun s => ∃ acked,
    AckRun crc mayFail mayReturn (Live.start l w) s acked ∧ ∀ r, s.Returns r → acked r) ?_
    ⟨_, .start, by rintro r ⟨t, k, h⟩; cases h⟩ ms
  rintro s t s' ⟨acked, hrun, -⟩ hstep ⟨pc, hthreads⟩ hcheck
  refine ⟨_, hrun.step hstep ?_, fun r hr => .inr hr⟩
  intro t' r k hpc hpc'
  by_cases ht : t' = t
  · subst ht
    rw [returnsIf, hpc, hpc'] at hcheck
    exact hmay s r hcheck
  · rw [hthreads, Function.update_of_ne ht, hpc] at hpc'
    cases hpc'

theorem exposed_of_acks {s : Live} {acked : Pending → Prop} (hacked : ∀ r, s.Returns r → acked r)
    {t : ThreadId} {r : Pending} {k i : Nat}
    (h : (s.threads t).acks? = some (r, k) ∧ r.ticket.seq = i + 1 ∧ s.placed[i]? = some r.place ∧
      ¬ Covered s.world.dir r.place) : Exposed s acked i :=
  ⟨r, r.place, hacked r ⟨t, k, Pc.acks?_eq_some_iff.1 h.1⟩, h.2⟩

/-- Whether the batches before the one of `r` are covered. -/
def earlierCovered (s : Live) (r : Pending) : Bool :=
  (s.placed.take (r.ticket.seq - r.ticket.sinceSync)).all fun pl => Covered s.world.dir pl

theorem earlierCovered_sound (s : Live) (r : Pending) (h : earlierCovered s r = true) :
    EarlierCovered s.placed s.world.dir r := by
  intro i pl hi hpl
  rw [earlierCovered, List.all_eq_true] at h
  refine of_decide_eq_true (h pl (List.mem_of_getElem? (i := i) ?_))
  rw [List.getElem?_take_of_lt hi, hpl]

/-- Batches of two.  The first batch is complete, with its flush; the second has begun. -/
def batchComplete : Live :=
  (Live.start emptyPairsLog pairsWorld).play crc32c (returnsIf earlierCovered)
    [.append 0 [1], .steps 0 4, .append 1 [2], .steps 1 9, .append 2 [3], .steps 2 3]

/-- Three records are acknowledged; the two of the first batch are covered. -/
theorem exposed_le_second_batch :
    ∃ acked : Pending → Prop, (∀ r, batchComplete.Returns r → acked r) ∧
      batchComplete.fsyncs.map Place.path = [.segment 0, .index 0] ∧
      batchComplete.placed.map (fun pl => decide (Covered batchComplete.world.dir pl)) =
        [true, true, false] ∧
      Exposed batchComplete acked 2 ∧ {i | Exposed batchComplete acked i}.encard ≤ 2 := by
  obtain ⟨acked, hrun, hacked⟩ : ∃ acked, AckRun crc32c (fun _ => False) _ _ batchComplete acked ∧
      ∀ r, batchComplete.Returns r → acked r := ackRun_play earlierCovered_sound _ _ _
  exact ⟨acked, hacked, by decide +kernel, by decide +kernel,
    exposed_of_acks hacked (t := 2) (r := ⟨[3], ⟨2, 3, 1⟩, ⟨.segment 0, 4⟩⟩) (k := 2)
      (by decide +kernel), exposed_le rfl (opened_emptyPairsLog _) hrun⟩

/-- The second and the fourth append have reset the counter and have not begun their fsync; the
other three have returned. -/
def twoBatchesDue : Live :=
  (Live.start emptyPairsLog pairsWorld).play crc32c (returnsIf fun _ _ => true)
    [.append 0 [1], .steps 0 3, .append 1 [2], .steps 1 2, .append 2 [3], .steps 2 2,
      .append 3 [4], .steps 3 2, .append 4 [5], .steps 4 3, .steps 2 1, .steps 0 1]

/-- Three of the five records are acknowledged, and none is covered. -/
theorem exposed_three_of_two :
    Ends (LogOp.Outcome fun _ => False) (openLog crc32c ⟨4096, .everyN, 2⟩)
        ⟨Dir.found [] fun _ => [], Coord.new⟩ (.ok emptyPairsLog) pairsWorld ∧
      ∃ (s : Live) (acked : Pending → Prop),
        AckRun crc32c (fun _ => False) (fun _ _ => True) (Live.start emptyPairsLog pairsWorld) s
          acked ∧
        ¬ {i | Exposed s acked i}.encard ≤ emptyPairsLog.opts.syncEveryNRecords.toNat := by
  obtain ⟨acked, hrun, hacked⟩ : ∃ acked, AckRun crc32c (fun _ => False) _ _ twoBatchesDue acked ∧
      ∀ r, twoBatchesDue.Returns r → acked r := ackRun_play (fun _ _ _ => trivial) _ _ _
  have hsub : (({0, 2, 4} : Finset Nat) : Set Nat) ⊆ {i | Exposed twoBatchesDue acked i} := by
    intro i hi
    simp only [Finset.coe_insert, Finset.coe_singleton, Set.mem_insert_iff,
      Set.mem_singleton_iff] at hi
    rcases hi with rfl | rfl | rfl
    · exact exposed_of_acks hacked (t := 0) (r := ⟨[1], ⟨0, 1, 1⟩, ⟨.segment 0, 2⟩⟩) (k := 0)
        (by decide +kernel)
    · exact exposed_of_acks hacked (t := 2) (r := ⟨[3], ⟨2, 3, 1⟩, ⟨.segment 0, 4⟩⟩) (k := 2)
        (by decide +kernel)
    · exact exposed_of_acks hacked (t := 4) (r := ⟨[5], ⟨4, 5, 1⟩, ⟨.segment 0, 6⟩⟩) (k := 4)
        (by decide +kernel)
  refine ⟨opened_emptyPairsLog _, twoBatchesDue, acked, hrun, not_le.2 ?_⟩
  refine lt_of_lt_of_le ?_ (Set.encard_le_encard hsub)
  rw [Set.encard_coe_eq_coe_finsetCard]
  decide

end Samples

end LedgerLine.Broker
