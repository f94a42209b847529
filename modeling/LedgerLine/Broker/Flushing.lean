import LedgerLine.Broker.Opening

/-!
# What flushing outside the mutex relies on

The invariant of the concurrent log that the results on single policies share.  It relates four
things: what is written and where (`Written`), what the coordinator claims (`Claims`), what each
thread outside the mutex relies on (`PcOk`) and what the thread inside it is going to do
(`Always`).  A step outside the mutex only flushes and leaves true claims (`FlushInv.outside`),
which the thread inside tolerates; a step inside only extends files, which the threads outside
tolerate (`PcOk.extends`).

An append that has returned success has its record covered by an fsync, or it is `spared`: which
ones are depends on the policy.  A log without segments is one that was closed; what a thread
learns from finding it so is a hypothesis of `FlushInv.step`.
-/

namespace LedgerLine.Broker

open Program

/-- The record `r` is where it was put, and its sequence number says which one it is. -/
structure Owns (crc : Checksum) (placed : List Place) (d : Dir Path) (r : Pending) :
    Prop where
  seq_pos : 1 ≤ r.ticket.seq
  place : placed[r.ticket.seq - 1]? = some r.place
  segment : ∃ b, r.place.path = .segment b
  named : r.place.path ∈ d.names
  written : ∃ i off, r.place.upTo = i + 1 ∧
    (d.file r.place.path).writes[i]? = some ⟨off, recordBytes crc r.payload⟩

/-- Which records, counted from zero, a flush speaks for. -/
def Purpose.SpeaksFor (why : Purpose) (r : Pending) (i : Nat) : Prop :=
  match why with
  | .alone => i + 1 = r.ticket.seq
  | .group target => i < target

/-- What is known, at this point of a flush, of a record it speaks for. -/
def Flush.Sees (f : Flush) (sg : Segment) (pl : Place) : Prop :=
  match f with
  | .captured => pl.path = sg.file
  | .syncing n => pl.path = sg.file ∧ pl.upTo ≤ n
  | .synced => False
  | .syncingIndex _ => False

/-- An fsync in flight began with writes that are still there. -/
def Flush.Began (f : Flush) (sg : Segment) (d : Dir Path) : Prop :=
  match f with
  | .captured => True
  | .syncing n => n ≤ (d.file sg.file).writes.length
  | .synced => True
  | .syncingIndex n => n ≤ (d.file sg.index.file).writes.length

/-- Every record the flush speaks for is covered, or `sees` holds of it. -/
def Spoken (placed : List Place) (d : Dir Path) (r : Pending) (why : Purpose)
    (sees : Place → Prop) : Prop :=
  ∀ i pl, placed[i]? = some pl → why.SpeaksFor r i → Covered d pl ∨ sees pl

/-- A flush speaks for records that have been written. -/
def Purpose.Within (why : Purpose) (placed : List Place) : Prop :=
  match why with
  | .alone => True
  | .group target => target ≤ placed.length

/-- What a thread outside the mutex relies on. -/
def PcOk (crc : Checksum) (placed : List Place) (d : Dir Path) : Pc → Prop
  | .idle => True
  | .appending _ _ => True
  | .syncingAll _ => True
  | .unlocked r => Owns crc placed d r
  | .capturing r why => Owns crc placed d r ∧ why.Within placed
  | .flushing r why sg f =>
      Owns crc placed d r ∧ why.Within placed ∧
        (sg.file ∈ d.names ∧ sg.index.file ∈ d.names) ∧ f.Began sg d ∧
        Spoken placed d r why (f.Sees sg)
  | .flushed r why outcome =>
      Owns crc placed d r ∧ why.Within placed ∧
        (outcome = .ok () → Spoken placed d r why fun _ => False)
  | .waiting r => Owns crc placed d r
  | .returned r outcome =>
      Owns crc placed d r ∧ ∀ k, outcome = .ok k → k = r.ticket.offset ∧ Covered d r.place
  | .refused _ => True

theorem getElem?_of_isPrefix {α : Type} {xs ys : List α} (h : xs <+: ys) {i : Nat} {a : α}
    (hi : xs[i]? = some a) : ys[i]? = some a := by
  obtain ⟨rest, rfl⟩ := h
  rw [List.getElem?_append_left (List.getElem?_eq_some_iff.mp hi).1]
  exact hi

section Stability

variable {crc : Checksum} {placed placed' : List Place} {d d' : Dir Path}

variable {r : Pending}

theorem Owns.extends (h : Owns crc placed d r) (hd : d.Extends d') (hp : placed <+: placed') :
    Owns crc placed' d' r := by
  obtain ⟨hname, hf⟩ := hd _ h.named
  refine ⟨h.seq_pos, getElem?_of_isPrefix hp h.place, h.segment, hname, ?_⟩
  obtain ⟨i, off, hi, hw⟩ := h.written
  exact ⟨i, off, hi, getElem?_of_isPrefix hf.writes hw⟩

theorem Owns.seq_le (h : Owns crc placed d r) : r.ticket.seq ≤ placed.length := by
  have hlt := (List.getElem?_eq_some_iff.mp h.place).1
  have hpos := h.seq_pos
  omega

theorem Purpose.Within.mono {why : Purpose} (h : why.Within placed) (hp : placed <+: placed') :
    why.Within placed' := by
  cases why with
  | alone => trivial
  | group target =>
      exact le_trans h hp.length_le

/-- Records written later are none of those the flush speaks for. -/
theorem Spoken.extends {why : Purpose} {sees : Place → Prop} (h : Spoken placed d r why sees)
    (hr : Owns crc placed d r) (hw : why.Within placed) (hnamed : ∀ pl ∈ placed, pl.path ∈ d.names)
    (hd : d.Extends d') (hp : placed <+: placed') : Spoken placed' d' r why sees := by
  intro i pl hpl hi
  have hlt : i < placed.length := by
    cases why with
    | alone =>
        have hseq := hr.seq_le
        have hi' : i + 1 = r.ticket.seq := hi
        omega
    | group target => exact lt_of_lt_of_le hi hw
  have hold : placed[i]? = some pl := by
    obtain ⟨rest, rfl⟩ := hp
    rwa [List.getElem?_append_left hlt] at hpl
  rcases h i pl hold hi with hc | hs
  · exact Or.inl (hc.extends (hnamed pl (List.mem_of_getElem? hold)) hd)
  · exact Or.inr hs

theorem Flush.Began.extends {f : Flush} {sg : Segment} (h : f.Began sg d)
    (hfile : sg.file ∈ d.names) (hindex : sg.index.file ∈ d.names) (hd : d.Extends d') :
    f.Began sg d' := by
  cases f with
  | captured => trivial
  | syncing n =>
      exact le_trans h (hd _ hfile).2.writes.length_le
  | synced => trivial
  | syncingIndex n =>
      exact le_trans h (hd _ hindex).2.writes.length_le

/-- What a thread relies on survives anything that only extends files and adds records. -/
theorem PcOk.extends {pc : Pc} (h : PcOk crc placed d pc)
    (hnamed : ∀ pl ∈ placed, pl.path ∈ d.names) (hd : d.Extends d') (hp : placed <+: placed') :
    PcOk crc placed' d' pc := by
  cases pc with
  | idle | appending p rest | syncingAll rest => trivial
  | unlocked r => exact Owns.extends h hd hp
  | capturing r why =>
      exact ⟨h.1.extends hd hp, h.2.mono hp⟩
  | flushing r why sg f =>
      obtain ⟨hr, hw, ⟨hfile, hindex⟩, hbegan, hspoken⟩ := h
      exact ⟨hr.extends hd hp, hw.mono hp, ⟨(hd _ hfile).1, (hd _ hindex).1⟩,
        hbegan.extends hfile hindex hd, hspoken.extends hr hw hnamed hd hp⟩
  | flushed r why outcome =>
      obtain ⟨hr, hw, hspoken⟩ := h
      exact ⟨hr.extends hd hp, hw.mono hp,
        fun ho => (hspoken ho).extends hr hw hnamed hd hp⟩
  | waiting r => exact Owns.extends h hd hp
  | returned r outcome =>
      obtain ⟨hr, hc⟩ := h
      exact ⟨hr.extends hd hp, fun k hk => ⟨(hc k hk).1, (hc k hk).2.extends hr.named hd⟩⟩
  | refused e => trivial

end Stability

/-- What a thread outside the mutex relies on, when appends that are `spared` may return without
an fsync. -/
def PcOkUnless (crc : Checksum) (spared : List Place → Dir Path → Pending → Prop)
    (placed : List Place) (d : Dir Path) : Pc → Prop
  | .returned r outcome =>
      Owns crc placed d r ∧
        ∀ k, outcome = .ok k → k = r.ticket.offset ∧ (Covered d r.place ∨ spared placed d r)
  | pc => PcOk crc placed d pc

/-- Who is spared stays so when files are extended and records added. -/
def Stable (crc : Checksum) (spared : List Place → Dir Path → Pending → Prop) : Prop :=
  ∀ placed placed' d d' r, Owns crc placed d r → (∀ pl ∈ placed, pl.path ∈ d.names) →
    d.Extends d' → placed <+: placed' → spared placed d r → spared placed' d' r

variable {d d' : Dir Path} {placed : List Place} {crc : Checksum}
  {spared : List Place → Dir Path → Pending → Prop}

/-- Before it returns, a thread relies on the same as ever. -/
theorem pcOkUnless_iff {pc : Pc} (hne : ∀ r outcome, pc ≠ .returned r outcome) :
    PcOkUnless crc spared placed d pc ↔ PcOk crc placed d pc := by
  cases pc with
  | returned r outcome =>
      exact absurd rfl (hne r outcome)
  | _ => exact Iff.rfl

theorem PcOkUnless.extends (hspared : Stable crc spared) {placed' : List Place} {pc : Pc}
    (h : PcOkUnless crc spared placed d pc) (hnamed : ∀ pl ∈ placed, pl.path ∈ d.names)
    (hd : d.Extends d') (hp : placed <+: placed') : PcOkUnless crc spared placed' d' pc := by
  cases pc with
  | returned r outcome =>
      obtain ⟨hr, hc⟩ := h
      refine ⟨hr.extends hd hp, fun k hk => ⟨(hc k hk).1, ?_⟩⟩
      rcases (hc k hk).2 with hcovered | hsp
      · exact Or.inl (hcovered.extends hr.named hd)
      · exact Or.inr (hspared _ _ _ _ _ hr hnamed hd hp hsp)
  | _ =>
      rw [pcOkUnless_iff (by intro r outcome heq; cases heq)] at h ⊢
      exact h.extends hnamed hd hp

/-- Every record is where it is said to be. -/
def Written (placed : List Place) (d : Dir Path) : Prop :=
  ∀ pl ∈ placed, pl.path ∈ d.names ∧ pl.upTo ≤ (d.file pl.path).writes.length

theorem written_extends (h : Written placed d) (hd : d.Extends d') : Written placed d' := by
  intro pl hpl
  obtain ⟨hname, hlen⟩ := h pl hpl
  obtain ⟨hname', hf⟩ := hd pl.path hname
  exact ⟨hname', le_trans hlen hf.writes.length_le⟩

theorem Claims.extends_written {w : World} (h : Claims placed w) (hwritten : Written placed w.dir)
    (hd : w.dir.Extends d') : Claims placed { w with dir := d' } := by
  refine ⟨h.synced_le, h.pending_le, ?_⟩
  intro i pl hpl hi
  exact (h.covered i pl hpl hi).extends (hwritten pl (List.mem_of_getElem? hpl)).1 hd

/-- Appends with this ticket return without an fsync. -/
def Log.Unsynced (l : Log) (k : Log.Ticket) : Prop :=
  l.opts.sync = .never ∨ l.opts.sync = .everyN ∧ (k.sinceSync : Int) < l.opts.syncEveryNRecords

/-- The invariant of a log that flushes. -/
structure FlushInv (crc : Checksum) (mayFail : FsOp Path → Prop)
    (spared : List Place → Dir Path → Pending → Prop) (s : Live) : Prop where
  policy : s.mem.opts.sync ≠ .never
  seq : s.mem.seq = s.placed.length
  claims : Claims s.placed s.world
  written : Written s.placed s.world.dir
  active : ∀ sg, s.mem.active = some sg → Steady s.placed sg s.world
  backed : Backed s.fsyncs s.world.dir
  threads : ∀ t, PcOkUnless crc spared s.placed s.world.dir (s.threads t)
  lock : ∀ t, (s.threads t).Holds ↔ s.lock = some t
  appending : ∀ t p rest, s.threads t = .appending p rest →
    Only AppendOp rest ∧
      Always (Quiet s.placed) (LogOp.Outcome mayFail) (Claims s.placed)
        (Landed crc s.placed s.mem p) rest s.world
  syncing : ∀ t rest, s.threads t = .syncingAll rest → Only FlushOp rest

section Preservation

variable {crc : Checksum} {mayFail : FsOp Path → Prop} {s : Live} {t : ThreadId}
variable {spared : List Place → Dir Path → Pending → Prop}

theorem FlushInv.named (h : FlushInv crc mayFail spared s) :
    ∀ pl ∈ s.placed, pl.path ∈ s.world.dir.names :=
  fun pl hpl => (h.written pl hpl).1

theorem FlushInv.others_of_free (h : FlushInv crc mayFail spared s) (hlock : s.lock = none) :
    ∀ t', t' ≠ t → ¬ (s.threads t').Holds := by
  intro t' _ hholds
  have := (h.lock t').mp hholds
  rw [hlock] at this
  cases this

theorem FlushInv.others_of_holds (h : FlushInv crc mayFail spared s) (ht : (s.threads t).Holds) :
    ∀ t', t' ≠ t → ¬ (s.threads t').Holds := by
  intro t' hne hholds
  have h₁ := (h.lock t').mp hholds
  have h₂ := (h.lock t).mp ht
  rw [h₂] at h₁
  exact hne (Option.some.inj h₁).symm

variable {w : World} {pc : Pc} {s' : Live}

/-- What an operation inside the mutex does to the directory. -/
theorem extends_of_outcome {o : LogOp} {r : o.Resp} {w' : World} (ho : AppendOp o)
    (hout : LogOp.Outcome mayFail o w r w') : w.dir.Extends w'.dir := by
  cases hout with
  | @fs o _ _ _ hfs => exact hfs.extends ho
  | coord o => exact Dir.Extends.refl _

/-- The new record is in the active segment and nobody has claimed it yet. -/
theorem Steady.place {placed : List Place} {sg : Segment} (h : Steady placed sg w) :
    Steady (placed ++ [⟨sg.file, (w.dir.file sg.file).writes.length⟩]) sg w := by
  refine ⟨⟨?_, ?_, ?_⟩, ⟨?_, ?_⟩, h.proper⟩
  · have := h.claims.synced_le
    rw [List.length_append]
    omega
  · have := h.claims.pending_le
    rw [List.length_append]
    omega
  · intro i pl hpl hi
    have hlt := lt_of_lt_of_le hi h.claims.synced_le
    rw [List.getElem?_append_left hlt] at hpl
    exact h.claims.covered i pl hpl hi
  · exact List.forall_mem_append.mpr ⟨h.known.written,
      List.forall_mem_singleton.mpr ⟨h.proper.named, le_refl _⟩⟩
  · exact List.forall_mem_append.mpr ⟨h.known.place, List.forall_mem_singleton.mpr (Or.inr rfl)⟩

theorem not_holds (hpc : s.threads t = pc) (h : ¬ pc.Holds) : ¬ (s.threads t).Holds := by
  rw [hpc]
  exact h

theorem FlushInv.thread (h : FlushInv crc mayFail spared s) (hpc : s.threads t = pc) :
    PcOkUnless crc spared s.placed s.world.dir pc := by
  rw [← hpc]
  exact h.threads t

section

variable (h : FlushInv crc mayFail spared s)

include h

/-- The memory of the log changes when an append releases the mutex. -/
theorem FlushInv.landed_step {s' : Live} (hstep : LiveStep crc mayFail s s') :
    s'.mem = s.mem ∨ ∃ t p out, s.threads t = .appending p (.done out) ∧ s'.mem = out.1 ∧
      Landed crc s.placed s.mem p out s.world := by
  cases hstep with
  | unlockRefused hpc | unlock hpc hactive hplace =>
      exact Or.inr ⟨_, _, _, hpc, rfl, ((h.appending _ _ _ hpc).2 s.world (Quiet.refl _)).2⟩
  | _ => exact Or.inl rfl

theorem FlushInv.opts_step (hstep : LiveStep crc mayFail s s') : s'.mem.opts = s.mem.opts := by
  rcases h.landed_step hstep with hmem | ⟨t, p, out, -, hmem, hlanded⟩
  · rw [hmem]
  · rw [hmem]
    exact hlanded.opts

/-- An open log stays open. -/
theorem FlushInv.active_step (hstep : LiveStep crc mayFail s s') (hactive : s.mem.active ≠ none) :
    s'.mem.active ≠ none := by
  rcases h.landed_step hstep with hmem | ⟨t, p, out, -, hmem, hlanded⟩
  · rw [hmem]
    exact hactive
  · obtain ⟨sg, hsg, -⟩ := hlanded.active
    rw [hmem, hsg]
    exact Option.some_ne_none sg

/-- No step takes anything away from a file or forgets a record. -/
theorem FlushInv.extends_step (hstep : LiveStep crc mayFail s s') :
    s.world.dir.Extends s'.world.dir ∧ s.placed <+: s'.placed := by
  cases hstep with
  | appendOp hpc hout =>
      exact ⟨extends_of_outcome (h.appending _ _ _ hpc).1.1 hout, List.prefix_refl _⟩
  | unlock hpc hactive hplace =>
      exact ⟨Dir.Extends.refl _, List.prefix_append _ _⟩
  | syncOp hpc hout =>
      exact ⟨extends_of_outcome (appendOp_of_flush _ (h.syncing _ _ hpc).1) hout,
        List.prefix_refl _⟩
  | endSync hpc | endIndex hpc =>
      exact ⟨Dir.Extends.set _ (File.Extends.syncTo _ _), List.prefix_refl _⟩
  | _ =>
      exact ⟨Dir.Extends.refl _, List.prefix_refl _⟩

end

variable (hspared : Stable crc spared)
include hspared

section

variable (h : FlushInv crc mayFail spared s)

include h

/-- A step outside the mutex: it flushes, and what the coordinator claims stays true. -/
theorem FlushInv.outside {fsyncs : List Place} (hbefore : ¬ (s.threads t).Holds)
    (hafter : ¬ pc.Holds) (hdir : s.world.dir.SyncLe w.dir) (hclaims : Claims s.placed w)
    (hbacked : Backed fsyncs w.dir) (hpc : PcOkUnless crc spared s.placed w.dir pc) :
    FlushInv crc mayFail spared { s.move t pc with world := w, fsyncs := fsyncs } := by
  have hquiet : Quiet s.placed s.world w := ⟨hdir, fun _ => hclaims⟩
  refine ⟨h.policy, h.seq, hclaims, written_extends h.written hdir.extends,
    fun sg hactive => (h.active sg hactive).quiet hquiet, hbacked, ?_, ?_, ?_, ?_⟩
  · intro t'
    by_cases ht : t' = t
    · subst ht
      simpa [Live.move] using hpc
    · simpa [Live.move, ht] using
        (h.threads t').extends hspared h.named hdir.extends (List.prefix_refl _)
  · intro t'
    by_cases ht : t' = t
    · subst ht
      have hlock := (h.lock t').not.mp hbefore
      simpa [Live.move, hafter] using hlock
    · simpa [Live.move, ht] using h.lock t'
  · intro t' p rest hrest
    by_cases ht : t' = t
    · subst ht
      have hpc' : pc = .appending p rest := by
        simpa [Live.move] using hrest
      subst hpc'
      exact (hafter trivial).elim
    · have hold : s.threads t' = .appending p rest := by
        simpa [Live.move, ht] using hrest
      obtain ⟨honly, halways⟩ := h.appending t' p rest hold
      have htrans : ∀ a b c, Quiet s.placed a b → Quiet s.placed b c → Quiet s.placed a c :=
        fun _ _ _ => Quiet.trans
      exact ⟨honly, always_stable htrans halways hquiet⟩
  · intro t' rest hrest
    by_cases ht : t' = t
    · subst ht
      have hpc' : pc = .syncingAll rest := by
        simpa [Live.move] using hrest
      subst hpc'
      exact (hafter trivial).elim
    · have hold : s.threads t' = .syncingAll rest := by
        simpa [Live.move, ht] using hrest
      exact h.syncing t' rest hold

/-- A step outside the mutex that changes nothing but the thread. -/
theorem FlushInv.move (hbefore : ¬ (s.threads t).Holds) (hafter : ¬ pc.Holds)
    (hpc : PcOkUnless crc spared s.placed s.world.dir pc) :
    FlushInv crc mayFail spared (s.move t pc) :=
  h.outside hspared hbefore hafter (Dir.SyncLe.refl _) h.claims h.backed hpc

/-- A step of the thread that holds, takes or releases the mutex.  No other thread is
inside, and those outside only need files to grow. -/
theorem FlushInv.inside {s' : Live} {pc : Pc} (hothers : ∀ t', t' ≠ t → ¬ (s.threads t').Holds)
    (hthreads : s'.threads = Function.update s.threads t pc)
    (hlock : ∀ t', s'.lock = some t' ↔ t' = t ∧ pc.Holds) (hopts : s'.mem.opts = s.mem.opts)
    (hseq : s'.mem.seq = s'.placed.length) (hclaims : Claims s'.placed s'.world)
    (hwritten : Written s'.placed s'.world.dir)
    (hactive : ∀ sg, s'.mem.active = some sg → Steady s'.placed sg s'.world)
    (hdir : s.world.dir.Extends s'.world.dir) (hplaced : s.placed <+: s'.placed)
    (hbacked : Backed s'.fsyncs s'.world.dir)
    (hpc : PcOkUnless crc spared s'.placed s'.world.dir pc)
    (happending : ∀ p rest, pc = .appending p rest →
      Only AppendOp rest ∧
        Always (Quiet s'.placed) (LogOp.Outcome mayFail) (Claims s'.placed)
          (Landed crc s'.placed s'.mem p) rest s'.world)
    (hsyncing : ∀ rest, pc = .syncingAll rest → Only FlushOp rest) :
    FlushInv crc mayFail spared s' := by
  refine ⟨by rw [hopts]; exact h.policy, hseq, hclaims, hwritten, hactive, hbacked, ?_, ?_, ?_, ?_⟩
  · intro t'
    rw [hthreads]
    by_cases ht : t' = t
    · subst ht
      simpa using hpc
    · simpa [ht] using (h.threads t').extends hspared h.named hdir hplaced
  · intro t'
    rw [hthreads, hlock]
    by_cases ht : t' = t
    · subst ht
      simp
    · simpa [ht] using hothers t' ht
  · intro t' p rest hrest
    rw [hthreads] at hrest
    by_cases ht : t' = t
    · subst ht
      exact happending p rest (by simpa using hrest)
    · have hold : s.threads t' = .appending p rest := by
        simpa [ht] using hrest
      exact (hothers t' ht (by rw [hold]; trivial)).elim
  · intro t' rest hrest
    rw [hthreads] at hrest
    by_cases ht : t' = t
    · subst ht
      exact hsyncing rest (by simpa using hrest)
    · have hold : s.threads t' = .syncingAll rest := by
        simpa [ht] using hrest
      exact (hothers t' ht (by rw [hold]; trivial)).elim

/-- One round of `waitFor`, from a coordinator whose claims are true. -/
theorem FlushInv.coordinate {r : Pending} {step : WaitStep} {c₀ c : Coord}
    (hbefore : ¬ (s.threads t).Holds) (hr : Owns crc s.placed s.world.dir r)
    (hclaims : Claims s.placed { s.world with coord := c₀ })
    (hloop : c₀.loop t r.ticket.seq = (step, c)) :
    FlushInv crc mayFail spared (s.coordinate t (r.afterWait step) c) := by
  obtain ⟨hsynced, hpending⟩ := Coord.loop_synced_pending c₀ t r.ticket.seq
  rw [hloop] at hsynced hpending
  have hclaims' : Claims s.placed { s.world with coord := c } := by
    refine ⟨?_, ?_, ?_⟩
    · rw [hsynced]
      exact hclaims.synced_le
    · rw [hpending]
      exact hclaims.pending_le
    · rw [hsynced]
      exact hclaims.covered
  have hafter : ¬ (r.afterWait step).Holds := by
    cases step <;> exact id
  refine h.outside hspared hbefore hafter (Dir.SyncLe.refl _) hclaims' h.backed ?_
  cases step with
  | durable =>
      refine ⟨hr, fun k hk => ⟨(Except.ok.inj hk).symm, Or.inl ?_⟩⟩
      have hle := Coord.loop_durable (by rw [hloop])
      have hpos := hr.seq_pos
      exact hclaims.covered _ _ hr.place (by dsimp only; omega)
  | failed e =>
      exact ⟨hr, nofun⟩
  | blocked => exact hr
  | flush target =>
      refine ⟨hr, ?_⟩
      have htarget := Coord.loop_flush (by rw [hloop])
      rw [htarget]
      exact hclaims.pending_le

/-- An fsync outside the mutex completes. -/
theorem FlushInv.complete {pc : Pc} {path : Path} {n : Nat} (hbefore : ¬ (s.threads t).Holds)
    (hafter : ¬ pc.Holds) (hn : n ≤ (s.world.dir.file path).writes.length)
    (hpc : ∀ d, d = s.world.dir.set path ((s.world.dir.file path).syncTo n) →
      s.world.dir.Extends d → PcOkUnless crc spared s.placed d pc) :
    FlushInv crc mayFail spared (s.complete t pc path n) := by
  have hsync := Dir.SyncLe.set_right s.world.dir (File.SyncLe.syncTo _ hn)
  exact h.outside hspared hbefore hafter hsync (h.claims.extends_written h.written hsync.extends)
    (h.backed.syncTo n) (hpc _ rfl hsync.extends)

end

theorem FlushInv.appendOp (h : FlushInv crc mayFail spared s) {p : Bytes} {o : LogOp}
    {next : o.Resp → LogProgram (Log × Except LogErr Log.Ticket)} {r : o.Resp} {w : World}
    (hpc : s.threads t = .appending p (.call o next)) (hout : LogOp.Outcome mayFail o s.world r w) :
    FlushInv crc mayFail spared
      { s.move t (.appending p (next r)) with
        world := w
        fsyncs := s.fsyncs ++ completed o r s.world.dir } := by
  obtain ⟨⟨ho, honly⟩, halways⟩ := h.appending t p _ hpc
  have hnext := (halways s.world (Quiet.refl _)).2 r w hout
  have hclaims := inv_of_always Quiet.refl hnext
  have hext := extends_of_outcome ho hout
  have hholds := holds_of_pc hpc trivial
  refine h.inside hspared (h.others_of_holds hholds) rfl ?_ rfl h.seq hclaims
    (written_extends h.written hext)
    (fun sg hactive => ⟨hclaims, (h.active sg hactive).known.extends hext,
      (h.active sg hactive).proper.extends hext⟩)
    hext (List.prefix_refl _) (h.backed.outcome hout) trivial ?_ nofun
  · intro t'
    have hlock := (h.lock t).mp hholds
    simp only [Live.move, hlock, Option.some.injEq]
    exact ⟨fun ht => ⟨ht.symm, trivial⟩, fun ht => ht.1.symm⟩
  · rintro p' rest ⟨⟩
    exact ⟨honly r, hnext⟩

theorem FlushInv.syncOp (h : FlushInv crc mayFail spared s) {o : LogOp}
    {next : o.Resp → LogProgram (Except LogErr Unit)} {r : o.Resp} {w : World}
    (hpc : s.threads t = .syncingAll (.call o next)) (hout : LogOp.Outcome mayFail o s.world r w) :
    FlushInv crc mayFail spared
      { s.move t (.syncingAll (next r)) with
        world := w
        fsyncs := s.fsyncs ++ completed o r s.world.dir } := by
  obtain ⟨ho, honly⟩ := h.syncing t _ hpc
  have hext := extends_of_outcome (appendOp_of_flush o ho) hout
  have hholds := holds_of_pc hpc trivial
  have hclaims : Claims s.placed w := by
    cases hout with
    | fs hfs =>
        exact h.claims.extends_written h.written hext
    | coord o => exact ho.elim
  refine h.inside hspared (h.others_of_holds hholds) rfl ?_ rfl h.seq hclaims
    (written_extends h.written hext)
    (fun sg hactive => ⟨hclaims, (h.active sg hactive).known.extends hext,
      (h.active sg hactive).proper.extends hext⟩)
    hext (List.prefix_refl _) (h.backed.outcome hout) trivial
    nofun ?_
  · intro t'
    have hlock := (h.lock t).mp hholds
    simp only [Live.move, hlock, Option.some.injEq]
    exact ⟨fun ht => ⟨ht.symm, trivial⟩, fun ht => ht.1.symm⟩
  · rintro rest ⟨⟩
    exact honly r

theorem FlushInv.lockAppend (h : FlushInv crc mayFail spared s) (p : Bytes) (hlock : s.lock = none)
    (hopen : s.mem.active ≠ none) :
    FlushInv crc mayFail spared
      { s.move t (.appending p (s.mem.appendLocked crc p)) with lock := some t } := by
  obtain ⟨sg, hactive⟩ := Option.ne_none_iff_exists'.mp hopen
  refine h.inside hspared (h.others_of_free hlock) rfl ?_ rfl h.seq h.claims h.written h.active
    (Dir.Extends.refl _) (List.prefix_refl _) h.backed trivial ?_ nofun
  · intro t'
    simp only [Option.some.injEq]
    exact ⟨fun ht => ⟨ht.symm, trivial⟩, fun ht => ht.1.symm⟩
  · rintro p' rest ⟨⟩
    exact ⟨appendLocked_only _ _,
      appendLocked_always p hactive h.seq h.policy (h.active sg hactive)⟩

theorem FlushInv.lockSync (h : FlushInv crc mayFail spared s) (hlock : s.lock = none) :
    FlushInv crc mayFail spared
      { s.move t (.syncingAll (Log.syncAll s.mem.segments)) with lock := some t } := by
  refine h.inside hspared (h.others_of_free hlock) rfl ?_ rfl h.seq h.claims h.written h.active
    (Dir.Extends.refl _) (List.prefix_refl _) h.backed trivial nofun ?_
  · intro t'
    simp only [Option.some.injEq]
    exact ⟨fun ht => ⟨ht.symm, trivial⟩, fun ht => ht.1.symm⟩
  · rintro rest ⟨⟩
    exact syncAll_only _

theorem FlushInv.unlockSync (h : FlushInv crc mayFail spared s) {outcome : Except LogErr Unit}
    (hpc : s.threads t = .syncingAll (.done outcome)) :
    FlushInv crc mayFail spared { s.move t .idle with lock := none } := by
  have hholds := holds_of_pc hpc trivial
  refine h.inside hspared (h.others_of_holds hholds) rfl ?_ rfl h.seq h.claims h.written h.active
    (Dir.Extends.refl _) (List.prefix_refl _) h.backed trivial nofun
    nofun
  exact fun t' => ⟨nofun, fun ht => ht.2.elim⟩

theorem FlushInv.unlockRefused (h : FlushInv crc mayFail spared s) {p : Bytes} {l : Log}
    {e : LogErr} (hpc : s.threads t = .appending p (.done (l, .error e))) :
    FlushInv crc mayFail spared { s.move t (.refused e) with mem := l, lock := none } := by
  have hholds := holds_of_pc hpc trivial
  have hlanded := ((h.appending t p _ hpc).2 s.world (Quiet.refl _)).2
  obtain ⟨sg, hactive, hsteady, _⟩ := hlanded.active
  refine h.inside hspared (h.others_of_holds hholds) rfl ?_ hlanded.opts
    ((hlanded.seq e rfl).trans h.seq) hsteady.claims hsteady.known.written ?_ (Dir.Extends.refl _)
    (List.prefix_refl _) h.backed trivial nofun
    nofun
  · exact fun t' => ⟨nofun, fun ht => ht.2.elim⟩
  · intro sg' hactive'
    obtain rfl : sg = sg' := Option.some.inj (hactive.symm.trans hactive')
    exact hsteady

theorem FlushInv.unlock (h : FlushInv crc mayFail spared s) {p : Bytes} {l : Log} {k : Log.Ticket}
    {sg : Segment} {pl : Place} (hpc : s.threads t = .appending p (.done (l, .ok k)))
    (hactive : l.active = some sg)
    (hplace : pl = ⟨sg.file, (s.world.dir.file sg.file).writes.length⟩) :
    FlushInv crc mayFail spared
      { s.move t (.unlocked ⟨p, k, pl⟩) with
        mem := l
        lock := none
        written := s.written ++ [p]
        placed := s.placed ++ [pl] } := by
  have hholds := holds_of_pc hpc trivial
  have hlanded := ((h.appending t p _ hpc).2 s.world (Quiet.refl _)).2
  obtain ⟨sg', hactive', hsteady, hlast⟩ := hlanded.active
  obtain rfl : sg' = sg := Option.some.inj (hactive'.symm.trans hactive)
  obtain ⟨hseq, hkseq⟩ := hlanded.ticket k rfl
  rw [h.seq] at hseq hkseq
  subst hplace
  refine h.inside hspared (h.others_of_holds hholds) rfl ?_ hlanded.opts ?_ hsteady.place.claims
    hsteady.place.known.written ?_ (Dir.Extends.refl _) (List.prefix_append _ _) h.backed ?_
    nofun nofun
  · exact fun t' => ⟨nofun, fun ht => ht.2.elim⟩
  · simpa using hseq
  · intro sg hactive'
    obtain rfl : sg' = sg := Option.some.inj (hactive.symm.trans hactive')
    exact hsteady.place
  · -- the record is the last write of the active segment
    obtain ⟨off, hoff⟩ := hlast k rfl
    obtain ⟨b, hfile, _⟩ := hsteady.proper.base
    refine ⟨?_, ?_, ⟨b, hfile⟩, hsteady.proper.named, ?_⟩
    · simp only [hkseq]
      omega
    · simp [hkseq]
    · have hne : (s.world.dir.file sg'.file).writes ≠ [] := by
        intro hnil
        rw [hnil] at hoff
        cases hoff
      have hpos := List.length_pos_of_ne_nil hne
      refine ⟨(s.world.dir.file sg'.file).writes.length - 1, off, ?_, ?_⟩
      · dsimp only
        omega
      · rw [List.getLast?_eq_getElem?] at hoff
        exact hoff

/-- Every step keeps the invariant, if appends begin while there is a segment, appends that
return without an fsync are spared, and a sync that finds no segment has nothing left to do. -/
theorem FlushInv.step {s' : Live} (h : FlushInv crc mayFail spared s)
    (hstep : LiveStep crc mayFail s s')
    (hopen : ∀ t p rest, s.threads t = .idle → s'.threads t = .appending p rest →
      s.mem.active ≠ none)
    (hunsynced : ∀ t r, s.threads t = .unlocked r →
      s'.threads t = .returned r (.ok r.ticket.offset) → s.mem.Unsynced r.ticket →
      spared s.placed s.world.dir r)
    (hhollow : ∀ t r why, s.threads t = .capturing r why → s'.threads t = .flushed r why (.ok ()) →
      s.mem.active = none → Spoken s.placed s.world.dir r why fun _ => False) :
    FlushInv crc mayFail spared s' := by
  cases hstep with
  | lockAppend p hpc hlock =>
      exact h.lockAppend hspared p hlock (hopen _ p _ hpc (Function.update_self ..))
  | appendOp hpc hout =>
      exact h.appendOp hspared hpc hout
  | unlockRefused hpc =>
      exact h.unlockRefused hspared hpc
  | unlock hpc hactive hplace =>
      exact h.unlock hspared hpc hactive hplace
  | lockSync hpc hlock =>
      exact h.lockSync hspared hlock
  | syncOp hpc hout =>
      exact h.syncOp hspared hpc hout
  | unlockSync hpc =>
      exact h.unlockSync hspared hpc
  | @returnUnsynced t r hpc hpolicy =>
      have hr := h.thread hpc
      refine h.move hspared (not_holds hpc id) id ⟨hr, fun k hk => ⟨(Except.ok.inj hk).symm, ?_⟩⟩
      exact Or.inr (hunsynced t r hpc (Function.update_self ..) hpolicy)
  | @flushAlone t r hpc hpolicy =>
      have hr := h.thread hpc
      exact h.move hspared (not_holds hpc id) id ⟨hr, trivial⟩
  | @enter t r step c hpc hpolicy hstep =>
      have hr := h.thread hpc
      unfold Coord.enter at hstep
      refine h.coordinate hspared (not_holds hpc id) hr ?_ hstep
      exact ⟨h.claims.synced_le, max_le h.claims.pending_le hr.seq_le, h.claims.covered⟩
  | @wake t r step c hpc hnotified hstep =>
      have hr := h.thread hpc
      unfold Coord.wake at hstep
      refine h.coordinate hspared (not_holds hpc id) hr ?_ hstep
      exact ⟨h.claims.synced_le, h.claims.pending_le, h.claims.covered⟩
  | @capture t r why sg hpc hlock hactive =>
      have hr := h.thread hpc
      have hsteady := h.active sg hactive
      refine h.move hspared (not_holds hpc id) id
        ⟨hr.1, hr.2, ⟨hsteady.proper.named, hsteady.proper.indexNamed⟩, trivial, ?_⟩
      exact fun i pl hpl _ => hsteady.known.place pl (List.mem_of_getElem? hpl)
  | @captureNone t r why hpc hlock hactive =>
      have hr := h.thread hpc
      exact h.move hspared (not_holds hpc id) id
        ⟨hr.1, hr.2, fun _ => hhollow t r why hpc (Function.update_self ..) hactive⟩
  | @beginSync t r why sg hpc =>
      have hr := h.thread hpc
      obtain ⟨howns, hwithin, hnamed, _, hspoken⟩ := hr
      refine h.move hspared (not_holds hpc id) id ⟨howns, hwithin, hnamed, le_refl _, ?_⟩
      intro i pl hpl hi
      refine (hspoken i pl hpl hi).imp_right fun hpath => ⟨hpath, ?_⟩
      have hlen := (h.written pl (List.mem_of_getElem? hpl)).2
      have hpath' : pl.path = sg.file := hpath
      rwa [hpath'] at hlen
  | @endSync t r why sg n hpc =>
      have hr := h.thread hpc
      obtain ⟨howns, hwithin, ⟨hfile, hindex⟩, hbegan, hspoken⟩ := hr
      refine h.complete hspared (not_holds hpc id) id hbegan ?_
      intro d hd hext
      refine ⟨howns.extends hext (List.prefix_refl _), hwithin,
        ⟨(hext _ hfile).1, (hext _ hindex).1⟩, trivial, ?_⟩
      intro i pl hpl hi
      rcases hspoken i pl hpl hi with hc | ⟨hpath, hle⟩
      · exact Or.inl (hc.extends (h.named pl (List.mem_of_getElem? hpl)) hext)
      · left
        unfold Covered
        rw [hpath, hd, Dir.set_file_self]
        exact le_trans hle (le_max_right _ _)
  | @failSync t r why sg n hpc hfail =>
      have hr := h.thread hpc
      exact h.move hspared (not_holds hpc id) id ⟨hr.1, hr.2.1, nofun⟩
  | @beginIndex t r why sg hpc =>
      have hr := h.thread hpc
      obtain ⟨howns, hwithin, hnamed, _, hspoken⟩ := hr
      exact h.move hspared (not_holds hpc id) id ⟨howns, hwithin, hnamed, le_refl _, hspoken⟩
  | @endIndex t r why sg n hpc =>
      have hr := h.thread hpc
      obtain ⟨howns, hwithin, _, hbegan, hspoken⟩ := hr
      refine h.complete hspared (not_holds hpc id) id hbegan ?_
      intro d _ hext
      have hspoken' := Spoken.extends hspoken howns hwithin h.named hext (List.prefix_refl _)
      exact ⟨howns.extends hext (List.prefix_refl _), hwithin, fun _ => hspoken'⟩
  | @failIndex t r why sg n hpc hfail =>
      have hr := h.thread hpc
      exact h.move hspared (not_holds hpc id) id ⟨hr.1, hr.2.1, nofun⟩
  | @returnAlone t r outcome hpc =>
      have hr := h.thread hpc
      obtain ⟨howns, _, hspoken⟩ := hr
      refine h.move hspared (not_holds hpc id) id ⟨howns, ?_⟩
      rcases outcome with e | u
      · exact nofun
      have hseq : r.ticket.seq - 1 + 1 = r.ticket.seq := Nat.sub_add_cancel howns.seq_pos
      exact fun k hk => ⟨(Except.ok.inj hk).symm,
        Or.inl ((hspoken rfl _ _ howns.place hseq).resolve_right id)⟩
  | @finish t r target outcome step c hpc hstep =>
      have hr := h.thread hpc
      obtain ⟨howns, hwithin, hspoken⟩ := hr
      cases outcome with
      | error e =>
          obtain ⟨rfl, rfl⟩ := Prod.mk.inj hstep
          exact h.outside hspared (not_holds hpc id) id (Dir.SyncLe.refl _)
            ⟨h.claims.synced_le, h.claims.pending_le, h.claims.covered⟩ h.backed
            ⟨howns, nofun⟩
      | ok u =>
          refine h.coordinate hspared (not_holds hpc id) howns ?_ hstep
          refine ⟨max_le h.claims.synced_le hwithin, h.claims.pending_le, ?_⟩
          intro i pl hpl hi
          rcases lt_max_iff.mp hi with hold | hnew
          · exact h.claims.covered i pl hpl hold
          · exact (hspoken rfl i pl hpl hnew).resolve_right id
  | @again t r outcome hpc | @againRefused t e hpc =>
      exact h.move hspared (not_holds hpc id) id trivial

end Preservation

section Start

variable {crc : Checksum} {mayFail : FsOp Path → Prop} {d : Dir Path} {opts : Options}
variable {l : Log} {w : World}

/-- `Open` fills in the defaults and returns a log with a segment. -/
theorem opened_log
    (hopen : Ends (LogOp.Outcome mayFail) (openLog crc opts) ⟨d, Coord.new⟩ (.ok l) w) :
    l.opts = opts.withDefaults ∧ l.active ≠ none := by
  obtain ⟨hopts, -, sg, hactive, -⟩ := post_of_ends Quiet.refl hopen (openLog_always opts) l rfl
  refine ⟨hopts, ?_⟩
  rw [hactive]
  exact Option.some_ne_none sg

/-- The invariant holds of a log `Open` has just returned. -/
theorem FlushInv.start {spared : List Place → Dir Path → Pending → Prop} (hfound : Backed [] d)
    (hpolicy : opts.sync ≠ .never)
    (hopen : Ends (LogOp.Outcome mayFail) (openLog crc opts) ⟨d, Coord.new⟩ (.ok l) w) :
    FlushInv crc mayFail spared (Live.start l w) := by
  obtain ⟨hopts, hseq, sg, hactive, hproper⟩ :=
    post_of_ends Quiet.refl hopen (openLog_always opts) l rfl
  have hbacked := post_of_ends (fun _ => rfl) hopen (backed_openLog opts hfound)
  have hcoord := post_of_ends (fun _ => rfl) hopen (coord_openLog opts rfl)
  have hclaims : Claims [] w := by
    refine ⟨?_, ?_, fun i pl hpl _ => nomatch hpl⟩
    · rw [hcoord]
      exact le_refl 0
    · rw [hcoord]
      exact le_refl 0
  refine ⟨?_, hseq, hclaims, List.forall_mem_nil _, ?_, hbacked, fun _ => trivial, ?_,
    nofun, nofun⟩
  · change l.opts.sync ≠ .never
    rw [hopts]
    exact hpolicy
  · intro sg' hactive'
    obtain rfl : sg = sg' := Option.some.inj (hactive.symm.trans hactive')
    exact ⟨hclaims, ⟨List.forall_mem_nil _, List.forall_mem_nil _⟩, hproper⟩
  · exact fun _ => ⟨False.elim, nofun⟩

end Start

end LedgerLine.Broker
