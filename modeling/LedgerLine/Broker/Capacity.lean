import LedgerLine.Broker.Refinement
import LedgerLine.Broker.Residue

/-!
# How large a segment may get

The fields of an index entry are four bytes wide, so `index.append` refuses a position from
4 GiB on; the record is in the file by then.  What keeps a segment below that is the roll
threshold, and `Open` takes any threshold.

A record that does not roll ends at the threshold or before, and is at least eight bytes long.
With a threshold below 4 GiB + 8 it therefore starts below 4 GiB, every append succeeds and
every number in an index fits.  With any larger threshold a segment can be filled up to 4 GiB
exactly, and the next append fails (`unfailing_iff`).

The step lemma for the second half is `Lone.append`: a log with a single segment stays so while
nothing rolls, and the last index entry is at the last record or before.
-/

namespace LedgerLine.Broker

open Program

/-- A call on a log that is opened with `opts` every time. -/
def Call.Under (opts : Options) : Call → Prop
  | append p => Legal p
  | reopen opts' => opts' = opts
  | _ => True

/-- The log after a sequence of calls. -/
def Call.logAfter (crc : Checksum) : List Call → World → Log → Log
  | [], _, l => l
  | c :: cs, w, l =>
      let (_, w', l') := c.run crc w l
      logAfter crc cs w' l'

/-- The relative offset of every record fits four bytes, and so do both fields of every index
entry. -/
def Log.Fits (l : Log) : Prop :=
  ∀ s ∈ l.segments, s.nextOffset - s.baseOffset ≤ 2 ^ 32 ∧ ∀ e ∈ s.index.entries, e.Fits

/-- Opened with `opts` in an empty directory, and closed and opened with them again any number
of times, the log answers all calls with legal payloads as a list of payloads does; no append
fails, and no index outgrows its fields. -/
def Unfailing (crc : Checksum) (opts : Options) : Prop :=
  ∀ calls : List Call, (∀ c ∈ calls, c.Under opts) → (calls.map Call.appends).sum < 2 ^ 64 →
    ∃ l w, run LogOp.exec (openLog crc opts) World.new = (.ok l, w) ∧
      Call.runAll crc calls w l = Call.specAll calls [] ∧ (Call.logAfter crc calls w l).Fits

section Below

variable {crc : Checksum} {d : Dir Path} {pss : List (List Bytes)} {l : Log} {w : World}
variable {recs : List Bytes} {opts : Options} {s : Segment} {b : Nat}

theorem OpenFrom.exists_open {ss : List Segment} (h : OpenFrom crc d b pss ss) (hs : s ∈ ss) :
    ∃ c, ∃ ps ∈ pss, OpenSegment crc d c ps s := by
  induction pss generalizing b ss with
  | nil =>
      cases ss with
      | nil => cases hs
      | cons t ss => exact h.elim
  | cons ps pss ih =>
      cases ss with
      | nil => exact h.elim
      | cons t ss =>
          rcases List.mem_cons.mp hs with rfl | hs
          · exact ⟨b, ps, List.mem_cons_self, h.1⟩
          · obtain ⟨c, qs, hqs, hopen⟩ := ih h.2 hs
            exact ⟨c, qs, List.mem_cons_of_mem _ hqs, hopen⟩

theorem OpenFrom.singleton (h : OpenFrom crc d b pss [s]) : ∃ ps, pss = [ps] := by
  cases pss with
  | nil => exact h.elim
  | cons ps pss =>
      cases pss with
      | nil => exact ⟨ps, rfl⟩
      | cons qs pss => exact h.2.elim

theorem OpenLog.fits (h : OpenLog crc d pss l) : l.Fits := by
  intro s hs
  obtain ⟨c, ps, hps, hopen⟩ := h.segments.exists_open hs
  have hidx : Indexable crc ps := h.onDisk.indexable (Part.full ps) (List.mem_map_of_mem hps)
  refine ⟨?_, hopen.stored.truthful.fits hidx⟩
  rw [hopen.next, hopen.base, Nat.add_sub_cancel_left]
  exact hidx.length_le

theorem Call.Under.takes {c : Call} (hc : c.Under opts) (h : Carries crc w l recs)
    (hmax : l.opts.maxSegmentBytes < 2 ^ 32 + 8) : c.Takes l := by
  cases c with
  | append p =>
      obtain ⟨pss, hopen, _⟩ := h.opened
      exact ⟨hc, addressable_of_lt hopen hmax p⟩
  | read k | nextOffset | reopen opts' => trivial

theorem Call.Under.options {c : Call} (hc : c.Under opts) :
    c.options opts.withDefaults = opts.withDefaults := by
  cases c with
  | reopen opts' =>
      rw [show opts' = opts from hc]
      rfl
  | append p | read k | nextOffset => rfl

/-- Below the limit every sequence of calls is served.  The induction is on the calls. -/
theorem runAll_carries {calls : List Call} (h : Carries crc w l recs)
    (hopts : l.opts = opts.withDefaults) (hmax : opts.withDefaults.maxSegmentBytes < 2 ^ 32 + 8)
    (hcalls : ∀ c ∈ calls, c.Under opts)
    (hfit : recs.length + (calls.map Call.appends).sum < 2 ^ 64) :
    Call.runAll crc calls w l = Call.specAll calls recs ∧ (Call.logAfter crc calls w l).Fits := by
  induction calls generalizing w l recs with
  | nil =>
      obtain ⟨pss, hopen, _⟩ := h.opened
      exact ⟨rfl, hopen.fits⟩
  | cons c cs ih =>
      rw [List.map_cons, List.sum_cons] at hfit
      have hc := hcalls c List.mem_cons_self
      obtain ⟨hanswer, hcarries, hopts'⟩ :=
        call_carries h (hc.takes h (by rw [hopts]; exact hmax)) (by omega)
      rw [hopts, hc.options] at hopts'
      obtain ⟨hrest, hfits⟩ := ih hcarries hopts' (fun c' hc' => hcalls c' (by simp [hc']))
        (by rw [length_spec]; omega)
      refine ⟨?_, hfits⟩
      simp only [Call.runAll, Call.specAll]
      rw [hanswer, hrest]

end Below

section Beyond

variable {crc : Checksum} {l : Log} {w : World} {ps : List Bytes} {p : Bytes}
variable {s : Segment} {opts : Options}

/-- A log with one segment, whose last index entry is not past its end. -/
structure Lone (crc : Checksum) (w : World) (l : Log) (ps : List Bytes) (s : Segment) :
    Prop where
  opened : OpenLog crc w.dir [ps] l
  segments : l.segments = [s]
  lags : s.lastIndexed ≤ s.size
  calm : Calm w.coord

theorem Lone.active (h : Lone crc w l ps s) : l.active = some s := by
  rw [Log.active, h.segments]
  rfl

theorem Lone.openSegment (h : Lone crc w l ps s) : OpenSegment crc w.dir 0 ps s := by
  have hsegments := h.opened.segments
  rw [h.segments] at hsegments
  exact hsegments.1

/-- What `Append` without a roll makes of a single segment in memory. -/
theorem append_lags (hactive : l.active = some s) (hseg : l.segments = [s])
    (hlags : s.lastIndexed ≤ s.size) (hroll : ¬ l.rolls s p) :
    Yields (fun r => ∀ k, r.2 = .ok k →
        ∃ s', r.1.segments = [s'] ∧ s'.lastIndexed ≤ s.size ∧ s'.size = s.size + (8 + p.length))
      (l.append crc p) := by
  have hset : ∀ t, (l.setActive t).segments = [t] := by
    intro t
    rw [Log.setActive, hseg]
    rfl
  have hwrite : Yields (fun r : Log × Except LogErr Log.Ticket => ∀ k, r.2 = .ok k →
      ∃ s', r.1.segments = [s'] ∧ s'.lastIndexed ≤ s.size ∧ s'.size = s.size + (8 + p.length))
      (l.writeActive crc s p) := by
    unfold Log.writeActive
    refine yields_bind (segmentAppend_notes crc s p) ?_
    rintro ⟨s', e | off⟩ hnotes
    · intro k hk
      cases hk
    · obtain ⟨s₁, hs₁, rfl⟩ := hnotes off rfl
      intro k _
      refine ⟨_, hset _, ?_, ?_⟩
      · rcases hs₁ with ⟨_, rfl⟩ | ⟨_, _, rfl⟩
        · exact hlags
        · exact le_refl _
      · rw [hs₁.fields.2.2.2.2]
  unfold Log.append Log.appendLocked
  rw [hactive]
  simp only [if_neg hroll]
  refine yields_bind hwrite ?_
  rintro ⟨l', e | k⟩ hl'
  · intro k hk
    cases hk
  · refine yields_bind (yields_true _) ?_
    intro r _ k' _
    exact hl' k rfl

/-- A record below 4 GiB that does not roll. -/
theorem Lone.append (h : Lone crc w l ps s) (hp : Legal p)
    (hroom : (s.size : Int) + (8 + p.length : Nat) ≤ l.opts.maxSegmentBytes)
    (hsize : s.size < maxIndexableSegment) :
    ∃ w' l' s', run LogOp.exec (l.append crc p) w = ((l', .ok ps.length), w') ∧
      Lone crc w' l' (ps ++ [p]) s' ∧ l'.opts = l.opts ∧ s'.lastIndexed ≤ s.size ∧
      s'.size = s.size + (8 + p.length) := by
  have hroll : ¬ l.rolls s p := fun hroll => by
    have := hroll.2
    rw [recordHeaderSize_eq] at this
    omega
  have haddr : Addressable l p := by
    intro t ht
    rw [h.active, Option.some.injEq] at ht
    exact Or.inr (ht ▸ hsize)
  obtain ⟨l', r, w', hrun, happ⟩ :=
    append_runs h.opened h.opened.healthy False.elim haddr h.calm
  obtain ⟨pss', hopen', _, hflat⟩ := happ.opened
  have hr := happ.result
  rw [if_pos hp] at hflat hr
  have hends := ends_run (LogOp.outcome_exec fun _ => False) (l.append crc p) w
  rw [hrun.run_eq] at hends
  obtain ⟨s', hseg', hlags', hsize'⟩ :=
    yields_of_ends hends (append_lags h.active h.segments h.lags hroll) _ hr
  -- one segment in memory, so one list of records on disk
  have hsegments := hopen'.segments
  rw [hseg'] at hsegments
  obtain ⟨ps', rfl⟩ := hsegments.singleton
  obtain rfl : ps' = ps ++ [p] := by
    simpa using hflat
  refine ⟨w', l', s', ?_, ⟨hopen', hseg', by omega, happ.calm⟩, happ.opts, hlags', hsize'⟩
  rw [hrun.run_eq, hr]
  simp

/-- Appends up to 4 GiB, one after the other.  The induction is on the payloads. -/
theorem Lone.fill {qs : List Bytes} (h : Lone crc w l ps s) (hlegal : ∀ q ∈ qs, Legal q)
    (hroom : s.size + (recordsBytes crc qs).length ≤ 2 ^ 32)
    (hmax : 2 ^ 32 ≤ l.opts.maxSegmentBytes) (rest : List Call) :
    ∃ w' l' s', Call.runAll crc (qs.map .append ++ rest) w l =
        Call.specAll (qs.map .append) ps ++ Call.runAll crc rest w' l' ∧
      Lone crc w' l' (ps ++ qs) s' ∧ l'.opts = l.opts := by
  induction qs generalizing w l ps s with
  | nil =>
      refine ⟨w, l, s, rfl, ?_, rfl⟩
      rw [List.append_nil]
      exact h
  | cons q qs ih =>
      rw [recordsBytes_cons, List.length_append, recordBytes_length] at hroom
      obtain ⟨w₁, l₁, s₁, hrun, hlone, hopts, _, hsize⟩ :=
        h.append (hlegal q List.mem_cons_self) (by omega) (by rw [maxIndexableSegment_eq]; omega)
      obtain ⟨w', l', s', hrest, hlone', hopts'⟩ :=
        ih hlone (fun q' hq' => hlegal q' (List.mem_cons_of_mem _ hq')) (by omega)
          (by rw [hopts]; exact hmax)
      refine ⟨w', l', s', ?_, ?_, hopts'.trans hopts⟩
      · simp only [List.map_cons, List.cons_append, Call.runAll, Call.run, hrun, Call.specAll,
          Call.spec, hrest]
      · rw [List.append_assoc] at hlone'
        exact hlone'

/-- From 4 GiB on a record that is due for an entry is written and then refused. -/
theorem append_past_limit (crc : Checksum) (w : World) (hactive : l.active = some s)
    (hp : Legal p) (hroll : ¬ l.rolls s p) (hsize : maxIndexableSegment ≤ s.size)
    (hdue : s.lastIndexed + indexIntervalBytes ≤ s.size) :
    (run LogOp.exec (l.append crc p) w).1.2 = .error (.indexPosition s.size) := by
  have hindex : ∀ k, s.maybeIndex k s.size = .done (.error (.indexPosition s.size)) :=
    fun _ => maybeIndex_refuse (by omega) hsize
  rw [Log.append, Log.appendLocked, hactive]
  simp only [if_neg hroll, Log.writeActive, Segment.append, encodeRecord_of_legal hp, hindex]
  rfl

end Beyond

section Exact

variable {crc : Checksum} {opts : Options}

/-- A payload of the largest legal size. -/
def fullBlock : Bytes :=
  List.replicate maxRecordSize 0

/-- A payload that brings a segment with 511 full blocks to 4 GiB. -/
def lastBlock : Bytes :=
  List.replicate 8384496 0

/-- The payloads of a segment of exactly 4 GiB. -/
def filling : List Bytes :=
  List.replicate 511 fullBlock ++ [lastBlock]

theorem length_fullBlock : fullBlock.length = 8388608 := by
  rw [fullBlock, List.length_replicate, maxRecordSize_eq]

theorem length_lastBlock : lastBlock.length = 8384496 := by
  rw [lastBlock, List.length_replicate]

theorem legal_fullBlock : Legal fullBlock := by
  rw [Legal, fullBlock, List.length_replicate]

theorem legal_lastBlock : Legal lastBlock := by
  rw [Legal, length_lastBlock, maxRecordSize_eq]
  omega

theorem length_recordsBytes_replicate (crc : Checksum) (n : Nat) (p : Bytes) :
    (recordsBytes crc (List.replicate n p)).length = n * (8 + p.length) := by
  induction n with
  | zero => simp
  | succ n ih =>
      rw [List.replicate_succ, recordsBytes_cons, List.length_append, ih, recordBytes_length,
        Nat.succ_mul, Nat.add_comm]

theorem specAll_appends (qs recs : List Bytes) :
    Call.specAll (qs.map .append) recs =
      (List.range qs.length).map fun k => .offset (.ok (recs.length + k)) := by
  induction qs generalizing recs with
  | nil => rfl
  | cons q qs ih =>
      rw [List.map_cons, Call.specAll, Call.spec, ih, List.length_cons, List.range_succ_eq_map,
        List.map_cons, List.map_map]
      congr 1
      apply List.map_congr_left
      intro k _
      rw [List.length_append, List.length_singleton, Function.comp_apply, Nat.add_assoc,
        Nat.add_comm 1 k]

theorem specAll_concat (qs recs : List Bytes) (q : Bytes) :
    Call.specAll ((qs ++ [q]).map .append) recs =
      Call.specAll (qs.map .append) recs ++ [.offset (.ok (recs.length + qs.length))] := by
  rw [specAll_appends, specAll_appends, List.length_append, List.length_singleton,
    List.range_succ, List.map_append]
  rfl

theorem sum_appends (qs : List Bytes) :
    ((qs.map Call.append).map Call.appends).sum = qs.length := by
  induction qs with
  | nil => rfl
  | cons q qs ih =>
      rw [List.map_cons, List.map_cons, List.sum_cons, ih, List.length_cons, Call.appends,
        Nat.add_comm]

theorem length_filling : filling.length = 512 := by
  rw [filling, List.length_append, List.length_replicate]
  rfl

theorem legal_filling : ∀ p ∈ filling ++ [[]], Legal p := by
  intro p hp
  rcases List.mem_append.mp hp with hp | hp
  · rcases List.mem_append.mp hp with hp | hp
    · rw [List.eq_of_mem_replicate hp]
      exact legal_fullBlock
    · rw [List.mem_singleton.mp hp]
      exact legal_lastBlock
  · rw [List.mem_singleton.mp hp]
    exact Nat.zero_le _

theorem lone_open (crc : Checksum) (opts : Options) :
    ∃ l w s, run LogOp.exec (openLog crc opts) World.new = (.ok l, w) ∧ Lone crc w l [] s ∧
      l.opts = opts.withDefaults := by
  obtain ⟨hrun, hopen⟩ := @openLog_empty_runs crc False World.new (onDisk_empty crc) opts
  exact ⟨_, _, newSegment 0, hrun.run_eq, ⟨hopen, rfl, le_refl _, rfl, rfl⟩, rfl⟩

/-- A log filled up to 4 GiB exactly, with an index entry due for the next record. -/
theorem Lone.filled {w : World} {l : Log} {s : Segment} (h : Lone crc w l [] s)
    (hmax : 2 ^ 32 ≤ l.opts.maxSegmentBytes) (rest : List Call) :
    ∃ w' l' s', Call.runAll crc (filling.map .append ++ rest) w l =
        Call.specAll (filling.map .append) [] ++ Call.runAll crc rest w' l' ∧
      Lone crc w' l' filling s' ∧ l'.opts = l.opts ∧ s'.size = 4294967296 ∧
      s'.lastIndexed + indexIntervalBytes ≤ s'.size := by
  have hsize : s.size = 16 := h.openSegment.size
  have hlegal : ∀ q ∈ List.replicate 511 fullBlock, Legal q :=
    fun q hq => List.eq_of_mem_replicate hq ▸ legal_fullBlock
  have hfull := length_recordsBytes_replicate crc 511 fullBlock
  rw [length_fullBlock] at hfull
  obtain ⟨w₁, l₁, s₁, hfill, hlone₁, hopts₁⟩ :=
    h.fill hlegal (by omega) hmax (.append lastBlock :: rest)
  have hsize₁ : s₁.size = 4286582792 := by
    rw [hlone₁.openSegment.size, List.nil_append, position_length, hfull]
  obtain ⟨w₂, l₂, s₂, hrun, hlone₂, hopts₂, hlags, hsize₂⟩ :=
    hlone₁.append legal_lastBlock (by rw [hsize₁, length_lastBlock, hopts₁]; omega)
      (by rw [hsize₁, maxIndexableSegment_eq]; omega)
  rw [hsize₁, length_lastBlock] at hsize₂
  refine ⟨w₂, l₂, s₂, ?_, hlone₂, hopts₂.trans hopts₁, hsize₂, ?_⟩
  · rw [filling, specAll_concat, List.map_append, List.append_assoc, List.map_singleton,
      List.singleton_append, hfill, List.append_assoc, Call.runAll, Call.run, hrun]
    simp only [List.nil_append, List.length_nil, Nat.zero_add, List.singleton_append]
  · rw [hsize₂, indexIntervalBytes_eq]
    omega

/-- With a threshold from 4 GiB + 8 on, a segment filled up to 4 GiB refuses the next record. -/
theorem runAll_filling (hmax : 2 ^ 32 + 8 ≤ opts.withDefaults.maxSegmentBytes) :
    ∃ l w, run LogOp.exec (openLog crc opts) World.new = (.ok l, w) ∧
      Call.runAll crc ((filling ++ [[]]).map .append) w l =
        Call.specAll (filling.map .append) [] ++
          [.offset (.error (.indexPosition 4294967296))] := by
  obtain ⟨l, w, s, hrun, hlone, hopts⟩ := lone_open crc opts
  rw [← hopts] at hmax
  obtain ⟨w', l', s', hfill, hlone', hopts', hsize, hdue⟩ :=
    hlone.filled (by omega) [.append []]
  have hroll : ¬ l'.rolls s' [] := by
    rintro ⟨_, hlarge⟩
    rw [hsize, hopts', recordHeaderSize_eq, List.length_nil] at hlarge
    omega
  have hlast := append_past_limit crc w' (p := []) hlone'.active (Nat.zero_le _) hroll
    (by rw [hsize, maxIndexableSegment_eq]) hdue
  refine ⟨l, w, hrun, ?_⟩
  rw [List.map_append, List.map_singleton, hfill]
  simp only [Call.runAll, Call.run, hlast, hsize]

/-- A log takes every legal payload exactly if its roll threshold is below 4 GiB + 8. -/
theorem unfailing_iff (crc : Checksum) (opts : Options) :
    Unfailing crc opts ↔ opts.withDefaults.maxSegmentBytes < 2 ^ 32 + 8 := by
  constructor
  · intro h
    by_contra hlarge
    have hcalls : ∀ c ∈ (filling ++ [[]]).map Call.append, c.Under opts := by
      refine List.forall_mem_map.mpr fun p hp => ?_
      exact legal_filling p hp
    obtain ⟨l, w, hrun, hserved, _⟩ := h _ hcalls (by
      rw [sum_appends, List.length_append, length_filling]
      decide)
    obtain ⟨l', w', hrun', hfails⟩ := @runAll_filling crc opts (by omega)
    rw [hrun, Prod.mk.injEq, Except.ok.injEq] at hrun'
    obtain ⟨rfl, rfl⟩ := hrun'
    -- the list never answers with an error
    rw [hserved, specAll_concat, List.append_cancel_left_eq] at hfails
    cases hfails
  · intro hmax calls hcalls hfit
    obtain ⟨l, w, hrun, hcarries, hopts⟩ := carries_open_empty crc opts
    exact ⟨l, w, hrun, runAll_carries hcarries hopts hmax hcalls (by simpa using hfit)⟩

/-- Segments of up to 8 GiB: 512 records fill the first one up to 4 GiB, and an empty payload
does not fit any more. -/
theorem append_fails_at_limit :
    (∀ p ∈ filling ++ [[]], Legal p) ∧
      session crc32c ⟨2 ^ 33, .never, 0⟩ ((filling ++ [[]]).map .append) =
        .ok ((List.range 512).map (fun k => .offset (.ok k)) ++
          [.offset (.error (.indexPosition 4294967296))]) := by
  refine ⟨legal_filling, ?_⟩
  obtain ⟨l, w, hrun, hfails⟩ := @runAll_filling crc32c ⟨2 ^ 33, .never, 0⟩ (by decide)
  unfold session
  simp only [hrun]
  rw [hfails, specAll_appends, length_filling]
  simp only [List.length_nil, Nat.zero_add]

end Exact

end LedgerLine.Broker
