import LedgerLine.Broker.AppendSpec

/-!
# The log is a list of payloads

A session is an open log and the calls made on it: appends, reads, questions for
the next offset, and closing the log and opening it again.  The abstract machine
answers the same calls from a plain list of payloads, and no sequence of calls tells
the two apart.

The step of the proof is `call_carries`: one call that the options leave room for keeps the
log in line with the list and gives the same answer on both sides.  With segments up to 4 GiB
there always is room, so every call keeps the relation `Holds` (`call_refines`).  Offsets are
`uint64`, so a session makes fewer than `2 ^ 64` appends.
-/

namespace LedgerLine.Broker

open Program

/-- The calls on a log. -/
inductive Call
  | append (payload : Bytes)
  | read (offset : Nat)
  | nextOffset
  /-- `Close`, and `Open` on the same directory. -/
  | reopen (opts : Options)
deriving DecidableEq

/-- What they answer. -/
inductive Answer
  | offset (r : Except LogErr Nat)
  | payload (r : Except LogErr Bytes)
  | next (n : Nat)
  | opened (r : Except LogErr Unit)
deriving DecidableEq

namespace Call

section Machine

variable (crc : Checksum)

/-- A call on the log. -/
def run : Call → World → Log → Answer × World × Log
  | append p, w, l =>
      let ((l', r), w') := Program.run LogOp.exec (l.append crc p) w
      (.offset r, w', l')
  | read k, w, l => (.payload (l.read crc w.dir k), w, l)
  | nextOffset, w, l => (.next l.nextOffset, w, l)
  | reopen opts, w, l =>
      match Program.run LogOp.exec (openLog crc opts) { w with coord := Coord.new } with
      | (.ok l', w') => (.opened (.ok ()), w', l')
      | (.error e, w') => (.opened (.error e), w', l)

/-- The answers to a sequence of calls. -/
def runAll : List Call → World → Log → List Answer
  | [], _, _ => []
  | c :: cs, w, l =>
      let (a, w', l') := c.run crc w l
      a :: runAll cs w' l'

end Machine

/-- A call on a list of payloads. -/
def spec : Call → List Bytes → Answer × List Bytes
  | append p, recs => (.offset (.ok recs.length), recs ++ [p])
  | read k, recs =>
      match recs[k]? with
      | some p => (.payload (.ok p), recs)
      | none => (.payload (.error (.offsetOutOfRange k)), recs)
  | nextOffset, recs => (.next recs.length, recs)
  | reopen _, recs => (.opened (.ok ()), recs)

/-- The answers of the list to a sequence of calls. -/
def specAll : List Call → List Bytes → List Answer
  | [], _ => []
  | c :: cs, recs => (c.spec recs).1 :: specAll cs (c.spec recs).2

/-- The calls of the contract: payloads up to `MaxRecordSize`, segments up to 4 GiB. -/
def Bounded : Call → Prop
  | append p => Legal p
  | reopen opts => opts.maxSegmentBytes ≤ 2 ^ 32
  | _ => True

instance : (c : Call) → Decidable c.Bounded
  | append p => inferInstanceAs (Decidable (Legal p))
  | reopen opts => inferInstanceAs (Decidable (opts.maxSegmentBytes ≤ 2 ^ 32))
  | read _ => isTrue trivial
  | nextOffset => isTrue trivial

/-- How many records a call adds. -/
def appends : Call → Nat
  | append _ => 1
  | _ => 0

end Call

/-- A world nothing has happened in. -/
def World.new : World := ⟨Dir.empty, Coord.new⟩

/-- Open a log in an empty directory and make the calls. -/
def session (crc : Checksum) (opts : Options) (calls : List Call) :
    Except LogErr (List Answer) :=
  match Program.run LogOp.exec (openLog crc opts) World.new with
  | (.error e, _) => .error e
  | (.ok l, w) => .ok (Call.runAll crc calls w l)

section Simulation

variable (crc : Checksum)

/-- The log in memory and on disk holds the list of payloads, whatever its options. -/
structure Carries (w : World) (l : Log) (recs : List Bytes) : Prop where
  opened : ∃ pss, OpenLog crc w.dir pss l ∧ pss.flatten = recs
  calm : Calm w.coord

/-- The log in memory and on disk holds the list of payloads. -/
structure Holds (w : World) (l : Log) (recs : List Bytes) : Prop where
  opened : ∃ pss, OpenLog crc w.dir pss l ∧ pss.flatten = recs
  bounded : l.opts.maxSegmentBytes ≤ 2 ^ 32
  calm : Calm w.coord

variable {crc}
variable {d : Dir Path} {pss : List (List Bytes)} {l : Log} {w : World} {recs : List Bytes}

/-- An open log is healthy; nothing is asked about what is durable. -/
theorem OpenLog.healthy (h : OpenLog crc d pss l) : Healthy crc False d pss :=
  ⟨h.onDisk, False.elim, h.nonempty⟩

/-- Below 4 GiB and a record header every record starts where an index entry can point: what
does not roll ends at the limit or before, and starts a header earlier. -/
theorem addressable_of_lt (h : OpenLog crc d pss l)
    (hmax : l.opts.maxSegmentBytes < 2 ^ 32 + 8) (p : Bytes) : Addressable l p := by
  obtain ⟨pss, ps, rfl⟩ := List.eq_nil_or_concat' pss |>.resolve_left h.nonempty
  obtain ⟨init, s, hseg, _, hs⟩ := h.active_open
  intro t ht
  rw [active_of_segments hseg, Option.some.injEq] at ht
  subst ht
  by_cases hroll : l.rolls s p
  · exact Or.inl hroll
  · right
    rw [maxIndexableSegment_eq]
    rcases not_and_or.mp hroll with hempty | hsmall
    · -- the first record of a segment follows the header
      rw [hs.next, hs.base] at hempty
      have hnil : ps = [] := List.length_eq_zero_iff.mp (by omega)
      rw [hs.size, hnil]
      simp
    · rw [recordHeaderSize_eq] at hsmall
      omega

theorem addressable_of_le (h : OpenLog crc d pss l) (hmax : l.opts.maxSegmentBytes ≤ 2 ^ 32)
    (p : Bytes) : Addressable l p :=
  addressable_of_lt h (by omega) p

variable {opts : Options} {c : Call}

theorem withDefaults_le (h : opts.maxSegmentBytes ≤ 2 ^ 32) :
    opts.withDefaults.maxSegmentBytes ≤ 2 ^ 32 := by
  unfold Options.withDefaults
  simp only
  split_ifs
  · decide
  · exact h

theorem onDisk_empty (crc : Checksum) : OnDisk crc Dir.empty [] :=
  ⟨Dir.tidy_empty, List.Perm.refl _, List.Pairwise.nil, by simp [Dir.empty], by simp, by simp,
    trivial⟩

/-- Opening an empty directory. -/
theorem carries_open_empty (crc : Checksum) (opts : Options) :
    ∃ l w, Program.run LogOp.exec (openLog crc opts) World.new = (.ok l, w) ∧
      Carries crc w l [] ∧ l.opts = opts.withDefaults := by
  obtain ⟨hrun, hopen⟩ := @openLog_empty_runs crc False World.new (onDisk_empty crc) opts
  exact ⟨_, _, hrun.run_eq, ⟨⟨[[]], hopen, rfl⟩, rfl, rfl⟩, rfl⟩

theorem holds_open_empty (crc : Checksum) (h : opts.maxSegmentBytes ≤ 2 ^ 32) :
    ∃ l w, Program.run LogOp.exec (openLog crc opts) World.new = (.ok l, w) ∧
      Holds crc w l [] := by
  obtain ⟨l, w, hrun, hcarries, hopts⟩ := carries_open_empty crc opts
  refine ⟨l, w, hrun, hcarries.opened, ?_, hcarries.calm⟩
  rw [hopts]
  exact withDefaults_le h

/-- Opening a log again. -/
theorem carries_reopen (h : Carries crc w l recs) (hfit : recs.length < 2 ^ 64) (opts : Options) :
    ∃ l' w', Program.run LogOp.exec (openLog crc opts) { w with coord := Coord.new } =
        (.ok l', w') ∧ Carries crc w' l' recs ∧ l'.opts = opts.withDefaults := by
  obtain ⟨pss, hopen, rfl⟩ := h.opened
  have hsum : ((fulls pss).map Part.kept).sum < 2 ^ 64 := by
    rw [fulls_kept, ← List.length_flatten]
    exact hfit
  have hne : fulls pss ≠ [] := by
    simpa [fulls] using hopen.nonempty
  obtain ⟨ss, w', hrun, hopen'⟩ :=
    @openLog_runs crc _ { w with coord := Coord.new } hopen.onDisk hne hsum opts
  rw [fulls_records] at hopen'
  refine ⟨_, w', hrun.run_eq, ⟨⟨pss, hopen', rfl⟩, ?_⟩, rfl⟩
  rw [hrun.final.2]
  exact ⟨rfl, rfl⟩

theorem holds_reopen (h : Holds crc w l recs) (hfit : recs.length < 2 ^ 64)
    (hopts : opts.maxSegmentBytes ≤ 2 ^ 32) :
    ∃ l' w', Program.run LogOp.exec (openLog crc opts) { w with coord := Coord.new } =
        (.ok l', w') ∧ Holds crc w' l' recs := by
  obtain ⟨l', w', hrun, hcarries, heq⟩ := carries_reopen ⟨h.opened, h.calm⟩ hfit opts
  refine ⟨l', w', hrun, hcarries.opened, ?_, hcarries.calm⟩
  rw [heq]
  exact withDefaults_le hopts

/-- The calls a log can take: a legal payload that rolls or finds its segment small enough. -/
def Call.Takes (l : Log) : Call → Prop
  | append p => Legal p ∧ Addressable l p
  | _ => True

/-- The options of the log after a call. -/
def Call.options : Call → Options → Options
  | reopen opts, _ => opts.withDefaults
  | _, opts => opts

/-- One call: the same answer, and the log holds the list again. -/
theorem call_carries (h : Carries crc w l recs) (hc : c.Takes l) (hfit : recs.length < 2 ^ 64) :
    (c.run crc w l).1 = (c.spec recs).1 ∧
      Carries crc (c.run crc w l).2.1 (c.run crc w l).2.2 (c.spec recs).2 ∧
      (c.run crc w l).2.2.opts = c.options l.opts := by
  cases c with
  | append p =>
      obtain ⟨pss, hopen, rfl⟩ := h.opened
      obtain ⟨hp, haddr⟩ := hc
      obtain ⟨l', r, w', hrun, happ⟩ := append_runs hopen hopen.healthy False.elim haddr h.calm
      obtain ⟨pss', hopen', _, hflat⟩ := happ.opened
      have hr := happ.result
      rw [if_pos hp] at hflat hr
      simp only [Call.run, Call.spec, hrun.run_eq, hr]
      exact ⟨trivial, ⟨⟨pss', hopen', hflat⟩, happ.calm⟩, happ.opts⟩
  | read k =>
      obtain ⟨pss, hopen, rfl⟩ := h.opened
      simp only [Call.run, Call.spec, hopen.read_eq]
      cases pss.flatten[k]? with
      | none | some p => exact ⟨rfl, h, rfl⟩
  | nextOffset =>
      obtain ⟨pss, hopen, hflat⟩ := h.opened
      refine ⟨?_, h, rfl⟩
      simp only [Call.run, Call.spec, hopen.nextOffset_eq, hflat]
  | reopen opts =>
      obtain ⟨l', w', hrun, hcarries, hopts⟩ := carries_reopen h hfit opts
      simp only [Call.run, Call.spec, hrun]
      exact ⟨trivial, hcarries, hopts⟩

theorem Holds.takes (h : Holds crc w l recs) (hc : c.Bounded) : c.Takes l := by
  cases c with
  | append p =>
      obtain ⟨pss, hopen, _⟩ := h.opened
      exact ⟨hc, addressable_of_le hopen h.bounded p⟩
  | read k | nextOffset | reopen opts => trivial

/-- One call of the contract. -/
theorem call_refines (h : Holds crc w l recs) (hc : c.Bounded) (hfit : recs.length < 2 ^ 64) :
    (c.run crc w l).1 = (c.spec recs).1 ∧
      Holds crc (c.run crc w l).2.1 (c.run crc w l).2.2 (c.spec recs).2 := by
  obtain ⟨hanswer, hcarries, hopts⟩ := call_carries ⟨h.opened, h.calm⟩ (h.takes hc) hfit
  refine ⟨hanswer, hcarries.opened, ?_, hcarries.calm⟩
  rw [hopts]
  cases c with
  | reopen opts => exact withDefaults_le hc
  | append p | read k | nextOffset => exact h.bounded

/-- A call adds what it says. -/
theorem length_spec (c : Call) (recs : List Bytes) :
    (c.spec recs).2.length = recs.length + c.appends := by
  cases c with
  | append p =>
      simp [Call.spec, Call.appends]
  | read k =>
      simp only [Call.spec, Call.appends]
      split <;> rfl
  | nextOffset | reopen opts => rfl

/-- Any sequence of calls: the answers of the list.  The induction is on the calls. -/
theorem runAll_refines {calls : List Call} (h : Holds crc w l recs)
    (hcalls : ∀ c ∈ calls, c.Bounded) (hfit : recs.length + (calls.map Call.appends).sum < 2 ^ 64) :
    Call.runAll crc calls w l = Call.specAll calls recs := by
  induction calls generalizing w l recs with
  | nil => rfl
  | cons c cs ih =>
      rw [List.map_cons, List.sum_cons] at hfit
      obtain ⟨hanswer, hholds⟩ := call_refines h (hcalls c (by simp)) (by omega)
      have htail := ih hholds (fun c' hc' => hcalls c' (by simp [hc']))
        (by rw [length_spec]; omega)
      simp only [Call.runAll, Call.specAll]
      rw [hanswer, htail]

/-- The log refines a plain list of payloads: from an empty directory, any sequence of
appends, reads, questions for the next offset and reopenings is answered as the list
answers it. -/
theorem session_eq_spec (crc : Checksum) (opts : Options) (calls : List Call)
    (hopts : opts.maxSegmentBytes ≤ 2 ^ 32) (hcalls : ∀ c ∈ calls, c.Bounded)
    (hfit : (calls.map Call.appends).sum < 2 ^ 64) :
    session crc opts calls = .ok (Call.specAll calls []) := by
  obtain ⟨l, w, hopen, hholds⟩ := holds_open_empty crc hopts
  unfold session
  simp only [hopen]
  rw [runAll_refines hholds hcalls (by simpa using hfit)]

/-- Segments of 40 bytes: every second append starts a new one, and the log is closed
and opened again with larger ones in between. -/
theorem session_eq_spec_rolling :
    session crc32c ⟨40, .group, 0⟩
        [.append [1, 2], .append [3], .nextOffset, .reopen ⟨0, .never, 0⟩, .append [], .read 0,
          .read 2, .read 3] =
      .ok [.offset (.ok 0), .offset (.ok 1), .next 2, .opened (.ok ()), .offset (.ok 2),
        .payload (.ok [1, 2]), .payload (.ok []), .payload (.error (.offsetOutOfRange 3))] :=
  session_eq_spec crc32c ⟨40, .group, 0⟩
    [.append [1, 2], .append [3], .nextOffset, .reopen ⟨0, .never, 0⟩, .append [], .read 0,
      .read 2, .read 3] (by decide) (by decide) (by decide)

end Simulation

end LedgerLine.Broker
