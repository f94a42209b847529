import LedgerLine.Broker.Kill
import LedgerLine.Broker.Landing

/-!
# What a roll can leave behind

When the active segment is full, `Append` of `broker/log/log.go` first rolls: it flushes the
outgoing segment, creates the next segment file, writes its header and opens its index.
Only then it looks at the payload.

* An oversized payload is refused, but after the roll: the refusal leaves everything as it
  was exactly if the append did not roll (`oversized_iff`).
* When a file operation of the roll fails, the log in memory stays as it was, but a segment
  file that has been created stays too.  No later roll can create it again, and without its
  header the directory cannot be opened (`failed_roll_iff`).
-/

namespace LedgerLine.Broker

open Program

variable {crc : Checksum} {l : Log} {s : Segment} {payload : Bytes}

/-! ### Oversized payloads -/

theorem setActive_active (hactive : l.active = some s) : l.setActive s = l := by
  have hlast : l.segments.dropLast ++ [s] = l.segments :=
    List.dropLast_append_getLast? s hactive
  rw [Log.setActive, hlast]

theorem segmentAppend_of_not_legal (s : Segment) (h : ¬ Legal payload) :
    s.append crc payload = .done (s, .error (.recordTooLarge payload.length)) := by
  rw [Segment.append, encodeRecord_of_not_legal h]
  rfl

/-- Without a roll the refusal is all there is. -/
theorem append_of_not_rolls (hactive : l.active = some s) (hlong : ¬ Legal payload)
    (hroll : ¬ l.rolls s payload) :
    l.append crc payload = .done (l, .error (.recordTooLarge payload.length)) := by
  rw [Log.append, Log.appendLocked, hactive]
  simp only [if_neg hroll]
  rw [Log.writeActive, segmentAppend_of_not_legal s hlong]
  simp only [done_bind, pure_eq, setActive_active hactive]

/-- An error of a file operation. -/
def IsIo {α : Type} (r : Except LogErr α) : Prop :=
  ∃ e, r = .error (.io e)

theorem openIndex_fails (path : Path) :
    Yields (fun r => IsIo r ∨ ∃ ix, r = .ok ix) (openIndex path) := by
  unfold openIndex
  refine yields_fs ?_
  rintro (e | _)
  · exact .inl ⟨e, rfl⟩
  refine yields_fs ?_
  rintro (e | size)
  · exact .inl ⟨e, rfl⟩
  simp only
  split_ifs
  · exact .inr ⟨_, rfl⟩
  refine yields_fs ?_
  rintro (e | raw)
  · exact .inr ⟨_, rfl⟩
  simp only
  split_ifs
  · exact .inr ⟨_, rfl⟩
  · exact .inr ⟨_, rfl⟩

theorem createSegment_fails (b : Nat) :
    Yields (fun r => IsIo r ∨ ∃ s, r = .ok s) (createSegment b) := by
  unfold createSegment
  refine yields_fs ?_
  rintro (e | _)
  · exact .inl ⟨e, rfl⟩
  refine yields_fs ?_
  rintro (e | _)
  · exact .inl ⟨e, rfl⟩
  refine yields_bind (openIndex_fails _) ?_
  rintro r (⟨e, rfl⟩ | ⟨ix, rfl⟩)
  · exact .inl ⟨e, rfl⟩
  · exact .inr ⟨_, rfl⟩

theorem sync_fails (s : Segment) : Yields (fun r => IsIo r ∨ r = .ok ()) s.sync := by
  unfold Segment.sync
  refine yields_fs ?_
  rintro (e | _)
  · exact .inl ⟨e, rfl⟩
  refine yields_fs ?_
  rintro (e | _)
  · exact .inl ⟨e, rfl⟩
  · exact .inr rfl

/-- A roll with an oversized payload fails in a file operation, or leaves one more segment. -/
theorem rollTo_shows (hlong : ¬ Legal payload) :
    Yields (fun r => IsIo r.2 ∨
        (∃ e, r.2 = .error e) ∧ r.1.segments.length = l.segments.length + 1)
      (l.rollTo crc s payload) := by
  unfold Log.rollTo
  refine yields_bind (createSegment_fails _) ?_
  rintro r (⟨e, rfl⟩ | ⟨next, rfl⟩)
  · exact .inl ⟨e, rfl⟩
  · simp only [Log.writeActive, segmentAppend_of_not_legal next hlong, done_bind, pure_eq]
    refine .inr ⟨⟨_, rfl⟩, ?_⟩
    simp [Log.setActive]

theorem append_shows (hactive : l.active = some s) (hlong : ¬ Legal payload)
    (hroll : l.rolls s payload) :
    Yields (fun r => IsIo r.2 ∨ r.1.segments.length = l.segments.length + 1)
      (l.append crc payload) := by
  have hlocked : Yields (fun r => IsIo r.2 ∨
      (∃ e, r.2 = .error e) ∧ r.1.segments.length = l.segments.length + 1)
      (l.appendLocked crc payload) := by
    unfold Log.appendLocked
    rw [hactive]
    simp only [if_pos hroll]
    split_ifs
    · exact rollTo_shows hlong
    · refine yields_bind (sync_fails s) ?_
      rintro r (⟨e, rfl⟩ | rfl)
      · exact .inl ⟨e, rfl⟩
      · intro _
        exact rollTo_shows hlong
  unfold Log.append
  refine yields_bind hlocked ?_
  rintro ⟨l', r⟩ (⟨e, hr⟩ | ⟨⟨e, hr⟩, hlen⟩)
  · cases hr
    exact .inl ⟨e, rfl⟩
  · cases hr
    exact .inr hlen

/-- Whatever becomes of its file operations, an oversized append is refused with everything as
it was exactly if it does not roll. -/
theorem oversized_iff {mayFail : FsOp Path → Prop} {w w' : World} {r : Log × Except LogErr Nat}
    (hactive : l.active = some s) (hlong : maxRecordSize < payload.length)
    (hrun : Ends (LogOp.Outcome mayFail) (l.append crc payload) w r w') :
    (r = (l, .error (.recordTooLarge payload.length)) ∧ w' = w) ↔ ¬ l.rolls s payload := by
  have hlegal : ¬ Legal payload := Nat.not_le.2 hlong
  constructor
  · rintro ⟨rfl, -⟩ hroll
    rcases yields_of_ends hrun (append_shows hactive hlegal hroll) with ⟨e, he⟩ | hlen
    · cases he
    · exact absurd hlen (Nat.succ_ne_self _).symm
  · intro hroll
    rw [append_of_not_rolls hactive hlegal hroll] at hrun
    cases hrun
    exact ⟨rfl, rfl⟩

/-- One byte too many. -/
@[irreducible] def hugePayload : Bytes :=
  List.replicate (maxRecordSize + 1) 0

theorem length_hugePayload : hugePayload.length = maxRecordSize + 1 := by
  rw [hugePayload, List.length_replicate]

theorem lt_length_hugePayload : maxRecordSize < hugePayload.length := by
  rw [length_hugePayload]
  exact Nat.lt_succ_self _

/-- Nothing is rolled while the active segment is empty. -/
theorem oversized_first :
    let opened := run LogOp.exec (openLog crc32c ⟨30, .always, 0⟩) World.new
    opened.1 = .ok firstLog ∧
      (run LogOp.exec (firstLog.append crc32c hugePayload) opened.2).1 =
        (firstLog, .error (.recordTooLarge hugePayload.length)) ∧
      (run LogOp.exec (firstLog.append crc32c hugePayload) opened.2).2 = opened.2 :=
  ⟨by decide +kernel, (oversized_iff (s := newSegment 0) rfl lt_length_hugePayload
    (ends_run (LogOp.outcome_exec fun _ => False) _ _)).2
    fun hroll => absurd hroll.1 (by decide)⟩

/-- The segment of one record of one byte. -/
def oneRecordSegment : Segment :=
  { file := .segment 0
    index := ⟨.index 0, [⟨0, 16⟩]⟩
    baseOffset := 0
    nextOffset := 1
    size := 25
    lastIndexed := 16 }

/-- A log with segments of 30 bytes after one append. -/
def oneRecordLog : Log :=
  ⟨⟨30, .always, 100⟩, [oneRecordSegment], 1, 1⟩

/-- Its directory. -/
def oneRecordWorld : World :=
  (run LogOp.exec (firstLog.append crc32c [1])
    (run LogOp.exec (openLog crc32c ⟨30, .always, 0⟩) World.new).2).2

theorem killRun_oneRecord :
    KillRun crc32c HeadersWritten WithinRange (.up oneRecordWorld oneRecordLog) [(0, [1])] := by
  have h₁ := @KillRun.opened crc32c HeadersWritten WithinRange _ _ ⟨30, .always, 0⟩ firstLog
    .start (by decide +kernel)
  have h₂ := KillRun.appended [1] h₁ (by decide +kernel)
  have hlog : (run LogOp.exec (firstLog.append crc32c [1])
      (run LogOp.exec (openLog crc32c ⟨30, .always, 0⟩) World.new).2).1 =
      (oneRecordLog, .ok 0) := by
    decide +kernel
  rw [show (⟨Dir.empty, Coord.new⟩ : World) = World.new from rfl, hlog] at h₂
  exact h₂

/-- After one record in segments of 30 bytes the refusal leaves a second segment. -/
theorem oversized_leaves_segment :
    KillRun crc32c HeadersWritten WithinRange (.up oneRecordWorld oneRecordLog) [(0, [1])] ∧
      maxRecordSize < hugePayload.length ∧
      (run LogOp.exec (oneRecordLog.append crc32c hugePayload) oneRecordWorld).1.2 =
        .error (.recordTooLarge hugePayload.length) ∧
      (run LogOp.exec (oneRecordLog.append crc32c hugePayload)
        oneRecordWorld).1.1.segments.length = 2 := by
  obtain ⟨pss, hopen, hcalm, -⟩ := killInv_of_run killRun_oneRecord
  have hlegal : ¬ Legal hugePayload := Nat.not_le.2 lt_length_hugePayload
  have hroll : oneRecordLog.rolls oneRecordSegment hugePayload := by
    refine ⟨by decide, ?_⟩
    rw [length_hugePayload]
    decide
  have haddr : Addressable oneRecordLog hugePayload := by
    rintro s ⟨⟩
    exact .inl hroll
  obtain ⟨l', r, w', hrun, happ⟩ := append_runs hopen hopen.healthy False.elim haddr hcalm
  have hresult := happ.result
  rw [if_neg hlegal] at hresult
  have hactive : oneRecordLog.active = some oneRecordSegment := by decide
  have hends := ends_run (LogOp.outcome_exec fun _ => False)
    (oneRecordLog.append crc32c hugePayload) oneRecordWorld
  have hshows := yields_of_ends hends
    (@append_shows crc32c oneRecordLog oneRecordSegment hugePayload hactive hlegal hroll)
  rw [hrun.run_eq] at hshows ⊢
  refine ⟨killRun_oneRecord, lt_length_hugePayload, hresult, ?_⟩
  rcases hshows with ⟨e, he⟩ | hlen
  · cases he.symm.trans hresult
  · exact hlen

/-! ### A file operation of the roll fails -/

deriving instance DecidableEq for FsOp

/-- The operation `bad` fails, a write with its first `j` bytes done; all others succeed. -/
def LogOp.execFailing (bad : FsOp Path) (j : Nat) : (o : LogOp) → World → LogOp.Resp o × World
  | fs o, w =>
      if o = bad then (o.failed, { w with dir := o.residue j w.dir }) else LogOp.exec (fs o) w
  | coord o, w => LogOp.exec (coord o) w

/-- The operations of a roll, in order, as those that fail. -/
inductive RollFault
  | syncSegment
  | syncIndex
  | create
  /-- Writing the header, with its first bytes written. -/
  | header (written : Nat)
  | openIndex
  | statIndex
deriving DecidableEq, Repr

namespace RollFault

/-- The operation, where `s` is the outgoing segment. -/
def op (s : Segment) : RollFault → FsOp Path
  | syncSegment => .fsync s.file
  | syncIndex => .fsync s.index.file
  | create => .createExcl (.segment s.nextOffset)
  | header _ => .writeAt (.segment s.nextOffset) 0 (headerBytes s.nextOffset)
  | openIndex => .openCreate (.index s.nextOffset)
  | statIndex => .stat (.index s.nextOffset)

/-- How much of a write has been done. -/
def written : RollFault → Nat
  | header j => j
  | _ => 0

/-- The outgoing segment is only flushed if the policy asks for it. -/
def Occurs (l : Log) : RollFault → Prop
  | syncSegment => l.opts.sync ≠ .never
  | syncIndex => l.opts.sync ≠ .never
  | _ => True

/-- The world when the new segment file is created. -/
def ready (l : Log) (s : Segment) (w : World) : World :=
  if l.opts.sync = .never then w else ⟨flushed w.dir s, w.coord.markSynced l.seq⟩

/-- What failing to create the segment `b` leaves of a directory. -/
def leavesOf (b : Nat) (d : Dir Path) : RollFault → Dir Path
  | header j =>
      (headless d b).set (.segment b) (File.empty.write 0 ((headerBytes b).take j))
  | openIndex => headed d b
  | statIndex => born d b
  | _ => d

/-- What the failed roll leaves. -/
def leaves (l : Log) (s : Segment) (w : World) : RollFault → World
  | syncSegment => w
  | syncIndex => { w with dir := w.dir.set s.file (w.dir.file s.file).fsync }
  | fault =>
      { ready l s w with dir := fault.leavesOf s.nextOffset (ready l s w).dir }

end RollFault

section Executed

variable (exec : (o : LogOp) → World → LogOp.Resp o × World) {w w₀ w₁ : World} {e : LogErr}

/-- The outgoing segment is flushed, or need not be. -/
def Readied (l : Log) (s : Segment) (w w₀ : World) : Prop :=
  (l.opts.sync = .never ∧ w₀ = w) ∨
    (l.opts.sync ≠ .never ∧ ∃ u, run exec s.sync w = (.ok (), u) ∧
      exec (.coord (.markSynced l.seq)) u = ((), w₀))

/-- A roll whose new segment cannot be created. -/
theorem run_append_of_create (hactive : l.active = some s) (hroll : l.rolls s payload)
    (hready : Readied exec l s w w₀)
    (hcreate : run exec (createSegment s.nextOffset) w₀ = (.error e, w₁)) :
    run exec (l.append crc payload) w = ((l, .error e), w₁) := by
  have hrollTo : run exec (l.rollTo crc s payload) w₀ = ((l, .error e), w₁) := by
    rw [Log.rollTo, run_bind, hcreate]
    rfl
  have hlocked : run exec (l.appendLocked crc payload) w = ((l, .error e), w₁) := by
    rw [Log.appendLocked, hactive]
    simp only [if_pos hroll]
    rcases hready with ⟨hnever, rfl⟩ | ⟨hflush, u, hsync, hmark⟩
    · rw [if_pos hnever]
      exact hrollTo
    · rw [if_neg hflush, run_bind, hsync]
      change run exec (l.rollTo crc s payload) (exec (.coord (.markSynced l.seq)) u).2 = _
      rw [hmark]
      exact hrollTo
  rw [Log.append, run_bind, hlocked]
  rfl

/-- A roll whose outgoing segment cannot be flushed. -/
theorem run_append_of_sync (hactive : l.active = some s) (hroll : l.rolls s payload)
    (hflush : l.opts.sync ≠ .never) (hsync : run exec s.sync w = (.error e, w₁)) :
    run exec (l.append crc payload) w = ((l, .error e), w₁) := by
  have hlocked : run exec (l.appendLocked crc payload) w = ((l, .error e), w₁) := by
    rw [Log.appendLocked, hactive]
    simp only [if_pos hroll]
    rw [if_neg hflush, run_bind, hsync]
    rfl
  rw [Log.append, run_bind, hlocked]
  rfl

end Executed

section Faulty

variable {α : Type} {bad o : FsOp Path} {j : Nat} {w : World} {k : o.Resp → LogProgram α}

/-- An operation that does not fail. -/
theorem run_fs_ne (h : o ≠ bad) :
    run (LogOp.execFailing bad j) (fs o >>= k) w =
      run (LogOp.execFailing bad j) (k (o.exec w.dir).1) { w with dir := (o.exec w.dir).2 } := by
  have hexec : LogOp.execFailing bad j (.fs o) w = LogOp.exec (.fs o) w := if_neg h
  change run _ (k (LogOp.execFailing bad j (.fs o) w).1) (LogOp.execFailing bad j (.fs o) w).2 = _
  rw [hexec]
  rfl

/-- The operation that fails. -/
theorem run_fs_self :
    run (LogOp.execFailing o j) (fs o >>= k) w =
      run (LogOp.execFailing o j) (k o.failed) { w with dir := o.residue j w.dir } := by
  have hexec : LogOp.execFailing o j (.fs o) w =
      (o.failed, { w with dir := o.residue j w.dir }) := if_pos rfl
  change run _ (k (LogOp.execFailing o j (.fs o) w).1) (LogOp.execFailing o j (.fs o) w).2 = _
  rw [hexec]

end Faulty

/-- The faults of `createSegment`. -/
def RollFault.InCreate : RollFault → Prop
  | .syncSegment => False
  | .syncIndex => False
  | _ => True

variable {w : World} {d : Dir Path} {b : Nat} {ps : List Bytes}

/-- Creating the new segment, with a fault. -/
theorem run_failed_create {fault : RollFault} (hin : fault.InCreate)
    (hfree : Path.segment s.nextOffset ∉ w.dir.names) :
    run (LogOp.execFailing (fault.op s) fault.written) (createSegment s.nextOffset) w =
      (.error (.io .io), { w with dir := fault.leavesOf s.nextOffset w.dir }) := by
  unfold createSegment
  cases fault with
  | syncSegment | syncIndex => exact hin.elim
  | create =>
      rw [RollFault.op, run_fs_self]
      rfl
  | header j =>
      rw [RollFault.op, run_fs_ne (by simp)]
      simp only [FsOp.exec, if_neg hfree]
      rw [run_fs_self]
      simp only [FsOp.failed, FsOp.residue, Dir.create_file_self]
      rfl
  | openIndex =>
      rw [RollFault.op, run_fs_ne (by simp)]
      simp only [FsOp.exec, if_neg hfree]
      rw [run_fs_ne (by simp), openIndex]
      simp only [FsOp.exec, Dir.create_file_self]
      rw [run_bind, run_fs_self]
      rfl
  | statIndex =>
      rw [RollFault.op, run_fs_ne (by simp)]
      simp only [FsOp.exec, if_neg hfree]
      rw [run_fs_ne (by simp), openIndex]
      simp only [FsOp.exec, Dir.create_file_self]
      rw [run_bind, run_fs_ne (by simp)]
      simp only [FsOp.exec]
      rw [run_fs_self]
      rfl

/-- Flushing the outgoing segment, with a fault in what follows. -/
theorem run_sync_ready {bad : FsOp Path} {j : Nat} (hfile : bad ≠ .fsync s.file)
    (hindex : bad ≠ .fsync s.index.file) :
    Readied (LogOp.execFailing bad j) l s w (RollFault.ready l s w) := by
  by_cases hnever : l.opts.sync = .never
  · exact .inl ⟨hnever, if_pos hnever⟩
  · refine .inr ⟨hnever, { w with dir := flushed w.dir s }, ?_, ?_⟩
    · unfold Segment.sync
      rw [run_fs_ne hfile.symm]
      simp only [FsOp.exec]
      rw [run_fs_ne hindex.symm]
      rfl
    · rw [RollFault.ready, if_neg hnever]
      rfl

/-- The append of a roll that fails: the log in memory is as it was. -/
theorem run_failed_roll (fault : RollFault) (hactive : l.active = some s)
    (hroll : l.rolls s payload) (hoccurs : fault.Occurs l) (hfiles : s.file ≠ s.index.file)
    (hfree : Path.segment s.nextOffset ∉ w.dir.names) :
    run (LogOp.execFailing (fault.op s) fault.written) (l.append crc payload) w =
      ((l, .error (.io .io)), fault.leaves l s w) := by
  have hnames : (RollFault.ready l s w).dir.names = w.dir.names := by
    rw [RollFault.ready]
    split_ifs
    · rfl
    · rfl
  have hcreates : ∀ fault : RollFault, fault.InCreate →
      fault.leaves l s w = { RollFault.ready l s w with
        dir := fault.leavesOf s.nextOffset (RollFault.ready l s w).dir } →
      run (LogOp.execFailing (fault.op s) fault.written) (l.append crc payload) w =
        ((l, .error (.io .io)), fault.leaves l s w) := by
    intro fault hin hleaves
    rw [hleaves]
    refine run_append_of_create _ hactive hroll (run_sync_ready ?_ ?_)
      (run_failed_create hin (by rw [hnames]; exact hfree))
    · cases fault <;> first | exact hin.elim | exact nofun
    · cases fault <;> first | exact hin.elim | exact nofun
  cases fault with
  | syncSegment =>
      refine run_append_of_sync _ hactive hroll hoccurs ?_
      rw [Segment.sync, RollFault.op, run_fs_self]
      rfl
  | syncIndex =>
      refine run_append_of_sync _ hactive hroll hoccurs ?_
      rw [Segment.sync, RollFault.op, run_fs_ne (by simpa using hfiles)]
      simp only [FsOp.exec]
      rw [run_fs_self]
      rfl
  | create | header j | openIndex | statIndex =>
      exact hcreates _ trivial rfl

/-! ### Whether the log is usable afterwards -/

section Usable

variable (crc)

/-- A log at rest, as `Open` and `Append` leave it. -/
structure AtRest (w : World) (l : Log) (pss : List (List Bytes)) : Prop where
  opened : OpenLog crc w.dir pss l
  calm : Calm w.coord
  fits : pss.flatten.length < 2 ^ 64

/-- The next append of a legal payload gets the next offset; and opening the directory instead
gives a log with all the records. -/
structure Usable (w : World) (l : Log) (recs : List Bytes) : Prop where
  appends : ∀ p, Legal p → Addressable l p →
    (run LogOp.exec (l.append crc p) w).1.2 = .ok l.nextOffset
  reopens : ∀ opts, ∃ l' w',
    run LogOp.exec (openLog crc opts) ⟨w.dir, Coord.new⟩ = (.ok l', w') ∧
      ∀ k p, recs[k]? = some p → l'.read crc w'.dir k = .ok p

end Usable

/-- No payload that can be stored starts a new segment. -/
def NoneRolls (l : Log) (s : Segment) : Prop :=
  ∀ p, Legal p → ¬ l.rolls s p

/-- The faults after which the log is usable: those before the new file exists.  A file left
with its whole header does no harm as long as the active segment has room for any record. -/
def RollFault.Harmless (l : Log) (s : Segment) : RollFault → Prop
  | .syncSegment => True
  | .syncIndex => True
  | .create => True
  | .header j => segmentHeaderSize ≤ j ∧ NoneRolls l s
  | .openIndex => NoneRolls l s
  | .statIndex => NoneRolls l s

variable {w : World} {pss : List (List Bytes)}

theorem reopens_of_onDisk (h : OnDisk crc d (fulls pss)) (hne : pss ≠ [])
    (hfit : pss.flatten.length < 2 ^ 64) (opts : Options) :
    ∃ l' w', run LogOp.exec (openLog crc opts) ⟨d, Coord.new⟩ = (.ok l', w') ∧
      ∀ k p, pss.flatten[k]? = some p → l'.read crc w'.dir k = .ok p := by
  obtain ⟨ss, w', hrun, hopen⟩ := @openLog_runs crc _ ⟨d, Coord.new⟩ h (by simpa [fulls] using hne)
    (by rw [fulls_kept, ← List.length_flatten]; exact hfit) opts
  rw [fulls_records] at hopen
  refine ⟨_, w', hrun.run_eq, fun k p hk => ?_⟩
  rw [hopen.read_eq, hk]

theorem AtRest.usable (h : AtRest crc w l pss) : Usable crc w l pss.flatten := by
  refine ⟨?_, reopens_of_onDisk h.opened.onDisk h.opened.nonempty h.fits⟩
  intro p hp haddr
  obtain ⟨l', r, w', hrun, happ⟩ := append_runs h.opened h.opened.healthy False.elim haddr h.calm
  rw [hrun.run_eq, happ.result, if_pos hp, h.opened.nextOffset_eq]

theorem AtRest.syncLe (h : AtRest crc w l pss) {w' : World} (hdir : w.dir.SyncLe w'.dir)
    (hcoord : SameRound w.coord w'.coord) : AtRest crc w' l pss :=
  ⟨h.opened.syncLe hdir, h.calm.sameRound hcoord, h.fits⟩

theorem syncLe_ready (l : Log) (s : Segment) (w : World) :
    w.dir.SyncLe (RollFault.ready l s w).dir ∧
      SameRound w.coord (RollFault.ready l s w).coord := by
  rw [RollFault.ready]
  split_ifs
  · exact ⟨Dir.SyncLe.refl _, SameRound.refl _⟩
  · exact ⟨syncLe_flushed w.dir s, rfl, rfl⟩

theorem AtRest.ready (h : AtRest crc w l pss) (s : Segment) :
    AtRest crc (RollFault.ready l s w) l pss :=
  h.syncLe (syncLe_ready l s w).1 (syncLe_ready l s w).2

theorem readied_exec (l : Log) (s : Segment) (w : World) :
    Readied LogOp.exec l s w (RollFault.ready l s w) := by
  by_cases hnever : l.opts.sync = .never
  · exact .inl ⟨hnever, if_pos hnever⟩
  · have hsync := @sync_runs (fun _ => True) w s (fun _ _ => trivial)
    refine .inr ⟨hnever, _, hsync.run_eq, ?_⟩
    rw [RollFault.ready, if_neg hnever]
    rfl

theorem createSegment_taken (htaken : Path.segment b ∈ w.dir.names) :
    run LogOp.exec (createSegment b) w = (.error (.io .exist), w) := by
  rw [createSegment, run_fs]
  simp only [FsOp.exec, if_pos htaken]
  rfl

/-- Once the next segment's file is there, an append that rolls fails for good. -/
theorem not_usable_of_taken {recs : List Bytes} {p : Bytes} (hactive : l.active = some s)
    (htaken : Path.segment s.nextOffset ∈ w.dir.names) (hp : Legal p) (hroll : l.rolls s p) :
    ¬ Usable crc w l recs := by
  intro h
  have haddr : Addressable l p := by
    intro s' hs'
    obtain rfl := Option.some.inj (hs'.symm.trans hactive)
    exact .inl hroll
  have htaken' : Path.segment s.nextOffset ∈ (RollFault.ready l s w).dir.names := by
    rw [(syncLe_ready l s w).1.1]
    exact htaken
  have hok := h.appends p hp haddr
  rw [run_append_of_create _ hactive hroll (readied_exec l s w)
    (createSegment_taken htaken')] at hok
  cases hok

/-- An append into the active segment does not depend on the other files. -/
theorem append_active {p : Bytes} {c : Coord} (hs : OpenSegment crc d b ps s) (htidy : d.Tidy)
    (hidx : Indexable crc ps) (hcalm : Calm c) (hactive : l.active = some s) (hp : Legal p)
    (hroll : ¬ l.rolls s p) (hsize : s.size < maxIndexableSegment) :
    (run LogOp.exec (l.append crc p) ⟨d, c⟩).1.2 = .ok (b + ps.length) := by
  have hidx' : Indexable crc (ps ++ [p]) := hidx.concat (by rw [← hs.size]; exact hsize)
  obtain ⟨s', w', hrun, -, -⟩ := @segmentAppend_runs crc b ps p s ⟨d, c⟩ hs htidy hp hidx'
  have hcalm' : Calm w'.coord := by
    rw [hrun.final.2]
    exact hcalm
  -- the log and the ticket once the record is written
  obtain ⟨l', k, hlocked, hactive', hoffset⟩ : ∃ l' k,
      run LogOp.exec (l.appendLocked crc p) ⟨d, c⟩ = ((l', .ok k), w') ∧
        l'.active = some s' ∧ k.offset = b + ps.length := by
    rw [Log.appendLocked, hactive]
    simp only [if_neg hroll]
    rw [Log.writeActive, run_bind, hrun.run_eq]
    exact ⟨_, _, rfl, by simp [Log.active, Log.setActive], rfl⟩
  obtain ⟨w₂, hafter, -⟩ := afterUnlock_runs hactive' hcalm' k
  rw [Log.append, run_bind, hlocked]
  simp only [run_bind, hafter.run_eq, pure_eq, run_done, hoffset]

/-- A whole header left by a write that failed. -/
theorem leavesOf_header {j : Nat} (hj : segmentHeaderSize ≤ j) (b : Nat) (d : Dir Path) :
    RollFault.leavesOf b d (.header j) = headed d b := by
  have htake : (headerBytes b).take j = headerBytes b :=
    List.take_of_length_le (by rw [headerBytes_length]; exact hj)
  rw [RollFault.leavesOf, htake]
  rfl

/-- The other segments do not notice a new one. -/
theorem OpenSegment.beside {d' : Dir Path} {c : Nat} (hs : OpenSegment crc d c ps s)
    (htidy : d.Tidy) (hne : c ≠ b) (hd : d' = headed d b ∨ d' = born d b) :
    OpenSegment crc d' c ps s := by
  have hheaded : OpenSegment crc (headed d b) c ps s := by
    refine hs.congr ?_ (headed_file_ne d (by simpa using hne)) (headed_file_ne d (by simp))
    intro q hq
    simp [headed, headless, hq]
  rcases hd with rfl | rfl
  · exact hheaded
  · have htidy' := @headed_tidy d b htidy
    exact hheaded.congr (Dir.names_subset_touch _ _) (htidy'.touch_file _ _)
      (htidy'.touch_file _ _)

/-- A file with a header and no records at the end of the log. -/
theorem usable_of_headed (h : AtRest crc w l (pss ++ [ps])) (hactive : l.active = some s)
    (hroll : l.rolls s payload) (hnone : NoneRolls l s)
    (hd : d = headed w.dir s.nextOffset ∨ d = born w.dir s.nextOffset) :
    Usable crc { w with dir := d } l (pss ++ [ps]).flatten := by
  obtain ⟨init, s', hseg, hinit, hs⟩ := h.opened.active_open
  obtain rfl := Option.some.inj ((active_of_segments hseg).symm.trans hactive)
  have hnext : s'.nextOffset = (pss ++ [ps]).flatten.length := by
    rw [hs.next]
    simp
  have hlt := @bases_lt_of_last pss ps (rolls_nonempty hs hroll)
  have hflat : ((pss ++ [ps]) ++ [[]]).flatten = (pss ++ [ps]).flatten := by
    simp
  rw [hnext] at hd
  have hdisk : OnDisk crc d (fulls ((pss ++ [ps]) ++ [[]])) := by
    rcases hd with rfl | rfl
    · exact h.opened.onDisk.headed hlt
    · exact (@healthy_born crc False _ _ h.opened.onDisk False.elim hlt).onDisk
  constructor
  · intro p hp haddr
    have hsize : s'.size < maxIndexableSegment := (haddr s' hactive).resolve_left (hnone p hp)
    have hne : pss.flatten.length ≠ (pss ++ [ps]).flatten.length := by
      simpa using rolls_nonempty hs hroll
    rw [append_active (hs.beside h.opened.onDisk.tidy hne hd) hdisk.tidy
      h.opened.onDisk.last_legal.2 h.calm hactive hp (hnone p hp) hsize, h.opened.nextOffset_eq]
    simp
  · rw [← hflat]
    exact reopens_of_onDisk hdisk (by simp) (by rw [hflat]; exact h.fits)

/-- Opening segments one after the other, in two parts. -/
theorem run_openSegments_append {xs ys : List Nat} {opened ss : List Segment} {w' : World}
    (h : run LogOp.exec (openSegments crc xs opened) w = (.ok ss, w')) :
    run LogOp.exec (openSegments crc (xs ++ ys) opened) w =
      run LogOp.exec (openSegments crc ys ss) w' := by
  induction xs generalizing opened w with
  | nil =>
      cases h
      rfl
  | cons x xs ih =>
      rw [List.cons_append, openSegments, run_bind]
      rw [openSegments, run_bind] at h
      cases hx : (run LogOp.exec (openSegment crc x) w).1 with
      | error e =>
          rw [hx] at h
          cases h
      | ok s =>
          rw [hx] at h
          exact ih h

/-- A segment file that is shorter than a header cannot be opened. -/
theorem openSegment_short {b : Nat} (hnamed : Path.segment b ∈ w.dir.names)
    (hshort : (w.dir.file (.segment b)).data.length < segmentHeaderSize) :
    ∃ e, (run LogOp.exec (openSegment crc b) w).1 = .error e := by
  rw [openSegment, run_fs]
  simp only [FsOp.exec, if_pos hnamed]
  rw [run_fs]
  simp only [FsOp.exec]
  split_ifs
  · exact ⟨_, rfl⟩
  · exact ⟨_, rfl⟩

/-- A log with such a file at its end cannot be opened. -/
theorem openLog_short {d' : Dir Path} {f : File} (h : OnDisk crc d (fulls pss))
    (hfit : pss.flatten.length < 2 ^ 64) (hlt : ∀ c ∈ bases 0 (pss.map List.length), c < b)
    (hf : f.data.length < segmentHeaderSize) (hd : d' = (headless d b).set (.segment b) f)
    (opts : Options) : ∃ e, (run LogOp.exec (openLog crc opts) ⟨d', Coord.new⟩).1 = .error e := by
  rw [← fulls_kept] at hlt
  have hother : ∀ c ∈ bases 0 ((fulls pss).map Part.kept),
      d'.file (.segment c) = d.file (.segment c) ∧ d'.file (.index c) = d.file (.index c) := by
    intro c hc
    have hne : c ≠ b := ne_of_lt (hlt c hc)
    simp [hd, headless, hne]
  have hnames : d'.names = d.names ++ [.segment b] := by
    rw [hd]
    rfl
  have hoffsets : segmentOffsets d'.names = segmentOffsets d.names ++ [b] := by
    rw [hnames]
    simp [segmentOffsets]
  have hsort : (segmentOffsets d'.names).insertionSort (· ≤ ·) =
      bases 0 ((fulls pss).map Part.kept) ++ [b] := by
    apply List.Perm.eq_of_pairwise' (List.pairwise_insertionSort _ _)
    · rw [List.pairwise_append]
      refine ⟨h.sorted.imp le_of_lt, List.pairwise_singleton _ _, ?_⟩
      intro c hc c' hc'
      rw [List.mem_singleton.1 hc']
      exact (hlt c hc).le
    · rw [hoffsets]
      exact (List.perm_insertionSort _ _).trans (h.names.append_right _)
  have htidy : d'.Tidy := by
    rw [hd]
    exact (h.tidy.create _).set (by simp) f
  obtain ⟨ss, w', hrun, -⟩ := @openSegments_runs crc 0 (fulls pss) ⟨d', Coord.new⟩ htidy
    (h.stored.congr (by rw [hnames]; simp) hother) h.sorted
    (by rw [fulls_kept, ← List.length_flatten]; omega) h.legal h.indexable []
  -- opening the others has not touched it
  have hrec := hrun.final.1
  have hfile : w'.dir.file (.segment b) = f := by
    rw [(hrec.others b fun hb => lt_irrefl b (hlt b hb)).1, hd]
    simp
  obtain ⟨e, he⟩ := @openSegment_short crc w' b (hrec.names (by rw [hnames]; simp))
    (by rw [hfile]; exact hf)
  refine ⟨e, ?_⟩
  have hall : (run LogOp.exec (openSegments crc (bases 0 ((fulls pss).map Part.kept) ++ [b]) [])
      ⟨d', Coord.new⟩).1 = .error e := by
    rw [run_openSegments_append hrun.run_eq, openSegments, run_bind, he]
    rfl
  have hlist : run LogOp.exec listSegmentOffsets ⟨d', Coord.new⟩ =
      (.ok (bases 0 ((fulls pss).map Part.kept) ++ [b]), ⟨d', Coord.new⟩) := by
    rw [← hsort]
    rfl
  rw [openLog, run_bind, hlist, run_bind, hall]
  rfl

/-- After a failure of a file operation in the roll, `Append` has returned that error and left
the log in memory as it was; and the log is usable exactly if the fault is harmless. -/
theorem failed_roll_iff {fault : RollFault} (h : AtRest crc w l pss)
    (hactive : l.active = some s) (hroll : l.rolls s payload) (hoccurs : fault.Occurs l) :
    ((run (LogOp.execFailing (fault.op s) fault.written) (l.append crc payload) w).1 =
          (l, .error (.io .io)) ∧
        Usable crc (run (LogOp.execFailing (fault.op s) fault.written)
          (l.append crc payload) w).2 l pss.flatten) ↔
      fault.Harmless l s := by
  obtain ⟨pss, ps, rfl⟩ := List.eq_nil_or_concat' pss |>.resolve_left h.opened.nonempty
  obtain ⟨init, s', hseg, hinit, hs⟩ := h.opened.active_open
  obtain rfl := Option.some.inj ((active_of_segments hseg).symm.trans hactive)
  have hnext : s'.nextOffset = (pss ++ [ps]).flatten.length := by
    rw [hs.next]
    simp
  have hlt := @bases_lt_of_last pss ps (rolls_nonempty hs hroll)
  rw [← hnext] at hlt
  have hfree : Path.segment s'.nextOffset ∉ w.dir.names := by
    intro hmem
    have hmem' := h.opened.onDisk.names.mem_iff.1 (mem_segmentOffsets.2 hmem)
    rw [fulls_kept] at hmem'
    exact lt_irrefl _ (hlt _ hmem')
  have hfiles : s'.file ≠ s'.index.file := by
    rw [hs.file, hs.indexFile]
    exact nofun
  rw [run_failed_roll fault hactive hroll hoccurs hfiles hfree]
  simp only [true_and]
  have hready := h.ready s'
  -- with the new file there, usable only if no append rolls
  have hnone : ∀ {d : Dir Path}, Path.segment s'.nextOffset ∈ d.names →
      Usable crc { RollFault.ready l s' w with dir := d } l (pss ++ [ps]).flatten →
      NoneRolls l s' := by
    intro d htaken husable p hp hrolls
    exact not_usable_of_taken hactive htaken hp hrolls husable
  cases fault with
  | syncSegment =>
      exact iff_of_true h.usable trivial
  | syncIndex =>
      have hrest : AtRest crc (RollFault.leaves l s' w .syncIndex) l (pss ++ [ps]) :=
        h.syncLe (syncLe_fsync w.dir s'.file) (SameRound.refl w.coord)
      exact iff_of_true hrest.usable trivial
  | create =>
      exact iff_of_true hready.usable trivial
  | header j =>
      constructor
      · intro husable
        refine ⟨?_, hnone (by simp [RollFault.leavesOf, headless]) husable⟩
        by_contra hshort
        have hdata : (File.empty.write 0 ((headerBytes s'.nextOffset).take j)).data.length <
            segmentHeaderSize := by
          have hover := overwrite_end [] ((headerBytes s'.nextOffset).take j)
          rw [List.length_nil, List.nil_append] at hover
          rw [File.data_write, File.data_empty, hover, List.length_take]
          omega
        obtain ⟨e, he⟩ := openLog_short hready.opened.onDisk h.fits hlt hdata rfl ⟨0, .never, 0⟩
        obtain ⟨l', w', hopen, -⟩ := husable.reopens ⟨0, .never, 0⟩
        cases he.symm.trans (congrArg Prod.fst hopen)
      · rintro ⟨hj, hnone⟩
        exact usable_of_headed hready hactive hroll hnone (.inl (leavesOf_header hj _ _))
  | openIndex =>
      exact ⟨hnone (by simp [RollFault.leavesOf, headed, headless]),
        fun hnone => usable_of_headed hready hactive hroll hnone (.inl rfl)⟩
  | statIndex =>
      refine ⟨hnone ?_, fun hnone => usable_of_headed hready hactive hroll hnone (.inr rfl)⟩
      exact Dir.names_subset_touch _ _ (by simp [headed, headless])

/-- The second append to `oneRecordLog`, with a fault in its roll. -/
def secondAppend (fault : RollFault) : (Log × Except LogErr Nat) × World :=
  run (LogOp.execFailing (fault.op oneRecordSegment) fault.written)
    (oneRecordLog.append crc32c [2]) oneRecordWorld

theorem failed_roll_create :
    (secondAppend .create).1 = (oneRecordLog, .error (.io .io)) ∧
      ∃ recs, recs[0]? = some [1] ∧ Usable crc32c (secondAppend .create).2 oneRecordLog recs := by
  obtain ⟨pss, hopen, hcalm, hacked, hfits⟩ := killInv_of_run killRun_oneRecord
  have hactive : oneRecordLog.active = some oneRecordSegment := by decide
  have hroll : oneRecordLog.rolls oneRecordSegment [2] := by decide
  have h := (@failed_roll_iff crc32c oneRecordLog oneRecordSegment [2] oneRecordWorld pss .create
    ⟨hopen, hcalm, hfits⟩ hactive hroll trivial).2 trivial
  exact ⟨h.1, pss.flatten, hacked 0 [1] List.mem_cons_self, h.2⟩

/-- Writing the header fails, nothing of it written: from then on every append fails because
the file exists, and the directory cannot be opened either. -/
theorem failed_roll_header :
    KillRun crc32c HeadersWritten WithinRange (.up oneRecordWorld oneRecordLog) [(0, [1])] ∧
      (secondAppend (.header 0)).1 = (oneRecordLog, .error (.io .io)) ∧
      (run LogOp.exec (oneRecordLog.append crc32c [2]) (secondAppend (.header 0)).2).1 =
        (oneRecordLog, .error (.io .exist)) ∧
      (run LogOp.exec (openLog crc32c ⟨30, .always, 0⟩)
        ⟨(secondAppend (.header 0)).2.dir, Coord.new⟩).1 = .error .eof :=
  ⟨killRun_oneRecord, by decide +kernel, by decide +kernel, by decide +kernel⟩

end LedgerLine.Broker
