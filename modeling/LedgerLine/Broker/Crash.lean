import LedgerLine.Broker.Acknowledged
import LedgerLine.Broker.Durable
import LedgerLine.Broker.Refinement

/-!
# Power losses

A machine opens the log, threads append to it, and the power may fail at any moment,
also while the log is being opened.  `CrashRun` is every such history: what is on disk or
which log is open, the records found by the last `Open`, and which appends have been
acknowledged.

A crash cuts every file on its own: each keeps what its completed fsyncs cover and some
byte-prefix of what was written to it since.  The newest segment is assumed to keep its
header.

Main facts:
* `Healthy.crash`: what a crash leaves of a log;
* `crashInv_of_run`: the invariant of every history;
* `crashed_log_recovers`: `Open` finds a prefix of the records that were there before the
  crash, with every acknowledged one in it.
-/

namespace LedgerLine.Broker

open Program

/-- The records a log holds, as `Read` returns them. -/
def Log.contents (crc : Checksum) (l : Log) (d : Dir Path) : List Bytes :=
  (List.range l.nextOffset).filterMap fun k => (l.read crc d k).toOption

/-- The record that is being appended, if any. -/
def Live.inFlight (s : Live) : List Bytes :=
  match s.lock with
  | none => []
  | some t =>
    match s.threads t with
    | .appending p _ => [p]
    | _ => []

/-- Some thread has just been told that `p` is stored at offset `k`. -/
def Live.Acks (s : Live) (k : Nat) (p : Bytes) : Prop :=
  ∃ t r, s.threads t = .returned r (.ok k) ∧ r.payload = p

/-- The machine: off, with the records the log had `before` the last crash, or running,
with the records `found` by `Open`. -/
inductive Host
  | down (d : Dir Path) (before : List Bytes)
  | up (found : List Bytes) (s : Live)

/-- The newest segment file has its header. -/
def NewestHeaderKept (d : Dir Path) : Prop :=
  ∀ b, Path.segment b ∈ d.names → (∀ c, Path.segment c ∈ d.names → c ≤ b) →
    segmentHeaderSize ≤ (d.file (.segment b)).data.length

/-- A durable policy and segments an index can address. -/
def Options.Supported (opts : Options) : Prop :=
  (opts.sync = .always ∨ opts.sync = .group) ∧ opts.maxSegmentBytes ≤ 2 ^ 32

section Runs

variable (crc : Checksum)

/-- Histories from an empty directory.  No operation fails, and there are fewer records
than offsets. -/
inductive CrashRun : Host → (Nat → Bytes → Prop) → Prop
  | start : CrashRun (.down Dir.empty []) (fun _ _ => False)
  | opened {d : Dir Path} {before : List Bytes} {acked : Nat → Bytes → Prop} (opts : Options)
      {l : Log} {w : World} (h : CrashRun (.down d before) acked) (hopts : opts.Supported)
      (hrun : run LogOp.exec (openLog crc opts) ⟨d, Coord.new⟩ = (.ok l, w)) :
      CrashRun (.up (l.contents crc w.dir) (Live.start l w)) acked
  | crashedOpening {d d' : Dir Path} {before : List Bytes} {acked : Nat → Bytes → Prop}
      (opts : Options) {u : World} (h : CrashRun (.down d before) acked)
      (hpoint : Point LogOp.exec (openLog crc opts) ⟨d, Coord.new⟩ u)
      (hcrash : u.dir.Crash d') (hheader : NewestHeaderKept d') :
      CrashRun (.down d' before) acked
  | stepped {found : List Bytes} {s s' : Live} {acked : Nat → Bytes → Prop}
      (h : CrashRun (.up found s) acked) (hstep : LiveStep crc (fun _ => False) s s')
      (hroom : found.length + s'.written.length + 1 < 2 ^ 64) :
      CrashRun (.up found s') (fun k p => acked k p ∨ s'.Acks k p)
  | crashed {found : List Bytes} {s : Live} {d' : Dir Path} {acked : Nat → Bytes → Prop}
      (h : CrashRun (.up found s) acked) (hcrash : s.world.dir.Crash d')
      (hheader : NewestHeaderKept d') :
      CrashRun (.down d' (found ++ s.written ++ s.inFlight)) acked

end Runs

section Images

variable {crc : Checksum} {d d' : Dir Path} {qs : List Part} {pss : List (List Bytes)}
variable {b : Nat}

/-- No segment file has a write of its own: all of it is on disk. -/
def Still (d : Dir Path) : Prop :=
  ∀ b, (d.file (.segment b)).writes = []

theorem durable_of_still (h : Still d) (b : Nat) :
    (d.file (.segment b)).durable = (d.file (.segment b)).data := by
  unfold File.durable File.data
  rw [h b, List.take_nil]

theorem settled_of_still (h : StoredFrom crc d b qs) (hstill : Still d) :
    SettledFrom crc d b qs := by
  induction qs generalizing b with
  | nil => trivial
  | cons q qs ih =>
      obtain ⟨⟨tail, es, hq⟩, hqs⟩ := h
      refine ⟨?_, ih hqs⟩
      rw [durable_of_still hstill, hq.length_data]
      exact Nat.le_add_right _ _

/-- The newest segment is the last one. -/
theorem OnDisk.newest {q : Part} (h : OnDisk crc d (qs ++ [q])) (hnames : d'.names = d.names)
    (hheader : NewestHeaderKept d') :
    16 ≤ (d'.file (.segment (qs.map Part.kept).sum)).data.length := by
  have hbases : bases 0 ((qs ++ [q]).map Part.kept) =
      bases 0 (qs.map Part.kept) ++ [(qs.map Part.kept).sum] := by
    simp [bases_append]
  have hmem : ∀ c, Path.segment c ∈ d'.names ↔
      c ∈ bases 0 (qs.map Part.kept) ++ [(qs.map Part.kept).sum] := by
    intro c
    rw [hnames, ← mem_segmentOffsets, h.names.mem_iff, hbases]
  have hsorted := h.sorted
  rw [hbases, List.pairwise_append] at hsorted
  refine hheader _ ((hmem _).mpr (by simp)) ?_
  intro c hc
  rcases List.mem_append.mp ((hmem c).mp hc) with hc | hc
  · exact le_of_lt (hsorted.2.2 c hc _ (by simp))
  · rw [List.mem_singleton.mp hc]

/-- A crash of an empty directory. -/
theorem OnDisk.crash_nil (h : OnDisk crc d []) (hc : d.Crash d') : OnDisk crc d' [] := by
  refine ⟨h.tidy.crash hc, ?_, h.sorted, ?_, h.legal, h.indexable, trivial⟩
  · rw [hc.1]
    exact h.names
  · rw [hc.1]
    exact h.indexed

/-- A crash leaves a prefix of the log. -/
theorem Healthy.crash (h : Healthy crc True d pss) (hc : d.Crash d')
    (hheader : NewestHeaderKept d') :
    ∃ qs, OnDisk crc d' qs ∧ (qs.map Part.records).flatten <+: pss.flatten := by
  obtain ⟨init, ps, rfl⟩ := List.eq_nil_or_concat' pss |>.resolve_left h.nonempty
  have hdisk := h.onDisk
  have hset := h.settled trivial
  rw [fulls_append] at hdisk
  rw [List.dropLast_concat] at hset
  obtain ⟨m, _, hdisk', _⟩ := OnDisk.crash hdisk hset hc (hdisk.newest hc.1 hheader)
  refine ⟨_, hdisk', ?_⟩
  rw [List.map_append, fulls_records, List.flatten_append, List.flatten_append,
    List.prefix_append_right_inj]
  simpa [Part.records] using List.take_prefix m ps

/-- A crash takes nothing from a log whose segment files have no writes of their own. -/
theorem OnDisk.crash_still (h : OnDisk crc d qs) (hstill : Still d) (hc : d.Crash d')
    (hheader : NewestHeaderKept d') : OnDisk crc d' qs := by
  rcases List.eq_nil_or_concat' qs with rfl | ⟨init, q, rfl⟩
  · exact h.crash_nil hc
  · obtain ⟨hinit, ⟨tail, es, hq⟩, _⟩ := storedFrom_append.mp h.stored
    rw [Nat.zero_add] at hq
    obtain ⟨m, hm, hdisk', hkeep⟩ :=
      h.crash (settled_of_still hinit hstill) hc (h.newest hc.1 hheader)
    have hmq : m = q.kept := by
      refine le_antisymm hm (hkeep q.kept (le_refl _) ?_)
      rw [durable_of_still hstill, hq.length_data]
      exact Nat.le_add_right _ _
    subst hmq
    exact hdisk'

variable {strict : Prop}

/-- A crash that separates a segment file from its header leaves it without one. -/
theorem Headless.not_kept (h : Headless crc strict d pss) (hc : d.Crash d') :
    ¬ NewestHeaderKept d' := by
  obtain ⟨d₀, hdisk, _, hlt, rfl⟩ := h
  intro hheader
  have hle : ∀ c, Path.segment c ∈ d'.names → c ≤ pss.flatten.length := by
    intro c hcmem
    rw [hc.1, headless, Dir.create_names, List.mem_append] at hcmem
    rcases hcmem with hold | hnew
    · have hbase := hdisk.names.mem_iff.mp (mem_segmentOffsets.mpr hold)
      rw [fulls_kept] at hbase
      exact le_of_lt (hlt c hbase)
    · have heq : c = pss.flatten.length := by
        simpa using hnew
      exact le_of_eq heq
  have hnamed : Path.segment pss.flatten.length ∈ d'.names := by
    rw [hc.1]
    simp [headless]
  obtain ⟨img, ⟨k, j, _, rfl⟩, hfile⟩ := hc.2 (.segment pss.flatten.length)
  have hlen := hheader _ hnamed hle
  rw [hfile, headless, Dir.create_file_self, File.cut_of_le _ (Nat.zero_le k)] at hlen
  cases hlen

theorem Headless.allGrow (h : Headless crc strict d pss) : AllGrow d := by
  obtain ⟨d₀, hdisk, _, _, rfl⟩ := h
  intro b hb
  by_cases hbn : b = pss.flatten.length
  · subst hbn
    rw [headless, Dir.create_file_self]
    exact File.grows_base []
  · have hne : Path.segment b ≠ .segment pss.flatten.length := by
      simpa using hbn
    rw [headless, Dir.create_file_ne _ hne]
    rw [headless, Dir.create_names, List.mem_append, List.mem_singleton] at hb
    exact hdisk.allGrow b (hb.resolve_right hne)

theorem AppendPoint.allGrow {p : Bytes} (h : AppendPoint crc strict pss p d) : AllGrow d := by
  rcases h with ⟨pss', hh, _⟩ | h
  · exact hh.onDisk.allGrow
  · exact h.allGrow

theorem AllGrow.syncLe (h : AllGrow d) (hs : d.SyncLe d') : AllGrow d' := by
  intro b hb
  rw [hs.1] at hb
  exact (hs.2 _).grows (h b hb)

/-- Looking up every index of a list gives the list. -/
theorem filterMap_getElem? {α : Type} (xs : List α) :
    ((List.range xs.length).filterMap fun k => xs[k]?) = xs := by
  induction xs with
  | nil => rfl
  | cons x xs ih =>
      rw [List.length_cons, List.range_succ_eq_map, List.filterMap_cons, List.filterMap_map]
      simpa [Function.comp_def] using ih

theorem OpenLog.contents_eq {l : Log} (h : OpenLog crc d pss l) :
    l.contents crc d = pss.flatten := by
  have hread : ∀ k, (l.read crc d k).toOption = pss.flatten[k]? := by
    intro k
    rw [h.read_eq]
    cases pss.flatten[k]? with
    | none | some p => rfl
  unfold Log.contents
  simp only [hread, h.nextOffset_eq]
  exact filterMap_getElem? pss.flatten

end Images

/-- What an undisturbed operation of an append does, it does whatever is flushed meanwhile. -/
theorem outcome_syncLe {o : LogOp} (ho : AppendOp o) {v u u' : World} {r : o.Resp}
    (hle : v.dir.SyncLe u.dir) (hout : LogOp.Outcome (fun _ => False) o u r u') :
    r = (LogOp.exec o v).1 ∧ (LogOp.exec o v).2.dir.SyncLe u'.dir := by
  cases hout with
  | @fs o _ _ _ hfs =>
      cases hfs with
      | success =>
          exact FsOp.exec_syncLe o hle
      | failure j hfail => exact hfail.elim
  | coord o =>
      cases o with
      | markSynced seq => exact ⟨rfl, hle⟩
      | enter t seq | finish t seq target outcome => exact ho.elim

/-- Fsyncs by other threads. -/
def Flushes (w w' : World) : Prop :=
  w.dir.SyncLe w'.dir

theorem Flushes.refl (w : World) : Flushes w w :=
  Dir.SyncLe.refl _

/-- How the log looks on disk while `s` runs: when nobody is appending it is open and
healthy, and otherwise what remains of the append leads there. -/
structure LaidOut (crc : Checksum) (pss : List (List Bytes)) (s : Live) : Prop where
  steady : (∀ t, ¬ (s.threads t).Appending) →
    OpenLog crc s.world.dir pss s.mem ∧ Healthy crc True s.world.dir pss
  appending : ∀ t p rest, s.threads t = .appending p rest →
    Always Flushes (LogOp.Outcome fun _ => False)
      (fun u => ∃ v : World, AppendPoint crc True pss p v.dir ∧ v.dir.SyncLe u.dir)
      (fun out u => ∃ v : World, Appended crc True pss s.mem p v.dir out.1 out.2 ∧
        v.dir.SyncLe u.dir) rest s.world

/-- What holds of a running machine. -/
structure UpInv (crc : Checksum) (found : List Bytes) (s : Live)
    (acked : Nat → Bytes → Prop) : Prop where
  live : LiveInv crc (fun _ => False) s
  bounded : s.mem.opts.maxSegmentBytes ≤ 2 ^ 32
  fits : found.length + s.written.length + s.inFlight.length < 2 ^ 64
  layout : ∃ pss, pss.flatten = found ++ s.written ∧ LaidOut crc pss s
  marked : ∀ t r, (s.threads t).pending? = some r →
    Marked crc s.world.dir r.place r.ticket.offset r.payload
  secured : ∀ k p, acked k p → Secured crc s.world.dir k p

section Up

variable {crc : Checksum} {found : List Bytes} {s s' : Live}
variable {acked : Nat → Bytes → Prop} {pss : List (List Bytes)} {t : ThreadId}

/-- Segment files are only appended to, also in the middle of an append. -/
theorem LaidOut.allGrow (h : LaidOut crc pss s) : AllGrow s.world.dir := by
  by_cases hidle : ∀ t, ¬ (s.threads t).Appending
  · exact (h.steady hidle).1.onDisk.allGrow
  · obtain ⟨t, ht⟩ := not_forall.mp hidle
    obtain ⟨p, rest, hpc⟩ := not_not.mp ht
    obtain ⟨v, hv, hle⟩ := inv_of_always Flushes.refl (h.appending t p rest hpc)
    exact hv.allGrow.syncLe hle

/-- Acknowledged records stay secured, and those acknowledged by a step become so. -/
theorem UpInv.secured_step (h : UpInv crc found s acked) (hlive : LiveInv crc (fun _ => False) s')
    (hdir : s.world.dir.Extends s'.world.dir) (hgrow : AllGrow s'.world.dir)
    (hmarked : ∀ t r, (s'.threads t).pending? = some r →
      Marked crc s'.world.dir r.place r.ticket.offset r.payload) :
    ∀ k p, acked k p ∨ s'.Acks k p → Secured crc s'.world.dir k p := by
  intro k p hk
  rcases hk with hold | ⟨t, r, hpc, rfl⟩
  · obtain ⟨pss, _, hlaid⟩ := h.layout
    exact (h.secured k p hold).extends hdir hlaid.allGrow hgrow
  · have hok := hlive.threads t
    rw [hpc] at hok
    obtain ⟨rfl, hcovered⟩ := hok.2 k rfl
    exact (hmarked t r (by rw [hpc]; rfl)).secured hgrow hcovered

/-- A step that neither writes a record nor enters or leaves `Append`'s critical section. -/
structure Undisturbed (s s' : Live) : Prop where
  mem : s'.mem = s.mem
  written : s'.written = s.written
  dir : s.world.dir.SyncLe s'.world.dir
  appending : ∀ t p rest, s'.threads t = .appending p rest ↔ s.threads t = .appending p rest
  pending : ∀ t r, (s'.threads t).pending? = some r → (s.threads t).pending? = some r

theorem LaidOut.undisturbed (h : LaidOut crc pss s) (hu : Undisturbed s s') :
    LaidOut crc pss s' := by
  refine ⟨?_, ?_⟩
  · intro hidle
    have hidle' : ∀ t, ¬ (s.threads t).Appending := by
      rintro t ⟨p, rest, hpc⟩
      exact hidle t ⟨p, rest, (hu.appending t p rest).mpr hpc⟩
    obtain ⟨hopen, hhealthy⟩ := h.steady hidle'
    rw [hu.mem]
    exact ⟨hopen.syncLe hu.dir, hhealthy.syncLe hu.dir⟩
  · intro t p rest hpc
    have htrans : ∀ a b c, Flushes a b → Flushes b c → Flushes a c :=
      fun _ _ _ => Dir.SyncLe.trans
    rw [hu.mem]
    exact always_stable htrans (h.appending t p rest ((hu.appending t p rest).mp hpc)) hu.dir

theorem inFlight_length_le (s : Live) : s.inFlight.length ≤ 1 := by
  unfold Live.inFlight
  split
  · exact Nat.zero_le 1
  · split
    · exact le_refl 1
    · exact Nat.zero_le 1

/-- The invariant after a step, from where the log and the pending records are now. -/
theorem UpInv.next (h : UpInv crc found s acked) (hlive : LiveInv crc (fun _ => False) s')
    (hopts : s'.mem.opts = s.mem.opts) (hdir : s.world.dir.Extends s'.world.dir)
    (hflat : pss.flatten = found ++ s'.written) (hlaid : LaidOut crc pss s')
    (hmarked : ∀ t r, (s'.threads t).pending? = some r →
      Marked crc s'.world.dir r.place r.ticket.offset r.payload)
    (hroom : found.length + s'.written.length + 1 < 2 ^ 64) :
    UpInv crc found s' (fun k p => acked k p ∨ s'.Acks k p) := by
  refine ⟨hlive, by rw [hopts]; exact h.bounded, ?_, ⟨pss, hflat, hlaid⟩, hmarked,
    h.secured_step hlive hdir hlaid.allGrow hmarked⟩
  have := inFlight_length_le s'
  omega

theorem UpInv.undisturbed (h : UpInv crc found s acked) (hu : Undisturbed s s')
    (hlive : LiveInv crc (fun _ => False) s')
    (hroom : found.length + s'.written.length + 1 < 2 ^ 64) :
    UpInv crc found s' (fun k p => acked k p ∨ s'.Acks k p) := by
  obtain ⟨pss, hflat, hlaid⟩ := h.layout
  refine h.next hlive (by rw [hu.mem]) hu.dir.extends (by rw [hu.written]; exact hflat)
    (hlaid.undisturbed hu) ?_ hroom
  exact fun t r hr => (h.marked t r (hu.pending t r hr)).extends hu.dir.extends

/-- A thread outside `Append`'s critical section moves on outside it. -/
theorem undisturbed_move {pc : Pc} {w : World} {lock : Option ThreadId} {fsyncs : List Place}
    (hbefore : ¬ (s.threads t).Appending) (hafter : ¬ pc.Appending)
    (hdir : s.world.dir.SyncLe w.dir)
    (hpending : ∀ r, pc.pending? = some r → (s.threads t).pending? = some r) :
    Undisturbed s { s.move t pc with world := w, lock := lock, fsyncs := fsyncs } := by
  refine ⟨rfl, rfl, hdir, ?_, ?_⟩
  · intro t' p rest
    by_cases ht : t' = t
    · subst ht
      simp only [Live.move, Function.update_self]
      exact ⟨fun h => absurd ⟨p, rest, h⟩ hafter, fun h => absurd ⟨p, rest, h⟩ hbefore⟩
    · simp only [Live.move, Function.update_of_ne ht]
  · intro t' r
    by_cases ht : t' = t
    · subst ht
      simpa only [Live.move, Function.update_self] using hpending r
    · simp only [Live.move, Function.update_of_ne ht]
      exact id

/-- A flush under the mutex without failures. -/
theorem syncLe_of_flush {o : LogOp} {r : o.Resp} {w w' : World} (ho : FlushOp o)
    (hout : LogOp.Outcome (fun _ => False) o w r w') : w.dir.SyncLe w'.dir := by
  cases hout with
  | @fs o _ _ _ hfs =>
      cases hfs with
      | success =>
          cases o with
          | fsync p => exact syncLe_fsync _ p
          | _ => exact ho.elim
      | failure j hfail => exact hfail.elim
  | coord o => exact ho.elim

/-- `Append` takes the mutex. -/
theorem LaidOut.lockAppend (h : LaidOut crc pss s) (p : Bytes)
    (hidle : ∀ t, ¬ (s.threads t).Appending) (hbounded : s.mem.opts.maxSegmentBytes ≤ 2 ^ 32)
    (hpolicy : s.mem.opts.sync ≠ .never) :
    LaidOut crc pss
      { s.move t (.appending p (s.mem.appendLocked crc p)) with lock := some t } := by
  obtain ⟨hopen, hhealthy⟩ := h.steady hidle
  obtain ⟨l', r, w', hruns, happended⟩ :=
    appendLocked_runs hopen hhealthy (fun _ => hpolicy) (addressable_of_le hopen hbounded p)
  refine ⟨?_, ?_⟩
  · intro hnone
    exact absurd ⟨p, s.mem.appendLocked crc p, by simp [Live.move]⟩ (hnone t)
  · intro t' p' rest hpc
    by_cases ht : t' = t
    · subst ht
      have heq : Pc.appending p (s.mem.appendLocked crc p) = .appending p' rest := by
        simpa [Live.move] using hpc
      cases heq
      have halways := @always_of_runs _ _ _ _ Flushes (LogOp.Outcome fun _ => False) _ _
        (fun v u : World => v.dir.SyncLe u.dir) AppendOp
        (fun _ _ _ h₁ h₂ => h₁.trans h₂)
        (fun o v u r u' ho hle hout => outcome_syncLe ho hle hout) _ _ _ _ hruns
        (appendLocked_only _ _) s.world (Dir.SyncLe.refl _)
      refine always_mono ?_ ?_ halways
      · rintro u ⟨v, ⟨hv, _⟩, hle⟩
        exact ⟨v, hv, hle⟩
      · rintro out u ⟨rfl, hle⟩
        exact ⟨w', happended, hle⟩
    · have hold : s.threads t' = .appending p' rest := by
        simpa [Live.move, ht] using hpc
      exact absurd ⟨p', rest, hold⟩ (hidle t')

theorem LiveInv.policy (h : LiveInv crc (fun _ => False) s) : s.mem.opts.sync ≠ .never := by
  intro hnever
  have hdurable := h.durable
  rw [hnever] at hdurable
  cases hdurable

/-- What one thread's move leaves of the pending records. -/
theorem UpInv.marked_move (h : UpInv crc found s acked) {pc : Pc} {d : Dir Path}
    (hdir : s.world.dir.Extends d)
    (hpc : ∀ r, pc.pending? = some r → Marked crc d r.place r.ticket.offset r.payload) :
    ∀ t' r, ((s.move t pc).threads t').pending? = some r →
      Marked crc d r.place r.ticket.offset r.payload := by
  intro t' r hr
  by_cases ht : t' = t
  · subst ht
    exact hpc r (by simpa [Live.move] using hr)
  · exact (h.marked t' r (by simpa [Live.move, ht] using hr)).extends hdir

/-- One operation of an append leaves the rest of it. -/
theorem LaidOut.appendOp (h : LaidOut crc pss s) (hlive : LiveInv crc (fun _ => False) s)
    {p : Bytes} {o : LogOp} {next : o.Resp → LogProgram (Log × Except LogErr Log.Ticket)}
    {r : o.Resp} {w : World} (hpc : s.threads t = .appending p (.call o next))
    (hout : LogOp.Outcome (fun _ => False) o s.world r w) (fsyncs : List Place) :
    LaidOut crc pss
      { s.move t (.appending p (next r)) with world := w, fsyncs := fsyncs } := by
  have hholds := holds_of_pc hpc trivial
  refine ⟨?_, ?_⟩
  · intro hnone
    exact absurd ⟨p, next r, by simp [Live.move]⟩ (hnone t)
  · intro t' p' rest hpc'
    by_cases ht : t' = t
    · subst ht
      have heq : Pc.appending p (next r) = .appending p' rest := by
        simpa [Live.move] using hpc'
      cases heq
      exact (h.appending t' p _ hpc s.world (Flushes.refl _)).2 r w hout
    · have hold : s.threads t' = .appending p' rest := by
        simpa [Live.move, ht] using hpc'
      exact absurd (appending_eq_of_holds hlive.lock hholds ⟨p', rest, hold⟩) ht

/-- When the mutex is released, the log is open and healthy again. -/
theorem LaidOut.unlock {p : Bytes} {l : Log} {r : Except LogErr Log.Ticket} {pc : Pc}
    {pss' : List (List Bytes)} (hlive : LiveInv crc (fun _ => False) s)
    (hpc : s.threads t = .appending p (.done (l, r))) (hafter : ¬ pc.Appending)
    (hopen : OpenLog crc s.world.dir pss' l) (hhealthy : Healthy crc True s.world.dir pss')
    (written : List Bytes) (placed : List Place) :
    LaidOut crc pss'
      { s.move t pc with mem := l, lock := none, written := written, placed := placed } := by
  have hholds := holds_of_pc hpc trivial
  refine ⟨fun _ => ⟨hopen, hhealthy⟩, ?_⟩
  intro t' p' rest hpc'
  obtain ⟨ht, hold⟩ := appending_of_update hafter hpc'
  exact absurd (appending_eq_of_holds hlive.lock hholds ⟨p', rest, hold⟩) ht

variable {l : Log} {p : Bytes}

/-- The record that has just been written is the last one of the active segment. -/
theorem OpenLog.marked_last {d : Dir Path} {init : List (List Bytes)} {ps : List Bytes}
    {sg : Segment} (h : OpenLog crc d (init ++ [ps ++ [p]]) l) (hactive : l.active = some sg) :
    Marked crc d ⟨sg.file, (d.file sg.file).writes.length⟩ (init.flatten.length + ps.length)
      p := by
  obtain ⟨segments, sg', hseg, _, hopen⟩ := h.active_open
  obtain rfl : sg' = sg := Option.some.inj ((active_of_segments hseg).symm.trans hactive)
  refine ⟨init.flatten.length, ps, rfl, h.onDisk.last_legal.1, hopen.file, hopen.stored.named,
    ?_, ?_⟩
  · rw [hopen.file]
  · have hdata := hopen.stored.data
    rw [List.take_length, List.append_nil] at hdata
    rw [hopen.file, List.take_length]
    exact hdata

/-- Where an append that is about to release the mutex has brought the log. -/
theorem LaidOut.landed (h : LaidOut crc pss s) {r : Except LogErr Log.Ticket}
    (hpc : s.threads t = .appending p (.done (l, r))) :
    Appended crc True pss s.mem p s.world.dir l r := by
  obtain ⟨v, happended, hle⟩ := (h.appending t p _ hpc s.world (Flushes.refl _)).2
  obtain ⟨⟨pss', hopen, hhealthy, hflat, hlast⟩, hresult, hopts, hseq⟩ := happended
  exact ⟨⟨pss', hopen.syncLe hle, hhealthy.syncLe hle, hflat, hlast⟩, hresult, hopts, hseq⟩

theorem UpInv.unlockRefused (h : UpInv crc found s acked) {e : LogErr}
    (hpc : s.threads t = .appending p (.done (l, .error e)))
    (hs' : s' = { s.move t (.refused e) with mem := l, lock := none })
    (hlive : LiveInv crc (fun _ => False) s')
    (hroom : found.length + s'.written.length + 1 < 2 ^ 64) :
    UpInv crc found s' (fun k q => acked k q ∨ s'.Acks k q) := by
  obtain ⟨pss, hflat, hlaid⟩ := h.layout
  obtain ⟨⟨pss', hopen, hhealthy, hflat', _⟩, hresult, hopts, _⟩ := hlaid.landed hpc
  have hillegal : ¬ Legal p := by
    intro hp
    rw [if_pos hp] at hresult
    cases hresult
  rw [if_neg hillegal, hflat] at hflat'
  subst hs'
  have hlaid' := @LaidOut.unlock crc s t p l _ (.refused e) pss' h.live hpc (not_appending id)
    hopen hhealthy s.written s.placed
  refine h.next hlive hopts (Dir.Extends.refl _) hflat' hlaid' ?_ hroom
  exact h.marked_move (Dir.Extends.refl _) nofun

theorem UpInv.unlock (h : UpInv crc found s acked) {p : Bytes} {l : Log} {k : Log.Ticket}
    {sg : Segment} {pl : Place} (hpc : s.threads t = .appending p (.done (l, .ok k)))
    (hactive : l.active = some sg)
    (hplace : pl = ⟨sg.file, (s.world.dir.file sg.file).writes.length⟩)
    (hs' : s' = { s.move t (.unlocked ⟨p, k, pl⟩) with
      mem := l
      lock := none
      written := s.written ++ [p]
      placed := s.placed ++ [pl] })
    (hlive : LiveInv crc (fun _ => False) s')
    (hroom : found.length + s'.written.length + 1 < 2 ^ 64) :
    UpInv crc found s' (fun k q => acked k q ∨ s'.Acks k q) := by
  obtain ⟨pss, hflat, hlaid⟩ := h.layout
  obtain ⟨⟨pss', hopen, hhealthy, hflat', hlast⟩, hresult, hopts, _⟩ := hlaid.landed hpc
  have hlegal : Legal p := by
    by_contra hp
    rw [if_neg hp] at hresult
    cases hresult
  rw [if_pos hlegal] at hflat' hresult
  obtain ⟨init, ps, rfl⟩ := hlast hlegal
  have hoffset : k.offset = init.flatten.length + ps.length := by
    have hlen := congrArg List.length hflat'
    rw [Except.ok.inj hresult]
    show pss.flatten.length = _
    simp only [List.flatten_append, List.length_append, List.flatten_cons, List.flatten_nil,
      List.append_nil, List.length_singleton] at hlen
    omega
  rw [hflat, List.append_assoc] at hflat'
  have hmarked := hopen.marked_last hactive
  rw [← hplace, ← hoffset] at hmarked
  subst hs'
  have hlaid' := @LaidOut.unlock crc s t p l _ (.unlocked ⟨p, k, pl⟩) _ h.live hpc
    (not_appending id) hopen hhealthy (s.written ++ [p]) (s.placed ++ [pl])
  refine h.next hlive hopts (Dir.Extends.refl _) hflat' hlaid' ?_ hroom
  refine h.marked_move (Dir.Extends.refl _) ?_
  rintro r ⟨⟩
  exact hmarked

/-- Every step keeps the invariant. -/
theorem UpInv.step (h : UpInv crc found s acked) (hstep : LiveStep crc (fun _ => False) s s')
    (hroom : found.length + s'.written.length + 1 < 2 ^ 64) :
    UpInv crc found s' (fun k p => acked k p ∨ s'.Acks k p) := by
  have hlive := h.live.step hstep
  -- most steps only move a thread that is not in the critical section
  have hmove : ∀ {t : ThreadId} {pc₀ pc : Pc} {w : World} {lock : Option ThreadId}
      {fsyncs : List Place}, s.threads t = pc₀ →
      s' = { s.move t pc with world := w, lock := lock, fsyncs := fsyncs } →
      ¬ pc₀.Appending → ¬ pc.Appending → s.world.dir.SyncLe w.dir →
      (∀ r, pc.pending? = some r → pc₀.pending? = some r) →
      UpInv crc found s' (fun k p => acked k p ∨ s'.Acks k p) := by
    intro t pc₀ pc w lock fsyncs hpc heq hbefore hafter hdir hpending
    refine h.undisturbed ?_ hlive hroom
    rw [heq]
    rw [← hpc] at hbefore hpending
    exact undisturbed_move hbefore hafter hdir hpending
  have hrefl := Dir.SyncLe.refl s.world.dir
  cases hstep with
  | @lockAppend t p hpc hlock =>
      obtain ⟨pss, hflat, hlaid⟩ := h.layout
      have hlaid' := @LaidOut.lockAppend crc s pss t hlaid p
        (not_appending_of_free h.live.lock hlock) h.bounded h.live.policy
      refine h.next hlive rfl (Dir.Extends.refl _) hflat hlaid' ?_ hroom
      exact h.marked_move (Dir.Extends.refl _) nofun
  | @appendOp t p o next r w hpc hout =>
      obtain ⟨pss, hflat, hlaid⟩ := h.layout
      have hext := extends_of_outcome (h.live.appending t p _ hpc).1.1 hout
      refine h.next hlive rfl hext hflat (hlaid.appendOp h.live hpc hout _) ?_ hroom
      exact h.marked_move hext nofun
  | unlockRefused hpc =>
      exact h.unlockRefused hpc rfl hlive hroom
  | unlock hpc hactive hplace =>
      exact h.unlock hpc hactive hplace rfl hlive hroom
  | lockSync hpc hlock =>
      exact hmove hpc rfl (not_appending id) not_appending_sync hrefl nofun
  | @syncOp t o next r w hpc hout =>
      exact hmove hpc rfl not_appending_sync not_appending_sync
        (syncLe_of_flush (h.live.syncing t _ hpc).1 hout) nofun
  | unlockSync hpc =>
      exact hmove hpc rfl not_appending_sync (not_appending id) hrefl nofun
  | returnUnsynced hpc hpolicy | flushAlone hpc hpolicy =>
      exact hmove hpc rfl (not_appending id) (not_appending id) hrefl (fun r hr => hr)
  | @enter t r step c hpc hpolicy hstep | @wake t r step c hpc hnotified hstep =>
      exact hmove hpc rfl (not_appending id) (not_appending (afterWait_not_holds r step)) hrefl
        (fun r' hr => congrArg some (afterWait_pending hr))
  | capture hpc hlock hactive | captureNone hpc hlock hactive | beginSync hpc =>
      exact hmove hpc rfl (not_appending id) (not_appending id) hrefl (fun r hr => hr)
  | @endSync t r why sg n hpc =>
      have hok := h.live.threads t
      rw [hpc] at hok
      exact hmove hpc rfl (not_appending id) (not_appending id)
        (Dir.SyncLe.set_right _ (File.SyncLe.syncTo _ hok.2.2.2.1)) (fun r hr => hr)
  | failSync hpc hfail => exact hfail.elim
  | beginIndex hpc =>
      exact hmove hpc rfl (not_appending id) (not_appending id) hrefl (fun r hr => hr)
  | @endIndex t r why sg n hpc =>
      have hok := h.live.threads t
      rw [hpc] at hok
      exact hmove hpc rfl (not_appending id) (not_appending id)
        (Dir.SyncLe.set_right _ (File.SyncLe.syncTo _ hok.2.2.2.1)) (fun r hr => hr)
  | failIndex hpc hfail => exact hfail.elim
  | returnAlone hpc =>
      exact hmove hpc rfl (not_appending id) (not_appending id) hrefl (fun r hr => hr)
  | @finish t r target outcome step c hpc hstep =>
      exact hmove hpc rfl (not_appending id) (not_appending (afterWait_not_holds r step)) hrefl
        (fun r' hr => congrArg some (afterWait_pending hr))
  | again hpc | againRefused hpc =>
      exact hmove hpc rfl (not_appending id) (not_appending id) hrefl nofun

end Up

/-- What holds of a machine that is off. -/
structure DownInv (crc : Checksum) (d : Dir Path) (before : List Bytes)
    (acked : Nat → Bytes → Prop) : Prop where
  fresh : ∀ p, ∃ img, d.file p = ⟨img, [], 0⟩
  fits : before.length < 2 ^ 64
  image : ∃ qs, OnDisk crc d qs ∧ (qs.map Part.records).flatten <+: before ∧
    ∀ k p, acked k p → (qs.map Part.records).flatten[k]? = some p

/-- A log that has just been opened, with what was recovered. -/
structure Recovered (crc : Checksum) (opts : Options) (recs : List Bytes) (l : Log)
    (w : World) : Prop where
  opened : ∃ pss, OpenLog crc w.dir pss l ∧ Healthy crc True w.dir pss ∧ pss.flatten = recs
  secured : ∀ k p, recs[k]? = some p → Secured crc w.dir k p
  opts : l.opts = opts.withDefaults
  coord : w.coord = Coord.new

section Down

variable {crc : Checksum} {d d' : Dir Path} {before : List Bytes}
variable {acked : Nat → Bytes → Prop} {qs : List Part}

theorem DownInv.still (h : DownInv crc d before acked) : Still d := by
  intro b
  obtain ⟨img, hfile⟩ := h.fresh (.segment b)
  rw [hfile]

theorem fresh_of_crash (hc : d.Crash d') : ∀ p, ∃ img, d'.file p = ⟨img, [], 0⟩ := by
  intro p
  obtain ⟨img, _, hfile⟩ := hc.2 p
  exact ⟨img, hfile⟩

theorem OnDisk.kept_sum (h : OnDisk crc d qs) :
    (qs.map Part.kept).sum = (qs.map Part.records).flatten.length := by
  rw [List.length_flatten, List.map_map]
  congr 1
  apply List.map_congr_left
  intro q hq
  exact (Part.length_records (h.stored.kept_le q hq)).symm

/-- Opening what a crash has left. -/
theorem OnDisk.recovers (h : OnDisk crc d qs) (hstill : Still d)
    (hfit : (qs.map Part.records).flatten.length < 2 ^ 64) (opts : Options) :
    ∃ l w, run LogOp.exec (openLog crc opts) ⟨d, Coord.new⟩ = (.ok l, w) ∧
      Recovered crc opts (qs.map Part.records).flatten l w := by
  by_cases hne : qs = []
  · subst hne
    obtain ⟨hrun, hopen⟩ := @openLog_empty_runs crc True ⟨d, Coord.new⟩ h opts
    have hborn := @healthy_born crc True d [] h (fun _ => trivial) (by simp)
    exact ⟨_, _, hrun.run_eq, ⟨[[]], hopen, hborn, rfl⟩, nofun, rfl, rfl⟩
  · rw [← h.kept_sum] at hfit
    obtain ⟨ss, w, hrun, hopen⟩ := @openLog_runs crc qs ⟨d, Coord.new⟩ h hne hfit opts
    obtain ⟨hrec, hcoord⟩ := hrun.final
    have hstill' : Still w.dir := fun b => hrec.quiet b (hstill b)
    have hdisk := hopen.onDisk
    refine ⟨_, w, hrun.run_eq, ⟨_, hopen, ⟨hdisk, ?_, hopen.nonempty⟩, rfl⟩, ?_, rfl, hcoord⟩
    · intro _
      obtain ⟨init, ps, heq⟩ := List.eq_nil_or_concat' _ |>.resolve_left hopen.nonempty
      rw [heq, fulls_append] at hdisk
      rw [heq, List.dropLast_concat]
      exact settled_of_still (storedFrom_append.mp hdisk.stored).1 hstill'
    · intro k p hk
      refine secured_of_quiet hdisk hstill' ?_
      rw [fulls_records]
      exact hk

theorem DownInv.recovers (h : DownInv crc d before acked) (opts : Options) :
    ∃ l w recs, run LogOp.exec (openLog crc opts) ⟨d, Coord.new⟩ = (.ok l, w) ∧
      Recovered crc opts recs l w ∧ recs <+: before ∧
      ∀ k p, acked k p → recs[k]? = some p := by
  obtain ⟨qs, hdisk, hpre, hacked⟩ := h.image
  have hfit := lt_of_le_of_lt hpre.length_le h.fits
  obtain ⟨l, w, hrun, hrec⟩ := hdisk.recovers h.still hfit opts
  exact ⟨l, w, _, hrun, hrec, hpre, hacked⟩

/-- A running machine right after `Open`. -/
theorem UpInv.start {opts : Options} {recs : List Bytes} {l : Log} {w : World}
    (h : DownInv crc d before acked) (hopts : opts.Supported)
    (hrun : run LogOp.exec (openLog crc opts) ⟨d, Coord.new⟩ = (.ok l, w))
    (hrec : Recovered crc opts recs l w) (hpre : recs <+: before)
    (hacked : ∀ k p, acked k p → recs[k]? = some p) :
    UpInv crc (l.contents crc w.dir) (Live.start l w) acked := by
  obtain ⟨pss, hopen, hhealthy, hflat⟩ := hrec.opened
  have hbacked : Backed [] d := by
    intro p
    obtain ⟨img, hfile⟩ := h.fresh p
    left
    rw [hfile]
  have hpolicy : opts.sync.durable = true := by
    rcases hopts.1 with hs | hs
    · rw [hs]
      rfl
    · rw [hs]
      rfl
  have hends := ends_run (LogOp.outcome_exec fun _ => False) (openLog crc opts) ⟨d, Coord.new⟩
  rw [hrun] at hends
  have hlive := LiveInv.start hbacked hpolicy hends
  have hlen : recs.length < 2 ^ 64 := lt_of_le_of_lt hpre.length_le h.fits
  rw [hopen.contents_eq, hflat]
  refine ⟨hlive, ?_, hlen, ⟨pss, ?_, fun _ => ⟨hopen, hhealthy⟩, nofun⟩,
    nofun, fun k p hk => hrec.secured k p (hacked k p hk)⟩
  · show l.opts.maxSegmentBytes ≤ 2 ^ 32
    rw [hrec.opts]
    exact withDefaults_le hopts.2
  · rw [hflat]
    exact (List.append_nil _).symm

/-- A crash while the log is being opened. -/
theorem DownInv.crashedOpening (h : DownInv crc d before acked) {opts : Options} {u : World}
    (hpoint : Point LogOp.exec (openLog crc opts) ⟨d, Coord.new⟩ u) (hc : u.dir.Crash d')
    (hheader : NewestHeaderKept d') : DownInv crc d' before acked := by
  obtain ⟨qs, hdisk, hpre, hacked⟩ := h.image
  refine ⟨fresh_of_crash hc, h.fits, ?_⟩
  by_cases hne : qs = []
  · subst hne
    obtain ⟨hrun, _⟩ := @openLog_empty_runs crc True ⟨d, Coord.new⟩ hdisk opts
    rcases (hrun.point hpoint).1 with hu | hu | hu
    · rw [hu] at hc
      exact ⟨[], hdisk.crash_nil hc, hpre, hacked⟩
    · exact absurd hheader (hu.not_kept hc)
    · -- the first segment has just been created, and there is nothing in it
      obtain ⟨qs, hdisk', hnil⟩ := hu.crash hc hheader
      have hflat : (qs.map Part.records).flatten = [] := List.prefix_nil.mp hnil
      refine ⟨qs, hdisk', ?_, ?_⟩
      · rw [hflat]
        exact List.nil_prefix
      · rw [hflat]
        exact hacked
  · have hfit := lt_of_le_of_lt hpre.length_le h.fits
    rw [← hdisk.kept_sum] at hfit
    obtain ⟨ss, w, hrun, _⟩ := @openLog_runs crc qs ⟨d, Coord.new⟩ hdisk hne hfit opts
    have hrec := (hrun.point hpoint).1
    exact ⟨qs, (hrec.onDisk hdisk).crash_still (fun b => hrec.quiet b (h.still b)) hc hheader,
      hpre, hacked⟩

variable {found : List Bytes} {s : Live}

/-- What was acknowledged is among what a crash leaves. -/
theorem UpInv.survives (h : UpInv crc found s acked) (hc : s.world.dir.Crash d')
    (hdisk : OnDisk crc d' qs) : ∀ k p, acked k p → (qs.map Part.records).flatten[k]? = some p := by
  intro k p hk
  obtain ⟨pss, _, hlaid⟩ := h.layout
  exact ((h.secured k p hk).crash hlaid.allGrow hc).get hdisk

theorem inFlight_of_appending {t : ThreadId} {p : Bytes}
    {rest : LogProgram (Log × Except LogErr Log.Ticket)} (h : LiveInv crc (fun _ => False) s)
    (hpc : s.threads t = .appending p rest) : s.inFlight = [p] := by
  have hlock := (h.lock t).mp (by rw [hpc]; trivial)
  unfold Live.inFlight
  rw [hlock]
  simp only [hpc]

/-- A crash of a running machine. -/
theorem UpInv.crashed (h : UpInv crc found s acked) (hc : s.world.dir.Crash d')
    (hheader : NewestHeaderKept d') : DownInv crc d' (found ++ s.written ++ s.inFlight) acked := by
  refine ⟨fresh_of_crash hc, ?_, ?_⟩
  · simpa [Nat.add_assoc] using h.fits
  obtain ⟨pss, hflat, hlaid⟩ := h.layout
  by_cases hidle : ∀ t, ¬ (s.threads t).Appending
  · obtain ⟨qs, hdisk, hpre⟩ := (hlaid.steady hidle).2.crash hc hheader
    rw [hflat] at hpre
    exact ⟨qs, hdisk, hpre.trans (List.prefix_append _ _), h.survives hc hdisk⟩
  · -- in the middle of an append, whose record may be on disk already
    obtain ⟨t, ht⟩ := not_forall.mp hidle
    obtain ⟨p, rest, hpc⟩ := not_not.mp ht
    obtain ⟨v, hv, hle⟩ := inv_of_always Flushes.refl (hlaid.appending t p rest hpc)
    have hcv := hle.crash hc
    rcases hv with ⟨pss', hhealthy, hrecs⟩ | hv
    · obtain ⟨qs, hdisk, hpre⟩ := hhealthy.crash hcv hheader
      refine ⟨qs, hdisk, hpre.trans ?_, h.survives hc hdisk⟩
      rw [inFlight_of_appending h.live hpc]
      rcases hrecs with hrecs | ⟨_, hrecs⟩
      · rw [hrecs, hflat]
        exact List.prefix_append _ _
      · rw [hrecs, hflat]
    · exact absurd hheader (hv.not_kept hcv)

end Down

/-- The invariant of a history. -/
def CrashInv (crc : Checksum) : Host → (Nat → Bytes → Prop) → Prop
  | .down d before, acked => DownInv crc d before acked
  | .up found s, acked => UpInv crc found s acked

variable {crc : Checksum} {acked : Nat → Bytes → Prop}

/-- The invariant holds along every history. -/
theorem crashInv_of_run {host : Host} (h : CrashRun crc host acked) : CrashInv crc host acked := by
  induction h with
  | start =>
      exact ⟨fun _ => ⟨[], rfl⟩, by simp, [], onDisk_empty crc, List.nil_prefix,
        fun _ _ hk => hk.elim⟩
  | opened opts h hopts hrun ih =>
      obtain ⟨l', w', recs, hrun', hrec, hpre, hacked⟩ := DownInv.recovers ih opts
      rw [hrun] at hrun'
      obtain ⟨hl, rfl⟩ := Prod.mk.inj hrun'
      obtain rfl := Except.ok.inj hl
      exact UpInv.start ih hopts hrun hrec hpre hacked
  | crashedOpening opts h hpoint hcrash hheader ih =>
      exact DownInv.crashedOpening ih hpoint hcrash hheader
  | stepped h hstep hroom ih =>
      exact UpInv.step ih hstep hroom
  | crashed h hcrash hheader ih =>
      exact UpInv.crashed ih hcrash hheader

/-- After any history of appends and power losses, `Open` succeeds.  The records it finds
are a prefix of those that were there before the last crash and contain every one whose
`Append` had returned success; `Read` returns them at their offsets and nothing else, and
the next `Append` is given the next offset. -/
theorem crashed_log_recovers {crc : Checksum} {d : Dir Path} {before : List Bytes}
    {acked : Nat → Bytes → Prop} (h : CrashRun crc (.down d before) acked) {opts : Options}
    (hopts : opts.Supported) :
    ∃ l w recs, run LogOp.exec (openLog crc opts) ⟨d, Coord.new⟩ = (.ok l, w) ∧
      recs <+: before ∧ (∀ k p, acked k p → recs[k]? = some p) ∧
      l.nextOffset = recs.length ∧
      (∀ k, k < l.nextOffset → ∃ p, recs[k]? = some p ∧ l.read crc w.dir k = .ok p) ∧
      (∀ k, l.nextOffset ≤ k → l.read crc w.dir k = .error (.offsetOutOfRange k)) ∧
      ∀ p, Legal p → (run LogOp.exec (l.append crc p) w).1.2 = .ok l.nextOffset := by
  obtain ⟨l, w, recs, hrun, hrec, hpre, hacked⟩ := DownInv.recovers (crashInv_of_run h) opts
  obtain ⟨pss, hopen, hhealthy, rfl⟩ := hrec.opened
  refine ⟨l, w, pss.flatten, hrun, hpre, hacked, hopen.nextOffset_eq, ?_, ?_, ?_⟩
  · intro k hk
    rw [hopen.nextOffset_eq] at hk
    have hget := List.getElem?_eq_getElem hk
    refine ⟨_, hget, ?_⟩
    rw [hopen.read_eq, hget]
  · intro k hk
    rw [hopen.nextOffset_eq] at hk
    rw [hopen.read_eq, List.getElem?_eq_none hk]
  · intro p hp
    have hbounded : l.opts.maxSegmentBytes ≤ 2 ^ 32 := by
      rw [hrec.opts]
      exact withDefaults_le hopts.2
    have hcalm : Calm w.coord := by
      rw [hrec.coord]
      exact ⟨rfl, rfl⟩
    obtain ⟨l', r, w', happend, hall⟩ :=
      append_runs hopen hopen.healthy False.elim (addressable_of_le hopen hbounded p) hcalm
    rw [happend.run_eq, hopen.nextOffset_eq]
    have hresult := hall.result
    rw [if_pos hp] at hresult
    exact hresult

/-- The worst a power loss can do: nothing is left but what is synced. -/
def onlySynced (d : Dir Path) : Dir Path :=
  ⟨d.names, fun p => ⟨(d.file p).cut (d.file p).synced 0, [], 0⟩⟩

theorem crash_onlySynced (d : Dir Path) : d.Crash (onlySynced d) :=
  ⟨rfl, fun _ => ⟨_, ⟨_, 0, le_refl _, rfl⟩, rfl⟩⟩

instance (d : Dir Path) : Decidable (NewestHeaderKept d) :=
  decidable_of_iff (∀ b ∈ segmentOffsets d.names, (∀ c ∈ segmentOffsets d.names, c ≤ b) →
      segmentHeaderSize ≤ (d.file (.segment b)).data.length)
    (by simp only [NewestHeaderKept, mem_segmentOffsets])

/-- Whether there are fewer records than offsets after a step. -/
def hasRoom (found : List Bytes) (_ : Live) (_ : ThreadId) (s' : Live) : Bool :=
  found.length + s'.written.length + 1 < 2 ^ 64

/-- At the end of a schedule everything that has returned is acknowledged. -/
theorem CrashRun.played {found : List Bytes} {s : Live} (h : CrashRun crc (.up found s) acked)
    (hacks : ∀ k p, s.Acks k p → acked k p) (ms : List ThreadMove) :
    ∃ acked', CrashRun crc (.up found (s.play crc (hasRoom found) ms)) acked' ∧
      ∀ k p, (s.play crc (hasRoom found) ms).Acks k p → acked' k p := by
  refine @play_induction crc (fun _ => False) _ _ (fun s => ∃ acked',
    CrashRun crc (.up found s) acked' ∧ ∀ k p, s.Acks k p → acked' k p) ?_ ⟨acked, h, hacks⟩ ms
  rintro s t s' ⟨acked', h', -⟩ hstep - hroom
  exact ⟨_, h'.stepped hstep (of_decide_eq_true hroom), fun k p hack => .inr hack⟩

theorem not_acks_start {l : Log} {w : World} {k : Nat} {p : Bytes} :
    ¬ (Live.start l w).Acks k p := by
  rintro ⟨t, r, h, -⟩
  cases h

/-- One thread's append is acknowledged; the power fails while another thread's record is
written and not yet synced. -/
theorem crashed_log_recovers_first :
    ∃ d before acked, CrashRun crc32c (.down d before) acked ∧ before = [[1], [2]] ∧
      acked 0 [1] ∧
      ∃ l w recs, run LogOp.exec (openLog crc32c ⟨4096, .group, 0⟩) ⟨d, Coord.new⟩ = (.ok l, w) ∧
        recs <+: before ∧ recs[0]? = some [1] := by
  have hopts : Options.Supported ⟨4096, .group, 0⟩ := ⟨Or.inr rfl, by decide⟩
  have hlog : (run LogOp.exec (openLog crc32c ⟨4096, .group, 0⟩) ⟨Dir.empty, Coord.new⟩).1 =
      .ok emptyGroupLog := by
    decide +kernel
  have h₀ := CrashRun.opened ⟨4096, .group, 0⟩ CrashRun.start hopts (Prod.ext hlog rfl)
  obtain ⟨acked, h₁, hacks⟩ := h₀.played (fun _ _ h => absurd h not_acks_start)
    [.append 0 [1], .steps 0 10, .append 1 [2], .steps 1 1]
  have hfirst : acked 0 [1] := hacks 0 [1] ⟨0, ⟨[1], ⟨0, 1, 1⟩, ⟨.segment 0, 2⟩⟩,
    Pc.acks?_eq_some_iff.1 (by decide +kernel), rfl⟩
  have h₂ := h₁.crashed (crash_onlySynced _) (by decide +kernel)
  obtain ⟨l, w, recs, hrun, hpre, hacked, _⟩ := crashed_log_recovers h₂ hopts
  exact ⟨_, _, _, h₂, by decide +kernel, hfirst, l, w, recs, hrun, hpre, hacked 0 [1] hfirst⟩

end LedgerLine.Broker
