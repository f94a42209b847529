import LedgerLine.Broker.Readable
import LedgerLine.Billing.Kept

/-!
# From the log to the tables across power losses

One process appends to the log and drains it into the database; the machine may lose its power
at any moment, also while the log is being opened.  A power loss ends all drains, takes from
every file of the log some of what no fsync has covered, and leaves what is committed in the
database alone.

`Log.Read` also returns records that no fsync has covered.  A batch may process one of them and
commit, the power loss takes it away, and its offset is given to another record, which the
consumer has then passed already (`acknowledged_lost`).  If no power loss takes a record that a
committed batch has processed (`Intact`), a consumer that has caught up has accounted for every
record whose `Append` returned success (`acknowledged_accounted`).
-/

namespace LedgerLine.Pipeline

open Program Broker

/-- Every record that a committed batch has processed is whole in its segment file. -/
def Intact (crc : Checksum) (w : Billing.World) (d : Dir Path) : Prop :=
  ∀ c k p, k < w.reached c → w.log[k]? = some p → Secured crc d k p

section Runs

variable (crc : Checksum) (cols : Billing.Columns)
  (decode : Bytes → Except String Billing.UsageEvent) (consumers : Nat → Billing.Consumer)
  (allowed : Billing.World → Dir Path → Prop)

/-- Histories from an empty directory and an empty database: the machine, the records that have
been acknowledged, and the database with the drains.  The consumers read the records that are
written, synced or not.  Power is lost only where `allowed`. -/
inductive SiteRun : Host → (Nat → Bytes → Prop) → Billing.Fleet → Prop
  | start : SiteRun (.down Dir.empty []) (fun _ _ => False) (.start ⟨[], .empty, fun _ => 0⟩)
  | opened {d : Dir Path} {before : List Bytes} {acked : Nat → Bytes → Prop}
      {fleet : Billing.Fleet} (opts : Options) {l : Log} {v : World}
      (h : SiteRun (.down d before) acked fleet) (hopts : opts.Supported)
      (hrun : run LogOp.exec (openLog crc opts) ⟨d, Coord.new⟩ = (.ok l, v)) :
      SiteRun (.up (l.contents crc v.dir) (Live.start l v)) acked
        (fleet.withWorld { fleet.world with log := l.contents crc v.dir })
  | crashedOpening {d d' : Dir Path} {before : List Bytes} {acked : Nat → Bytes → Prop}
      {fleet : Billing.Fleet} (opts : Options) {u : World}
      (h : SiteRun (.down d before) acked fleet)
      (hpoint : Point LogOp.exec (openLog crc opts) ⟨d, Coord.new⟩ u)
      (hcrash : u.dir.Crash d') (hheader : NewestHeaderKept d') :
      SiteRun (.down d' before) acked fleet
  | stepped {found : List Bytes} {s s' : Live} {acked : Nat → Bytes → Prop}
      {fleet : Billing.Fleet} (h : SiteRun (.up found s) acked fleet)
      (hstep : LiveStep crc (fun _ => False) s s')
      (hroom : found.length + s'.written.length + 1 < 2 ^ 64) :
      SiteRun (.up found s') (fun k p => acked k p ∨ s'.Acks k p)
        (fleet.withWorld { fleet.world with log := found ++ s'.written })
  | drained {found : List Bytes} {s : Live} {acked : Nat → Bytes → Prop}
      {fleet fleet' : Billing.Fleet} (h : SiteRun (.up found s) acked fleet)
      (hstep : Billing.DrainStep cols decode consumers fleet fleet') :
      SiteRun (.up found s) acked fleet'
  | crashed {found : List Bytes} {s : Live} {d' : Dir Path} {acked : Nat → Bytes → Prop}
      {fleet : Billing.Fleet} (h : SiteRun (.up found s) acked fleet)
      (hcrash : s.world.dir.Crash d') (hheader : NewestHeaderKept d')
      (hallowed : allowed fleet.world d') :
      SiteRun (.down d' (found ++ s.written ++ s.inFlight)) acked (.start fleet.world)

end Runs

section Invariant

variable {crc : Checksum} {cols : Billing.Columns}
  {decode : Bytes → Except String Billing.UsageEvent} {consumers : Nat → Billing.Consumer}
  {allowed : Billing.World → Dir Path → Prop} {host : Host} {acked : Nat → Bytes → Prop}
  {fleet : Billing.Fleet}

/-- Without the consumers it is a history of the log. -/
theorem SiteRun.crashRun (h : SiteRun crc cols decode consumers allowed host acked fleet) :
    CrashRun crc host acked := by
  induction h with
  | start => exact .start
  | opened opts h hopts hrun ih =>
      exact ih.opened opts hopts hrun
  | crashedOpening opts h hpoint hcrash hheader ih =>
      exact ih.crashedOpening opts hpoint hcrash hheader
  | stepped h hstep hroom ih =>
      exact ih.stepped hstep hroom
  | drained h hstep ih => exact ih
  | crashed h hcrash hheader hallowed ih =>
      exact ih.crashed hcrash hheader

/-- The record `p` at offset `k` has been processed by a committed batch. -/
def Passed (w : Billing.World) (k : Nat) (p : Bytes) : Prop :=
  (∃ c, k < w.reached c) ∧ w.log[k]? = some p

/-- What holds along a history in which no processed record is lost.  While the machine is off,
the processed records are among those that `Open` is going to find. -/
def SiteInv (crc : Checksum) (cols : Billing.Columns)
    (decode : Bytes → Except String Billing.UsageEvent) (consumers : Nat → Billing.Consumer) :
    Host → Billing.Fleet → Prop
  | .down d before, fleet =>
      ∃ w, fleet = .start w ∧ (Billing.Delivery.keptContract cols decode).Good w ∧
        w.log <+: before ∧ DownInv crc d before (Passed w)
  | .up found s, fleet =>
      Billing.FleetInv (Billing.Delivery.keptContract cols decode) consumers fleet ∧
        fleet.world.log = found ++ s.written

/-- Consumers have only reached offsets that there are. -/
theorem reached_le {w : Billing.World} (h : Billing.Delivery.Good cols decode w) (c : String) :
    w.reached c ≤ w.log.length := by
  obtain ⟨m, hstored, hreached⟩ := h.stored
  exact Nat.le_trans (hreached c) hstored.bound

/-- The log is open again and has all that was processed. -/
theorem good_reopened {w : Billing.World} {recs before : List Bytes}
    (h : (Billing.Delivery.keptContract cols decode).Good w) (hlog : w.log <+: before)
    (hrecs : recs <+: before) (hpassed : ∀ k p, Passed w k p → recs[k]? = some p) :
    (Billing.Delivery.keptContract cols decode).Good { w with log := recs } := by
  obtain ⟨hgood, hprocessed⟩ := h
  rcases List.prefix_or_prefix_of_prefix hrecs hlog with hshort | ⟨rest, rfl⟩
  · have hn : ∀ c, w.reached c ≤ recs.length := by
      intro c
      by_contra hlt
      have hlen := reached_le hgood c
      have hrecord := List.getElem?_eq_getElem (show recs.length < w.log.length by omega)
      have hlast := hpassed recs.length _ ⟨⟨c, by omega⟩, hrecord⟩
      rw [List.getElem?_eq_none (Nat.le_refl _)] at hlast
      cases hlast
    rw [List.prefix_iff_eq_take.1 hshort]
    exact ⟨Billing.Delivery.Good.take hn hgood hprocessed,
      Billing.Delivery.Processed.take hn hprocessed⟩
  · exact ⟨Billing.Delivery.Good.append hgood rest,
      Billing.Delivery.Processed.append hprocessed rest⟩

theorem siteInv_of_run (h : SiteRun crc cols decode consumers (Intact crc) host acked fleet) :
    SiteInv crc cols decode consumers host fleet := by
  induction h with
  | start =>
      refine ⟨_, rfl, ⟨Billing.Delivery.good_start [], nofun⟩,
        List.prefix_refl _, fun _ => ⟨[], rfl⟩, by simp, [], onDisk_empty crc, List.nil_prefix, ?_⟩
      rintro k p ⟨-, hp⟩
      cases hp
  | @opened d before acked fleet opts l v h hopts hrun ih =>
      obtain ⟨w, rfl, hgood, hlog, hdown⟩ := ih
      obtain ⟨l', v', recs, hrun', hrec, hpre, hpassed⟩ := hdown.recovers opts
      rw [hrun] at hrun'
      obtain ⟨hl, rfl⟩ := Prod.mk.inj hrun'
      obtain rfl := Except.ok.inj hl
      obtain ⟨pss, hopen, -, hflat⟩ := hrec.opened
      rw [hopen.contents_eq, hflat]
      exact ⟨.start (good_reopened hgood hlog hpre hpassed), (List.append_nil _).symm⟩
  | crashedOpening opts h hpoint hcrash hheader ih =>
      obtain ⟨w, hfleet, hgood, hlog, hdown⟩ := ih
      exact ⟨w, hfleet, hgood, hlog, hdown.crashedOpening hpoint hcrash hheader⟩
  | @stepped found s s' acked fleet h hstep hroom ih =>
      obtain ⟨hfleet, hlog⟩ := ih
      refine ⟨?_, rfl⟩
      rcases written_of_step hstep with ⟨hwritten, -⟩ | ⟨_, p, _, _, _, -, hwritten, -⟩
      · rw [hwritten, ← hlog]
        exact hfleet
      · rw [hwritten, ← List.append_assoc, ← hlog]
        exact Billing.Delivery.kept_append hfleet [p]
  | drained h hstep ih =>
      obtain ⟨hfleet, hlog⟩ := ih
      exact ⟨hfleet.step hstep, (Billing.log_of_drainStep hstep).trans hlog⟩
  | @crashed found s d' acked fleet h hcrash hheader hintact ih =>
      obtain ⟨hfleet, hlog⟩ := ih
      have hdown := UpInv.crashed (crashInv_of_run h.crashRun) hcrash hheader
      refine ⟨_, rfl, hfleet.good, ?_, hdown.fresh, hdown.fits, ?_⟩
      · rw [hlog]
        exact List.prefix_append _ _
      · obtain ⟨qs, hdisk, hpre, -⟩ := hdown.image
        refine ⟨qs, hdisk, hpre, ?_⟩
        rintro k p ⟨⟨c, hk⟩, hp⟩
        exact (hintact c k p hk hp).get hdisk

/-- No power loss takes a record that has been acknowledged. -/
theorem intact_of_acked {found : List Bytes} {s : Live} {d' : Dir Path}
    (h : SiteRun crc cols decode consumers allowed (.up found s) acked fleet)
    (hcrash : s.world.dir.Crash d')
    (hacked : ∀ c k p, k < fleet.world.reached c → fleet.world.log[k]? = some p → acked k p) :
    Intact crc fleet.world d' := by
  have hup : UpInv crc found s acked := crashInv_of_run h.crashRun
  obtain ⟨pss, -, hlaid⟩ := hup.layout
  intro c k p hk hp
  exact (hup.secured k p (hacked c k p hk hp)).crash hlaid.allGrow hcrash

/-- Where no power loss takes a record that a committed batch has processed, a consumer that has
caught up has accounted for every acknowledged record. -/
theorem acknowledged_accounted {found : List Bytes} {s : Live}
    (h : SiteRun crc cols decode consumers (Intact crc) (.up found s) acked fleet)
    (c : Billing.Consumer) (hcaught : (found ++ s.written).length ≤ c.nextOffset fleet.world.db) :
    ∀ k p, acked k p → Billing.Accounted decode c.name fleet.world.db p := by
  intro k p hk
  obtain ⟨hfleet, hlog⟩ := siteInv_of_run h
  have hgood : Billing.Delivery.Good cols decode fleet.world := hfleet.good.1
  have hat := (h.crashRun.acked_at found s rfl).acked k p hk
  have hreached := Billing.Contract.nextOffset_le _ hfleet.good c
  rw [← hlog] at hat hcaught
  have hlt := (List.getElem?_eq_some_iff.1 hat).1
  exact hgood.accounted (by omega) hat

end Invariant

section Sample

/-- Records of one byte, which is also their key. -/
def keyedDecode : Bytes → Except String Billing.UsageEvent
  | [] => .error "empty record"
  | b :: _ => .ok ⟨"acme", "calls", "1", 0, 0, if b = 1 then "first" else "second", none⟩

/-- The one consumer. -/
def soleConsumer : Billing.Consumer :=
  .new "billing" 0

/-- A history of the sample. -/
abbrev SampleRun (allowed : Billing.World → Dir Path → Prop) (host : Host)
    (acked : Nat → Bytes → Prop) (fleet : Billing.Fleet) : Prop :=
  SiteRun crc32c Billing.postgresColumns keyedDecode (fun _ => soleConsumer) allowed host acked
    fleet

/-- The options of the sample. -/
def groupOptions : Options :=
  ⟨4096, .group, 0⟩

variable {acked : Nat → Bytes → Prop} {allowed : Billing.World → Dir Path → Prop}
  {fleet : Billing.Fleet}

/-- The log is opened. -/
theorem sampleRun_opened {d : Dir Path} {before : List Bytes} (l : Log)
    (h : SampleRun allowed (.down d before) acked fleet)
    (hopen : (run LogOp.exec (openLog crc32c groupOptions) ⟨d, Coord.new⟩).1 = .ok l) :
    SampleRun allowed
      (.up (l.contents crc32c (run LogOp.exec (openLog crc32c groupOptions) ⟨d, Coord.new⟩).2.dir)
        (Live.start l (run LogOp.exec (openLog crc32c groupOptions) ⟨d, Coord.new⟩).2)) acked
      (fleet.withWorld { fleet.world with
        log := l.contents crc32c
          (run LogOp.exec (openLog crc32c groupOptions) ⟨d, Coord.new⟩).2.dir }) :=
  h.opened groupOptions ⟨Or.inr rfl, by decide⟩ (Prod.ext hopen rfl)

/-- At the end of a schedule everything that has returned is acknowledged, and everything that is
written is there to be drained. -/
theorem sampleRun_played {found : List Bytes} {s : Live}
    (h : SampleRun allowed (.up found s) acked fleet) (hlog : fleet.world.log = found ++ s.written)
    (hacks : ∀ k p, s.Acks k p → acked k p) (ms : List ThreadMove) :
    ∃ acked', SampleRun allowed (.up found (s.play crc32c (hasRoom found) ms)) acked'
        (fleet.withWorld { fleet.world with
          log := found ++ (s.play crc32c (hasRoom found) ms).written }) ∧
      ∀ k p, (s.play crc32c (hasRoom found) ms).Acks k p → acked' k p := by
  refine @play_induction crc32c (fun _ => False) _ _ (fun s => ∃ acked',
    SampleRun allowed (.up found s) acked'
      (fleet.withWorld { fleet.world with log := found ++ s.written }) ∧
    ∀ k p, s.Acks k p → acked' k p) ?_ ⟨acked, hlog ▸ h, hacks⟩ ms
  rintro s t s' ⟨acked', h', -⟩ hstep - hroom
  exact ⟨_, h'.stepped hstep (of_decide_eq_true hroom), fun k p hack => .inr hack⟩

section Drained

variable {allowed : Billing.World → Dir Path → Prop} {found : List Bytes} {s : Live}
  {acked : Nat → Bytes → Prop} {fleet fleet' : Billing.Fleet}

theorem sampleRun_drained (h : SampleRun allowed (.up found s) acked fleet)
    (hsteps : Relation.ReflTransGen (Billing.DrainStep Billing.postgresColumns keyedDecode
      fun _ => soleConsumer) fleet fleet') : SampleRun allowed (.up found s) acked fleet' := by
  induction hsteps with
  | refl => exact h
  | tail _ hstep ih => exact ih.drained hstep

/-- Nobody else is at work, and the next batch takes one record through. -/
theorem sampleRun_batch (h : SampleRun allowed (.up found s) acked fleet)
    (hidle : fleet.pcs 0 = .idle) (halone : ∀ u, fleet.pool.sessions u = none)
    (hend : soleConsumer.nextOffset fleet.world.db < fleet.world.log.length)
    (hbatch : (soleConsumer.runBatch Billing.postgresColumns keyedDecode fleet.world).1 =
      .commit ⟨1, 1, 0, 0, 0⟩) :
    SampleRun allowed (.up found s) acked
      (fleet.withWorld (soleConsumer.afterBatch Billing.postgresColumns keyedDecode
        fleet.world)) :=
  sampleRun_drained h (Billing.DrainStep.batch_alone hidle halone hend hbatch)

end Drained

/-- A log of the one record `[1]`, as `Open` returns it. -/
def oneRecordLog : Log :=
  ⟨⟨4096, .group, 100⟩, [⟨.segment 0, ⟨.index 0, [⟨0, 16⟩]⟩, 0, 1, 25, 16⟩], 0, 0⟩

/-- Nothing was processed but one acknowledged record. -/
theorem intact_one {found : List Bytes} {s : Live} {d' : Dir Path} (record : Bytes)
    (h : SampleRun (Intact crc32c) (.up found s) acked fleet) (hcrash : s.world.dir.Crash d')
    (hlog : fleet.world.log = [record]) (hacked : acked 0 record) :
    Intact crc32c fleet.world d' := by
  apply intact_of_acked h hcrash
  intro c k p hk hp
  have hlen := reached_le (siteInv_of_run h).1.good.1 c
  rw [hlog] at hp hlen
  have hzero : k = 0 := by
    rw [List.length_singleton] at hlen
    omega
  subst hzero
  cases hp
  exact hacked

/-- One thread's record is acknowledged and drained before the power fails. -/
theorem acknowledged_accounted_first :
    ∃ found s acked fleet, SampleRun (Intact crc32c) (.up found s) acked fleet ∧ found = [[1]] ∧
      acked 0 [1] ∧ Billing.Accounted keyedDecode soleConsumer.name fleet.world.db [1] := by
  have h₀ : SampleRun (Intact crc32c) _ _ _ :=
    sampleRun_opened emptyGroupLog .start (by decide +kernel)
  obtain ⟨acked, h₁, hacks⟩ := sampleRun_played h₀ (by decide +kernel)
    (fun _ _ h => absurd h not_acks_start) [.append 0 [1], .steps 0 10]
  have hacked : acked 0 [1] := hacks 0 [1] ⟨0, ⟨[1], ⟨0, 1, 1⟩, ⟨.segment 0, 2⟩⟩,
    Pc.acks?_eq_some_iff.1 (by decide +kernel), rfl⟩
  have h₂ := sampleRun_batch h₁ rfl (fun _ => rfl) (by decide +kernel) (by decide +kernel)
  have h₃ := h₂.crashed (crash_onlySynced _) (by decide +kernel)
    (intact_one [1] h₂ (crash_onlySynced _) (by decide +kernel) hacked)
  have h₄ := sampleRun_opened oneRecordLog h₃ (by decide +kernel)
  exact ⟨_, _, _, _, h₄, by decide +kernel, hacked,
    acknowledged_accounted h₄ soleConsumer (by decide +kernel) 0 [1] hacked⟩

/-- A power loss that spares the first write to every file. -/
def firstWriteKept (d : Dir Path) : Dir Path :=
  ⟨d.names, fun p => ⟨(d.file p).cut (max (d.file p).synced 1) 0, [], 0⟩⟩

theorem crash_firstWriteKept (d : Dir Path) : d.Crash (firstWriteKept d) :=
  ⟨rfl, fun _ => ⟨_, ⟨_, 0, le_max_left _ _, rfl⟩, rfl⟩⟩

theorem not_accounted {consumer : String} {db : Billing.Database}
    (hevents : ∀ row ∈ db.events, row.key ≠ ("acme", "second")) (hletters : db.deadLetters = []) :
    ¬ Billing.Accounted keyedDecode consumer db [2] := by
  rintro (⟨e, he, row, hrow, hkey⟩ | ⟨row, hrow, -⟩)
  · cases he
    exact hevents row hrow hkey
  · rw [hletters] at hrow
    cases hrow

/-- A record is drained before it is synced, and the power fails.  The next record gets its
offset, is acknowledged, and is never drained. -/
theorem acknowledged_lost :
    ∃ found s acked fleet, SampleRun (fun _ _ => True) (.up found s) acked fleet ∧
      (found ++ s.written).length ≤ soleConsumer.nextOffset fleet.world.db ∧
      acked 0 [2] ∧ ¬ Billing.Accounted keyedDecode soleConsumer.name fleet.world.db [2] := by
  have h₀ : SampleRun (fun _ _ => True) _ _ _ :=
    sampleRun_opened emptyGroupLog .start (by decide +kernel)
  obtain ⟨_, h₁, -⟩ := sampleRun_played h₀ (by decide +kernel)
    (fun _ _ h => absurd h not_acks_start) [.append 0 [1], .steps 0 3]
  have h₂ := sampleRun_batch h₁ rfl (fun _ => rfl) (by decide +kernel) (by decide +kernel)
  have h₃ := h₂.crashed (crash_firstWriteKept _) (by decide +kernel) trivial
  have h₄ := sampleRun_opened emptyGroupLog h₃ (by decide +kernel)
  obtain ⟨acked, h₅, hacks⟩ := sampleRun_played h₄ (by decide +kernel)
    (fun _ _ h => absurd h not_acks_start) [.append 0 [2], .steps 0 10]
  have hacked : acked 0 [2] := hacks 0 [2] ⟨0, ⟨[2], ⟨0, 1, 1⟩, ⟨.segment 0, 1⟩⟩,
    Pc.acks?_eq_some_iff.1 (by decide +kernel), rfl⟩
  exact ⟨_, _, _, _, h₅, by decide +kernel, hacked,
    not_accounted (by decide +kernel) (by decide +kernel)⟩

end Sample

end LedgerLine.Pipeline
