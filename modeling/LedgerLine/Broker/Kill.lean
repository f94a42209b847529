import LedgerLine.Broker.Refinement

/-!
# Killing the writer

A process opens the log and appends to it, and may be killed between any two of its
operations; what it has written stays.  `KillRun` is every such history, over any
number of processes, with the appends that were acknowledged on the way.

A process killed between the creation of a segment file and the write of its header
leaves an empty file, which `openSegment` refuses.  If no kill falls there, and appends
stay within what an index can address, every `Open` succeeds and finds every
acknowledged record: `KillInv` is the invariant, `killInv_of_run` the induction.
-/

namespace LedgerLine.Broker

open Program

/-- A log directory and the process that works on it, if one is running. -/
inductive Proc
  | down (d : Dir Path)
  | up (w : World) (l : Log)

/-- The acknowledged appends after one more has returned. -/
def acknowledge (acked : List (Nat × Bytes)) (p : Bytes) : Except LogErr Nat → List (Nat × Bytes)
  | .ok k => (k, p) :: acked
  | .error _ => acked

section Runs

variable (crc : Checksum)

/-- Histories of opening, appending and being killed.  `mayKill` says in which states
of the directory a kill may fall, `mayAppend` which appends are made. -/
inductive KillRun (mayKill : Dir Path → Prop) (mayAppend : Log → Bytes → Prop) :
    Proc → List (Nat × Bytes) → Prop
  | start : KillRun mayKill mayAppend (.down Dir.empty) []
  | opened {d : Dir Path} {acked : List (Nat × Bytes)} (opts : Options) {l : Log}
      (h : KillRun mayKill mayAppend (.down d) acked)
      (hok : (run LogOp.exec (openLog crc opts) ⟨d, Coord.new⟩).1 = .ok l) :
      KillRun mayKill mayAppend
        (.up (run LogOp.exec (openLog crc opts) ⟨d, Coord.new⟩).2 l) acked
  | killedOpening {d : Dir Path} {acked : List (Nat × Bytes)} (opts : Options) {u : World}
      (h : KillRun mayKill mayAppend (.down d) acked)
      (hpoint : Point LogOp.exec (openLog crc opts) ⟨d, Coord.new⟩ u) (hkill : mayKill u.dir) :
      KillRun mayKill mayAppend (.down u.dir) acked
  | appended {w : World} {l : Log} {acked : List (Nat × Bytes)} (p : Bytes)
      (h : KillRun mayKill mayAppend (.up w l) acked) (happend : mayAppend l p) :
      KillRun mayKill mayAppend
        (.up (run LogOp.exec (l.append crc p) w).2 (run LogOp.exec (l.append crc p) w).1.1)
        (acknowledge acked p (run LogOp.exec (l.append crc p) w).1.2)
  | killedAppending {w : World} {l : Log} {acked : List (Nat × Bytes)} (p : Bytes) {u : World}
      (h : KillRun mayKill mayAppend (.up w l) acked) (happend : mayAppend l p)
      (hpoint : Point LogOp.exec (l.append crc p) w u) (hkill : mayKill u.dir) :
      KillRun mayKill mayAppend (.down u.dir) acked

end Runs

/-- Every segment file has been given its header. -/
def HeadersWritten (d : Dir Path) : Prop :=
  ∀ b, Path.segment b ∈ d.names → (d.file (.segment b)).data ≠ []

instance (d : Dir Path) : Decidable (HeadersWritten d) :=
  decidable_of_iff (∀ b ∈ segmentOffsets d.names, (d.file (.segment b)).data ≠ [])
    (by simp only [HeadersWritten, mem_segmentOffsets])

/-- The next record gets an offset that fits a `uint64`, in a segment whose records an
index can address. -/
def WithinRange (l : Log) (p : Bytes) : Prop :=
  l.nextOffset + 1 < 2 ^ 64 ∧ Addressable l p

instance (l : Log) (p : Bytes) : Decidable (Addressable l p) :=
  decidable_of_iff (∀ s ∈ l.active.toList, l.rolls s p ∨ s.size < maxIndexableSegment)
    (by simp only [Addressable, Option.mem_toList])

instance (l : Log) (p : Bytes) : Decidable (WithinRange l p) :=
  inferInstanceAs (Decidable (_ ∧ _))

section Invariant

variable (crc : Checksum)

/-- The acknowledged records are among `recs`, each at its offset. -/
def AllIn (acked : List (Nat × Bytes)) (recs : List Bytes) : Prop :=
  ∀ k p, (k, p) ∈ acked → recs[k]? = some p

/-- What holds of every history in which no kill separates a segment file from its
header. -/
def KillInv : Proc → List (Nat × Bytes) → Prop
  | .down d, acked =>
      (OnDisk crc d [] ∧ acked = []) ∨
        ∃ pss, Healthy crc False d pss ∧ AllIn acked pss.flatten ∧ pss.flatten.length < 2 ^ 64
  | .up w l, acked =>
      ∃ pss, OpenLog crc w.dir pss l ∧ Calm w.coord ∧ AllIn acked pss.flatten ∧
        pss.flatten.length < 2 ^ 64

variable {crc}
variable {d : Dir Path} {acked : List (Nat × Bytes)} {recs : List Bytes} {p : Bytes}

theorem AllIn.concat (h : AllIn acked recs) (p : Bytes) : AllIn acked (recs ++ [p]) := by
  intro k q hq
  have hk := h k q hq
  rw [List.getElem?_append_left (List.getElem?_eq_some_iff.mp hk).1]
  exact hk

/-- A segment file without a header is a file with nothing in it. -/
theorem Headless.not_headersWritten {strict : Prop} {pss : List (List Bytes)}
    (h : Headless crc strict d pss) : ¬ HeadersWritten d := by
  obtain ⟨d₀, _, _, _, rfl⟩ := h
  intro hw
  apply hw pss.flatten.length
  · simp [headless]
  · rw [headless, Dir.create_file_self]
    rfl

/-- Opening succeeds from every such state. -/
theorem KillInv.reopens (h : KillInv crc (.down d) acked) (opts : Options) :
    ∃ l w, run LogOp.exec (openLog crc opts) ⟨d, Coord.new⟩ = (.ok l, w) ∧
      KillInv crc (.up w l) acked := by
  rcases h with ⟨hdisk, rfl⟩ | ⟨pss, hh, hacked, hlen⟩
  · obtain ⟨hrun, hopen⟩ := @openLog_empty_runs crc False ⟨d, Coord.new⟩ hdisk opts
    exact ⟨_, _, hrun.run_eq, [[]], hopen, ⟨rfl, rfl⟩, by simp [AllIn], by simp⟩
  · have hne : fulls pss ≠ [] := by
      simpa [fulls] using hh.nonempty
    obtain ⟨ss, w', hrun, hopen⟩ := @openLog_runs crc _ ⟨d, Coord.new⟩ hh.onDisk hne
      (by rw [fulls_kept, ← List.length_flatten]; exact hlen) opts
    rw [fulls_records] at hopen
    refine ⟨_, w', hrun.run_eq, pss, hopen, ?_, hacked, hlen⟩
    rw [hrun.final.2]
    exact ⟨rfl, rfl⟩

/-- Being killed while opening. -/
theorem KillInv.killedOpening (h : KillInv crc (.down d) acked) {opts : Options} {u : World}
    (hpoint : Point LogOp.exec (openLog crc opts) ⟨d, Coord.new⟩ u)
    (hkill : HeadersWritten u.dir) : KillInv crc (.down u.dir) acked := by
  rcases h with ⟨hdisk, rfl⟩ | ⟨pss, hh, hacked, hlen⟩
  · obtain ⟨hrun, _⟩ := @openLog_empty_runs crc False ⟨d, Coord.new⟩ hdisk opts
    rcases (hrun.point hpoint).1 with hu | hu | hu
    · rw [hu]
      exact Or.inl ⟨hdisk, rfl⟩
    · exact absurd hkill hu.not_headersWritten
    · exact Or.inr ⟨_, hu, by simp [AllIn], by simp⟩
  · have hne : fulls pss ≠ [] := by
      simpa [fulls] using hh.nonempty
    obtain ⟨ss, w', hrun, _⟩ := @openLog_runs crc _ ⟨d, Coord.new⟩ hh.onDisk hne
      (by rw [fulls_kept, ← List.length_flatten]; exact hlen) opts
    have hu := (hrun.point hpoint).1.onDisk hh.onDisk
    exact Or.inr ⟨pss, ⟨hu, False.elim, hh.nonempty⟩, hacked, hlen⟩

variable {w : World} {l : Log}

/-- An append that returns. -/
theorem KillInv.appended (h : KillInv crc (.up w l) acked) (happend : WithinRange l p) :
    KillInv crc
      (.up (run LogOp.exec (l.append crc p) w).2 (run LogOp.exec (l.append crc p) w).1.1)
      (acknowledge acked p (run LogOp.exec (l.append crc p) w).1.2) := by
  obtain ⟨pss, hopen, hcalm, hacked, hlen⟩ := h
  obtain ⟨l', r, w', hrun, happ⟩ :=
    append_runs hopen hopen.healthy False.elim happend.2 hcalm
  obtain ⟨pss', hopen', _, hflat⟩ := happ.opened
  have hfit := happend.1
  rw [hopen.nextOffset_eq] at hfit
  simp only [hrun.run_eq]
  refine ⟨pss', hopen', happ.calm, ?_, ?_⟩
  · rw [happ.result, hflat]
    by_cases hp : Legal p
    · rw [if_pos hp, if_pos hp]
      intro k q hq
      rcases List.mem_cons.mp hq with heq | hq
      · cases heq
        simp
      · exact hacked.concat p k q hq
    · rw [if_neg hp, if_neg hp]
      exact hacked
  · rw [hflat]
    split_ifs
    · rw [List.length_append, List.length_singleton]
      exact hfit
    · exact hlen

/-- Being killed while appending. -/
theorem KillInv.killedAppending (h : KillInv crc (.up w l) acked) (happend : WithinRange l p)
    {u : World} (hpoint : Point LogOp.exec (l.append crc p) w u)
    (hkill : HeadersWritten u.dir) : KillInv crc (.down u.dir) acked := by
  obtain ⟨pss, hopen, hcalm, hacked, hlen⟩ := h
  obtain ⟨l', r, w', hrun, _⟩ :=
    append_runs hopen hopen.healthy False.elim happend.2 hcalm
  have hfit := happend.1
  rw [hopen.nextOffset_eq] at hfit
  rcases hrun.point hpoint with ⟨pss', hh', hflat⟩ | hu
  · right
    refine ⟨pss', hh', ?_, ?_⟩
    · rcases hflat with hflat | ⟨_, hflat⟩
      · rw [hflat]
        exact hacked
      · rw [hflat]
        exact hacked.concat p
    · rcases hflat with hflat | ⟨_, hflat⟩
      · rw [hflat]
        exact hlen
      · rw [hflat, List.length_append, List.length_singleton]
        exact hfit
  · exact absurd hkill hu.not_headersWritten

/-- The invariant, by induction on the history. -/
theorem killInv_of_run {q : Proc} (h : KillRun crc HeadersWritten WithinRange q acked) :
    KillInv crc q acked := by
  induction h with
  | start =>
      exact Or.inl ⟨onDisk_empty crc, rfl⟩
  | opened opts h hok ih =>
      obtain ⟨l', w, hrun, hinv⟩ := ih.reopens opts
      rw [hrun] at hok ⊢
      cases hok
      exact hinv
  | killedOpening opts h hpoint hkill ih =>
      exact ih.killedOpening hpoint hkill
  | appended p h happend ih => exact ih.appended happend
  | killedAppending p h happend hpoint hkill ih =>
      exact ih.killedAppending happend hpoint hkill

end Invariant

/-- A killed writer leaves a log that can be reopened, with every acknowledged record
at its offset, as long as no kill falls between the creation of a segment file and the
write of its header and no append starts past what an index can address. -/
theorem killed_log_reopens {crc : Checksum} {d : Dir Path} {acked : List (Nat × Bytes)}
    (h : KillRun crc HeadersWritten WithinRange (.down d) acked) (opts : Options) :
    ∃ l w, run LogOp.exec (openLog crc opts) ⟨d, Coord.new⟩ = (.ok l, w) ∧
      ∀ k p, (k, p) ∈ acked → l.read crc w.dir k = .ok p := by
  obtain ⟨l, w, hrun, pss, hopen, _, hacked, _⟩ := (killInv_of_run h).reopens opts
  refine ⟨l, w, hrun, ?_⟩
  intro k p hmem
  rw [hopen.read_eq, hacked k p hmem]

/-- A log with segments of 30 bytes, as it is after its first `Open`. -/
def firstLog : Log := ⟨⟨30, .always, 100⟩, [newSegment 0], 0, 0⟩

/-- The first record is acknowledged and the process killed while it writes the second,
right after the new segment has been given its header. -/
theorem killed_log_reopens_after_header :
    ∃ d acked, KillRun crc32c HeadersWritten WithinRange (.down d) acked ∧ (0, [1]) ∈ acked ∧
      ∃ l w, run LogOp.exec (openLog crc32c ⟨30, .always, 0⟩) ⟨d, Coord.new⟩ = (.ok l, w) ∧
        l.read crc32c w.dir 0 = .ok [1] := by
  have h₁ := @KillRun.opened crc32c HeadersWritten WithinRange _ _ ⟨30, .always, 0⟩ firstLog
    .start (by decide +kernel)
  have h₂ := KillRun.appended [1] h₁ (by decide +kernel)
  have h₃ := KillRun.killedAppending [2] h₂ (by decide +kernel)
    (point_stateAfter LogOp.exec 5 _ _) (by decide +kernel)
  obtain ⟨l, w, hrun, hread⟩ := killed_log_reopens h₃ ⟨30, .always, 0⟩
  have hmem : (0, [1]) ∈ acknowledge [] [1]
      (run LogOp.exec (firstLog.append crc32c [1])
        (run LogOp.exec (openLog crc32c ⟨30, .always, 0⟩) ⟨Dir.empty, Coord.new⟩).2).1.2 := by
    decide +kernel
  exact ⟨_, _, h₃, hmem, l, w, hrun, hread 0 [1] hmem⟩

/-- The same process killed one operation earlier: the new segment file exists and is
empty, and the log cannot be opened any more, although its first record was
acknowledged. -/
theorem killed_log_not_reopened :
    ∃ d acked, KillRun crc32c (fun _ => True) WithinRange (.down d) acked ∧ (0, [1]) ∈ acked ∧
      (run LogOp.exec (openLog crc32c ⟨30, .always, 0⟩) ⟨d, Coord.new⟩).1 = .error .eof := by
  have h₁ := @KillRun.opened crc32c (fun _ => True) WithinRange _ _ ⟨30, .always, 0⟩ firstLog
    .start (by decide +kernel)
  have h₂ := KillRun.appended [1] h₁ (by decide +kernel)
  have h₃ := KillRun.killedAppending [2] h₂ (by decide +kernel)
    (point_stateAfter LogOp.exec 4 _ _) trivial
  exact ⟨_, _, h₃, by decide +kernel, by decide +kernel⟩

end LedgerLine.Broker
