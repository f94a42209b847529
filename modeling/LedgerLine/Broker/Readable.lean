import LedgerLine.Broker.Crash

/-!
# What can be read while the log is in use

The log that `Open` found with the records `found` holds `found ++ s.written`: with the mutex
free, `NextOffset` is its length and `Read` returns its records (`CrashRun.read_eq`).  Every
record whose `Append` has returned success, before or after the last crash, is in it at the
offset that was returned (`CrashRun.acked_at`).
-/

namespace LedgerLine.Broker

open Program

section Pending

variable {crc : Checksum} {mayFail : FsOp Path → Prop} {s s' : Live}

/-- What one thread's move leaves of the records that are written. -/
theorem pending_of_move {t : ThreadId} {pc : Pc}
    (hpc : ∀ r, pc.pending? = some r → (s.threads t).pending? = some r) {t' : ThreadId}
    {r : Pending} (hr : (Function.update s.threads t pc t').pending? = some r) :
    (s.threads t').pending? = some r := by
  by_cases ht : t' = t
  · subst ht
    rw [Function.update_self] at hr
    exact hpc r hr
  · rw [Function.update_of_ne ht] at hr
    exact hr

/-- A step writes no record, or completes the write of one. -/
theorem written_of_step (hstep : LiveStep crc mayFail s s') :
    (s'.written = s.written ∧
      ∀ t r, (s'.threads t).pending? = some r → (s.threads t).pending? = some r) ∨
    ∃ t p l k pl, s.threads t = .appending p (.done (l, .ok k)) ∧
      s'.written = s.written ++ [p] ∧
      ∀ t' r, (s'.threads t').pending? = some r →
        (s.threads t').pending? = some r ∨ r = ⟨p, k, pl⟩ := by
  have hmove : ∀ {t : ThreadId} {pc₀ pc : Pc}, s.threads t = pc₀ → s'.written = s.written →
      s'.threads = Function.update s.threads t pc →
      (∀ r, pc.pending? = some r → pc₀.pending? = some r) →
      (s'.written = s.written ∧
        ∀ t r, (s'.threads t).pending? = some r → (s.threads t).pending? = some r) := by
    intro t pc₀ pc hpc hwritten hthreads hpending
    refine ⟨hwritten, fun t' r hr => ?_⟩
    rw [hthreads] at hr
    rw [← hpc] at hpending
    exact pending_of_move hpending hr
  have hnone : ∀ {pc : Pc}, pc.pending? = none →
      ∀ (pc₀ : Pc) r, pc.pending? = some r → pc₀.pending? = some r := by
    intro pc hpc pc₀ r hr
    rw [hpc] at hr
    cases hr
  cases hstep with
  | lockAppend p hpc hlock | appendOp hpc hout | unlockRefused hpc =>
      exact Or.inl (hmove hpc rfl rfl (hnone rfl _))
  | @unlock t p l k sg pl hpc hactive hplace =>
      refine Or.inr ⟨t, p, l, k, pl, hpc, rfl, fun t' r hr => ?_⟩
      by_cases ht : t' = t
      · subst ht
        right
        simpa [Live.move, Pc.pending?] using hr.symm
      · left
        simpa [Live.move, Function.update_of_ne ht] using hr
  | lockSync hpc hlock | syncOp hpc hout | unlockSync hpc =>
      exact Or.inl (hmove hpc rfl rfl (hnone rfl _))
  | enter hpc hpolicy hstep | wake hpc hnotified hstep | finish hpc hstep =>
      exact Or.inl (hmove hpc rfl rfl fun r hr => congrArg some (afterWait_pending hr))
  | again hpc | againRefused hpc =>
      exact Or.inl (hmove hpc rfl rfl (hnone rfl _))
  | returnUnsynced hpc _ | flushAlone hpc _ | capture hpc _ _ | captureNone hpc _ _
  | beginSync hpc | endSync hpc | failSync hpc _ | beginIndex hpc | endIndex hpc
  | failIndex hpc _ | returnAlone hpc =>
      exact Or.inl (hmove hpc rfl rfl fun r hr => hr)

end Pending

section Readable

variable {crc : Checksum} {found : List Bytes} {s s' : Live}
variable {acked : Nat → Bytes → Prop}

/-- The records that are written, acknowledged or not, are where their `Append` says. -/
structure Noted (found : List Bytes) (s : Live) (acked : Nat → Bytes → Prop) : Prop where
  pending : ∀ t r, (s.threads t).pending? = some r →
    (found ++ s.written)[r.ticket.offset]? = some r.payload
  acked : ∀ k p, acked k p → (found ++ s.written)[k]? = some p

/-- The offset of a record that has just been written. -/
theorem UpInv.landed_offset (h : UpInv crc found s acked) {t : ThreadId} {p : Bytes} {l : Log}
    {k : Log.Ticket} (hpc : s.threads t = .appending p (.done (l, .ok k))) :
    k.offset = (found ++ s.written).length := by
  obtain ⟨pss, hflat, hlaid⟩ := h.layout
  have hresult := (hlaid.landed hpc).result
  split at hresult
  · rw [Except.ok.inj hresult, ← hflat]
  · cases hresult

theorem Noted.step (h : Noted found s acked) (hup : UpInv crc found s acked)
    (hstep : LiveStep crc (fun _ => False) s s') :
    Noted found s' (fun k p => acked k p ∨ s'.Acks k p) := by
  have hpending : ∀ t r, (s'.threads t).pending? = some r →
      (found ++ s'.written)[r.ticket.offset]? = some r.payload := by
    intro t r hr
    rcases written_of_step hstep with ⟨hwritten, hold⟩ | ⟨t', p, l, k, pl, hpc, hwritten, hnew⟩
    · rw [hwritten]
      exact h.pending t r (hold t r hr)
    · rw [hwritten, ← List.append_assoc]
      rcases hnew t r hr with hold | rfl
      · exact getElem?_of_isPrefix (List.prefix_append _ _) (h.pending t r hold)
      · show (found ++ s.written ++ [p])[k.offset]? = some p
        rw [hup.landed_offset hpc, List.getElem?_concat_length]
  refine ⟨hpending, fun k p hk => ?_⟩
  rcases hk with hk | ⟨t, r, hpc, rfl⟩
  · have hold := h.acked k p hk
    rcases written_of_step hstep with ⟨hwritten, -⟩ | ⟨_, p, _, _, _, -, hwritten, -⟩
    · rw [hwritten]
      exact hold
    · rw [hwritten, ← List.append_assoc]
      exact getElem?_of_isPrefix (List.prefix_append _ _) hold
  · have hok := (hup.live.step hstep).threads t
    rw [hpc] at hok
    obtain ⟨rfl, -⟩ := hok.2 k rfl
    exact hpending t r (by rw [hpc]; rfl)

/-- While the log is open, every acknowledged record is in it at its offset. -/
theorem CrashRun.acked_at {host : Host} (h : CrashRun crc host acked) :
    ∀ found s, host = .up found s → Noted found s acked := by
  induction h with
  | start =>
      exact fun _ _ hhost => nomatch hhost
  | @opened d before acked opts l w h hopts hrun ih =>
      rintro _ _ ⟨⟩
      obtain ⟨l', w', recs, hrun', hrec, hpre, hacked⟩ := (crashInv_of_run h).recovers opts
      rw [hrun] at hrun'
      obtain ⟨hl, rfl⟩ := Prod.mk.inj hrun'
      obtain rfl := Except.ok.inj hl
      obtain ⟨pss, hopen, -, hflat⟩ := hrec.opened
      refine ⟨(fun t r hr => nomatch hr), fun k p hk => ?_⟩
      rw [hopen.contents_eq, hflat]
      exact getElem?_of_isPrefix (List.prefix_append _ _) (hacked k p hk)
  | crashedOpening opts h hpoint hcrash hheader ih =>
      exact fun _ _ hhost => nomatch hhost
  | @stepped found s s' acked h hstep hroom ih =>
      rintro _ _ ⟨⟩
      exact (ih found s rfl).step (crashInv_of_run h) hstep
  | crashed h hcrash hheader ih =>
      exact fun _ _ hhost => nomatch hhost

/-- With the mutex free, the log is the list of its records. -/
theorem CrashRun.read_eq (h : CrashRun crc (.up found s) acked) (hlock : s.lock = none) :
    s.mem.nextOffset = (found ++ s.written).length ∧
      ∀ k, s.mem.read crc s.world.dir k =
        match (found ++ s.written)[k]? with
        | some p => .ok p
        | none => .error (.offsetOutOfRange k) := by
  have hup : UpInv crc found s acked := crashInv_of_run h
  obtain ⟨pss, hflat, hlaid⟩ := hup.layout
  obtain ⟨hopen, -⟩ := hlaid.steady (not_appending_of_free hup.live.lock hlock)
  rw [← hflat]
  exact ⟨hopen.nextOffset_eq, hopen.read_eq⟩

end Readable

end LedgerLine.Broker
