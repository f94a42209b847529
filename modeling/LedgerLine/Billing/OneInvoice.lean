import LedgerLine.Billing.Runs

/-!
# Concurrent closes of one period

Any number of `Close` calls on one period, their statements interleaved in any order, with
any of them rolled back at any point.  The first statement of a call locks the period's row,
and from then on nobody else changes the period or its invoices (`SamePeriod`).

Main fact: `one_invoice_per_period`.
-/

namespace LedgerLine.Billing

/-- The rows of a period. -/
def Database.periodRows (db : Database) (id : Nat) : List Period :=
  db.periods.filter fun p => p.id = id

/-- The invoices of a period. -/
def Database.invoicesOf (db : Database) (period : Nat) : List InvoiceRow :=
  db.invoices.filter fun r => r.periodId = period

/-- The invoice a `Close` has returned. -/
def Closed.invoice : Closed → Invoice
  | .issued inv => inv
  | .periodClosed inv => inv

/-- `Close` has returned no error. -/
def Closed.isIssued : Closed → Bool
  | .issued _ => true
  | .periodClosed _ => false

/-- A `Close` that has committed. -/
abbrev FinishedClose := Finished BillingStmt World Write Closed

/-- Neither the period nor its invoices have changed. -/
structure SamePeriod (id : Nat) (w w' : World) : Prop where
  periods : w'.db.periodRows id = w.db.periodRows id
  invoices : w'.db.invoicesOf id = w.db.invoicesOf id

namespace SamePeriod

variable {id : Nat}

theorem refl (w : World) : SamePeriod id w w :=
  ⟨rfl, rfl⟩

theorem trans {w₁ w₂ w₃ : World} (h : SamePeriod id w₁ w₂) (h' : SamePeriod id w₂ w₃) :
    SamePeriod id w₁ w₃ :=
  ⟨h'.periods.trans h.periods, h'.invoices.trans h.invoices⟩

theorem draw (w : World) (o : BillingStmt) : SamePeriod id w (w.draw o) :=
  ⟨rfl, rfl⟩

end SamePeriod

/-- What a call relies on: once it has been answered its first statement, the period stays
as it is. -/
def periodRely (id : Nat) (seen : Trace) (w w' : World) : Prop :=
  seen ≠ [] → SamePeriod id w w'

/-- What a committed call has seen first, and what follows if the period was closed then. -/
def LockedFirst (cols : Columns) (id : Nat) (f : FinishedClose) : Prop :=
  ∃ sight rest, f.txn.seen = (.lockPeriod id, sight) :: rest ∧
    ((∃ p ∈ sight.db.periods, p.id = id ∧ p.state = .closed) →
      (∃ inv, f.result = .periodClosed inv) ∧
        (billingEngine cols).view f.txn.data f.txn.writes = f.txn.data)

/-- The call has returned the invoice of the row. -/
def Answers (row : InvoiceRow) (f : FinishedClose) : Prop :=
  f.result.invoice.id = row.id ∧ f.result.invoice.total = row.total

/-- The period is open, without an invoice, and no call has committed; or it is closed, with
one invoice, which every call has returned. -/
structure PeriodGood (cols : Columns) (id : Nat) (key : String × String) (w : World)
    (fs : List FinishedClose) : Prop where
  state : ∃ p, w.db.periodRows id = [p] ∧ p.key = key ∧
    (p.state = .open ∧ w.db.invoicesOf id = [] ∧ fs = [] ∨
      p.state = .closed ∧ ∃ row, w.db.invoicesOf id = [row] ∧ ∀ f ∈ fs, Answers row f)
  once : (fs.filter fun f => f.result.isIssued).length ≤ 1
  locked : ∀ f ∈ fs, LockedFirst cols id f

variable {cols : Columns} {registry : Registry} {plan : Plan} {now : Time} {id : Nat}
  {key : String × String}

/-- The first statement of a `Close`. -/
theorem first_of_close {seen : Trace} {body : BillingBody CloseEnd}
    (h : (billingEngine cols).Path (close registry plan now id) seen body) :
    seen = [] ∨ ∃ sight rest, seen = (.lockPeriod id, sight) :: rest := by
  obtain ⟨next, hnext⟩ : ∃ next, close registry plan now id = .call (.lockPeriod id) next :=
    ⟨_, rfl⟩
  rw [hnext] at h
  cases h with
  | refl => exact .inl rfl
  | step rest => exact .inr ⟨_, _, rfl⟩

/-- The states a `Close` has gone through. -/
abbrev PeriodChain (cols : Columns) (id : Nat) (key : String × String) :=
  (billingEngine cols).Chain (fun w => ∃ fs, PeriodGood cols id key w fs) (periodRely id)

variable {w : World} {fs : List FinishedClose}

/-- What a statement after the first has seen. -/
theorem sight_of_periodChain {start sight : World} {seen seen' : Trace} {o : BillingStmt}
    (h : PeriodChain cols id key start (seen ++ (o, sight) :: seen') w) :
    ∃ base, (∃ fs, PeriodGood cols id key base fs) ∧
      sight = (billingEngine cols).view base ((billingEngine cols).writesOf seen) ∧
      SamePeriod id base w := by
  obtain ⟨base, -, hgood, hsight, hmove⟩ := h.entry
    (fun _ _ _ _ h h' hne => (h hne).trans (h' hne))
    (fun _ _ _ _ h hne => h (List.append_ne_nil_of_left_ne_nil hne _))
    (fun _ o w _ _ => SamePeriod.draw w o)
  exact ⟨base, hgood, hsight, (SamePeriod.draw base o).trans (hmove (by simp))⟩

/-- A good state has one row for the period. -/
theorem PeriodGood.mem_iff (h : PeriodGood cols id key w fs) {p : Period} :
    p ∈ w.db.periods ∧ p.id = id ↔ w.db.periodRows id = [p] := by
  obtain ⟨q, hq, -⟩ := h.state
  have hmem : p ∈ w.db.periods ∧ p.id = id ↔ p ∈ w.db.periodRows id := by
    simp [Database.periodRows]
  rw [hmem, hq, List.mem_singleton]
  exact ⟨fun heq => by rw [heq], fun heq => (List.cons.inj heq).1.symm⟩

/-- Locking the period takes the lock under its key. -/
theorem PeriodGood.touch (h : PeriodGood cols id key w fs) :
    ((BillingStmt.lockPeriod id).exec cols w).2 = [.touchPeriod key] := by
  obtain ⟨q, hq, hkey, -⟩ := h.state
  have hmem := h.mem_iff.2 hq
  simp only [BillingStmt.exec]
  rcases execLockPeriod_cases id w.db with hexec | ⟨p, hp, hid, hexec⟩
  · rw [execLockPeriod] at hexec
    split at hexec
    · cases hexec
    · rename_i hfind
      rw [List.find?_eq_none] at hfind
      exact absurd (decide_eq_true hmem.2) (hfind q hmem.1)
  · have hsame := h.mem_iff.1 ⟨hp, hid⟩
    rw [hq] at hsame
    obtain rfl := (List.cons.inj hsame).1
    rw [hexec, hkey]

section Commit

variable {start w : World} {fs : List FinishedClose} {seen : Trace} {inv : Invoice}

/-- The commit of a call that found the period closed. -/
theorem PeriodGood.returned {period : Period} {row : InvoiceRow} {locked read lines : World}
    (hgood : PeriodGood cols id key w fs) (h : Returned id seen inv period row locked read lines)
    (hchain : PeriodChain cols id key start seen w) (t : Nat) :
    PeriodGood cols id key w (fs ++ [⟨t, start, .periodClosed inv,
      ⟨w, (billingEngine cols).writesOf seen, seen⟩⟩]) := by
  have hseen := h.seen
  have hlocked : SamePeriod id locked w ∧ ∃ fs, PeriodGood cols id key locked fs := by
    have hsplit : seen = [] ++ (.lockPeriod id, locked) ::
        [(.selectInvoiceByPeriod id, read), (.selectLineItems row.id, lines)] := hseen
    rw [hsplit] at hchain
    obtain ⟨base, hbase, hsight, hsame⟩ := sight_of_periodChain hchain
    rw [Engine.writesOf_nil] at hsight
    obtain rfl : locked = base := hsight
    exact ⟨hsame, hbase⟩
  have hread : row ∈ w.db.invoicesOf id := by
    have hsplit : seen = [(.lockPeriod id, locked)] ++ (.selectInvoiceByPeriod id, read) ::
        [(.selectLineItems row.id, lines)] := hseen
    rw [hsplit] at hchain
    obtain ⟨base, -, hsight, hsame⟩ := sight_of_periodChain hchain
    have hrow : row ∈ base.db.invoices := by
      have hmem := h.row_mem
      obtain ⟨fs', hlockedGood⟩ := hlocked.2
      rw [hsight, view_invoices, Engine.writesOf_cons, billingEngine_exec,
        hlockedGood.touch] at hmem
      simpa [ownInvoices] using hmem
    rw [hsame.invoices]
    exact List.mem_filter.2 ⟨hrow, by simpa using h.row_period⟩
  have hnothing := view_of_returned cols h w
  obtain ⟨p, hp, hkey, hstate⟩ := hgood.state
  refine ⟨⟨p, hp, hkey, .inr ?_⟩, ?_, ?_⟩
  · rcases hstate with ⟨-, hnone, -⟩ | ⟨hclosed, row', hrow', hall⟩
    · rw [hnone] at hread
      cases hread
    · rw [hrow', List.mem_singleton] at hread
      subst hread
      refine ⟨hclosed, row, hrow', ?_⟩
      exact List.forall_mem_append.2 ⟨hall,
        List.forall_mem_singleton.2 ⟨h.invoice_id, h.invoice_total⟩⟩
  · rw [List.filter_append, List.length_append]
    exact hgood.once
  · exact List.forall_mem_append.2 ⟨hgood.locked,
      List.forall_mem_singleton.2 ⟨locked, _, hseen, fun _ => ⟨⟨inv, rfl⟩, hnothing⟩⟩⟩

/-- What a call that issued an invoice has found. -/
theorem open_of_issued {x : Issue} (hgood : PeriodGood cols id key w fs)
    (h : Issued cols registry plan now id seen inv x)
    (hchain : PeriodChain cols id key start seen w) :
    w.db.periodRows id = [x.period] ∧ x.period.key = key ∧ w.db.invoicesOf id = [] ∧ fs = [] ∧
      ∀ p ∈ x.locked.db.periods, p.id = id → p.state ≠ .closed := by
  obtain ⟨after, hseen⟩ := h.at_locked
  rw [hseen] at hchain
  obtain ⟨base, ⟨fs', hbase⟩, hsight, hsame⟩ := sight_of_periodChain hchain
  rw [Engine.writesOf_nil] at hsight
  obtain rfl : x.locked = base := hsight
  have hrow := hbase.mem_iff.1 ⟨h.locked, h.period_id⟩
  have hperiod : w.db.periodRows id = [x.period] := by
    rw [hsame.periods]
    exact hrow
  obtain ⟨p, hp, hkey, hstate⟩ := hgood.state
  rw [hp] at hperiod
  obtain rfl := (List.cons.inj hperiod).1
  rcases hstate with ⟨-, hnone, hfs⟩ | ⟨hclosed, -⟩
  · refine ⟨hp, hkey, hnone, hfs, ?_⟩
    intro q hq hid
    have hsameRow := hbase.mem_iff.1 ⟨hq, hid⟩
    rw [hrow] at hsameRow
    rw [← (List.cons.inj hsameRow).1, h.isOpen]
    exact nofun
  · rw [h.isOpen] at hclosed
    cases hclosed

/-- The commit of a call that issued an invoice. -/
theorem PeriodGood.issued {x : Issue} (hgood : PeriodGood cols id key w fs)
    (h : Issued cols registry plan now id seen inv x)
    (hchain : PeriodChain cols id key start seen w) (t : Nat) :
    PeriodGood cols id key ((billingEngine cols).view w ((billingEngine cols).writesOf seen))
      (fs ++ [⟨t, start, .issued inv, ⟨w, (billingEngine cols).writesOf seen, seen⟩⟩]) := by
  obtain ⟨hperiod, hkey, hnone, rfl, hopen⟩ := open_of_issued hgood h hchain
  have hclosed : ∃ p ∈ x.closed.db.periods, p.id = x.period.id := by
    obtain ⟨before, hseen, hbefore⟩ := h.at_closed
    rw [hseen] at hchain
    obtain ⟨base, ⟨fs', hbase⟩, hsight, -⟩ := sight_of_periodChain hchain
    obtain ⟨p, hp, -⟩ := hbase.state
    obtain ⟨hmem, hid⟩ := hbase.mem_iff.2 hp
    refine ⟨p, ?_, hid.trans h.period_id.symm⟩
    rw [hsight, hbefore, view_periods_of_none]
    · exact hmem
    · intro c hc
      rcases List.mem_append.1 hc with hc | hc
      · exact (h.beforeMark_cases c hc).2
      · obtain ⟨key, rfl⟩ := Issue.marks_cases hc
        rfl
  have hrows : ((billingEngine cols).view w ((billingEngine cols).writesOf seen)).db.periodRows id =
      [x.period.close id x.storedAt] := by
    rw [Database.periodRows, issued_periods h hclosed, h.period_id, List.filter_map]
    have hid : (fun p : Period => decide (p.id = id)) ∘ Period.close id x.storedAt =
        fun p => decide (p.id = id) := by
      funext p
      simp only [Function.comp_apply, Period.close]
      split <;> rfl
    rw [hid, ← Database.periodRows, hperiod]
    rfl
  have hinvoices : ((billingEngine cols).view w
      ((billingEngine cols).writesOf seen)).db.invoicesOf id = [x.invoiceRow inv] := by
    rw [Database.invoicesOf, issued_invoices h, List.filter_append, ← Database.invoicesOf, hnone]
    simp [Issue.invoiceRow, h.period_id]
  refine ⟨⟨_, hrows, ?_, .inr ⟨?_, _, hinvoices, ?_⟩⟩, ?_, ?_⟩
  · rw [← hkey, Period.close, if_pos h.period_id]
    rfl
  · rw [Period.close, if_pos h.period_id]
  · intro f hf
    cases List.mem_singleton.1 hf
    refine ⟨rfl, ?_⟩
    show inv.total = x.entry.total
    rw [h.ended.invoice]
  · exact Nat.le_refl 1
  · intro f hf
    cases List.mem_singleton.1 hf
    obtain ⟨after, hseen⟩ := h.at_locked
    rw [h.period_id] at hseen
    refine ⟨x.locked, after, hseen, ?_⟩
    rintro ⟨p, hp, hid, hstate⟩
    exact absurd hstate (hopen p hp hid)

end Commit

/-- The calls, and what keeps the period good. -/
def periodContract (cols : Columns) (id : Nat) (key : String × String)
    (registry : Nat → Registry) (plan : Nat → Plan) (now : Nat → Time) :
    CallContract (billingEngine cols) (fun t => close (registry t) (plan t) (now t) id)
      (triggersPass cols) (fun _ _ _ => True) (billingNumbering cols) where
  Good := PeriodGood cols id key
  R := fun _ => periodRely id
  Apart := fun _ _ => True
  givesUp := fun t => givesUp_close (registry t) (plan t) (now t) id
  refl := fun _ _ w _ => .refl w
  trans := fun _ _ _ _ _ h h' hne => (h hne).trans (h' hne)
  draw := fun _ _ o w _ _ _ => .draw w o
  good_draw := fun o w fs h => ⟨h.state, h.once, h.locked⟩
  apart_symm := fun _ _ _ => trivial
  apart_nil := fun _ => trivial
  apart_step := fun _ _ _ _ _ _ _ _ _ _ _ _ _ => trivial
  commit := by
    intro t start result w fs seen hgood hpath hchain _ _
    rcases path_close hpath with
      ⟨inv, x, rfl, hissued⟩ | ⟨inv, period, row, locked, read, lines, rfl, hreturned⟩
    · exact hgood.issued hissued hchain t
    · rw [view_of_returned cols hreturned]
      exact hgood.returned hreturned hchain t
  others := by
    intro t u start start' result w fs seen seen' body _ hgood hpath hchain _ hpath' hchain' hlocks
      _ _ hne
    rcases path_close hpath with
      ⟨inv, x, rfl, hissued⟩ | ⟨inv, period, row, locked, read, lines, rfl, hreturned⟩
    · -- both have locked the period
      exfalso
      have hkey := (open_of_issued hgood hissued hchain).2.1
      rcases first_of_close hpath' with rfl | ⟨sight, rest, rfl⟩
      · exact hne rfl
      have hsplit : (.lockPeriod id, sight) :: rest = [] ++ (.lockPeriod id, sight) :: rest := rfl
      rw [hsplit] at hchain'
      obtain ⟨base, ⟨fs', hbase⟩, hsight, -⟩ := sight_of_periodChain hchain'
      rw [Engine.writesOf_nil] at hsight
      obtain rfl : sight = base := hsight
      refine hlocks (.touchPeriod x.period.key) ?_ (.touchPeriod key) ?_ ?_ ?_
      · rw [hissued.writes]
        simp [Issue.beforeMark]
      · rw [Engine.writesOf_cons, billingEngine_exec, hbase.touch]
        simp
      · simp [Write.lock]
      · rw [hkey]
    · rw [view_of_returned cols hreturned]
      exact .refl w

/-- However `Close` calls on one period run into each other, the period gets at most one
invoice, at most one call returns without an error, the period is closed exactly if it has
its invoice, and a call that finds the period closed returns that invoice and changes
nothing. -/
theorem one_invoice_per_period (cols : Columns) (registry : Nat → Registry) (plan : Nat → Plan)
    (now : Nat → Time) {id : Nat} {w : World} {period : Period}
    (hperiod : w.db.periodRows id = [period]) (hinvoices : (w.db.invoicesOf id).length ≤ 1)
    (hstate : period.state = .closed ↔ w.db.invoicesOf id ≠ [])
    {c : Calls BillingStmt BillingStmt.Answer StmtErr World Write CloseErr Closed}
    (hrun : Relation.ReflTransGen (CallStep (billingEngine cols)
      (fun t => close (registry t) (plan t) (now t) id) (triggersPass cols) fun _ _ _ => True)
      (.start w) c) :
    (c.pool.data.db.invoicesOf id).length ≤ 1 ∧
    (c.finished.filter fun f => f.result.isIssued).length ≤ 1 ∧
    (∀ p ∈ c.pool.data.db.periods, p.id = id →
      (p.state = .closed ↔ ∃ row ∈ c.pool.data.db.invoices, row.periodId = id)) ∧
    (∀ f ∈ c.finished, LockedFirst cols id f) ∧
    ∀ f ∈ c.finished, ∀ row ∈ c.pool.data.db.invoices, row.periodId = id → Answers row f := by
  have hstart : PeriodGood cols id period.key w [] := by
    refine ⟨⟨period, hperiod, rfl, ?_⟩, Nat.zero_le _, nofun⟩
    cases hcases : period.state with
    | «open» =>
        rw [hcases] at hstate
        refine .inl ⟨rfl, ?_, rfl⟩
        by_contra hne
        exact (nomatch hstate.2 hne)
    | closed =>
        obtain ⟨row, rest, hrow⟩ := List.exists_cons_of_ne_nil (hstate.1 hcases)
        rw [hrow] at hinvoices
        have hrest : rest = [] :=
          List.length_eq_zero_iff.1 (Nat.le_zero.1 (Nat.le_of_succ_le_succ hinvoices))
        rw [hrest] at hrow
        exact .inr ⟨rfl, row, hrow, nofun⟩
  have hinv := callInv_of_run
    (K := periodContract cols id period.key registry plan now) (.start hstart) hrun
  have hgood : PeriodGood cols id period.key c.pool.data c.finished := hinv.good
  have hmem : ∀ row, row ∈ c.pool.data.db.invoices ∧ row.periodId = id ↔
      row ∈ c.pool.data.db.invoicesOf id := by
    intro row
    simp [Database.invoicesOf]
  clear hstate
  obtain ⟨p, hp, -, hstate⟩ := hgood.state
  refine ⟨?_, hgood.once, ?_, hgood.locked, ?_⟩
  · rcases hstate with ⟨-, hnone, -⟩ | ⟨-, row, hrow, -⟩
    · rw [hnone]
      exact Nat.zero_le _
    · rw [hrow]
      exact Nat.le_refl _
  · intro q hq hid
    have hsame := hgood.mem_iff.1 ⟨hq, hid⟩
    rw [hp] at hsame
    obtain rfl := (List.cons.inj hsame).1
    simp only [hmem]
    rcases hstate with ⟨hstate, hnone, -⟩ | ⟨hstate, row, hrow, -⟩
    · simp [hstate, hnone]
    · simp [hstate, hrow]
  · intro f hf row hrow hid
    have hrow := (hmem row).1 ⟨hrow, hid⟩
    rcases hstate with ⟨-, hnone, -⟩ | ⟨-, row', hrow', hall⟩
    · rw [hnone] at hrow
      cases hrow
    · rw [hrow', List.mem_singleton] at hrow
      subst hrow
      exact hall f hf

section Sample

/-- An event is in, and its period is open. -/
def samplePeriod : World :=
  (sampleCall (sampleBatch 0) sampleOpen).2

/-- `Close` on its own. -/
def sampleTxn (w : World) : Txn BillingStmt World Write :=
  ((billingEngine postgresColumns).runBody (sampleClose 1) ⟨w, [], []⟩).2

/-- One call has issued the invoice. -/
def closedOnce : Calls BillingStmt BillingStmt.Answer StmtErr World Write CloseErr Closed :=
  (Calls.start samplePeriod).committed (billingEngine postgresColumns) 0
    (.issued (sampleInvoice 1 false)) (sampleTxn samplePeriod)

/-- Another one has come after it. -/
def closedTwice : Calls BillingStmt BillingStmt.Answer StmtErr World Write CloseErr Closed :=
  closedOnce.committed (billingEngine postgresColumns) 1
    (.periodClosed (sampleInvoice 1 false)) (sampleTxn closedOnce.pool.data)

theorem closedTwice_reachable :
    Relation.ReflTransGen (CallStep (billingEngine postgresColumns) (fun _ => sampleClose 1)
      (triggersPass postgresColumns) fun _ _ _ => True) (.start samplePeriod) closedTwice := by
  refine Relation.ReflTransGen.trans (b := closedOnce) ?_ ?_
  · apply CallStep.alone (fun _ _ _ => trivial) (fun _ => rfl)
    · show ((billingEngine postgresColumns).runBody (sampleClose 1) ⟨samplePeriod, [], []⟩).1 = _
      decide +kernel
    · show triggersPass _ (sampleTxn samplePeriod).data (sampleTxn samplePeriod).writes
      decide +kernel
  · apply CallStep.alone (fun _ _ _ => trivial) (fun _ => rfl)
    · show ((billingEngine postgresColumns).runBody (sampleClose 1)
        ⟨closedOnce.pool.data, [], []⟩).1 = _
      decide +kernel
    · show triggersPass _ (sampleTxn closedOnce.pool.data).data
        (sampleTxn closedOnce.pool.data).writes
      decide +kernel

/-- Two calls, one invoice. -/
theorem one_invoice_per_period_sample :
    closedTwice.finished.map Finished.result =
        [.issued (sampleInvoice 1 false), .periodClosed (sampleInvoice 1 false)] ∧
      closedTwice.pool.data.db.invoices = [⟨1, 1, "a", 5, 1, 30000⟩] ∧
      ∀ f ∈ closedTwice.finished, Answers ⟨1, 1, "a", 5, 1, 30000⟩ f := by
  have hperiod : samplePeriod.db.periodRows 1 = [⟨1, "a", "one", 1000, 10000, .open, none⟩] := by
    decide +kernel
  have hnone : samplePeriod.db.invoicesOf 1 = [] := by
    decide +kernel
  have hinvoices : closedTwice.pool.data.db.invoices = [⟨1, 1, "a", 5, 1, 30000⟩] := by
    decide +kernel
  obtain ⟨-, -, -, -, hall⟩ := one_invoice_per_period postgresColumns (fun _ => ⟨["m"]⟩)
    (fun _ => samplePlan) (fun _ => 30000) hperiod (by rw [hnone]; decide)
    (by rw [hnone]; decide) closedTwice_reachable
  refine ⟨rfl, hinvoices, fun f hf => hall f hf _ ?_ rfl⟩
  rw [hinvoices]
  exact List.mem_singleton.2 rfl

end Sample

end LedgerLine.Billing
