import LedgerLine.Billing.Runs

/-!
# Late usage rolls forward

An event is billed by the first invoice that is issued for its tenant, after the event was
inserted, on a period that ends after the event occurred.  `expectedEvents` says so for a
whole history, with no reference to how `Close` finds and marks the events.

Main fact: `billed_by_first`, in every serial run the events are the expected ones; an
invoice never changes on an event; and the lines of an invoice are the sums of its events.
-/

namespace LedgerLine.Billing

/-- The first invoice of a history that covers an event. -/
def firstInvoice (r : EventRow) : List Happening → Option Nat
  | [] => none
  | .inserted _ :: rest => firstInvoice r rest
  | .invoiced invoice tenant finish :: rest =>
      if r.tenantId = tenant ∧ r.occurredAt < finish then some invoice else firstInvoice r rest

/-- The events of a history, each with its invoice. -/
def expectedEvents : List Happening → List EventRow
  | [] => []
  | .inserted rows :: rest =>
      rows.map (fun r => { r with invoiceId := firstInvoice r rest }) ++ expectedEvents rest
  | .invoiced _ _ _ :: rest => expectedEvents rest

/-- The invoices of a history. -/
def invoiceIds (history : List Happening) : List Nat :=
  history.filterMap fun
    | .inserted _ => none
    | .invoiced invoice _ _ => some invoice

/-- An event after an invoice has been issued. -/
def EventRow.charge (invoice : Nat) (tenant : String) (finish : Time) (r : EventRow) : EventRow :=
  if r.isUnbilled tenant finish then { r with invoiceId := some invoice } else r

section History

theorem firstInvoice_append (r : EventRow) (history later : List Happening) :
    firstInvoice r (history ++ later) = (firstInvoice r history).or (firstInvoice r later) := by
  induction history with
  | nil => rfl
  | cons happening history ih =>
      cases happening with
      | inserted rows => exact ih
      | invoiced invoice tenant finish =>
          rw [List.cons_append, firstInvoice, firstInvoice, ih]
          split <;> rfl

theorem charge_first (r : EventRow) (history : List Happening) (invoice : Nat) (tenant : String)
    (finish : Time) :
    EventRow.charge invoice tenant finish { r with invoiceId := firstInvoice r history } =
      { r with invoiceId := firstInvoice r (history ++ [.invoiced invoice tenant finish]) } := by
  rw [firstInvoice_append, EventRow.charge, EventRow.isUnbilled]
  cases hfirst : firstInvoice r history with
  | none =>
      by_cases hcovers : r.tenantId = tenant ∧ r.occurredAt < finish
      · simp [firstInvoice, hcovers]
      · simp only [firstInvoice, hcovers, if_false, Option.none_or]
        rw [if_neg]
        simpa using hcovers
  | some i => simp

theorem expectedEvents_inserted (history : List Happening) (rows : List EventRow)
    (hrows : ∀ r ∈ rows, r.invoiceId = none) :
    expectedEvents (history ++ [.inserted rows]) = expectedEvents history ++ rows := by
  induction history with
  | nil =>
      simp only [List.nil_append, expectedEvents, firstInvoice, List.append_nil]
      conv_rhs => rw [← List.map_id rows]
      apply List.map_congr_left
      intro r hr
      rw [← hrows r hr]
      rfl
  | cons happening history ih =>
      cases happening with
      | inserted rows' =>
          simp only [List.cons_append, expectedEvents, ih, firstInvoice_append, firstInvoice,
            Option.or_none, List.append_assoc]
      | invoiced invoice tenant finish => exact ih

theorem expectedEvents_invoiced (history : List Happening) (invoice : Nat) (tenant : String)
    (finish : Time) :
    expectedEvents (history ++ [.invoiced invoice tenant finish]) =
      (expectedEvents history).map (EventRow.charge invoice tenant finish) := by
  induction history with
  | nil => rfl
  | cons happening history ih =>
      cases happening with
      | inserted rows =>
          simp only [List.cons_append, expectedEvents, ih, List.map_append, List.map_map]
          congr 1
          apply List.map_congr_left
          intro r _
          exact (charge_first r history invoice tenant finish).symm
      | invoiced invoice' tenant' finish' => exact ih

end History

section Charge

variable {invoice : Nat} {tenant : String} {finish : Time}

/-- Marking events by their keys is charging the unbilled ones. -/
theorem billed_eq_charge {events : List EventRow} (hkeys : (events.map EventRow.key).Nodup)
    (invoice : Nat) (tenant : String) (finish : Time) :
    events.map (EventRow.billed
        ((events.filter (EventRow.isUnbilled tenant finish)).map EventRow.key) invoice) =
      events.map (EventRow.charge invoice tenant finish) := by
  apply List.map_congr_left
  intro r hr
  rw [EventRow.billed, EventRow.charge]
  simp only [key_mem_filter hkeys hr]

theorem charge_of_billed {r : EventRow} (h : r.invoiceId ≠ none) :
    r.charge invoice tenant finish = r := by
  rw [EventRow.charge, if_neg]
  simp [EventRow.isUnbilled, h]

end Charge

/-- What a call has done to the events. -/
inductive EventsAfter (events : List EventRow) : List Happening → List EventRow → Prop
  | same : EventsAfter events [] events
  | inserted {rows : List EventRow} (h : NewRows events rows) :
      EventsAfter events [.inserted rows] (events ++ rows)
  | invoiced (invoice : Nat) (tenant : String) (finish : Time) :
      EventsAfter events [.invoiced invoice tenant finish]
        (events.map (EventRow.charge invoice tenant finish))

theorem events_of_step {cols : Columns} {decode : Decoder} {w w' : World}
    {call : SerialCall} {new : List Happening} (hkeys : (w.db.events.map EventRow.key).Nodup)
    (h : SerialStep cols decode w call new w') : EventsAfter w.db.events new w'.db.events := by
  cases h with
  | append record => exact .same
  | batch c start stop hbatch =>
      obtain ⟨rows, heffect⟩ := batch_effect hbatch
      have hevents : w'.db.events = w.db.events ++ rows := by
        rw [heffect.eq]
      rw [hevents, List.drop_left]
      exact .inserted heffect.new
  | ensurePeriod tenant label start finish hensure =>
      obtain ⟨new, heffect⟩ := ensure_effect hensure
      rw [heffect.eq]
      exact .same
  | @close _ out registry plan now id hclose =>
      rcases close_cases hclose with
        ⟨inv, x, seen, base, rfl, hissued, hchain, rfl⟩ | ⟨hnone, hsame⟩
      · rw [closing, find_of_issued hissued hchain, (serial_issue hissued hchain).events,
          Database.unbilled, billed_eq_charge hkeys]
        exact .invoiced _ _ _
      · have hnothing : closing w out = [] := by
          rw [closing]
          exact hnone
        rw [hnothing, hsame.events]
        exact .same

/-- What holds of the events and the lines of invoices, after a history. -/
structure Rolled (history : List Happening) (w : World) : Prop where
  events : w.db.events = expectedEvents history
  ids : (invoiceIds history).Nodup ∧
    ∀ invoice ∈ invoiceIds history, invoice < w.db.sequences.invoices
  keys : (w.db.events.map EventRow.key).Nodup
  issued : ∀ r ∈ w.db.events, ∀ invoice, r.invoiceId = some invoice →
    invoice < w.db.sequences.invoices ∧
      ∃ line ∈ w.db.lineItems, line.invoiceId = invoice ∧ line.meter = r.meter
  lines : ∀ line ∈ w.db.lineItems, line.invoiceId < w.db.sequences.invoices ∧
    line.quantity = quantityOf (w.db.eventsOf line.invoiceId) line.meter

namespace Rolled

variable {cols : Columns} {history : List Happening} {w w' : World}

theorem start (h : w.db = Database.empty) : Rolled [] w := by
  constructor <;> rw [h]
  · rfl
  · exact ⟨List.nodup_nil, nofun⟩
  · exact List.nodup_nil
  · exact nofun
  · exact nofun

/-- Nothing has happened to the tables. -/
theorem same (h : Rolled history w) (hevents : w'.db.events = w.db.events)
    (hlines : w'.db.lineItems = w.db.lineItems)
    (hsequences : w.db.sequences.Le w'.db.sequences) : Rolled history w' := by
  constructor
  · rw [hevents]
    exact h.events
  · exact ⟨h.ids.1, fun invoice hid =>
      Nat.lt_of_lt_of_le (h.ids.2 invoice hid) hsequences.invoices⟩
  · rw [hevents]
    exact h.keys
  · rw [hevents, hlines]
    intro r hr invoice hinvoice
    obtain ⟨hlt, hline⟩ := h.issued r hr invoice hinvoice
    exact ⟨Nat.lt_of_lt_of_le hlt hsequences.invoices, hline⟩
  · rw [hlines]
    intro line hline
    obtain ⟨hlt, hquantity⟩ := h.lines line hline
    refine ⟨Nat.lt_of_lt_of_le hlt hsequences.invoices, ?_⟩
    rw [Database.eventsOf, hevents]
    exact hquantity

theorem batch (h : Rolled history w) {rows : List EventRow} (heffect : BatchEffect w w' rows) :
    Rolled (history ++ [.inserted rows]) w' := by
  have hevents : w'.db.events = w.db.events ++ rows := by
    rw [heffect.eq]
  have hlines : w'.db.lineItems = w.db.lineItems := by
    rw [heffect.eq]
  constructor
  · rw [hevents, expectedEvents_inserted history rows heffect.new.unbilled, h.events]
  · have hids : invoiceIds (history ++ [.inserted rows]) = invoiceIds history := by
      simp [invoiceIds]
    rw [hids]
    exact ⟨h.ids.1, fun invoice hid =>
      Nat.lt_of_lt_of_le (h.ids.2 invoice hid) heffect.sequences.invoices⟩
  · rw [hevents, List.map_append, List.nodup_append]
    refine ⟨h.keys, heffect.new.nodup, ?_⟩
    intro key hkey key' hkey'
    obtain ⟨stored, hstored, rfl⟩ := List.mem_map.1 hkey
    obtain ⟨r, hr, rfl⟩ := List.mem_map.1 hkey'
    exact heffect.new.fresh r hr stored hstored
  · rw [hevents, hlines]
    intro r hr invoice hinvoice
    rcases List.mem_append.1 hr with hr | hr
    · obtain ⟨hlt, hline⟩ := h.issued r hr invoice hinvoice
      exact ⟨Nat.lt_of_lt_of_le hlt heffect.sequences.invoices, hline⟩
    · rw [heffect.new.unbilled r hr] at hinvoice
      cases hinvoice
  · rw [hlines]
    intro line hline
    obtain ⟨hlt, hquantity⟩ := h.lines line hline
    refine ⟨Nat.lt_of_lt_of_le hlt heffect.sequences.invoices, ?_⟩
    have hnone : rows.filter (fun r => r.invoiceId = some line.invoiceId) = [] := by
      rw [List.filter_eq_nil_iff]
      intro r hr
      simp [heffect.new.unbilled r hr]
    rw [Database.eventsOf, hevents, List.filter_append, hnone, List.append_nil]
    exact hquantity

theorem close (h : Rolled history w) {registry : Registry} {plan : Plan} {now : Time} {id : Nat}
    {seen : Trace} {inv : Invoice} {x : Issue}
    (hissued : Issued cols registry plan now id seen inv x)
    (heffect : SerialIssue cols w w' inv x) :
    Rolled (history ++ [.invoiced inv.id x.period.tenantId x.period.finish]) w' := by
  have hevents : w'.db.events =
      w.db.events.map (EventRow.charge inv.id x.period.tenantId x.period.finish) := by
    rw [heffect.events]
    exact billed_eq_charge h.keys inv.id x.period.tenantId x.period.finish
  have hunbilled : ∀ r ∈ w.db.events,
      r.key ∈ (w.db.unbilled x.period.tenantId x.period.finish).map EventRow.key →
        r.invoiceId = none := by
    intro r hr hkey
    have hunbilled := (key_mem_filter h.keys hr).1 hkey
    exact (EventRow.isUnbilled_iff.1 hunbilled).2.1
  have hnew : ∀ r ∈ w.db.events, r.invoiceId ≠ some inv.id := by
    intro r hr heq
    exact absurd (h.issued r hr inv.id heq).1 (Nat.not_lt.2 heffect.fresh)
  constructor
  · rw [hevents, expectedEvents_invoiced, h.events]
  · have hids : invoiceIds (history ++ [.invoiced inv.id x.period.tenantId x.period.finish]) =
        invoiceIds history ++ [inv.id] := by
      simp [invoiceIds]
    rw [hids]
    constructor
    · rw [List.nodup_append]
      refine ⟨h.ids.1, List.nodup_singleton _, ?_⟩
      intro invoice hid new hnew'
      cases List.mem_singleton.1 hnew'
      exact Nat.ne_of_lt (Nat.lt_of_lt_of_le (h.ids.2 invoice hid) heffect.fresh)
    · intro invoice hid
      rcases List.mem_append.1 hid with hid | hid
      · exact Nat.lt_of_lt_of_le (h.ids.2 invoice hid) heffect.sequences.invoices
      · cases List.mem_singleton.1 hid
        exact heffect.issued
  · have hkeys : w'.db.events.map EventRow.key = w.db.events.map EventRow.key := by
      rw [heffect.events, List.map_map]
      apply List.map_congr_left
      exact fun r _ => EventRow.key_billed _ _ r
    rw [hkeys]
    exact h.keys
  · rw [hevents, heffect.lineItems]
    intro r' hr' invoice hinvoice
    obtain ⟨r, hr, rfl⟩ := List.mem_map.1 hr'
    by_cases hcharged : r.isUnbilled x.period.tenantId x.period.finish = true
    · -- a new invoice: the meter was gathered
      rw [EventRow.charge, if_pos hcharged] at hinvoice ⊢
      cases hinvoice
      obtain ⟨line, hline, hmeter⟩ := hissued.line_meter.2
        ⟨r, heffect.gathered ▸ List.mem_filter.2 ⟨hr, hcharged⟩, rfl⟩
      exact ⟨heffect.issued, line.row inv.id,
        List.mem_append_right _ (List.mem_map_of_mem hline), rfl, hmeter⟩
    · rw [EventRow.charge, if_neg hcharged] at hinvoice ⊢
      obtain ⟨hlt, line, hline, hid⟩ := h.issued r hr invoice hinvoice
      exact ⟨Nat.lt_of_lt_of_le hlt heffect.sequences.invoices, line,
        List.mem_append_left _ hline, hid⟩
  · rw [heffect.lineItems]
    intro row hrow
    rcases List.mem_append.1 hrow with hold | hadded
    · obtain ⟨hlt, hquantity⟩ := h.lines row hold
      refine ⟨Nat.lt_of_lt_of_le hlt heffect.sequences.invoices, ?_⟩
      rw [Database.eventsOf, heffect.events,
        filter_billed_other hunbilled (Nat.ne_of_lt (Nat.lt_of_lt_of_le hlt heffect.fresh))]
      exact hquantity
    · obtain ⟨line, hline, rfl⟩ := List.mem_map.1 hadded
      refine ⟨heffect.issued, ?_⟩
      show line.quantity.toInt = quantityOf (w'.db.eventsOf inv.id) line.meter
      rw [hissued.line_quantity hline, heffect.gathered, Database.eventsOf, heffect.events,
        filter_billed_new hnew, quantityOf_invoice, Database.unbilled, filter_key_mem h.keys]

variable {decode : Decoder}

/-- One call of a run. -/
theorem step (h : Rolled history w) {new : List Happening} {call : SerialCall}
    (hstep : SerialStep cols decode w call new w') : Rolled (history ++ new) w' := by
  cases hstep with
  | append record =>
      rw [List.append_nil]
      exact h.same rfl rfl (.refl _)
  | batch c start stop hbatch =>
      obtain ⟨rows, heffect⟩ := batch_effect hbatch
      have hrows : w'.db.events.drop w.db.events.length = rows := by
        rw [heffect.eq]
        simp
      rw [hrows]
      exact h.batch heffect
  | ensurePeriod tenant label start finish hensure =>
      obtain ⟨new, heffect⟩ := ensure_effect hensure
      rw [List.append_nil]
      exact h.same (by rw [heffect.eq]) (by rw [heffect.eq]) heffect.sequences
  | @close _ out registry plan now id hclose =>
      rcases close_cases hclose with
        ⟨inv, x, seen, base, rfl, hissued, hchain, rfl⟩ | ⟨hnone, hsame⟩
      · rw [closing, find_of_issued hissued hchain]
        exact h.close hissued (serial_issue hissued hchain)
      · have hnothing : closing w out = [] := by
          rw [closing]
          exact hnone
        rw [hnothing, List.append_nil]
        exact h.same hsame.events hsame.lineItems hsame.sequences

theorem run {start : World} (hstart : start.db = Database.empty)
    (hrun : SerialRun cols decode start history w) : Rolled history w := by
  induction hrun with
  | refl => exact .start hstart
  | step _ _ hstep ih => exact ih.step hstep

/-- An event with an invoice stays as it is. -/
theorem keeps (h : Rolled history w) {new : List Happening} {call : SerialCall}
    (hstep : SerialStep cols decode w call new w') {r : EventRow} (hr : r ∈ w.db.events)
    (hbilled : r.invoiceId ≠ none) : r ∈ w'.db.events := by
  have hafter := events_of_step h.keys hstep
  generalize w'.db.events = events at hafter ⊢
  cases hafter with
  | same => exact hr
  | inserted _ =>
      exact List.mem_append_left _ hr
  | invoiced invoice tenant finish =>
      exact List.mem_map.2 ⟨r, hr, charge_of_billed hbilled⟩

theorem keeps_run (h : Rolled history w) {later : List Happening}
    (hrun : SerialRun cols decode w later w') :
    Rolled (history ++ later) w' ∧
      ∀ r ∈ w.db.events, r.invoiceId ≠ none → r ∈ w'.db.events := by
  induction hrun with
  | refl =>
      rw [List.append_nil]
      exact ⟨h, fun r hr _ => hr⟩
  | step _ _ hstep ih =>
      rw [← List.append_assoc]
      refine ⟨ih.1.step hstep, fun r hr hbilled => ?_⟩
      exact ih.1.keeps hstep (ih.2 r hr hbilled) hbilled

end Rolled

variable {cols : Columns} {decode : Decoder}

/-- In every serial run an event is billed by the first invoice that covers it, never by
another one later on, and the lines of an invoice are the sums of its events. -/
theorem billed_by_first {start w w' : World} {history later : List Happening}
    (hstart : start.db = Database.empty) (hrun : SerialRun cols decode start history w)
    (hlater : SerialRun cols decode w later w') :
    w.db.events = expectedEvents history ∧ (invoiceIds history).Nodup ∧
    (∀ r ∈ w.db.events, r.invoiceId ≠ none →
      r ∈ w'.db.events ∧ ∀ r' ∈ w'.db.events, r'.key = r.key → r' = r) ∧
    (∀ line ∈ w.db.lineItems,
      line.quantity = quantityOf (w.db.eventsOf line.invoiceId) line.meter) ∧
    ∀ r ∈ w.db.events, ∀ invoice, r.invoiceId = some invoice →
      ∃ line ∈ w.db.lineItems, line.invoiceId = invoice ∧ line.meter = r.meter := by
  have hrolled := Rolled.run hstart hrun
  obtain ⟨hrolled', hkeeps⟩ := hrolled.keeps_run hlater
  refine ⟨hrolled.events, hrolled.ids.1, ?_, fun line hline => (hrolled.lines line hline).2,
    fun r hr invoice hinvoice => (hrolled.issued r hr invoice hinvoice).2⟩
  intro r hr hbilled
  have hr' := hkeeps r hr hbilled
  exact ⟨hr', fun r' hr'' hkey => List.inj_on_of_nodup_map hrolled'.keys hr'' hr' hkey⟩

section Sample

/-- The late event is in, and the next period is closed. -/
def sampleLate : World :=
  (sampleCall (sampleClose 2) (sampleCall (sampleBatch 1) sampleClosed).2).2

theorem sampleLate_reachable : SerialRun postgresColumns sampleDecode sampleClosed
    [.inserted [sampleRow "late" 2000 none], .invoiced 2 "a" 20000] sampleLate := by
  have hbatch := sampleRun_batch 1 ⟨1, 1, 0, 0, 0⟩ [sampleRow "late" 2000 none]
    (.refl : SerialRun postgresColumns sampleDecode sampleClosed [] sampleClosed) trivial
    (by decide +kernel) (by decide +kernel)
  exact sampleRun_close 2 (.issued (sampleInvoice 2 true)) [.invoiced 2 "a" 20000] hbatch trivial
    (by decide +kernel) (by decide +kernel)

/-- The first event keeps its invoice, and the late event is on the next one. -/
theorem billed_by_first_sample :
    sampleClosed.db.events = expectedEvents
        [.inserted [sampleRow "first" 1000 none], .invoiced 1 "a" 10000] ∧
      sampleRow "first" 1000 (some 1) ∈ sampleLate.db.events ∧
      sampleLate.db.events =
        [sampleRow "first" 1000 (some 1), sampleRow "late" 2000 (some 2)] := by
  have hclosed : SerialRun postgresColumns sampleDecode sampleStart
      [.inserted [sampleRow "first" 1000 none], .invoiced 1 "a" 10000] sampleClosed :=
    sampleClosed_reachable (fun _ _ _ _ _ => trivial) (fun _ _ _ _ => trivial) trivial
  obtain ⟨hevents, -, hkeeps, -⟩ := billed_by_first rfl hclosed sampleLate_reachable
  refine ⟨hevents, (hkeeps _ ?_ ?_).1, ?_⟩
  · rw [hevents]
    decide +kernel
  · decide
  · decide +kernel

end Sample

end LedgerLine.Billing
