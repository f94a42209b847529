import LedgerLine.Billing.OneInvoice
import LedgerLine.Lib.Schedule

/-!
# Closes that run into each other

`Close` calls on any periods, with their statements interleaved.  A call sums the unbilled
events in one statement and marks them in a later one; between the two it holds no lock on
them, so another call may sum the same events (`billed_twice`).

As long as no call gathers an event that another open call has gathered, every event is on
one invoice at most: the lines of an invoice are the sums of the events that carry it
(`billed_at_most_once`).
-/

namespace LedgerLine.Billing

/-- Events have keys of their own, and events and lines carry invoices that were issued. -/
structure InvoicesKnown (db : Database) : Prop where
  keys : (db.events.map EventRow.key).Nodup
  events : ∀ r ∈ db.events, ∀ invoice, r.invoiceId = some invoice →
    invoice < db.sequences.invoices
  lines : ∀ line ∈ db.lineItems, line.invoiceId < db.sequences.invoices

/-- The lines of every invoice are the sums of the events that carry the invoice. -/
structure LinesAccounted (db : Database) : Prop where
  keys : (db.events.map EventRow.key).Nodup
  issued : ∀ r ∈ db.events, ∀ invoice, r.invoiceId = some invoice →
    invoice < db.sequences.invoices
  lines : ∀ line ∈ db.lineItems, line.invoiceId < db.sequences.invoices ∧
    line.quantity = quantityOf (db.eventsOf line.invoiceId) line.meter
  distinct : (db.lineItems.map fun line => (line.invoiceId, line.meter)).Nodup

/-- The events a call has gathered. -/
def gatheredKeys (seen : Trace) : List (String × String) :=
  seen.flatMap fun e =>
    match e.1 with
    | .unbilledUsage tenant before => (e.2.db.unbilled tenant before).map EventRow.key
    | _ => []

/-- The invoices a call has inserted. -/
def insertedIds (cols : Columns) (seen : Trace) : List Nat :=
  (ownInvoices ((billingEngine cols).writesOf seen)).map InvoiceRow.id

/-- No call gathers an event that another open call has gathered. -/
def GatherApart (cols : Columns)
    (c : Calls BillingStmt BillingStmt.Answer StmtErr World Write CloseErr Closed) (t : Nat) :
    BillingStmt → Prop
  | .unbilledUsage tenant before => ∀ u own s, u ≠ t → c.pool.sessions t = some own →
      c.pool.sessions u = some s →
      ∀ r ∈ ((billingEngine cols).view c.pool.data own.writes).db.unbilled tenant before,
        r.key ∉ gatheredKeys s.seen
  | _ => True

section Sums

/-- One event counts for one invoice at most. -/
theorem sum_once_le {quantity : Int} (hnonneg : 0 ≤ quantity) (billed : Option Nat)
    {ids : List Nat} (hids : ids.Nodup) :
    (ids.map fun i => if billed = some i then quantity else 0).sum ≤ quantity := by
  induction ids with
  | nil => exact hnonneg
  | cons i ids ih =>
      obtain ⟨hnew, hids⟩ := List.nodup_cons.1 hids
      rw [List.map_cons, List.sum_cons]
      by_cases hi : billed = some i
      · have hrest : (ids.map fun j => if billed = some j then quantity else 0) =
            ids.map fun _ => 0 := by
          apply List.map_congr_left
          intro j hj
          rw [if_neg]
          intro hbilled
          exact hnew (Option.some.inj (hi.symm.trans hbilled) ▸ hj)
        rw [if_pos hi, hrest]
        simp
      · rw [if_neg hi, Int.zero_add]
        exact ih hids

/-- The events of different invoices are different events. -/
theorem sum_eventsOf_le {events : List EventRow} (hnonneg : ∀ r ∈ events, 0 ≤ r.quantity)
    {ids : List Nat} (hids : ids.Nodup) (meter : String) :
    (ids.map fun i => quantityOf (events.filter fun r => r.invoiceId = some i) meter).sum ≤
      quantityOf events meter := by
  induction events with
  | nil => simp [quantityOf]
  | cons r events ih =>
      rw [List.forall_mem_cons] at hnonneg
      have hfirst : ∀ i, quantityOf ((r :: events).filter fun r => r.invoiceId = some i) meter =
          (if r.invoiceId = some i then (if r.meter = meter then r.quantity else 0) else 0) +
            quantityOf (events.filter fun r => r.invoiceId = some i) meter := by
        intro i
        rw [List.filter_cons]
        by_cases hi : r.invoiceId = some i <;> simp [hi, quantityOf_cons]
      have hquantity : 0 ≤ if r.meter = meter then r.quantity else 0 := by
        split
        · exact hnonneg.1
        · exact Int.le_refl 0
      simp only [hfirst, List.sum_map_add]
      rw [quantityOf_cons]
      exact Int.add_le_add (sum_once_le hquantity r.invoiceId hids) (ih hnonneg.2)

end Sums

section Moves

/-- What may happen to an event: it is billed, if it is not among those with the given keys,
on an invoice other than the given ones. -/
def EventStep (own : List (String × String)) (ids : List Nat) (r r' : EventRow) : Prop :=
  r' = r ∨ r.invoiceId = none ∧ r.key ∉ own ∧ ∃ i, i ∉ ids ∧ r' = { r with invoiceId := some i }

/-- What may happen while a call is open that has gathered the given events and inserted the
given invoices. -/
structure BillingMove (own : List (String × String)) (ids : List Nat) (w w' : World) : Prop where
  events : List.Forall₂ (EventStep own ids) w.db.events w'.db.events
  lines : ∃ new, w'.db.lineItems = w.db.lineItems ++ new ∧ ∀ l ∈ new, l.invoiceId ∉ ids
  sequences : w.db.sequences.invoices ≤ w'.db.sequences.invoices

variable {own own' : List (String × String)} {ids ids' : List Nat}

theorem EventStep.key_eq {r r' : EventRow} (h : EventStep own ids r r') : r'.key = r.key := by
  rcases h with rfl | ⟨-, -, i, -, rfl⟩ <;> rfl

theorem EventStep.trans {r₁ r₂ r₃ : EventRow} (h : EventStep own ids r₁ r₂)
    (h' : EventStep own ids r₂ r₃) : EventStep own ids r₁ r₃ := by
  rcases h with rfl | ⟨hnone, hkey, i, hi, rfl⟩
  · exact h'
  · rcases h' with rfl | ⟨hsome, -⟩
    · exact .inr ⟨hnone, hkey, i, hi, rfl⟩
    · cases hsome

theorem BillingMove.refl (w : World) : BillingMove own ids w w :=
  ⟨List.forall₂_same.2 fun _ _ => .inl rfl, ⟨[], by simp, nofun⟩, Nat.le_refl _⟩

theorem events_trans {events₁ events₂ events₃ : List EventRow}
    (h : List.Forall₂ (EventStep own ids) events₁ events₂)
    (h' : List.Forall₂ (EventStep own ids) events₂ events₃) :
    List.Forall₂ (EventStep own ids) events₁ events₃ := by
  induction h generalizing events₃ with
  | nil => exact h'
  | cons hstep _ ih =>
      cases h' with
      | cons hstep' hrest =>
          exact .cons (hstep.trans hstep') (ih hrest)

theorem BillingMove.trans {w₁ w₂ w₃ : World} (h : BillingMove own ids w₁ w₂)
    (h' : BillingMove own ids w₂ w₃) : BillingMove own ids w₁ w₃ := by
  obtain ⟨new, hnew, hids⟩ := h.lines
  obtain ⟨new', hnew', hids'⟩ := h'.lines
  refine ⟨events_trans h.events h'.events, ⟨new ++ new', ?_, ?_⟩,
    Nat.le_trans h.sequences h'.sequences⟩
  · rw [hnew', hnew, List.append_assoc]
  · exact List.forall_mem_append.2 ⟨hids, hids'⟩

theorem BillingMove.mono {w w' : World} (h : BillingMove own ids w w') (hown : own' ⊆ own)
    (hids : ids' ⊆ ids) : BillingMove own' ids' w w' := by
  obtain ⟨new, hnew, hother⟩ := h.lines
  refine ⟨h.events.imp ?_, ⟨new, hnew, fun l hl hmem => hother l hl (hids hmem)⟩, h.sequences⟩
  rintro r r' (hsame | ⟨hnone, hkey, i, hi, hbilled⟩)
  · exact .inl hsame
  · exact .inr ⟨hnone, fun hmem => hkey (hown hmem), i, fun hmem => hi (hids hmem), hbilled⟩

theorem BillingMove.draw (w : World) (o : BillingStmt) : BillingMove own ids w (w.draw o) := by
  refine ⟨List.forall₂_same.2 fun _ _ => .inl rfl, ⟨[], by simp [World.draw], nofun⟩, ?_⟩
  exact (Sequences.le_draw w.db.sequences o).invoices

variable {events events' : List EventRow}

/-- The events that are protected stay as they are. -/
theorem filter_of_move {keys : List (String × String)} (hkeys : keys ⊆ own)
    (h : List.Forall₂ (EventStep own ids) events events') :
    events'.filter (fun r => r.key ∈ keys) = events.filter fun r => r.key ∈ keys := by
  induction h with
  | nil => rfl
  | @cons r r' _ _ hstep _ ih =>
      rw [List.filter_cons, List.filter_cons, ih, hstep.key_eq]
      by_cases hkey : r.key ∈ keys
      · rcases hstep with rfl | ⟨-, hnot, -⟩
        · rfl
        · exact absurd (hkeys hkey) hnot
      · simp [hkey]

/-- An event that is not billed was not billed before. -/
theorem unbilled_of_move {r : EventRow} (h : List.Forall₂ (EventStep own ids) events events')
    (hr : r ∈ events') (hnone : r.invoiceId = none) : r ∈ events := by
  induction h with
  | nil => cases hr
  | @cons r₁ r₂ _ _ hstep _ ih =>
      rcases List.mem_cons.1 hr with rfl | hr
      · rcases hstep with rfl | ⟨-, -, i, -, rfl⟩
        · exact List.mem_cons_self
        · cases hnone
      · exact List.mem_cons_of_mem _ (ih hr)

/-- No event gets one of the invoices. -/
theorem invoice_of_move {i : Nat} (hi : i ∈ ids)
    (h : List.Forall₂ (EventStep own ids) events events')
    (hnew : ∀ r ∈ events, r.invoiceId ≠ some i) : ∀ r ∈ events', r.invoiceId ≠ some i := by
  induction h with
  | nil => exact hnew
  | cons hstep _ ih =>
      rw [List.forall_mem_cons] at hnew ⊢
      refine ⟨?_, ih hnew.2⟩
      rcases hstep with rfl | ⟨-, -, j, hj, rfl⟩
      · exact hnew.1
      · intro heq
        cases heq
        exact hj hi

end Moves

section Chain

variable {cols : Columns}

/-- What calls rely on. -/
def overlapRely (cols : Columns) (seen : Trace) (w w' : World) : Prop :=
  BillingMove (gatheredKeys seen) (insertedIds cols seen) w w'

/-- The states a call has gone through. -/
abbrev OverlapChain (cols : Columns) :=
  (billingEngine cols).Chain
    (fun w => ∃ _ : List FinishedClose, LinesAccounted w.db) (overlapRely cols)

theorem gatheredKeys_append (seen seen' : Trace) :
    gatheredKeys (seen ++ seen') = gatheredKeys seen ++ gatheredKeys seen' := by
  simp [gatheredKeys]

theorem insertedIds_append (seen seen' : Trace) :
    insertedIds cols (seen ++ seen') = insertedIds cols seen ++ insertedIds cols seen' := by
  simp [insertedIds, ownInvoices]

theorem overlapRely_trans (seen : Trace) (w₁ w₂ w₃ : World) (h : overlapRely cols seen w₁ w₂)
    (h' : overlapRely cols seen w₂ w₃) : overlapRely cols seen w₁ w₃ :=
  BillingMove.trans h h'

theorem overlapRely_draw (seen : Trace) (o : BillingStmt) (w : World) :
    overlapRely cols seen w (w.draw o) :=
  .draw w o

theorem overlapRely_mono (seen seen' : Trace) (w w' : World)
    (h : overlapRely cols (seen ++ seen') w w') : overlapRely cols seen w w' := by
  refine BillingMove.mono h ?_ ?_
  · rw [gatheredKeys_append]
    exact List.subset_append_left _ _
  · rw [insertedIds_append]
    exact List.subset_append_left _ _

theorem entry_of_overlap {start w sight : World} {seen seen' : Trace} {o : BillingStmt}
    (h : OverlapChain cols start (seen ++ (o, sight) :: seen') w) :
    ∃ base, OverlapChain cols start seen base ∧ LinesAccounted base.db ∧
      sight = (billingEngine cols).view base ((billingEngine cols).writesOf seen) ∧
      overlapRely cols (seen ++ [(o, sight)]) (base.draw o) w := by
  obtain ⟨base, hchain, ⟨_, hgood⟩, hsight, hmove⟩ := h.entry overlapRely_trans overlapRely_mono
    (fun seen o w _ => overlapRely_draw seen o w)
  exact ⟨base, hchain, hgood, hsight, hmove⟩

variable {registry : Registry} {plan : Plan} {now : Time} {id : Nat} {seen : Trace}
  {inv : Invoice} {x : Issue} {start w : World}

/-- The events that were gathered are protected from then on. -/
theorem move_of_gathered {mid : Trace} (h : Issued cols registry plan now id seen inv x)
    (hchain : OverlapChain cols start (x.opening ++ mid) w) :
    (x.gathered.db.events.map EventRow.key).Nodup ∧
      List.Forall₂ (EventStep (x.gatheredRows.map EventRow.key) []) x.gathered.db.events
        w.db.events := by
  have hsplit : x.opening ++ mid = [(.lockPeriod x.period.id, x.locked)] ++
      (.unbilledUsage x.period.tenantId x.period.finish, x.gathered) :: mid := rfl
  rw [hsplit] at hchain
  obtain ⟨base, -, hgood, hsight, hmove⟩ := entry_of_overlap hchain
  have hevents : x.gathered.db.events = base.db.events := by
    rw [hsight, Engine.writesOf_cons, billingEngine_exec, BillingStmt.exec, h.lock]
    rfl
  rw [hevents]
  refine ⟨hgood.keys, (BillingMove.mono hmove ?_ (List.nil_subset _)).events⟩
  intro key hkey
  rw [gatheredKeys_append]
  exact List.mem_append_right _ (by simpa [gatheredKeys, Issue.gatheredRows] using hkey)

/-- The unbilled events are those that were gathered. -/
theorem unbilled_iff {tenant : String} {before : Time} {events events' : List EventRow}
    {ids : List Nat}
    (hmove : List.Forall₂
      (EventStep ((events.filter (EventRow.isUnbilled tenant before)).map EventRow.key) ids)
      events events') {r : EventRow} :
    r ∈ events'.filter (EventRow.isUnbilled tenant before) ↔
      r ∈ events.filter (EventRow.isUnbilled tenant before) := by
  constructor
  · intro hr
    obtain ⟨hr, hunbilled⟩ := List.mem_filter.1 hr
    have hnone : r.invoiceId = none := (EventRow.isUnbilled_iff.1 hunbilled).2.1
    exact List.mem_filter.2 ⟨unbilled_of_move hmove hr hnone, hunbilled⟩
  · intro hr
    obtain ⟨hold, hunbilled⟩ := List.mem_filter.1 hr
    have hkey : r ∈ events.filter fun r =>
        r.key ∈ (events.filter (EventRow.isUnbilled tenant before)).map EventRow.key :=
      List.mem_filter.2 ⟨hold, decide_eq_true (List.mem_map_of_mem hr)⟩
    rw [← filter_of_move (List.Subset.refl _) hmove] at hkey
    exact List.mem_filter.2 ⟨(List.mem_filter.1 hkey).1, hunbilled⟩

variable {r : EventRow}

/-- What a statement before the marking finds unbilled was gathered. -/
theorem unbilled_iff_gathered (h : Issued cols registry plan now id seen inv x)
    (hchain : OverlapChain cols start seen w) {pre after : Trace} {o : BillingStmt} {sight : World}
    (hseen : seen = x.opening ++ pre ++ (o, sight) :: after)
    (hwrites : (billingEngine cols).writesOf (x.opening ++ pre) = x.beforeMark cols inv) :
    r ∈ sight.db.unbilled x.period.tenantId x.period.finish ↔ r ∈ x.gatheredRows := by
  rw [hseen] at hchain
  obtain ⟨base, hbase, -, hsight, -⟩ := entry_of_overlap hchain
  have hevents : sight.db.events = base.db.events := by
    rw [hsight, hwrites, view_events_of_none cols base fun c hc => (h.beforeMark_cases c hc).1]
  rw [Database.unbilled, hevents]
  exact unbilled_iff (move_of_gathered h hbase).2

/-- A call that issues an invoice marks exactly the events it has gathered. -/
theorem marked_iff_gathered (h : Issued cols registry plan now id seen inv x)
    (hchain : OverlapChain cols start seen w) : r ∈ x.markedRows ↔ r ∈ x.gatheredRows := by
  obtain ⟨mid, hseen, hwrites, hwrites'⟩ := h.at_marking
  have hfound : seen = x.opening ++ mid ++
      (.findUnbilled x.period.tenantId x.period.finish, x.found) ::
        [(.markFound x.foundKeys inv.id x.period.tenantId x.period.finish, x.marked),
          (.closePeriod x.period.id now, x.closed)] := hseen
  have hmarked : seen = x.opening ++ (mid ++
      [(.findUnbilled x.period.tenantId x.period.finish, x.found)]) ++
      (.markFound x.foundKeys inv.id x.period.tenantId x.period.finish, x.marked) ::
        [(.closePeriod x.period.id now, x.closed)] := by
    rw [hseen]
    simp
  rw [List.append_assoc] at hwrites'
  rw [Issue.markedRows, markedRows, List.mem_filter,
    unbilled_iff_gathered h hchain hmarked hwrites', decide_eq_true_eq]
  refine ⟨And.left, fun hr => ⟨hr, List.mem_map_of_mem ?_⟩⟩
  exact (unbilled_iff_gathered h hchain hfound hwrites).2 hr

/-- What a call that issues an invoice finds when it commits: the events it has marked are as
they were gathered, and nothing carries the new invoice. -/
structure Uncontested (w : World) (inv : Invoice) (x : Issue) : Prop where
  unbilled : ∀ r ∈ w.db.events, r.key ∈ x.markedRows.map EventRow.key → r.invoiceId = none
  rows : w.db.events.filter (fun r => r.key ∈ x.markedRows.map EventRow.key) = x.gatheredRows
  gathered : x.markedRows.map EventRow.key ⊆ gatheredKeys x.opening
  issued : inv.id < w.db.sequences.invoices
  events : ∀ r ∈ w.db.events, r.invoiceId ≠ some inv.id
  lines : ∀ l ∈ w.db.lineItems, l.invoiceId ≠ inv.id

theorem uncontested (h : Issued cols registry plan now id seen inv x)
    (hchain : OverlapChain cols start seen w) : Uncontested w inv x := by
  have hkeys : ∀ key, key ∈ x.markedRows.map EventRow.key ↔
      key ∈ x.gatheredRows.map EventRow.key := by
    intro key
    simp only [List.mem_map, marked_iff_gathered h hchain]
  have hopening : seen = x.opening ++
      (x.accounts ++ x.posting ++ x.writing inv now ++ x.ending inv now) := by
    rw [h.seen]
    simp
  have hrows : w.db.events.filter (fun r => r.key ∈ x.markedRows.map EventRow.key) =
      x.gatheredRows := by
    obtain ⟨hnodup, hmove⟩ := move_of_gathered h (hopening ▸ hchain)
    simp only [hkeys]
    rw [filter_of_move (List.Subset.refl _) hmove]
    exact filter_key_mem hnodup _
  obtain ⟨before, after, hseen, -⟩ := h.at_inserted
  rw [hseen] at hchain
  obtain ⟨base, -, hgood, hsight, hmove⟩ := entry_of_overlap hchain
  have hid : inv.id = base.db.sequences.invoices := by
    rw [h.ended.invoice, hsight, World.sequences_view]
  have hinserted : inv.id ∈ insertedIds cols (before ++
      [(.insertInvoice x.period.id x.period.tenantId x.entry.total inv.ledgerTransactionId now,
        x.inserted)]) := by
    rw [insertedIds_append]
    apply List.mem_append_right
    simp [insertedIds, ownInvoices, BillingStmt.exec, h.ended.inserted, Issue.invoiceRow]
  constructor
  · intro r hr hkey
    have hgathered : r ∈ x.gatheredRows := by
      rw [← hrows]
      exact List.mem_filter.2 ⟨hr, decide_eq_true hkey⟩
    have hunbilled := (List.mem_filter.1 hgathered).2
    exact (EventRow.isUnbilled_iff.1 hunbilled).2.1
  · exact hrows
  · intro key hkey
    have hgathered := (hkeys key).1 hkey
    simpa [gatheredKeys, Issue.opening, Issue.gatheredRows] using hgathered
  · rw [hid]
    exact Nat.lt_of_lt_of_le (Nat.lt_succ_self _) hmove.sequences
  · refine invoice_of_move hinserted hmove.events ?_
    intro r hr heq
    have hlt := hgood.issued r hr _ heq
    rw [hid] at hlt
    exact Nat.lt_irrefl _ hlt
  · intro l hl heq
    obtain ⟨new, hnew, hother⟩ := hmove.lines
    rw [hnew] at hl
    rcases List.mem_append.1 hl with hl | hl
    · have hlt := (hgood.lines l hl).1
      rw [heq, hid] at hlt
      exact Nat.lt_irrefl _ hlt
    · exact hother l hl (heq ▸ hinserted)

theorem InvoicesKnown.issue (hgood : InvoicesKnown w.db)
    (h : Issued cols registry plan now id seen inv x) (hid : inv.id < w.db.sequences.invoices) :
    InvoicesKnown ((billingEngine cols).view w ((billingEngine cols).writesOf seen)).db := by
  constructor
  · rw [issued_events h, List.map_map]
    have hsame : EventRow.key ∘ EventRow.billed (x.markedRows.map EventRow.key) inv.id =
        EventRow.key := by
      funext r
      exact EventRow.key_billed _ _ r
    rw [hsame]
    exact hgood.keys
  · rw [issued_events h, World.sequences_view]
    intro r hr invoice hinvoice
    obtain ⟨r₀, hr₀, rfl⟩ := List.mem_map.1 hr
    rw [EventRow.billed] at hinvoice
    split at hinvoice
    · cases hinvoice
      exact hid
    · exact hgood.events r₀ hr₀ invoice hinvoice
  · rw [issued_lineItems h, World.sequences_view]
    intro l hl
    rcases List.mem_append.1 hl with hl | hl
    · exact hgood.lines l hl
    · obtain ⟨line, -, rfl⟩ := List.mem_map.1 hl
      exact hid

theorem LinesAccounted.known {db : Database} (h : LinesAccounted db) : InvoicesKnown db :=
  ⟨h.keys, h.issued, fun l hl => (h.lines l hl).1⟩

/-- The commit of a call that issues an invoice. -/
theorem LinesAccounted.issue (hgood : LinesAccounted w.db)
    (h : Issued cols registry plan now id seen inv x) (hfree : Uncontested w inv x) :
    LinesAccounted ((billingEngine cols).view w ((billingEngine cols).writesOf seen)).db := by
  have hknown := hgood.known.issue h hfree.issued
  refine ⟨hknown.keys, hknown.events, ?_, ?_⟩
  · rw [issued_lineItems h, World.sequences_view]
    intro l hl
    rcases List.mem_append.1 hl with hl | hl
    · refine ⟨(hgood.lines l hl).1, ?_⟩
      rw [Database.eventsOf, issued_events h,
        filter_billed_other hfree.unbilled (hfree.lines l hl)]
      exact (hgood.lines l hl).2
    · obtain ⟨line, hline, rfl⟩ := List.mem_map.1 hl
      refine ⟨hfree.issued, ?_⟩
      show line.quantity.toInt = quantityOf (Database.eventsOf _ inv.id) line.meter
      rw [h.line_quantity hline, Database.eventsOf, issued_events h,
        filter_billed_new hfree.events, quantityOf_invoice, hfree.rows]
  · rw [issued_lineItems h, List.map_append, List.nodup_append]
    refine ⟨hgood.distinct, ?_, ?_⟩
    · have hmeters := (rate_spec h.rated).nodup
      rw [h.entry.lines, List.map_map, List.map_map]
      exact List.Nodup.of_map Prod.snd (by rw [List.map_map]; exact hmeters)
    · intro a ha b hb heq
      obtain ⟨l, hl, rfl⟩ := List.mem_map.1 ha
      obtain ⟨l', hl', rfl⟩ := List.mem_map.1 hb
      obtain ⟨line, -, rfl⟩ := List.mem_map.1 hl'
      exact hfree.lines l hl (congrArg Prod.fst heq)

/-- What the other open calls allow. -/
theorem move_of_issue (h : Issued cols registry plan now id seen inv x)
    (hfree : Uncontested w inv x) {own : List (String × String)} {ids : List Nat}
    (hown : ∀ key ∈ gatheredKeys seen, key ∉ own) (hids : inv.id ∉ ids) :
    BillingMove own ids w ((billingEngine cols).view w ((billingEngine cols).writesOf seen)) := by
  constructor
  · rw [issued_events h, List.forall₂_map_right_iff, List.forall₂_same]
    intro r hr
    rw [EventRow.billed]
    split
    · rename_i hkey
      refine .inr ⟨hfree.unbilled r hr hkey, hown _ ?_, inv.id, hids, rfl⟩
      have hgathered := hfree.gathered hkey
      rw [h.seen, List.append_assoc, List.append_assoc, List.append_assoc, gatheredKeys_append]
      exact List.mem_append_left _ hgathered
    · exact .inl rfl
  · refine ⟨_, issued_lineItems h w, ?_⟩
    refine List.forall_mem_map.2 fun line _ => ?_
    exact hids
  · rw [World.sequences_view]

theorem idents_invoices {ws : List Write} {i : Nat} (h : i ∈ (ownInvoices ws).map InvoiceRow.id) :
    Ident.invoice i ∈ (billingNumbering cols).idents ws := by
  obtain ⟨row, hrow, rfl⟩ := List.mem_map.1 h
  exact List.mem_filterMap.2 ⟨_, mem_ownInvoices.1 hrow, rfl⟩

end Chain

/-- The calls, and what keeps the lines accounted for. -/
def overlapContract (cols : Columns) (registry : Nat → Registry) (plan : Nat → Plan)
    (now : Nat → Time) (id : Nat → Nat) :
    CallContract (billingEngine cols) (fun t => close (registry t) (plan t) (now t) (id t))
      (triggersPass cols) (GatherApart cols) (billingNumbering cols) where
  Good := fun w _ => LinesAccounted w.db
  R := fun _ => overlapRely cols
  Apart := fun seen seen' => ∀ key ∈ gatheredKeys seen, key ∉ gatheredKeys seen'
  givesUp := fun t => givesUp_close (registry t) (plan t) (now t) (id t)
  refl := fun _ _ w => .refl w
  trans := fun _ => overlapRely_trans
  draw := fun _ seen o w _ _ => overlapRely_draw seen o w
  good_draw := fun o w _ h => ⟨h.keys,
    fun r hr i hi => Nat.lt_of_lt_of_le (h.issued r hr i hi) (Sequences.le_draw _ o).invoices,
    fun l hl => ⟨Nat.lt_of_lt_of_le (h.lines l hl).1 (Sequences.le_draw _ o).invoices,
      (h.lines l hl).2⟩, h.distinct⟩
  apart_symm := fun _ _ h key hkey hkey' => h key hkey' hkey
  apart_nil := nofun
  apart_step := by
    intro c t u o next ws seen s hu hs hopen hallowed hapart key hkey
    rw [gatheredKeys_append] at hkey
    rcases List.mem_append.1 hkey with hkey | hkey
    · exact hapart key hkey
    · cases o with
      | unbilledUsage tenant before =>
          obtain ⟨r, hr, rfl⟩ : ∃ r ∈ ((billingEngine cols).view c.pool.data ws).db.unbilled tenant
              before, r.key = key := by
            simpa [gatheredKeys] using hkey
          exact hallowed u _ s hu hs hopen r hr
      | _ => cases hkey
  commit := by
    intro t start result w fs seen hgood hpath hchain _ _
    rcases path_close hpath with
      ⟨inv, x, rfl, hissued⟩ | ⟨inv, period, row, locked, read, lines, rfl, hreturned⟩
    · exact hgood.issue hissued (uncontested hissued hchain)
    · rw [view_of_returned cols hreturned]
      exact hgood
  others := by
    intro t u start start' result w fs seen seen' body _ hgood hpath hchain _ _ _ _ hidents hapart
    rcases path_close hpath with
      ⟨inv, x, rfl, hissued⟩ | ⟨inv, period, row, locked, read, lines, rfl, hreturned⟩
    · refine move_of_issue hissued (uncontested hissued hchain) hapart ?_
      intro hid
      refine hidents (.invoice inv.id) (idents_invoices ?_) (idents_invoices hid)
      have hown := (view_invoices cols w _).symm.trans (issued_invoices hissued w)
      rw [List.append_cancel_left hown]
      exact List.mem_singleton.2 rfl
    · rw [view_of_returned cols hreturned]
      exact .refl w

/-- However `Close` calls run into each other, as long as none gathers an event that another
open call has gathered, the lines of every invoice are the sums of the events that carry it,
and what is invoiced does not exceed the usage. -/
theorem billed_at_most_once (cols : Columns) (registry : Nat → Registry) (plan : Nat → Plan)
    (now : Nat → Time) (id : Nat → Nat) {w : World} (hw : LinesAccounted w.db)
    {c : Calls BillingStmt BillingStmt.Answer StmtErr World Write CloseErr Closed}
    (hrun : Relation.ReflTransGen (CallStep (billingEngine cols)
      (fun t => close (registry t) (plan t) (now t) (id t)) (triggersPass cols)
      (GatherApart cols)) (.start w) c) :
    (∀ line ∈ c.pool.data.db.lineItems,
      line.quantity = quantityOf (c.pool.data.db.eventsOf line.invoiceId) line.meter) ∧
    ((∀ r ∈ c.pool.data.db.events, 0 ≤ r.quantity) → ∀ meter,
      ((c.pool.data.db.lineItems.filter fun l => l.meter = meter).map
        fun l => l.quantity).sum ≤ quantityOf c.pool.data.db.events meter) := by
  have hinv := callInv_of_run
    (K := overlapContract cols registry plan now id) (.start hw) hrun
  have hgood : LinesAccounted c.pool.data.db := hinv.good
  refine ⟨fun line hline => (hgood.lines line hline).2, fun hnonneg meter => ?_⟩
  have hids : ((c.pool.data.db.lineItems.filter fun l => l.meter = meter).map
      LineItemRow.invoiceId).Nodup := by
    refine List.Nodup.map_on ?_ ((List.Nodup.of_map _ hgood.distinct).filter _)
    intro l hl l' hl' heq
    obtain ⟨hl, hmeter⟩ := List.mem_filter.1 hl
    obtain ⟨hl', hmeter'⟩ := List.mem_filter.1 hl'
    refine List.inj_on_of_nodup_map hgood.distinct hl hl' (Prod.ext heq ?_)
    exact (of_decide_eq_true hmeter).trans (of_decide_eq_true hmeter').symm
  refine Int.le_trans (Int.le_of_eq ?_) (sum_eventsOf_le hnonneg hids meter)
  rw [List.map_map]
  congr 1
  apply List.map_congr_left
  intro l hl
  obtain ⟨hl, hmeter⟩ := List.mem_filter.1 hl
  rw [(hgood.lines l hl).2, of_decide_eq_true hmeter]
  rfl

section Sample

/-- Two closes of the sample. -/
def sampleCloses (t : Nat) : BillingBody CloseEnd :=
  sampleClose (t + 1)

/-- Whether none of the first `n` calls, `t` apart, has gathered what `t` gathers next. -/
def gathersApart (cols : Columns) (n : Nat)
    (c : Calls BillingStmt BillingStmt.Answer StmtErr World Write CloseErr Closed) (t : Nat) :
    BillingStmt → Bool
  | .unbilledUsage tenant before => (c.pool.sessions t).all fun own =>
      (List.range n).all fun u => u = t || (c.pool.sessions u).all fun s =>
        (((billingEngine cols).view c.pool.data own.writes).db.unbilled tenant before).all
          fun r => r.key ∉ gatheredKeys s.seen
  | _ => true

theorem gathersApart_sound {cols : Columns} {n : Nat}
    (c : Calls BillingStmt BillingStmt.Answer StmtErr World Write CloseErr Closed) (t : Nat)
    (o : BillingStmt) (hwithin : Calls.Within n c) (h : gathersApart cols n c t o = true) :
    GatherApart cols c t o := by
  cases o with
  | unbilledUsage tenant before =>
      intro u own s hu hown hs r hr
      rw [gathersApart, hown, Option.all_some, List.all_eq_true] at h
      have hall := h u (List.mem_range.2 (Calls.lt_of_session hwithin hs))
      rw [hs, decide_eq_false hu, Bool.false_or, Option.all_some, List.all_eq_true] at hall
      exact of_decide_eq_true (hall r hr)
  | _ => trivial

/-- An event in the second period of tenant `a`, and one of another tenant in a third period. -/
def threePeriods : World :=
  let w := (sampleCall (ensurePeriod "b" "one" 1000 10000) samplePeriod).2
  { w with db := { w.db with
    events := w.db.events ++
      [sampleRow "second" 12000 none, { sampleRow "other" 2000 none with tenantId := "b" }] } }

/-- Three calls are open at once.  The third gathers beside the first, and the second beside the
third, once the first has committed. -/
def apart : List Move :=
  [.begin 0, .begin 1, .statements 1 1, .statements 0 2, .begin 2, .statements 2 2,
    .statements 0 10, .commit 0, .statements 1 1, .statements 2 10, .commit 2,
    .statements 1 10, .commit 1]

/-- Three events on three invoices. -/
theorem billed_at_most_once_sample :
    ∃ c, Calls.play (billingEngine postgresColumns) sampleCloses (triggersPass postgresColumns)
        (gathersApart postgresColumns 3) 3 apart (.start threePeriods) = some c ∧
      c.pool.data.db.events.map EventRow.invoiceId = [some 1, some 3, some 2] ∧
      (∀ line ∈ c.pool.data.db.lineItems,
        line.quantity = quantityOf (c.pool.data.db.eventsOf line.invoiceId) line.meter) ∧
      ((c.pool.data.db.lineItems.filter fun l => l.meter = "m").map
        fun l => l.quantity).sum ≤ quantityOf c.pool.data.db.events "m" := by
  have hplay : ((Calls.play (billingEngine postgresColumns) sampleCloses
      (triggersPass postgresColumns) (gathersApart postgresColumns 3) 3 apart
      (.start threePeriods)).map fun c => (c.pool.data.db.events.map EventRow.invoiceId,
        c.pool.data.db.events.all fun r => 0 ≤ r.quantity)) =
      some ([some 1, some 3, some 2], true) := by
    decide +kernel
  obtain ⟨c, hc, heq⟩ := Option.map_eq_some_iff.1 hplay
  obtain ⟨hevents, hnonneg⟩ := Prod.mk.inj heq
  have hall := billed_at_most_once postgresColumns (fun _ => ⟨["m"]⟩) (fun _ => samplePlan)
    (fun _ => 30000) (fun t => t + 1) (by constructor <;> decide +kernel)
    (Calls.reachable_of_play gathersApart_sound hc)
  exact ⟨c, hc, hevents, hall.1, hall.2 (by simpa using hnonneg) "m"⟩

/-- Both calls gather the event before either of them marks it. -/
def overlapping : List Move :=
  [.begin 0, .statements 0 2, .begin 1, .statements 1 2, .statements 0 10, .commit 0,
    .statements 1 10, .commit 1]

/-- Two periods of one tenant are closed at the same time: one unit of usage is on two
invoices. -/
theorem billed_twice :
    ∃ c, Relation.ReflTransGen (CallStep (billingEngine postgresColumns) sampleCloses
        (triggersPass postgresColumns) fun _ _ _ => True) (.start samplePeriod) c ∧
      c.pool.data.db.events = [sampleRow "first" 1000 (some 1)] ∧
      c.pool.data.db.lineItems = [⟨1, "m", 1000000000, 5⟩, ⟨2, "m", 1000000000, 5⟩] ∧
      ¬ ((c.pool.data.db.lineItems.filter fun l => l.meter = "m").map fun l => l.quantity).sum ≤
        quantityOf c.pool.data.db.events "m" := by
  have hplay : ((Calls.play (billingEngine postgresColumns) sampleCloses
      (triggersPass postgresColumns) (fun _ _ _ => true) 2 overlapping
      (.start samplePeriod)).map fun c =>
        (c.pool.data.db.events, c.pool.data.db.lineItems)) =
      some ([sampleRow "first" 1000 (some 1)],
        [⟨1, "m", 1000000000, 5⟩, ⟨2, "m", 1000000000, 5⟩]) := by
    decide +kernel
  obtain ⟨c, hc, heq⟩ := Option.map_eq_some_iff.1 hplay
  obtain ⟨hevents, hlines⟩ := Prod.mk.inj heq
  refine ⟨c, Calls.reachable_of_play (fun _ _ _ _ _ => trivial) hc, hevents, hlines, ?_⟩
  rw [hevents, hlines]
  decide +kernel

end Sample

end LedgerLine.Billing
