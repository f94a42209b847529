import LedgerLine.Billing.ClosePath
import LedgerLine.Lib.Serial

/-!
# What a Close changes

The effect of a committed `Close` on each table.  `issued_events` and its companions hold
whatever else goes on; they give the effect of the changes on the data they are committed
to.  `serial_issue` is for a `Close` on its own: it has marked exactly the events it
gathered, which are the tenant's unbilled events from before the end of the period.
-/

namespace LedgerLine.Billing

variable {cols : Columns}

/-- Writing an invoice on the events with the given keys. -/
def EventRow.billed (keys : List (String × String)) (invoice : Nat) (r : EventRow) : EventRow :=
  if r.key ∈ keys then { r with invoiceId := some invoice } else r

@[simp] theorem EventRow.key_billed (keys : List (String × String)) (invoice : Nat)
    (r : EventRow) : (r.billed keys invoice).key = r.key := by
  rw [billed]
  split <;> rfl

/-- One key after the other. -/
theorem EventRow.billed_bill (key : String × String) (keys : List (String × String)) (invoice : Nat)
    (r : EventRow) : (r.bill key invoice).billed keys invoice = r.billed (key :: keys) invoice := by
  by_cases hkey : r.key = key
  · have hmem : r.key ∈ key :: keys := by
      simp [hkey]
    rw [bill, if_pos hkey]
    simp only [billed, hmem, if_true]
    split <;> rfl
  · have hmem : r.key ∈ key :: keys ↔ r.key ∈ keys := by
      simp [hkey]
    rw [bill, if_neg hkey, billed, billed]
    simp only [hmem]

/-- Changes of the table `events`. -/
def Write.isEvent : Write → Bool
  | .event _ => true
  | .bill _ _ => true
  | _ => false

/-- Changes of the table `billing_periods`. -/
def Write.isPeriod : Write → Bool
  | .period _ => true
  | .closePeriod _ _ => true
  | _ => false

/-- The invoices among some changes. -/
def ownInvoices (ws : List Write) : List InvoiceRow :=
  ws.filterMap fun
    | .invoice row => some row
    | _ => none

theorem mem_ownInvoices {ws : List Write} {row : InvoiceRow} :
    row ∈ ownInvoices ws ↔ .invoice row ∈ ws := by
  rw [ownInvoices, List.mem_filterMap]
  constructor
  · rintro ⟨c, hc, hrow⟩
    cases c with
    | invoice row' =>
        cases hrow
        exact hc
    | _ => cases hrow
  · exact fun h => ⟨_, h, rfl⟩

/-- The lines of invoices among some changes. -/
def ownLines (ws : List Write) : List LineItemRow :=
  ws.filterMap fun
    | .lineItem row => some row
    | _ => none

/-- The accounts among some changes. -/
def ownAccounts (ws : List Write) : List AccountRow :=
  ws.filterMap fun
    | .account row => some row
    | _ => none

section Tables

variable (cols) (w : World) (ws : List Write)

theorem view_invoices :
    ((billingEngine cols).view w ws).db.invoices = w.db.invoices ++ ownInvoices ws :=
  view_table cols (fun db c => by cases c <;> simp [Database.apply]) w ws

theorem view_lineItems :
    ((billingEngine cols).view w ws).db.lineItems = w.db.lineItems ++ ownLines ws :=
  view_table cols (fun db c => by cases c <;> simp [Database.apply]) w ws

theorem view_accounts :
    ((billingEngine cols).view w ws).db.accounts = w.db.accounts ++ ownAccounts ws :=
  view_table cols (fun db c => by cases c <;> simp [Database.apply]) w ws

/-- The log is the broker's. -/
theorem billingView_log : ((billingEngine cols).view w ws).log = w.log := by
  induction ws generalizing w with
  | nil => rfl
  | cons c ws ih => exact ih (w.apply c)

variable {ws}

theorem view_events_of_none (h : ∀ c ∈ ws, c.isEvent = false) :
    ((billingEngine cols).view w ws).db.events = w.db.events := by
  induction ws generalizing w with
  | nil => rfl
  | cons c ws ih =>
      rw [List.forall_mem_cons] at h
      have happly : (w.apply c).db.events = w.db.events := by
        cases c with
        | event row | bill key invoice => cases h.1
        | _ => rfl
      exact (ih (w.apply c) h.2).trans happly

theorem view_periods_of_none (h : ∀ c ∈ ws, c.isPeriod = false) :
    ((billingEngine cols).view w ws).db.periods = w.db.periods := by
  induction ws generalizing w with
  | nil => rfl
  | cons c ws ih =>
      rw [List.forall_mem_cons] at h
      have happly : (w.apply c).db.periods = w.db.periods := by
        cases c with
        | period row | closePeriod id closedAt => cases h.1
        | _ => rfl
      exact (ih (w.apply c) h.2).trans happly

/-- Marking some events. -/
theorem view_bills (rows : List EventRow) (invoice : Nat) :
    ((billingEngine cols).view w (rows.map fun r => .bill r.key invoice)).db.events =
      w.db.events.map (EventRow.billed (rows.map EventRow.key) invoice) := by
  induction rows generalizing w with
  | nil =>
      refine (List.map_id' _).symm.trans ?_
      apply List.map_congr_left
      intro r _
      simp [EventRow.billed]
  | cons row rows ih =>
      rw [List.map_cons, Engine.view_cons]
      refine (ih (w.apply (.bill row.key invoice))).trans ?_
      simp only [World.apply, Database.apply, List.map_map]
      apply List.map_congr_left
      intro r _
      exact EventRow.billed_bill row.key (rows.map EventRow.key) invoice r

/-- Closing a period, once or more often. -/
theorem view_closes {rows : List Period} {id : Nat} (closedAt : Time) (hne : rows ≠ [])
    (hid : ∀ p ∈ rows, p.id = id) :
    ((billingEngine cols).view w (rows.map fun p => .closePeriod p.id closedAt)).db.periods =
      w.db.periods.map (Period.close id closedAt) := by
  induction rows generalizing w with
  | nil => exact absurd rfl hne
  | cons row rows ih =>
      rw [List.forall_mem_cons] at hid
      rw [List.map_cons, Engine.view_cons, hid.1]
      by_cases hrows : rows = []
      · subst hrows
        rfl
      · refine (ih (w.apply (.closePeriod id closedAt)) hrows hid.2).trans ?_
        simp only [World.apply, Database.apply, List.map_map]
        apply List.map_congr_left
        intro p _
        by_cases hp : p.id = id <;> simp [Period.close, hp]

end Tables

section Kinds

/-- Accounts are written to no other table. -/
theorem account_writes {seen : Trace} (h : OnlyAccounts seen) :
    ∀ c ∈ (billingEngine cols).writesOf seen,
      (∃ name, c = .touchAccount name) ∨ ∃ row, c = .account row := by
  intro c hc
  obtain ⟨e, he, hc⟩ := List.mem_flatMap.1 hc
  obtain ⟨o, w⟩ := e
  obtain ⟨name, kind, rfl⟩ := h _ he
  simp only [billingEngine_exec, BillingStmt.exec] at hc
  rcases execEnsureAccount_cases cols name kind w.db with
    hexec | ⟨row, -, -, hexec⟩ | ⟨-, hexec⟩ <;> rw [hexec] at hc
  · cases hc
  · exact .inl ⟨name, List.mem_singleton.1 hc⟩
  · exact .inr ⟨_, List.mem_singleton.1 hc⟩

/-- `PostTx` writes to the ledger only. -/
theorem posting_writes {t : Transaction} {id : Nat} {alreadyPosted : Bool} {seen : Trace}
    (h : PostedAs cols t id alreadyPosted seen) :
    ∀ c ∈ (billingEngine cols).writesOf seen,
      (∃ row, c = .transaction row) ∨ ∃ row, c = .posting row := by
  intro c hc
  rcases h with ⟨-, row, -, -, hwrites⟩ | ⟨-, hwrites, -⟩ <;> rw [hwrites] at hc
  · rcases List.mem_cons.1 hc with rfl | hc
    · exact .inl ⟨row, rfl⟩
    · obtain ⟨p, -, rfl⟩ := List.mem_map.1 hc
      exact .inr ⟨_, rfl⟩
  · cases hc

end Kinds

section Issued

variable {registry : Registry} {plan : Plan} {now : Time} {id : Nat} {seen : Trace}
  {inv : Invoice} {x : Issue}

theorem Issued.beforeMark_cases (h : Issued cols registry plan now id seen inv x) :
    ∀ c ∈ x.beforeMark cols inv, c.isEvent = false ∧ c.isPeriod = false := by
  intro c hc
  simp only [Issue.beforeMark, List.mem_append, List.mem_cons] at hc
  rcases hc with ((rfl | hc) | hc) | rfl | hc
  · exact ⟨rfl, rfl⟩
  · rcases account_writes h.entry.accounts c hc with ⟨name, rfl⟩ | ⟨row, rfl⟩ <;>
      exact ⟨rfl, rfl⟩
  · rcases posting_writes h.posted c hc with ⟨row, rfl⟩ | ⟨row, rfl⟩ <;> exact ⟨rfl, rfl⟩
  · exact ⟨rfl, rfl⟩
  · obtain ⟨line, -, rfl⟩ := List.mem_map.1 hc
    exact ⟨rfl, rfl⟩

theorem Issue.marks_cases {c : Write} (hc : c ∈ x.marks inv) : ∃ key, c = .bill key inv.id := by
  obtain ⟨r, -, rfl⟩ := List.mem_map.1 hc
  exact ⟨_, rfl⟩

theorem Issue.closes_cases {c : Write} (hc : c ∈ x.closes) :
    c = .closePeriod x.period.id x.storedAt := by
  obtain ⟨p, hp, rfl⟩ := List.mem_map.1 hc
  simp only [List.mem_filter, decide_eq_true_eq] at hp
  rw [hp.2]

/-- The events that are marked get the invoice, the others are left alone. -/
theorem issued_events (h : Issued cols registry plan now id seen inv x) (w : World) :
    ((billingEngine cols).view w ((billingEngine cols).writesOf seen)).db.events =
      w.db.events.map (EventRow.billed (x.markedRows.map EventRow.key) inv.id) := by
  have hcloses : ∀ c ∈ x.closes, c.isEvent = false := by
    intro c hc
    rw [Issue.closes_cases hc]
    rfl
  rw [h.writes, Engine.view_append, Engine.view_append, view_events_of_none cols _ hcloses,
    Issue.marks, view_bills, view_events_of_none cols w fun c hc => (h.beforeMark_cases c hc).1]

/-- The period is closed. -/
theorem issued_periods (h : Issued cols registry plan now id seen inv x)
    (hclosed : ∃ p ∈ x.closed.db.periods, p.id = x.period.id) (w : World) :
    ((billingEngine cols).view w ((billingEngine cols).writesOf seen)).db.periods =
      w.db.periods.map (Period.close x.period.id x.storedAt) := by
  have hmarks : ∀ c ∈ x.marks inv, c.isPeriod = false := by
    intro c hc
    obtain ⟨key, rfl⟩ := Issue.marks_cases hc
    rfl
  obtain ⟨p, hp, hid⟩ := hclosed
  have hne : (x.closed.db.periods.filter fun p => p.id = x.period.id) ≠ [] :=
    List.ne_nil_of_mem (List.mem_filter.2 ⟨hp, by simpa using hid⟩)
  rw [h.writes, Engine.view_append, Engine.view_append, Issue.closes,
    view_closes cols _ _ hne (fun p hp => by simpa using (List.mem_filter.1 hp).2),
    view_periods_of_none cols _ hmarks,
    view_periods_of_none cols w fun c hc => (h.beforeMark_cases c hc).2]

variable {α : Type} {own : Write → Option α}

variable (h : Issued cols registry plan now id seen inv x)

include h

/-- One kind of change comes from one part of the code only. -/
theorem Issued.filterMap (own : Write → Option α) (hbill : ∀ key i, own (.bill key i) = none)
    (hclose : ∀ i t, own (.closePeriod i t) = none)
    (htouch : ∀ key, own (.touchPeriod key) = none) :
    ((billingEngine cols).writesOf seen).filterMap own =
      ((billingEngine cols).writesOf x.accounts).filterMap own ++
        ((billingEngine cols).writesOf x.posting).filterMap own ++
        (own (.invoice (x.invoiceRow inv))).toList ++
        x.entry.lines.filterMap fun line => own (.lineItem (line.row inv.id)) := by
  have hmarks : (x.marks inv).filterMap own = [] := by
    rw [List.filterMap_eq_nil_iff]
    intro c hc
    obtain ⟨key, rfl⟩ := Issue.marks_cases hc
    exact hbill key _
  have hcloses : x.closes.filterMap own = [] := by
    rw [List.filterMap_eq_nil_iff]
    intro c hc
    rw [Issue.closes_cases hc]
    exact hclose _ _
  rw [h.writes, List.filterMap_append, List.filterMap_append, hmarks, hcloses, Issue.beforeMark]
  cases hinvoice : own (.invoice (x.invoiceRow inv)) <;>
    simp [htouch, hinvoice, List.filterMap_map]

theorem Issued.accounts_none {α : Type} {own : Write → Option α}
    (htouch : ∀ name, own (.touchAccount name) = none)
    (haccount : ∀ row, own (.account row) = none) :
    ((billingEngine cols).writesOf x.accounts).filterMap own = [] := by
  rw [List.filterMap_eq_nil_iff]
  intro c hc
  rcases account_writes h.entry.accounts c hc with ⟨name, rfl⟩ | ⟨row, rfl⟩
  · exact htouch name
  · exact haccount row

theorem Issued.posting_none (htransaction : ∀ row, own (.transaction row) = none)
    (hposting : ∀ row, own (.posting row) = none) :
    ((billingEngine cols).writesOf x.posting).filterMap own = [] := by
  rw [List.filterMap_eq_nil_iff]
  intro c hc
  rcases posting_writes h.posted c hc with ⟨row, rfl⟩ | ⟨row, rfl⟩
  · exact htransaction row
  · exact hposting row

theorem issued_invoices (w : World) :
    ((billingEngine cols).view w ((billingEngine cols).writesOf seen)).db.invoices =
      w.db.invoices ++ [x.invoiceRow inv] := by
  rw [view_invoices, ownInvoices, h.filterMap _ (fun _ _ => rfl) (fun _ _ => rfl) (fun _ => rfl),
    h.accounts_none (fun _ => rfl) (fun _ => rfl), h.posting_none (fun _ => rfl) (fun _ => rfl)]
  simp

theorem issued_lineItems (w : World) :
    ((billingEngine cols).view w ((billingEngine cols).writesOf seen)).db.lineItems =
      w.db.lineItems ++ x.entry.lines.map (InvoiceLine.row inv.id) := by
  rw [view_lineItems, ownLines, h.filterMap _ (fun _ _ => rfl) (fun _ _ => rfl) (fun _ => rfl),
    h.accounts_none (fun _ => rfl) (fun _ => rfl), h.posting_none (fun _ => rfl) (fun _ => rfl)]
  simp

theorem issued_accounts (w : World) :
    ((billingEngine cols).view w ((billingEngine cols).writesOf seen)).db.accounts =
      w.db.accounts ++ ownAccounts ((billingEngine cols).writesOf x.accounts) := by
  rw [view_accounts, ownAccounts, h.filterMap _ (fun _ _ => rfl) (fun _ _ => rfl) (fun _ => rfl),
    h.posting_none (fun _ => rfl) (fun _ => rfl)]
  simp [ownAccounts]

theorem issued_transactions (w : World) :
    ((billingEngine cols).view w ((billingEngine cols).writesOf seen)).db.transactions =
      w.db.transactions ++ ownTransactions ((billingEngine cols).writesOf x.posting) := by
  rw [view_transactions, ownTransactions,
    h.filterMap _ (fun _ _ => rfl) (fun _ _ => rfl) (fun _ => rfl),
    h.accounts_none (fun _ => rfl) (fun _ => rfl)]
  simp [ownTransactions]

theorem issued_postings (w : World) :
    ((billingEngine cols).view w ((billingEngine cols).writesOf seen)).db.postings =
      w.db.postings ++ ownPostings ((billingEngine cols).writesOf x.posting) := by
  rw [view_postings, ownPostings, h.filterMap _ (fun _ _ => rfl) (fun _ _ => rfl) (fun _ => rfl),
    h.accounts_none (fun _ => rfl) (fun _ => rfl)]
  simp [ownPostings]

end Issued

section Marked

/-- The events of an invoice. -/
def Database.eventsOf (db : Database) (invoice : Nat) : List EventRow :=
  db.events.filter fun r => r.invoiceId = some invoice

variable {events : List EventRow} {invoice : Nat} {keys : List (String × String)}
  {lines : List InvoiceLine}

/-- Rows picked by their keys are the rows that had been picked. -/
theorem key_mem_filter (hkeys : (events.map EventRow.key).Nodup) {P : EventRow → Bool}
    {r : EventRow} (hr : r ∈ events) : r.key ∈ (events.filter P).map EventRow.key ↔ P r = true := by
  constructor
  · intro h
    obtain ⟨r', hr', hkey⟩ := List.mem_map.1 h
    obtain ⟨hr', hP⟩ := List.mem_filter.1 hr'
    rwa [← List.inj_on_of_nodup_map hkeys hr' hr hkey]
  · exact fun h => List.mem_map_of_mem (List.mem_filter.2 ⟨hr, h⟩)

theorem filter_key_mem (hkeys : (events.map EventRow.key).Nodup) (P : EventRow → Bool) :
    events.filter (fun r => r.key ∈ (events.filter P).map EventRow.key) = events.filter P := by
  apply List.filter_congr
  intro r hr
  rw [Bool.eq_iff_iff, decide_eq_true_eq]
  exact key_mem_filter hkeys hr

/-- The events of another invoice stay as they are. -/
theorem filter_billed_other (h : ∀ r ∈ events, r.key ∈ keys → r.invoiceId = none) {other : Nat}
    (hne : other ≠ invoice) :
    (events.map (EventRow.billed keys invoice)).filter (fun r => r.invoiceId = some other) =
      events.filter fun r => r.invoiceId = some other := by
  induction events with
  | nil => rfl
  | cons r events ih =>
      rw [List.forall_mem_cons] at h
      rw [List.map_cons, List.filter_cons, List.filter_cons, ih h.2]
      by_cases hkey : r.key ∈ keys
      · simp [EventRow.billed, hkey, h.1 hkey, Ne.symm hne]
      · simp [EventRow.billed, hkey]

/-- The events of a new invoice are those that are marked. -/
theorem filter_billed_new (h : ∀ r ∈ events, r.invoiceId ≠ some invoice) :
    (events.map (EventRow.billed keys invoice)).filter (fun r => r.invoiceId = some invoice) =
      (events.filter fun r => r.key ∈ keys).map fun r => { r with invoiceId := some invoice } := by
  induction events with
  | nil => rfl
  | cons r events ih =>
      rw [List.forall_mem_cons] at h
      rw [List.map_cons, List.filter_cons, List.filter_cons, ih h.2]
      by_cases hkey : r.key ∈ keys
      · simp [EventRow.billed, hkey]
      · simp [EventRow.billed, hkey, h.1]

theorem quantityOf_invoice (rows : List EventRow) (invoice : Nat) (meter : String) :
    quantityOf (rows.map fun r => { r with invoiceId := some invoice }) meter =
      quantityOf rows meter := by
  rw [quantityOf, quantityOf, List.filter_map, List.map_map]
  rfl

/-- The lines of a new invoice. -/
theorem linesOf_append {db db' : Database}
    (hlines : db'.lineItems = db.lineItems ++ lines.map (InvoiceLine.row invoice))
    (hold : ∀ l ∈ db.lineItems, l.invoiceId ≠ invoice) :
    db'.linesOf invoice = lines.map (InvoiceLine.row invoice) := by
  have hnone : db.lineItems.filter (fun l => l.invoiceId = invoice) = [] := by
    rw [List.filter_eq_nil_iff]
    intro l hl
    simpa using hold l hl
  have hall : (lines.map (InvoiceLine.row invoice)).filter (fun l => l.invoiceId = invoice) =
      lines.map (InvoiceLine.row invoice) := by
    rw [List.filter_eq_self]
    refine List.forall_mem_map.2 fun line _ => ?_
    simp [InvoiceLine.row]
  rw [Database.linesOf, hlines, List.filter_append, hnone, hall, List.nil_append]

/-- The lines of another invoice. -/
theorem linesOf_append_ne {db db' : Database} {other : Nat}
    (hlines : db'.lineItems = db.lineItems ++ lines.map (InvoiceLine.row invoice))
    (hne : invoice ≠ other) : db'.linesOf other = db.linesOf other := by
  have hnone :
      (lines.map (InvoiceLine.row invoice)).filter (fun l => l.invoiceId = other) = [] := by
    rw [List.filter_eq_nil_iff]
    refine List.forall_mem_map.2 fun line _ => ?_
    exact fun hsame => hne (of_decide_eq_true hsame)
  rw [Database.linesOf, hlines, List.filter_append, hnone, List.append_nil]
  rfl

end Marked

/-- A `Close` that found the period closed changes nothing. -/
theorem view_of_returned (cols : Columns) {id : Nat} {seen : Trace} {inv : Invoice}
    {period : Period} {row : InvoiceRow} {locked read lines : World}
    (h : Returned id seen inv period row locked read lines) (w : World) :
    (billingEngine cols).view w ((billingEngine cols).writesOf seen) = w := by
  rw [h.seen]
  rcases execLockPeriod_cases id locked.db with hexec | ⟨p, -, -, hexec⟩
  · simp [BillingStmt.exec, hexec]
  · simp [BillingStmt.exec, hexec]
    rfl

section Serial

/-- Sequences only move forward. -/
structure Sequences.Le (s s' : Sequences) : Prop where
  accounts : s.accounts ≤ s'.accounts
  transactions : s.transactions ≤ s'.transactions
  periods : s.periods ≤ s'.periods
  invoices : s.invoices ≤ s'.invoices

theorem Sequences.Le.refl (s : Sequences) : s.Le s :=
  ⟨Nat.le_refl _, Nat.le_refl _, Nat.le_refl _, Nat.le_refl _⟩

theorem Sequences.Le.trans {s₁ s₂ s₃ : Sequences} (h : s₁.Le s₂) (h' : s₂.Le s₃) : s₁.Le s₃ :=
  ⟨Nat.le_trans h.accounts h'.accounts, Nat.le_trans h.transactions h'.transactions,
    Nat.le_trans h.periods h'.periods, Nat.le_trans h.invoices h'.invoices⟩

theorem Sequences.le_draw (s : Sequences) (o : BillingStmt) : s.Le (s.draw o) := by
  cases o <;> constructor <;> simp [Sequences.draw]

/-- Two states that differ by what was drawn. -/
structure SameTables (w w' : World) : Prop where
  eq : w' = { w with db := { w.db with sequences := w'.db.sequences } }
  sequences : w.db.sequences.Le w'.db.sequences

theorem sameTables_of_drawn {w w' : World} (h : (billingEngine cols).Drawn w w') :
    SameTables w w' := by
  induction h with
  | refl => exact ⟨rfl, .refl _⟩
  | @tail w₁ w₂ _ hstep ih =>
      obtain ⟨o, rfl⟩ := hstep
      refine ⟨?_, ih.sequences.trans (Sequences.le_draw _ o)⟩
      rw [ih.eq]
      rfl

namespace SameTables

variable {w w' : World} (h : SameTables w w')
include h

theorem events : w'.db.events = w.db.events := by
  rw [h.eq]

theorem periods : w'.db.periods = w.db.periods := by
  rw [h.eq]

theorem invoices : w'.db.invoices = w.db.invoices := by
  rw [h.eq]

theorem lineItems : w'.db.lineItems = w.db.lineItems := by
  rw [h.eq]

theorem accounts : w'.db.accounts = w.db.accounts := by
  rw [h.eq]

theorem transactions : w'.db.transactions = w.db.transactions := by
  rw [h.eq]

theorem postings : w'.db.postings = w.db.postings := by
  rw [h.eq]

theorem log : w'.log = w.log := by
  rw [h.eq]

end SameTables

/-- A `Close` on its own that issued an invoice: what it gathered and marked, and the tables
it leaves. -/
structure SerialIssue (cols : Columns) (w w' : World) (inv : Invoice) (x : Issue) : Prop where
  period : x.period ∈ w.db.periods
  noInvoice : ∀ r ∈ w.db.invoices, r.periodId ≠ x.period.id
  gathered : x.gatheredRows = w.db.unbilled x.period.tenantId x.period.finish
  fresh : w.db.sequences.invoices ≤ inv.id
  issued : inv.id < w'.db.sequences.invoices
  sequences : w.db.sequences.Le w'.db.sequences
  events : w'.db.events = w.db.events.map (EventRow.billed
    ((w.db.unbilled x.period.tenantId x.period.finish).map EventRow.key) inv.id)
  periods : w'.db.periods = w.db.periods.map (Period.close x.period.id x.storedAt)
  invoices : w'.db.invoices = w.db.invoices ++ [x.invoiceRow inv]
  lineItems : w'.db.lineItems = w.db.lineItems ++ x.entry.lines.map (InvoiceLine.row inv.id)
  accounts : w'.db.accounts =
    w.db.accounts ++ ownAccounts ((billingEngine cols).writesOf x.accounts)
  transactions : w'.db.transactions =
    w.db.transactions ++ ownTransactions ((billingEngine cols).writesOf x.posting)
  postings : w'.db.postings =
    w.db.postings ++ ownPostings ((billingEngine cols).writesOf x.posting)
  log : w'.log = w.log

variable {registry : Registry} {plan : Plan} {now : Time} {id : Nat} {seen : Trace}
  {inv : Invoice} {x : Issue} {w base : World}

/-- What a statement of a `Close` on its own has seen of the tables it has not changed. -/
theorem sight_of_serial {before after : Trace} {o : BillingStmt} {sight : World}
    (h : (billingEngine cols).SerialChain w (before ++ (o, sight) :: after) base) :
    ∃ w', SameTables w w' ∧
      sight = (billingEngine cols).view w' ((billingEngine cols).writesOf before) ∧
      (w'.db.sequences.draw o).Le base.db.sequences := by
  obtain ⟨w', hdrawn, hsight, hlater⟩ := h.sight
  exact ⟨w', sameTables_of_drawn hdrawn, hsight, (sameTables_of_drawn hlater).sequences⟩

theorem unbilled_congr {db db' : Database} (h : db'.events = db.events) (tenant : String)
    (before : Time) : db'.unbilled tenant before = db.unbilled tenant before := by
  rw [Database.unbilled, Database.unbilled, h]

/-- What a `Close` on its own does. -/
theorem serial_issue (h : Issued cols registry plan now id seen inv x)
    (hchain : (billingEngine cols).SerialChain w seen base) :
    SerialIssue cols w ((billingEngine cols).view base ((billingEngine cols).writesOf seen))
      inv x := by
  have hbase := sameTables_of_drawn hchain.drawn
  have hevents : ∀ c ∈ x.beforeMark cols inv, c.isEvent = false :=
    fun c hc => (h.beforeMark_cases c hc).1
  have hperiods : ∀ c ∈ x.beforeMark cols inv ++ x.marks inv, c.isPeriod = false := by
    intro c hc
    rcases List.mem_append.1 hc with hc | hc
    · exact (h.beforeMark_cases c hc).2
    · obtain ⟨key, rfl⟩ := Issue.marks_cases hc
      rfl
  -- the period
  have hlocked : x.locked.db.periods = w.db.periods := by
    obtain ⟨after, hseen⟩ := h.at_locked
    rw [hseen] at hchain
    obtain ⟨w', hw', hsight, -⟩ := sight_of_serial hchain
    rw [hsight]
    exact hw'.periods
  have hclosed : x.closed.db.periods = w.db.periods := by
    obtain ⟨before, hseen, hbefore⟩ := h.at_closed
    rw [hseen] at hchain
    obtain ⟨w', hw', hsight, -⟩ := sight_of_serial hchain
    rw [hsight, hbefore, view_periods_of_none cols w' hperiods]
    exact hw'.periods
  -- the events
  have hgathered : x.gathered.db.events = w.db.events := by
    obtain ⟨before, after, hseen, hbefore⟩ := h.at_gathered
    rw [hseen] at hchain
    obtain ⟨w', hw', hsight, -⟩ := sight_of_serial hchain
    rw [hsight, hbefore]
    exact hw'.events
  have hfound : x.found.db.events = w.db.events := by
    obtain ⟨before, after, hseen, hbefore⟩ := h.at_found
    rw [hseen] at hchain
    obtain ⟨w', hw', hsight, -⟩ := sight_of_serial hchain
    rw [hsight, hbefore, view_events_of_none cols w' hevents]
    exact hw'.events
  have hmarked : x.marked.db.events = w.db.events := by
    obtain ⟨before, after, hseen, hbefore⟩ := h.at_marked
    rw [hseen] at hchain
    obtain ⟨w', hw', hsight, -⟩ := sight_of_serial hchain
    rw [hsight, hbefore, view_events_of_none cols w' hevents]
    exact hw'.events
  have hrows : x.markedRows = w.db.unbilled x.period.tenantId x.period.finish := by
    rw [Issue.markedRows, markedRows, Issue.foundKeys, unbilled_congr hmarked,
      unbilled_congr hfound, List.filter_eq_self]
    intro r hr
    simpa using ⟨r, hr, rfl⟩
  -- the invoice
  have hinserted : (∀ r ∈ w.db.invoices, r.periodId ≠ x.period.id) ∧
      w.db.sequences.invoices ≤ inv.id ∧ inv.id < base.db.sequences.invoices := by
    obtain ⟨before, after, hseen, -⟩ := h.at_inserted
    rw [hseen] at hchain
    obtain ⟨w', hw', hsight, hlater⟩ := sight_of_serial hchain
    have hid : inv.id = w'.db.sequences.invoices := by
      rw [h.ended.invoice, hsight, World.sequences_view]
    refine ⟨?_, ?_, ?_⟩
    · intro r hr
      apply h.ended.noInvoice
      rw [hsight, view_invoices, hw'.invoices]
      exact List.mem_append_left _ hr
    · rw [hid]
      exact hw'.sequences.invoices
    · rw [hid]
      exact hlater.invoices
  refine ⟨hlocked ▸ h.locked, hinserted.1, ?_, hinserted.2.1, ?_, ?_, ?_, ?_, ?_, ?_, ?_, ?_, ?_,
    ?_⟩
  · rw [Issue.gatheredRows, unbilled_congr hgathered]
  · rw [World.sequences_view]
    exact hinserted.2.2
  · rw [World.sequences_view]
    exact hbase.sequences
  · rw [issued_events h, hrows, hbase.events]
  · rw [issued_periods h ⟨x.period, by rw [hclosed, ← hlocked]; exact h.locked, rfl⟩,
      hbase.periods]
  · rw [issued_invoices h, hbase.invoices]
  · rw [issued_lineItems h, hbase.lineItems]
  · rw [issued_accounts h, hbase.accounts]
  · rw [issued_transactions h, hbase.transactions]
  · rw [issued_postings h, hbase.postings]
  · rw [billingView_log, hbase.log]

end Serial

end LedgerLine.Billing
