import LedgerLine.Billing.Store

/-!
# Invoicing

Follows `billing/invoicing/invoicing.go` and `billing/invoicing/accounts.go`.  `Close` runs
in one transaction: it locks the period, sums the unbilled usage, prices it, posts to the
ledger, writes the invoice with its lines, marks the events and closes the period.  On a
period that is closed it returns the invoice that is there.

`EnsurePeriod` is one statement, in a transaction of its own.

A statement that fails makes `Close` roll back (`givesUp_close`).
-/

namespace LedgerLine.Billing

/-- `ReceivableAccount`. -/
def receivableAccount (tenant : String) : String :=
  "receivable:" ++ tenant

/-- `RevenueAccount`. -/
def revenueAccount (meter : String) : String :=
  "revenue:" ++ meter

/-- `TransactionKey`. -/
def transactionKey (tenant label : String) : String :=
  "usage:" ++ tenant ++ ":" ++ label

/-- `invoicing.LineItem`. -/
structure InvoiceLine where
  meter : String
  quantity : Quantity
  amount : Amount
  /-- The line has usage from before the period it is billed in. -/
  late : Bool
deriving DecidableEq, Repr

/-- `invoicing.Invoice`. -/
structure Invoice where
  id : Nat
  periodId : Nat
  tenantId : String
  total : Amount
  ledgerTransactionId : Nat
  issuedAt : Time
  lineItems : List InvoiceLine
deriving DecidableEq, Repr

/-- Why `Close` or `EnsurePeriod` fails. -/
inductive CloseErr
  /-- `ErrPeriodNotFound`. -/
  | notFound
  /-- `ErrPeriodNotFound`: the period has no invoice. -/
  | noInvoice (period : Nat)
  /-- `ErrNothingToBill`. -/
  | nothingToBill
  /-- `ErrInvalidPeriod`: the end is not after the start. -/
  | notAfter (start finish : Time)
  /-- `ErrInvalidPeriod`: tenant and label are required. -/
  | namesRequired
  | scanPeriod (e : StmtErr)
  | readInvoice (e : StmtErr)
  | readLineItems (e : StmtErr)
  | lineItemQuantity (text : String) (e : QuantityErr)
  | readUsage (e : StmtErr)
  | usage (meter total : String) (e : QuantityErr)
  | rate (tenant : String) (e : RateErr)
  | account (e : StoreErr)
  | total (tenant : String) (e : LedgerErr)
  | ledgerTransaction (e : LedgerErr)
  | post (e : StoreErr)
  | insertInvoice (e : StmtErr)
  | insertLineItem (meter : String) (e : StmtErr)
  | markBilled (e : StmtErr)
  | closePeriod (e : StmtErr)
deriving DecidableEq, Repr

/-- What `Close` returns once its transaction has committed. -/
inductive Closed
  | issued (invoice : Invoice)
  /-- `ErrPeriodClosed`, with the invoice that is there. -/
  | periodClosed (invoice : Invoice)
deriving DecidableEq, Repr

/-- How the code of `Close` ends. -/
abbrev CloseEnd := Outcome CloseErr Closed

section Statements

def ensurePeriodStmt (tenant label : String) (start finish : Time) :
    BillingBody (Except StmtErr Period) :=
  Program.perform (BillingStmt.ensurePeriod tenant label start finish)

def lockPeriod (id : Nat) : BillingBody (Except StmtErr (Option Period)) :=
  Program.perform (BillingStmt.lockPeriod id)

def unbilledUsage (tenant : String) (before : Time) :
    BillingBody (Except StmtErr (List (String × String × Time))) :=
  Program.perform (BillingStmt.unbilledUsage tenant before)

def insertInvoice (period : Period) (total : Amount) (ledgerId : Nat) (issuedAt : Time) :
    BillingBody (Except StmtErr Nat) :=
  Program.perform (BillingStmt.insertInvoice period.id period.tenantId total ledgerId issuedAt)

def insertLineItem (invoice : Nat) (line : InvoiceLine) : BillingBody (Except StmtErr Unit) :=
  Program.perform (BillingStmt.insertLineItem invoice line.meter (quantityString line.quantity)
    line.amount)

def findUnbilled (tenant : String) (before : Time) :
    BillingBody (Except StmtErr (List (String × String))) :=
  Program.perform (BillingStmt.findUnbilled tenant before)

def markFound (found : List (String × String)) (invoice : Nat) (tenant : String)
    (before : Time) : BillingBody (Except StmtErr Unit) :=
  Program.perform (BillingStmt.markFound found invoice tenant before)

def closePeriod (id : Nat) (closedAt : Time) : BillingBody (Except StmtErr Unit) :=
  Program.perform (BillingStmt.closePeriod id closedAt)

def selectInvoiceByPeriod (period : Nat) : BillingBody (Except StmtErr (Option InvoiceRow)) :=
  Program.perform (BillingStmt.selectInvoiceByPeriod period)

def selectLineItems (invoice : Nat) :
    BillingBody (Except StmtErr (List (String × String × Amount))) :=
  Program.perform (BillingStmt.selectLineItems invoice)

end Statements

/-- `EnsurePeriod`. -/
def ensurePeriod (tenant label : String) (start finish : Time) :
    BillingBody (Outcome CloseErr Period) :=
  if ¬ start < finish then
    pure (.rollback (.notAfter start finish))
  else if tenant = "" ∨ label = "" then
    pure (.rollback .namesRequired)
  else do
    match ← ensurePeriodStmt tenant label start finish with
    | .error e => pure (.rollback (.scanPeriod e))
    | .ok period => pure (.commit period)

/-- The statement `markBilled`. -/
def markBilled (invoice : Nat) (tenant : String) (before : Time) :
    BillingBody (Except StmtErr Unit) := do
  match ← findUnbilled tenant before with
  | .error e => pure (.error e)
  | .ok found => markFound found invoice tenant before

/-- The loop of `gatherUsage`. -/
def usageFrom (usages : List Usage) (earliest : String → Time) :
    List (String × String × Time) → Except CloseErr (List Usage × (String → Time))
  | [] => .ok (usages, earliest)
  | (meter, total, first) :: rows => do
      let quantity ← (parseQuantity total).mapError (.usage meter total)
      usageFrom (usages ++ [⟨meter, quantity⟩]) (Function.update earliest meter first) rows

/-- `gatherUsage`: the usage of each meter, and its earliest occurrence.  A meter that is
not in the map reads as the zero time. -/
def gatherUsage (period : Period) :
    BillingBody (Except CloseErr (List Usage × (String → Time))) := do
  match ← unbilledUsage period.tenantId period.finish with
  | .error e => pure (.error (.readUsage e))
  | .ok rows => pure (usageFrom [] (fun _ => 0) rows)

/-- What `buildEntry` returns. -/
structure Entry where
  transfers : List Transfer
  total : Amount
  lines : List InvoiceLine
deriving DecidableEq, Repr

/-- The line of a priced item. -/
def lineOf (period : Period) (earliest : String → Time) (item : LineItem) : InvoiceLine :=
  ⟨item.meter, item.quantity, item.amount, earliest item.meter < period.start⟩

/-- The loop of `buildEntry`. -/
def entryFrom (period : Period) (earliest : String → Time) (receivable : AccountID) :
    Entry → List LineItem → BillingBody (Except CloseErr Entry)
  | entry, [] => pure (.ok entry)
  | entry, item :: items =>
      let lines := entry.lines ++ [lineOf period earliest item]
      if item.amount = 0 then
        entryFrom period earliest receivable { entry with lines := lines } items
      else do
        match ← ensureAccount (revenueAccount item.meter) .revenue with
        | .error e => pure (.error (.account e))
        | .ok revenue =>
            match Amount.add entry.total item.amount with
            | .error e => pure (.error (.total period.tenantId e))
            | .ok next =>
                entryFrom period earliest receivable
                  ⟨entry.transfers ++ [⟨receivable, revenue, item.amount⟩], next, lines⟩ items

/-- `buildEntry`. -/
def buildEntry (period : Period) (items : List LineItem) (earliest : String → Time) :
    BillingBody (Except CloseErr Entry) := do
  match ← ensureAccount (receivableAccount period.tenantId) .asset with
  | .error e => pure (.error (.account e))
  | .ok receivable => entryFrom period earliest receivable ⟨[], 0, []⟩ items

/-- The loop of `invoiceForPeriod`. -/
def linesFrom (lines : List InvoiceLine) :
    List (String × String × Amount) → Except CloseErr (List InvoiceLine)
  | [] => .ok lines
  | (meter, text, amount) :: rows => do
      let quantity ← (parseQuantity text).mapError (.lineItemQuantity text)
      linesFrom (lines ++ [⟨meter, quantity, amount, false⟩]) rows

/-- `invoiceForPeriod`. -/
def invoiceForPeriod (id : Nat) : BillingBody (Except CloseErr Invoice) := do
  match ← selectInvoiceByPeriod id with
  | .error e => pure (.error (.readInvoice e))
  | .ok none => pure (.error (.noInvoice id))
  | .ok (some row) => do
      match ← selectLineItems row.id with
      | .error e => pure (.error (.readLineItems e))
      | .ok rows =>
          pure ((linesFrom [] rows).map fun lines =>
            ⟨row.id, row.periodId, row.tenantId, row.total, row.ledgerTransactionId,
              row.issuedAt, lines⟩)

/-- The loop of `Close` over the lines of the invoice. -/
def insertLineItems (invoice : Nat) : List InvoiceLine → BillingBody (Except CloseErr Unit)
  | [] => pure (.ok ())
  | line :: lines => do
      match ← insertLineItem invoice line with
      | .error e => pure (.error (.insertLineItem line.meter e))
      | .ok () => insertLineItems invoice lines

/-- `Close`, once the ledger transaction is posted. -/
def issue (period : Period) (entry : Entry) (ledgerId : Nat) (issuedAt : Time) :
    BillingBody CloseEnd := do
  match ← insertInvoice period entry.total ledgerId issuedAt with
  | .error e => pure (.rollback (.insertInvoice e))
  | .ok invoice => do
      match ← insertLineItems invoice entry.lines with
      | .error e => pure (.rollback e)
      | .ok () => do
          match ← markBilled invoice period.tenantId period.finish with
          | .error e => pure (.rollback (.markBilled e))
          | .ok () => do
              match ← closePeriod period.id issuedAt with
              | .error e => pure (.rollback (.closePeriod e))
              | .ok () =>
                  pure (.commit (.issued ⟨invoice, period.id, period.tenantId, entry.total,
                    ledgerId, issuedAt, entry.lines⟩))

/-- The description of a period's ledger transaction. -/
def usageDescription (period : Period) : String :=
  "usage for " ++ period.tenantId ++ " in " ++ period.label

/-- `Close`, once the entry is built. -/
def postEntry (period : Period) (entry : Entry) (now : Time) : BillingBody CloseEnd :=
  if entry.transfers = [] then
    pure (.rollback .nothingToBill)
  else
    match newTransaction (transactionKey period.tenantId period.label) period.start
        (usageDescription period) entry.transfers with
    | .error e => pure (.rollback (.ledgerTransaction e))
    | .ok transaction => do
        match ← postTx transaction with
        | .error e => pure (.rollback (.post e))
        | .ok (ledgerId, _) => issue period entry ledgerId now

/-- `Close` on a period that is open. -/
def billPeriod (registry : Registry) (plan : Plan) (now : Time) (period : Period) :
    BillingBody CloseEnd := do
  match ← gatherUsage period with
  | .error e => pure (.rollback e)
  | .ok (usages, earliest) =>
      if usages = [] then
        pure (.rollback .nothingToBill)
      else
        match rate usages plan registry with
        | .error e => pure (.rollback (.rate period.tenantId e))
        | .ok items => do
            match ← buildEntry period items earliest with
            | .error e => pure (.rollback e)
            | .ok entry => postEntry period entry now

/-- `Close`; `now` is the clock when the invoice is issued. -/
def close (registry : Registry) (plan : Plan) (now : Time) (id : Nat) :
    BillingBody CloseEnd := do
  match ← lockPeriod id with
  | .error e => pure (.rollback (.scanPeriod e))
  | .ok none => pure (.rollback .notFound)
  | .ok (some period) =>
      if period.state = .closed then do
        match ← invoiceForPeriod period.id with
        | .error e => pure (.rollback e)
        | .ok invoice => pure (.commit (.periodClosed invoice))
      else
        billPeriod registry plan now period

section GivesUp

theorem passesOn_entryFrom (period : Period) (earliest : String → Time) (receivable : AccountID)
    (entry : Entry) (items : List LineItem) :
    PassesOn (entryFrom period earliest receivable entry items) := by
  induction items generalizing entry with
  | nil => trivial
  | cons item items ih =>
      rw [entryFrom]
      split
      · exact ih _
      · apply stopsWith_bind (passesOn_ensureAccount _ _)
        · exact fun e => ⟨_, rfl, _, rfl⟩
        · intro revenue
          show PassesOn
            (match Amount.add entry.total item.amount with | .error e => _ | .ok next => _)
          split
          · trivial
          · exact ih _

theorem passesOn_insertLineItems (invoice : Nat) (lines : List InvoiceLine) :
    PassesOn (insertLineItems invoice lines) := by
  induction lines with
  | nil => trivial
  | cons line lines ih =>
      apply stopsWith_bind (passesOn_perform _)
      · exact fun e => ⟨_, rfl, _, rfl⟩
      · exact fun _ => ih

theorem passesOn_markBilled (invoice : Nat) (tenant : String) (before : Time) :
    PassesOn (markBilled invoice tenant before) := by
  apply stopsWith_bind (passesOn_perform _)
  · exact fun e => ⟨_, rfl, _, rfl⟩
  · exact fun found => passesOn_perform (BillingStmt.markFound found invoice tenant before)

theorem passesOn_invoiceForPeriod (id : Nat) : PassesOn (invoiceForPeriod id) := by
  apply stopsWith_bind (passesOn_perform _)
  · exact fun e => ⟨_, rfl, _, rfl⟩
  · intro found
    cases found with
    | none => trivial
    | some row =>
        apply stopsWith_bind (passesOn_perform _)
        · exact fun e => ⟨_, rfl, _, rfl⟩
        · exact fun _ => trivial

theorem passesOn_buildEntry (period : Period) (items : List LineItem)
    (earliest : String → Time) : PassesOn (buildEntry period items earliest) := by
  apply stopsWith_bind (passesOn_ensureAccount _ _)
  · exact fun e => ⟨_, rfl, _, rfl⟩
  · exact fun receivable => passesOn_entryFrom period earliest receivable _ items

theorem passesOn_gatherUsage (period : Period) : PassesOn (gatherUsage period) := by
  apply stopsWith_bind (passesOn_perform _)
  · exact fun e => ⟨_, rfl, _, rfl⟩
  · exact fun _ => trivial

theorem givesUp_issue (period : Period) (entry : Entry) (ledgerId : Nat) (issuedAt : Time) :
    GivesUp (issue period entry ledgerId issuedAt) := by
  apply stopsWith_bind (passesOn_perform _)
  · exact fun e => ⟨_, rfl, _, rfl⟩
  intro invoice
  apply stopsWith_bind (passesOn_insertLineItems invoice entry.lines)
  · exact fun e => ⟨_, rfl, _, rfl⟩
  intro _
  apply stopsWith_bind (passesOn_markBilled invoice period.tenantId period.finish)
  · exact fun e => ⟨_, rfl, _, rfl⟩
  intro _
  apply stopsWith_bind (passesOn_perform _)
  · exact fun e => ⟨_, rfl, _, rfl⟩
  · exact fun _ => trivial

theorem givesUp_postEntry (period : Period) (entry : Entry) (now : Time) :
    GivesUp (postEntry period entry now) := by
  rw [postEntry]
  split
  · trivial
  split
  · trivial
  · apply stopsWith_bind (passesOn_postTx _)
    · exact fun e => ⟨_, rfl, _, rfl⟩
    · rintro ⟨ledgerId, _⟩
      exact givesUp_issue period entry ledgerId now

theorem givesUp_billPeriod (registry : Registry) (plan : Plan) (now : Time) (period : Period) :
    GivesUp (billPeriod registry plan now period) := by
  apply stopsWith_bind (passesOn_gatherUsage period)
  · exact fun e => ⟨_, rfl, _, rfl⟩
  rintro ⟨usages, earliest⟩
  show GivesUp (if usages = [] then _ else _)
  split
  · trivial
  split
  · trivial
  · rename_i items _
    apply stopsWith_bind (passesOn_buildEntry period items earliest)
    · exact fun e => ⟨_, rfl, _, rfl⟩
    · exact fun entry => givesUp_postEntry period entry now

/-- `Close` rolls back when a statement fails. -/
theorem givesUp_close (registry : Registry) (plan : Plan) (now : Time) (id : Nat) :
    GivesUp (close registry plan now id) := by
  apply stopsWith_bind (passesOn_perform _)
  · exact fun e => ⟨_, rfl, _, rfl⟩
  intro found
  rcases found with _ | period
  · trivial
  show GivesUp (if period.state = .closed then _ else _)
  split
  · apply stopsWith_bind (passesOn_invoiceForPeriod period.id)
    · exact fun e => ⟨_, rfl, _, rfl⟩
    · exact fun _ => trivial
  · exact givesUp_billPeriod registry plan now period

end GivesUp

end LedgerLine.Billing
