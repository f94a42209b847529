import LedgerLine.Lib.Calls
import LedgerLine.Billing.Consumer

/-!
# The statements of the ledger and of invoicing

The SQL of `billing/ledger/store.go` and `billing/invoicing/invoicing.go`, on the database
the consumer works on; `billingEngine` has the statements of all three.

An UPDATE under READ COMMITTED finds its rows in a snapshot, then waits for each row found
and looks at it again.  `markBilled` is the only one for which this makes a difference, and
is split accordingly into `findUnbilled` and `markFound`; every other statement goes through
at once.

`billingNumbering`: identities of accounts, transactions, periods and invoices come from
sequences.
-/

namespace LedgerLine.Billing

/-- A statement of a transaction. -/
inductive BillingStmt
  | consumer (o : ConsumerStmt)
  | ensureAccount (name : String) (kind : AccountKind)
  | insertTransaction (key : String) (occurredAt : Time) (description : String)
  | selectTransactionByKey (key : String)
  | insertPosting (transaction : Nat) (account : AccountID) (amount : Amount)
  | ensurePeriod (tenant label : String) (start finish : Time)
  | lockPeriod (id : Nat)
  | unbilledUsage (tenant : String) (before : Time)
  | insertInvoice (period : Nat) (tenant : String) (total : Amount) (transaction : Nat)
      (issuedAt : Time)
  | insertLineItem (invoice : Nat) (meter quantity : String) (amount : Amount)
  /-- `markBilled`: the rows of its snapshot. -/
  | findUnbilled (tenant : String) (before : Time)
  /-- `markBilled`: the rows found, as they are now. -/
  | markFound (found : List (String × String)) (invoice : Nat) (tenant : String) (before : Time)
  | closePeriod (id : Nat) (closedAt : Time)
  | selectInvoiceByPeriod (period : Nat)
  | selectLineItems (invoice : Nat)

/-- What it is answered. -/
def BillingStmt.Answer : BillingStmt → Type
  | consumer o => o.Answer
  | ensureAccount _ _ => AccountID × AccountKind
  -- no row on a conflict
  | insertTransaction _ _ _ => Option Nat
  | selectTransactionByKey _ => Option Nat
  | insertPosting _ _ _ => Unit
  | ensurePeriod _ _ _ _ => Period
  | lockPeriod _ => Option Period
  -- meter, total and earliest occurrence
  | unbilledUsage _ _ => List (String × String × Time)
  | insertInvoice _ _ _ _ _ => Nat
  | insertLineItem _ _ _ _ => Unit
  | findUnbilled _ _ => List (String × String)
  | markFound _ _ _ _ => Unit
  | closePeriod _ _ => Unit
  | selectInvoiceByPeriod _ => Option InvoiceRow
  | selectLineItems _ => List (String × String × Amount)

/-- Whether an event is a tenant's, not billed, and from before the given time. -/
def EventRow.isUnbilled (tenant : String) (before : Time) (r : EventRow) : Bool :=
  r.tenantId = tenant && r.invoiceId = none && r.occurredAt < before

theorem EventRow.isUnbilled_iff {tenant : String} {before : Time} {r : EventRow} :
    r.isUnbilled tenant before = true ↔
      r.tenantId = tenant ∧ r.invoiceId = none ∧ r.occurredAt < before := by
  simp [isUnbilled, and_assoc]

/-- The rows that `unbilledUsage` sums and `markBilled` marks. -/
def Database.unbilled (db : Database) (tenant : String) (before : Time) : List EventRow :=
  db.events.filter (EventRow.isUnbilled tenant before)

/-- The quantities of one meter, summed. -/
def quantityOf (rows : List EventRow) (meter : String) : Int :=
  ((rows.filter fun r => r.meter = meter).map EventRow.quantity).sum

/-- The earliest occurrence of one meter. -/
def earliestOf (rows : List EventRow) (meter : String) : Time :=
  ((rows.filter fun r => r.meter = meter).map EventRow.occurredAt).min?.getD 0

/-- The meters of some events, in order. -/
def metersOf (cols : Columns) (rows : List EventRow) : List String :=
  (rows.map EventRow.meter).dedup.insertionSort fun a b => cols.collate a b

/-- `GROUP BY meter ORDER BY meter`. -/
def usageRows (cols : Columns) (rows : List EventRow) : List (String × String × Time) :=
  (metersOf cols rows).map fun meter =>
    (meter, numericText (quantityOf rows meter), earliestOf rows meter)

section Exec

variable (cols : Columns)

/-- `ensureAccountSQL`. -/
def execEnsureAccount (name : String) (kind : AccountKind) (db : Database) :
    Except StmtErr (AccountID × AccountKind) × List Write :=
  if cols.text name then
    match db.accounts.find? (fun r => r.name = name) with
    | some row => (.ok (row.id, row.kind), [.touchAccount name])
    | none => (.ok (db.sequences.accounts, kind), [.account ⟨db.sequences.accounts, name, kind⟩])
  else
    (.error .refused, [])

/-- `insertTransaction`: nothing on a conflict. -/
def execInsertTransaction (key : String) (occurredAt : Time) (description : String)
    (db : Database) : Except StmtErr (Option Nat) × List Write :=
  match cols.text key && cols.text description, cols.timestamptz occurredAt with
  | true, some at' =>
      if db.transactions.any (fun r => r.idempotencyKey = key) then
        (.ok none, [])
      else
        (.ok (some db.sequences.transactions),
          [.transaction ⟨db.sequences.transactions, key, at', description⟩])
  | _, _ => (.error .refused, [])

/-- `selectTransactionByKey`. -/
def execSelectTransaction (key : String) (db : Database) :
    Except StmtErr (Option Nat) × List Write :=
  (.ok ((db.transactions.find? fun r => r.idempotencyKey = key).map TransactionRow.id), [])

/-- `insertPosting`, with its foreign keys and its check. -/
def execInsertPosting (row : PostingRow) (db : Database) : Except StmtErr Unit × List Write :=
  if db.transactions.any (fun r => r.id = row.transactionId) &&
      db.accounts.any (fun r => r.id = row.accountId) && row.amount ≠ 0 then
    (.ok (), [.posting row])
  else
    (.error .refused, [])

/-- `ensurePeriod`; the order of the bounds is checked as they are stored. -/
def execEnsurePeriod (tenant label : String) (start finish : Time) (db : Database) :
    Except StmtErr Period × List Write :=
  match cols.text tenant && cols.text label, cols.timestamptz start, cols.timestamptz finish with
  | true, some start', some finish' =>
      if start' < finish' then
        match db.periods.find? (fun p => p.key = (tenant, label)) with
        | some p => (.ok p, [.touchPeriod (tenant, label)])
        | none =>
            let p : Period := ⟨db.sequences.periods, tenant, label, start', finish', .open, none⟩
            (.ok p, [.period p])
      else
        (.error .refused, [])
  | _, _, _ => (.error .refused, [])

/-- `lockPeriod`. -/
def execLockPeriod (id : Nat) (db : Database) : Except StmtErr (Option Period) × List Write :=
  match db.periods.find? (fun p => p.id = id) with
  | some p => (.ok (some p), [.touchPeriod p.key])
  | none => (.ok none, [])

/-- `insertInvoice`, with its foreign keys and the unique period. -/
def execInsertInvoice (period : Nat) (tenant : String) (total : Amount) (transaction : Nat)
    (issuedAt : Time) (db : Database) : Except StmtErr Nat × List Write :=
  match cols.text tenant, cols.timestamptz issuedAt with
  | true, some at' =>
      if db.periods.any (fun p => p.id = period) &&
          db.transactions.any (fun r => r.id = transaction) &&
          !db.invoices.any (fun r => r.periodId = period) then
        (.ok db.sequences.invoices,
          [.invoice ⟨db.sequences.invoices, period, tenant, total, transaction, at'⟩])
      else
        (.error .refused, [])
  | _, _ => (.error .refused, [])

/-- `insertLineItem`, with its foreign key and the unique meter. -/
def execInsertLineItem (invoice : Nat) (meter quantity : String) (amount : Amount)
    (db : Database) : Except StmtErr Unit × List Write :=
  match cols.text meter, cols.numeric quantity with
  | true, some nanos =>
      if db.invoices.any (fun r => r.id = invoice) &&
          !db.lineItems.any (fun r => r.invoiceId = invoice && r.meter = meter) then
        (.ok (), [.lineItem ⟨invoice, meter, nanos, amount⟩])
      else
        (.error .refused, [])
  | _, _ => (.error .refused, [])

/-- The rows `markBilled` changes: those found that still match. -/
def markedRows (found : List (String × String)) (tenant : String) (before : Time)
    (db : Database) : List EventRow :=
  (db.unbilled tenant before).filter fun r => r.key ∈ found

/-- `markBilled`, once the rows are found. -/
def execMarkFound (found : List (String × String)) (invoice : Nat) (tenant : String)
    (before : Time) (db : Database) : Except StmtErr Unit × List Write :=
  (.ok (), (markedRows found tenant before db).map fun r => .bill r.key invoice)

/-- `closePeriod`. -/
def execClosePeriod (id : Nat) (closedAt : Time) (db : Database) :
    Except StmtErr Unit × List Write :=
  match cols.timestamptz closedAt with
  | none => (.error .refused, [])
  | some at' => (.ok (), (db.periods.filter fun p => p.id = id).map fun p => .closePeriod p.id at')

/-- `selectLineItems`. -/
def lineItemRows (invoice : Nat) (db : Database) : List (String × String × Amount) :=
  ((db.lineItems.filter fun r => r.invoiceId = invoice).map fun r =>
    (r.meter, numericText r.quantity, r.amount)).insertionSort fun a b => cols.collate a.1 b.1

/-- The effect of a statement. -/
def BillingStmt.exec : (o : BillingStmt) → World → Except StmtErr o.Answer × List Write
  | consumer o, w => o.exec cols w
  | ensureAccount name kind, w => execEnsureAccount cols name kind w.db
  | insertTransaction key occurredAt description, w =>
      execInsertTransaction cols key occurredAt description w.db
  | selectTransactionByKey key, w => execSelectTransaction key w.db
  | insertPosting transaction account amount, w =>
      execInsertPosting ⟨transaction, account, amount⟩ w.db
  | ensurePeriod tenant label start finish, w =>
      execEnsurePeriod cols tenant label start finish w.db
  | lockPeriod id, w => execLockPeriod id w.db
  | unbilledUsage tenant before, w => (.ok (usageRows cols (w.db.unbilled tenant before)), [])
  | insertInvoice period tenant total transaction issuedAt, w =>
      execInsertInvoice cols period tenant total transaction issuedAt w.db
  | insertLineItem invoice meter quantity amount, w =>
      execInsertLineItem cols invoice meter quantity amount w.db
  | findUnbilled tenant before, w =>
      (.ok ((w.db.unbilled tenant before).map EventRow.key), [])
  | markFound found invoice tenant before, w => execMarkFound found invoice tenant before w.db
  | closePeriod id closedAt, w => execClosePeriod cols id closedAt w.db
  | selectInvoiceByPeriod period, w =>
      (.ok (w.db.invoices.find? fun r => r.periodId = period), [])
  | selectLineItems invoice, w => (.ok (lineItemRows cols invoice w.db), [])

/-- The rows a statement has to own. -/
def BillingStmt.waits : BillingStmt → World → List Lock
  | consumer o, _ => o.waits cols
  | ensureAccount name _, _ => [.account name]
  | insertTransaction key _ _, _ => [.transaction key]
  | ensurePeriod tenant label _ _, _ => [.period (tenant, label)]
  | lockPeriod id, w => (w.db.periods.filter fun p => p.id = id).map fun p => .period p.key
  | insertInvoice period _ _ _ _, _ => [.invoice period]
  | markFound found _ _ _, _ => found.map .event
  | closePeriod id _, w => (w.db.periods.filter fun p => p.id = id).map fun p => .period p.key
  | _, _ => []

end Exec

/-- What a statement takes from the sequences: conflicts and failures do not give it
back. -/
def Sequences.draw (s : Sequences) : BillingStmt → Sequences
  | .ensureAccount _ _ => { s with accounts := s.accounts + 1 }
  | .insertTransaction _ _ _ => { s with transactions := s.transactions + 1 }
  | .ensurePeriod _ _ _ _ => { s with periods := s.periods + 1 }
  | .insertInvoice _ _ _ _ _ => { s with invoices := s.invoices + 1 }
  | _ => s

/-- The database after a statement has taken what it takes from the sequences. -/
def World.draw (w : World) (o : BillingStmt) : World :=
  { w with db := { w.db with sequences := w.db.sequences.draw o } }

section Inversion

variable (cols : Columns)

theorem execEnsureAccount_cases (name : String) (kind : AccountKind) (db : Database) :
    execEnsureAccount cols name kind db = (.error .refused, []) ∨
      (∃ row ∈ db.accounts, row.name = name ∧
        execEnsureAccount cols name kind db = (.ok (row.id, row.kind), [.touchAccount name])) ∨
      (∀ row ∈ db.accounts, row.name ≠ name) ∧
        execEnsureAccount cols name kind db =
          (.ok (db.sequences.accounts, kind), [.account ⟨db.sequences.accounts, name, kind⟩]) := by
  rw [execEnsureAccount]
  split
  · split
    · rename_i row hfind
      exact .inr (.inl ⟨row, List.mem_of_find?_eq_some hfind, by simpa using List.find?_some hfind,
        rfl⟩)
    · rename_i hfind
      exact .inr (.inr ⟨by simpa using hfind, rfl⟩)
  · exact .inl rfl

theorem execInsertTransaction_cases (key : String) (occurredAt : Time) (description : String)
    (db : Database) :
    execInsertTransaction cols key occurredAt description db = (.error .refused, []) ∨
      ((∃ row ∈ db.transactions, row.idempotencyKey = key) ∧
        execInsertTransaction cols key occurredAt description db = (.ok none, [])) ∨
      (∀ row ∈ db.transactions, row.idempotencyKey ≠ key) ∧
        ∃ at', execInsertTransaction cols key occurredAt description db =
          (.ok (some db.sequences.transactions),
            [.transaction ⟨db.sequences.transactions, key, at', description⟩]) := by
  rw [execInsertTransaction]
  split
  · rename_i at' _ _
    split
    · rename_i hany
      exact .inr (.inl ⟨by simpa using hany, rfl⟩)
    · rename_i hany
      exact .inr (.inr ⟨by simpa using hany, at', rfl⟩)
  · exact .inl rfl

theorem execInsertPosting_cases (row : PostingRow) (db : Database) :
    execInsertPosting row db = (.error .refused, []) ∨
      execInsertPosting row db = (.ok (), [.posting row]) := by
  rw [execInsertPosting]
  split
  · exact .inr rfl
  · exact .inl rfl

theorem execEnsurePeriod_cases (tenant label : String) (start finish : Time) (db : Database) :
    execEnsurePeriod cols tenant label start finish db = (.error .refused, []) ∨
      (∃ p ∈ db.periods, p.key = (tenant, label) ∧
        execEnsurePeriod cols tenant label start finish db =
          (.ok p, [.touchPeriod (tenant, label)])) ∨
      (∀ p ∈ db.periods, p.key ≠ (tenant, label)) ∧ ∃ start' finish',
        execEnsurePeriod cols tenant label start finish db =
          (.ok ⟨db.sequences.periods, tenant, label, start', finish', .open, none⟩,
            [.period ⟨db.sequences.periods, tenant, label, start', finish', .open, none⟩]) := by
  rw [execEnsurePeriod]
  split
  · rename_i start' finish' _ _ _
    split
    · split
      · rename_i p hfind
        exact .inr (.inl ⟨p, List.mem_of_find?_eq_some hfind,
          by simpa using List.find?_some hfind, rfl⟩)
      · rename_i hfind
        exact .inr (.inr ⟨by simpa using hfind, start', finish', rfl⟩)
    · exact .inl rfl
  · exact .inl rfl

theorem execInsertInvoice_cases (period : Nat) (tenant : String) (total : Amount)
    (transaction : Nat) (issuedAt : Time) (db : Database) :
    execInsertInvoice cols period tenant total transaction issuedAt db = (.error .refused, []) ∨
      (∀ r ∈ db.invoices, r.periodId ≠ period) ∧ ∃ at', cols.timestamptz issuedAt = some at' ∧
        execInsertInvoice cols period tenant total transaction issuedAt db =
          (.ok db.sequences.invoices,
            [.invoice ⟨db.sequences.invoices, period, tenant, total, transaction, at'⟩]) := by
  rw [execInsertInvoice]
  split
  · rename_i at' _ hat
    split
    · rename_i hok
      exact .inr ⟨by simp at hok; exact hok.2, at', hat, rfl⟩
    · exact .inl rfl
  · exact .inl rfl

theorem execInsertLineItem_cases (invoice : Nat) (meter quantity : String) (amount : Amount)
    (db : Database) :
    execInsertLineItem cols invoice meter quantity amount db = (.error .refused, []) ∨
      ∃ nanos, cols.numeric quantity = some nanos ∧
        execInsertLineItem cols invoice meter quantity amount db =
          (.ok (), [.lineItem ⟨invoice, meter, nanos, amount⟩]) := by
  rw [execInsertLineItem]
  split
  · rename_i nanos _ hnanos
    split
    · exact .inr ⟨nanos, hnanos, rfl⟩
    · exact .inl rfl
  · exact .inl rfl

theorem execLockPeriod_cases (id : Nat) (db : Database) :
    execLockPeriod id db = (.ok none, []) ∨
      ∃ p ∈ db.periods, p.id = id ∧
        execLockPeriod id db = (.ok (some p), [.touchPeriod p.key]) := by
  rw [execLockPeriod]
  split
  · rename_i p hfind
    exact .inr ⟨p, List.mem_of_find?_eq_some hfind, by simpa using List.find?_some hfind, rfl⟩
  · exact .inl rfl

theorem execClosePeriod_cases (id : Nat) (closedAt : Time) (db : Database) :
    execClosePeriod cols id closedAt db = (.error .refused, []) ∨
      ∃ at', cols.timestamptz closedAt = some at' ∧
        execClosePeriod cols id closedAt db =
          (.ok (), (db.periods.filter fun p => p.id = id).map fun p => .closePeriod p.id at') := by
  rw [execClosePeriod]
  split
  · exact .inl rfl
  · rename_i at' hat
    exact .inr ⟨at', hat, rfl⟩

end Inversion

/-- What the consumer changes. -/
def Write.isConsumer : Write → Bool
  | .event _ => true
  | .touchEvent _ => true
  | .offset _ _ => true
  | .deadLetter _ => true
  | _ => false

theorem isConsumer_of_exec {cols : Columns} {o : ConsumerStmt} {w : World} {c : Write}
    (hc : c ∈ (o.exec cols w).2) : c.isConsumer = true := by
  cases o with
  | readLog offset =>
      simp only [ConsumerStmt.exec] at hc
      split at hc <;> cases hc
  | insertEvent e =>
      simp only [ConsumerStmt.exec] at hc
      split at hc
      · cases hc
      · split at hc <;> cases List.mem_singleton.1 hc <;> rfl
  | insertDeadLetter row =>
      simp only [ConsumerStmt.exec, letterWrites] at hc
      split at hc
      · cases hc
      · cases List.mem_singleton.1 hc
        rfl
  | commitOffset consumer next =>
      cases List.mem_singleton.1 hc
      rfl

/-- What the changes of a statement can be, given what it sees. -/
inductive StatementEffect (cols : Columns) (w : World) : BillingStmt → List Write → Prop
  | nothing {o : BillingStmt} : StatementEffect cols w o []
  | consumer (o : ConsumerStmt) : StatementEffect cols w (.consumer o) (o.exec cols w).2
  | touchAccount (name : String) (kind : AccountKind) :
      StatementEffect cols w (.ensureAccount name kind) [.touchAccount name]
  | account (name : String) (kind : AccountKind) (hnew : ∀ a ∈ w.db.accounts, a.name ≠ name) :
      StatementEffect cols w (.ensureAccount name kind)
        [.account ⟨w.db.sequences.accounts, name, kind⟩]
  | transaction (key : String) (occurredAt : Time) (description : String) (storedAt : Time)
      (hnew : ∀ t ∈ w.db.transactions, t.idempotencyKey ≠ key) :
      StatementEffect cols w (.insertTransaction key occurredAt description)
        [.transaction ⟨w.db.sequences.transactions, key, storedAt, description⟩]
  | posting (row : PostingRow) (htransaction : ∃ t ∈ w.db.transactions, t.id = row.transactionId)
      (haccount : ∃ a ∈ w.db.accounts, a.id = row.accountId) :
      StatementEffect cols w (.insertPosting row.transactionId row.accountId row.amount)
        [.posting row]
  | touchPeriod (tenant label : String) (start finish : Time) :
      StatementEffect cols w (.ensurePeriod tenant label start finish)
        [.touchPeriod (tenant, label)]
  | period (tenant label : String) (start finish start' finish' : Time)
      (hnew : ∀ p ∈ w.db.periods, p.key ≠ (tenant, label)) :
      StatementEffect cols w (.ensurePeriod tenant label start finish)
        [.period ⟨w.db.sequences.periods, tenant, label, start', finish', .open, none⟩]
  | lockPeriod (p : Period) (hp : p ∈ w.db.periods) :
      StatementEffect cols w (.lockPeriod p.id) [.touchPeriod p.key]
  | invoice (period : Nat) (tenant : String) (total : Amount) (transaction : Nat)
      (issuedAt storedAt : Time) (hperiod : ∃ p ∈ w.db.periods, p.id = period)
      (htransaction : ∃ t ∈ w.db.transactions, t.id = transaction)
      (hnew : ∀ r ∈ w.db.invoices, r.periodId ≠ period) :
      StatementEffect cols w (.insertInvoice period tenant total transaction issuedAt)
        [.invoice ⟨w.db.sequences.invoices, period, tenant, total, transaction, storedAt⟩]
  | lineItem (invoice : Nat) (meter quantity : String) (amount : Amount) (nanos : Int)
      (hinvoice : ∃ r ∈ w.db.invoices, r.id = invoice) :
      StatementEffect cols w (.insertLineItem invoice meter quantity amount)
        [.lineItem ⟨invoice, meter, nanos, amount⟩]
  | bill (found : List (String × String)) (invoice : Nat) (tenant : String) (before : Time) :
      StatementEffect cols w (.markFound found invoice tenant before)
        ((markedRows found tenant before w.db).map fun r => .bill r.key invoice)
  | closePeriod (id : Nat) (closedAt storedAt : Time) :
      StatementEffect cols w (.closePeriod id closedAt)
        ((w.db.periods.filter fun p => p.id = id).map fun p => .closePeriod p.id storedAt)

theorem effect_of_exec (cols : Columns) (o : BillingStmt) (w : World) :
    StatementEffect cols w o (o.exec cols w).2 := by
  cases o with
  | consumer o => exact .consumer o
  | ensureAccount name kind =>
      simp only [BillingStmt.exec]
      rcases execEnsureAccount_cases cols name kind w.db with
        h | ⟨row, -, -, h⟩ | ⟨hnew, h⟩ <;> rw [h]
      · exact .nothing
      · exact .touchAccount name kind
      · exact .account name kind hnew
  | insertTransaction key occurredAt description =>
      simp only [BillingStmt.exec]
      rcases execInsertTransaction_cases cols key occurredAt description w.db with
        h | ⟨-, h⟩ | ⟨hnew, storedAt, h⟩ <;> rw [h]
      · exact .nothing
      · exact .nothing
      · exact .transaction key occurredAt description storedAt hnew
  | insertPosting transaction account amount =>
      simp only [BillingStmt.exec, execInsertPosting]
      split
      · rename_i hok
        simp only [Bool.and_eq_true, List.any_eq_true, decide_eq_true_eq] at hok
        exact .posting ⟨transaction, account, amount⟩ hok.1.1 hok.1.2
      · exact .nothing
  | ensurePeriod tenant label start finish =>
      simp only [BillingStmt.exec]
      rcases execEnsurePeriod_cases cols tenant label start finish w.db with
        h | ⟨p, -, -, h⟩ | ⟨hnew, start', finish', h⟩ <;> rw [h]
      · exact .nothing
      · exact .touchPeriod tenant label start finish
      · exact .period tenant label start finish start' finish' hnew
  | lockPeriod id =>
      simp only [BillingStmt.exec]
      rcases execLockPeriod_cases id w.db with h | ⟨p, hp, rfl, h⟩ <;> rw [h]
      · exact .nothing
      · exact .lockPeriod p hp
  | insertInvoice period tenant total transaction issuedAt =>
      simp only [BillingStmt.exec, execInsertInvoice]
      split
      · rename_i storedAt _ _
        split
        · rename_i hok
          simp only [Bool.and_eq_true, List.any_eq_true, decide_eq_true_eq, Bool.not_eq_true',
            List.any_eq_false] at hok
          exact .invoice period tenant total transaction issuedAt storedAt hok.1.1 hok.1.2 hok.2
        · exact .nothing
      · exact .nothing
  | insertLineItem invoice meter quantity amount =>
      simp only [BillingStmt.exec, execInsertLineItem]
      split
      · rename_i nanos _ _
        split
        · rename_i hok
          simp only [Bool.and_eq_true, List.any_eq_true, decide_eq_true_eq] at hok
          exact .lineItem invoice meter quantity amount nanos hok.1
        · exact .nothing
      · exact .nothing
  | markFound found invoice tenant before =>
      exact .bill found invoice tenant before
  | closePeriod id closedAt =>
      simp only [BillingStmt.exec]
      rcases execClosePeriod_cases cols id closedAt w.db with h | ⟨storedAt, -, h⟩ <;> rw [h]
      · exact .nothing
      · exact .closePeriod id closedAt storedAt
  | _ => exact .nothing

/-- A statement owns every row it changes. -/
theorem BillingStmt.lock_mem_waits (cols : Columns) (o : BillingStmt) (w : World) (c : Write)
    (l : Lock) (hc : c ∈ (o.exec cols w).2) (hl : c.lock = some l) : l ∈ o.waits cols w := by
  have heffect := effect_of_exec cols o w
  generalize (o.exec cols w).2 = ws at heffect hc
  cases heffect with
  | nothing => cases hc
  | consumer o =>
      exact (consumerEngine cols).lock_mem_waits o w c l hc hl
  | touchAccount | account | transaction | touchPeriod | period | invoice =>
      cases List.mem_singleton.1 hc
      cases hl
      exact List.mem_singleton.2 rfl
  | posting | lineItem =>
      cases List.mem_singleton.1 hc
      cases hl
  | lockPeriod p hp =>
      cases List.mem_singleton.1 hc
      cases hl
      exact List.mem_map.2 ⟨p, by simp [hp], rfl⟩
  | bill found invoice tenant before =>
      obtain ⟨r, hr, rfl⟩ := List.mem_map.1 hc
      cases hl
      have hfound : r.key ∈ found := by
        simpa using (List.mem_filter.1 hr).2
      exact List.mem_map.2 ⟨r.key, hfound, rfl⟩
  | closePeriod =>
      obtain ⟨p, -, rfl⟩ := List.mem_map.1 hc
      cases hl

/-- The database as the consumer, the ledger and invoicing use it. -/
def billingEngine (cols : Columns) :
    Engine BillingStmt BillingStmt.Answer StmtErr World Write Lock where
  exec := BillingStmt.exec cols
  draw := fun o w => w.draw o
  apply := World.apply
  lock := Write.lock
  waits := BillingStmt.waits cols
  lock_mem_waits := BillingStmt.lock_mem_waits cols

/-- Statements with what they saw. -/
abbrev Trace := List (BillingStmt × World)

@[simp] theorem billingEngine_exec (cols : Columns) (o : BillingStmt) (w : World) :
    (billingEngine cols).exec o w = o.exec cols w := by
  rfl

@[simp] theorem billingEngine_draw (cols : Columns) (o : BillingStmt) (w : World) :
    (billingEngine cols).draw o w = w.draw o := by
  rfl

@[simp] theorem billingEngine_lock (cols : Columns) (c : Write) :
    (billingEngine cols).lock c = c.lock := by
  rfl

/-- Identities. -/
inductive Ident
  | account (id : AccountID)
  | transaction (id : Nat)
  | period (id : Nat)
  | invoice (id : Nat)
deriving DecidableEq, Repr

/-- The identity a change uses for the first time. -/
def Write.ident : Write → Option Ident
  | .account row => some (.account row.id)
  | .transaction row => some (.transaction row.id)
  | .period row => some (.period row.id)
  | .invoice row => some (.invoice row.id)
  | _ => none

/-- The identities handed out so far. -/
def Sequences.issued (s : Sequences) : Ident → Prop
  | .account id => id < s.accounts
  | .transaction id => id < s.transactions
  | .period id => id < s.periods
  | .invoice id => id < s.invoices

theorem Sequences.issued_draw {s : Sequences} {i : Ident} (o : BillingStmt)
    (h : s.issued i) : (s.draw o).issued i := by
  cases o <;> cases i <;>
    first | exact h | exact Nat.lt_succ_of_lt h | exact Int.lt_add_one_of_le (Int.le_of_lt h)

theorem World.sequences_apply (w : World) (c : Write) :
    (w.apply c).db.sequences = w.db.sequences := by
  cases c <;> rfl

theorem World.sequences_view (cols : Columns) (w : World) (ws : List Write) :
    ((billingEngine cols).view w ws).db.sequences = w.db.sequences := by
  induction ws generalizing w with
  | nil => rfl
  | cons c ws ih =>
      exact (ih (w.apply c)).trans (w.sequences_apply c)

/-- A table that changes only add rows to. -/
theorem view_table {α : Type} (cols : Columns) {table : Database → List α} {own : Write → Option α}
    (h : ∀ db c, table (db.apply c) = table db ++ (own c).toList) (w : World) (ws : List Write) :
    table ((billingEngine cols).view w ws).db = table w.db ++ ws.filterMap own := by
  induction ws generalizing w with
  | nil => simp
  | cons c ws ih =>
      have happly : table (w.apply c).db = table w.db ++ (own c).toList := h w.db c
      have hview : (billingEngine cols).view w (c :: ws) =
          (billingEngine cols).view (w.apply c) ws := rfl
      rw [hview, ih, happly]
      cases hown : own c <;> simp [hown]

/-- The new identity in the changes of a statement, if there is one, is the next of its
sequence. -/
theorem BillingStmt.idents_exec (cols : Columns) (o : BillingStmt) (w : World) :
    (o.exec cols w).2.filterMap Write.ident = [] ∨
      ∃ i, (o.exec cols w).2.filterMap Write.ident = [i] ∧ ¬ w.db.sequences.issued i ∧
        (w.db.sequences.draw o).issued i := by
  have heffect := effect_of_exec cols o w
  generalize (o.exec cols w).2 = ws at heffect ⊢
  cases heffect with
  | consumer o =>
      refine .inl (List.filterMap_eq_nil_iff.2 fun c hc => ?_)
      have hconsumer := isConsumer_of_exec hc
      cases c <;> first | rfl | cases hconsumer
  | account =>
      exact .inr ⟨_, rfl, Int.lt_irrefl _, Int.lt_succ _⟩
  | transaction | period | invoice =>
      exact .inr ⟨_, rfl, Nat.lt_irrefl _, Nat.lt_succ_self _⟩
  | bill | closePeriod =>
      exact .inl (by simp [Write.ident])
  | _ => exact .inl rfl

/-- The identities of the billing database. -/
def billingNumbering (cols : Columns) : (billingEngine cols).Numbering Ident where
  ident := Write.ident
  issued := fun w => w.db.sequences.issued
  fresh := by
    intro o w c i hc hident hissued
    have hmem : i ∈ (o.exec cols w).2.filterMap Write.ident := List.mem_filterMap.2 ⟨c, hc, hident⟩
    rcases BillingStmt.idents_exec cols o w with h | ⟨i', h, hnew, -⟩ <;> rw [h] at hmem
    · cases hmem
    · cases List.mem_singleton.1 hmem
      exact hnew hissued
  drawn := by
    intro o w ws c i hc hident
    have hmem : i ∈ (o.exec cols ((billingEngine cols).view w ws)).2.filterMap Write.ident :=
      List.mem_filterMap.2 ⟨c, hc, hident⟩
    rcases BillingStmt.idents_exec cols o ((billingEngine cols).view w ws) with
      h | ⟨i', h, -, hdrawn⟩ <;> rw [h] at hmem
    · cases hmem
    · cases List.mem_singleton.1 hmem
      rw [World.sequences_view] at hdrawn
      exact hdrawn
  once := by
    intro o w
    change ((o.exec cols w).2.filterMap Write.ident).Nodup
    rcases BillingStmt.idents_exec cols o w with h | ⟨i, h, -, -⟩ <;> rw [h]
    · exact List.nodup_nil
    · exact List.nodup_singleton i
  draw_mono := fun o _ _ => Sequences.issued_draw o
  apply_iff := by
    intro w c i
    show (w.apply c).db.sequences.issued i ↔ _
    rw [World.sequences_apply]

end LedgerLine.Billing
