import LedgerLine.Lib.Transaction
import LedgerLine.Lib.BigEndian
import LedgerLine.Billing.Pricing

/-!
# The billing database

The tables of `migrations/`, with the columns the code reads or writes, and the changes
that its statements make to them.  A NUMERIC(38, 9) is an integer count of nano-units.

What the database does when it takes a text or a time into a column is a parameter
(`Columns`).  Surrogate keys of tables nobody refers to are left out, and so are
`created_at` and `updated_at`.

`World` is what billing works on: the broker's log, which the consumer reads, the
database, and a record of how far each consumer has ever committed.
-/

namespace LedgerLine.Billing

/-- `event.UsageEvent`, as decoded from a log record. -/
structure UsageEvent where
  tenantId : String
  meter : String
  quantity : String
  occurredAt : Time
  receivedAt : Time
  idempotencyKey : String
  /-- `none` is a nil slice. -/
  fingerprint : Option Bytes
deriving DecidableEq, Repr

/-- What `Decode` makes of a record. -/
abbrev Decoder := Bytes → Except String UsageEvent

/-- The columns of the unique constraint on `events`. -/
def UsageEvent.key (e : UsageEvent) : String × String :=
  (e.tenantId, e.idempotencyKey)

/-- A row of `events`. -/
structure EventRow where
  tenantId : String
  meter : String
  quantity : Int
  occurredAt : Time
  receivedAt : Time
  idempotencyKey : String
  fingerprint : Option Bytes
  invoiceId : Option Nat
deriving DecidableEq, Repr

/-- `events_tenant_idempotency_key_unique`. -/
def EventRow.key (r : EventRow) : String × String :=
  (r.tenantId, r.idempotencyKey)

/-- Keys that compare equal are equal. -/
instance lawfulBEq_key : LawfulBEq (String × String) :=
  inferInstance

/-- `reason` in `dead_letters`. -/
inductive Reason
  /-- `ReasonUndecodable`. -/
  | undecodable
  /-- `ReasonKeyReuse`. -/
  | keyReuse
deriving DecidableEq, Repr

/-- A row of `dead_letters`. -/
structure DeadLetterRow where
  consumer : String
  logOffset : Nat
  reason : Reason
  detail : String
  tenantId : Option String
  idempotencyKey : Option String
  record : Bytes
deriving DecidableEq, Repr

/-- `dead_letters_consumer_offset_unique`. -/
def DeadLetterRow.key (r : DeadLetterRow) : String × Nat :=
  (r.consumer, r.logOffset)

/-- A row of `ledger_accounts`. -/
structure AccountRow where
  id : AccountID
  name : String
  kind : AccountKind
deriving DecidableEq, Repr

/-- A row of `ledger_transactions`. -/
structure TransactionRow where
  id : Nat
  idempotencyKey : String
  occurredAt : Time
  description : String
deriving DecidableEq, Repr

/-- A row of `ledger_postings`. -/
structure PostingRow where
  transactionId : Nat
  accountId : AccountID
  amount : Amount
deriving DecidableEq, Repr

/-- `invoicing.State`. -/
inductive State
  | open
  | closed
deriving DecidableEq, Repr

/-- A row of `billing_periods`, which is also `invoicing.Period`. -/
structure Period where
  id : Nat
  tenantId : String
  label : String
  /-- `starts_at`; the period is half-open. -/
  start : Time
  /-- `ends_at`. -/
  finish : Time
  state : State
  closedAt : Option Time
deriving DecidableEq, Repr

/-- A row of `invoices`. -/
structure InvoiceRow where
  id : Nat
  periodId : Nat
  tenantId : String
  total : Amount
  ledgerTransactionId : Nat
  issuedAt : Time
deriving DecidableEq, Repr

/-- A row of `invoice_line_items`. -/
structure LineItemRow where
  invoiceId : Nat
  meter : String
  quantity : Int
  amount : Amount
deriving DecidableEq, Repr

/-- The next identities. -/
structure Sequences where
  accounts : Nat
  transactions : Nat
  periods : Nat
  invoices : Nat
deriving DecidableEq, Repr

/-- The tables. -/
structure Database where
  events : List EventRow
  offsets : String → Option Nat
  deadLetters : List DeadLetterRow
  accounts : List AccountRow
  transactions : List TransactionRow
  postings : List PostingRow
  periods : List Period
  invoices : List InvoiceRow
  lineItems : List LineItemRow
  sequences : Sequences

/-- A database right after the migrations. -/
def Database.empty : Database :=
  ⟨[], fun _ => none, [], [], [], [], [], [], [], ⟨1, 1, 1, 1⟩⟩

/-- The line items of an invoice. -/
def Database.linesOf (db : Database) (invoice : Nat) : List LineItemRow :=
  db.lineItems.filter fun l => l.invoiceId = invoice

/-- What they sum up to. -/
def Database.lineTotal (db : Database) (invoice : Nat) : Int :=
  ((db.linesOf invoice).map fun l => l.amount.toInt).sum

/-- The log, the database, and the highest offset each consumer has committed. -/
structure World where
  log : List Bytes
  db : Database
  reached : String → Nat

/-- What columns make of the values they are given; `none` if the database refuses one. -/
structure Columns where
  /-- Whether a string can be stored as TEXT. -/
  text : String → Bool
  /-- A text cast to NUMERIC(38, 9). -/
  numeric : String → Option Int
  /-- A time stored in a TIMESTAMPTZ. -/
  timestamptz : Time → Option Time
  /-- Whether `ORDER BY` may put the first text before the second: the collation of the
  database. -/
  collate : String → String → Bool
  /-- The code's own quantities are plain decimals with nine places. -/
  numeric_quantityString : ∀ q : Quantity, 0 ≤ q.toInt →
    numeric (quantityString q) = some q.toInt
  collate_total : ∀ a b, collate a b = true ∨ collate b a = true
  collate_trans : ∀ a b c, collate a b = true → collate b c = true → collate a c = true

/-- The digits of a plain decimal with nine places, further ones cut off. -/
def nanoDigits (integer fraction : List Char) : List Char :=
  integer ++ (fraction ++ List.replicate 9 '0').take 9

/-- Whether the tenth decimal place rounds up. -/
def roundsUp (fraction : List Char) : Bool :=
  match fraction[9]? with
  | none => false
  | some c => '5' ≤ c

/-- The cast of a plain decimal to NUMERIC(38, 9): it is rounded to nine places and refused
if more than 38 digits remain. -/
def plainNumeric (s : String) : Option Int :=
  match cutPoint s.toList with
  | (integer, fraction, _) =>
      if integer ≠ [] ∧ (integer ++ fraction).all Char.isDigit then
        let nanos := Nat.ofDigitChars 10 (nanoDigits integer fraction) 0 +
          if roundsUp fraction then 1 else 0
        if nanos < 10 ^ 38 then some (nanos : Int) else none
      else
        none

/-- The times a TIMESTAMPTZ can hold: from 4713 BC up to the year 294276. -/
def timestampMin : Time := (63082281600000000 - 211813488000000000) * 1000

/-- The first time that is too late. -/
def timestampEnd : Time := (63082281600000000 + 9223371331200000000) * 1000

/-- A time as the driver sends it, in whole microseconds. -/
def microseconds (t : Time) : Option Time :=
  if timestampMin ≤ t ∧ t < timestampEnd then some (t / 1000 * 1000) else none

/-- A string without U+0000. -/
def storableText (s : String) : Bool :=
  s.toList.all fun c => c ≠ Char.ofNat 0

/-- The cast of a plain decimal with at most nine places that is not too large. -/
theorem plainNumeric_eq {s : String} {integer fraction : List Char} {point : Bool}
    (hcut : cutPoint s.toList = (integer, fraction, point)) (hne : integer ≠ [])
    (hdigits : (integer ++ fraction).all Char.isDigit = true) (hplaces : fraction.length ≤ 9)
    (hlarge : Nat.ofDigitChars 10 (nanoDigits integer fraction) 0 < 10 ^ 38) :
    plainNumeric s = some (Nat.ofDigitChars 10 (nanoDigits integer fraction) 0 : Int) := by
  have hround : roundsUp fraction = false := by
    rw [roundsUp, List.getElem?_eq_none hplaces]
  simp only [plainNumeric, hcut, hround, hdigits, hne, hlarge, ne_eq, not_false_eq_true,
    and_self, if_true, Bool.false_eq_true, if_false, Nat.add_zero]

theorem plainNumeric_quantityString {q : Quantity} (h : 0 ≤ q.toInt) :
    plainNumeric (quantityString q) = some q.toInt := by
  have hlen := length_zeroPadded (by decide) (Nat.mod_lt q.toInt.natAbs (by decide : 0 < 10 ^ 9))
  have hcut : cutPoint (quantityString q).toList = (Nat.toDigits 10 (q.toInt.natAbs / 10 ^ 9),
      zeroPadded 9 (q.toInt.natAbs % 10 ^ 9), true) := by
    rw [quantityString_of_nonneg h, numericText, if_neg (by omega), String.toList_ofList,
      plainChars, cutPoint_append fun c hc => ne_point_of_mem_toDigits hc]
  have hdigits : (Nat.toDigits 10 (q.toInt.natAbs / 10 ^ 9) ++
      zeroPadded 9 (q.toInt.natAbs % 10 ^ 9)).all Char.isDigit = true := by
    rw [List.all_eq_true]
    intro c hc
    rcases List.mem_append.1 hc with hc | hc
    · exact Nat.isDigit_of_mem_toDigits (by decide) (by decide) hc
    · exact isDigit_of_mem_zeroPadded hc
  have hvalue : Nat.ofDigitChars 10 (nanoDigits (Nat.toDigits 10 (q.toInt.natAbs / 10 ^ 9))
      (zeroPadded 9 (q.toInt.natAbs % 10 ^ 9))) 0 = q.toInt.natAbs := by
    rw [nanoDigits, List.take_left' hlen, Nat.ofDigitChars_append, Nat.ofDigitChars_ten_toDigits,
      Nat.ofDigitChars_eq_ofDigitChars_zero, ofDigitChars_zeroPadded, hlen]
    omega
  have hbound : q.toInt.natAbs < 10 ^ 38 := by
    have := q.toInt_lt
    omega
  rw [plainNumeric_eq hcut Nat.toDigits_ne_nil hdigits (Nat.le_of_eq hlen)
    (by rw [hvalue]; exact hbound), hvalue, Int.natAbs_of_nonneg h]

/-- PostgreSQL's own columns, as far as plain decimals go, under the collation `C`. -/
def postgresColumns : Columns where
  text := storableText
  numeric := plainNumeric
  timestamptz := microseconds
  collate := fun a b => a ≤ b
  numeric_quantityString := fun _ h => plainNumeric_quantityString h
  collate_total := fun a b => by simpa using le_total a b
  collate_trans := fun a b c hab hbc => by
    simpa using le_trans (of_decide_eq_true hab) (of_decide_eq_true hbc)

/-- The row for an event, unless the database refuses one of its values. -/
def Columns.row (cols : Columns) (e : UsageEvent) : Option EventRow :=
  if cols.text e.tenantId && cols.text e.meter && cols.text e.idempotencyKey then do
    let quantity ← cols.numeric e.quantity
    let occurredAt ← cols.timestamptz e.occurredAt
    let receivedAt ← cols.timestamptz e.receivedAt
    some ⟨e.tenantId, e.meter, quantity, occurredAt, receivedAt, e.idempotencyKey,
      e.fingerprint, none⟩
  else
    none

theorem Columns.row_eq_some {cols : Columns} {e : UsageEvent} {row : EventRow} :
    cols.row e = some row ↔
      ((cols.text e.tenantId = true ∧ cols.text e.meter = true) ∧
        cols.text e.idempotencyKey = true) ∧
      ∃ quantity, cols.numeric e.quantity = some quantity ∧
      ∃ occurredAt, cols.timestamptz e.occurredAt = some occurredAt ∧
      ∃ receivedAt, cols.timestamptz e.receivedAt = some receivedAt ∧
        ⟨e.tenantId, e.meter, quantity, occurredAt, receivedAt, e.idempotencyKey,
          e.fingerprint, none⟩ = row := by
  rw [Columns.row]
  split
  · rename_i htext
    simp only [Bool.and_eq_true] at htext
    simp [htext, Option.bind_eq_some_iff]
  · rename_i htext
    simp only [Bool.and_eq_true] at htext
    simp [htext]

/-- A change to the tables. -/
inductive Write
  | event (row : EventRow)
  /-- `ON CONFLICT DO UPDATE` with an assignment that changes nothing. -/
  | touchEvent (key : String × String)
  | offset (consumer : String) (next : Nat)
  | deadLetter (row : DeadLetterRow)
  | account (row : AccountRow)
  | touchAccount (name : String)
  | transaction (row : TransactionRow)
  | posting (row : PostingRow)
  | period (row : Period)
  /-- `FOR UPDATE`, or an update that changes nothing. -/
  | touchPeriod (key : String × String)
  | closePeriod (id : Nat) (closedAt : Time)
  | invoice (row : InvoiceRow)
  | lineItem (row : LineItemRow)
  /-- `invoice_id` of one event. -/
  | bill (key : String × String) (invoice : Nat)
deriving DecidableEq, Repr

/-- A row of some table. -/
inductive Lock
  | event (key : String × String)
  | offset (consumer : String)
  | deadLetter (key : String × Nat)
  | account (name : String)
  | transaction (key : String)
  /-- Tenant and label. -/
  | period (key : String × String)
  /-- The invoice of a period. -/
  | invoice (period : Nat)
deriving DecidableEq, Repr

/-- Writing the invoice on the event with the given key. -/
def EventRow.bill (key : String × String) (invoice : Nat) (r : EventRow) : EventRow :=
  if r.key = key then { r with invoiceId := some invoice } else r

/-- Closing the period with the given identity. -/
def Period.close (id : Nat) (closedAt : Time) (p : Period) : Period :=
  if p.id = id then { p with state := .closed, closedAt := some closedAt } else p

/-- `billing_periods_tenant_label_unique`. -/
def Period.key (p : Period) : String × String :=
  (p.tenantId, p.label)

/-- The effect of a change. -/
def Database.apply (db : Database) : Write → Database
  | .event row => { db with events := db.events ++ [row] }
  | .touchEvent _ => db
  | .offset c next => { db with offsets := Function.update db.offsets c (some next) }
  | .deadLetter row => { db with deadLetters := db.deadLetters ++ [row] }
  | .account row => { db with accounts := db.accounts ++ [row] }
  | .touchAccount _ => db
  | .transaction row => { db with transactions := db.transactions ++ [row] }
  | .posting row => { db with postings := db.postings ++ [row] }
  | .period row => { db with periods := db.periods ++ [row] }
  | .touchPeriod _ => db
  | .closePeriod id closedAt => { db with periods := db.periods.map (Period.close id closedAt) }
  | .invoice row => { db with invoices := db.invoices ++ [row] }
  | .lineItem row => { db with lineItems := db.lineItems ++ [row] }
  | .bill key invoice => { db with events := db.events.map (EventRow.bill key invoice) }

/-- The row a change locks. -/
def Write.lock : Write → Option Lock
  | .event row => some (.event row.key)
  | .touchEvent key => some (.event key)
  | .offset c _ => some (.offset c)
  | .deadLetter row => some (.deadLetter row.key)
  | .account row => some (.account row.name)
  | .touchAccount name => some (.account name)
  | .transaction row => some (.transaction row.idempotencyKey)
  | .posting _ => none
  | .period row => some (.period row.key)
  | .touchPeriod key => some (.period key)
  | .closePeriod _ _ => none
  | .invoice row => some (.invoice row.periodId)
  | .lineItem _ => none
  | .bill key _ => some (.event key)

/-- The effect of a change, with the record of committed offsets. -/
def World.apply (w : World) (c : Write) : World :=
  { w with
    db := w.db.apply c
    reached :=
      match c with
      | .offset consumer next =>
          Function.update w.reached consumer (max (w.reached consumer) next)
      | _ => w.reached }

end LedgerLine.Billing
