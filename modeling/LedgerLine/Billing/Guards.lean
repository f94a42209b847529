import LedgerLine.Billing.Database

/-!
# What the database itself enforces

Clients that do not go through the code can issue any INSERT, UPDATE and DELETE.  What is
left then are the constraints and triggers of `migrations/`: a table checks a row that is
inserted, updated or deleted (`Guard`), and `ledger_postings` checks at the commit that the
transactions it has got postings for balance.

The deferred trigger fires for inserted rows only, and the invoice triggers for updated and
deleted rows only.  So
* `balanced_of_clientRun`: the ledger stays balanced as long as every ledger transaction
  whose postings are changed or removed also gets a posting in the same commit, and not
  otherwise (`unbalanced_by_delete`);
* `invoice_unchanged_iff`: an invoice stays what it is exactly as long as nobody inserts a
  line item for it.
-/

namespace LedgerLine.Billing

/-- A statement about one row; an UPDATE or DELETE of several rows is several of them. -/
inductive RowStmt (α : Type) : Type
  | insert (row : α)
  | update (old new : α)
  | delete (old : α)
deriving DecidableEq, Repr

/-- The checks of a table, given its other rows. -/
structure Guard (α : Type) where
  insert : (others : List α) → (row : α) → Bool
  update : (others : List α) → (old new : α) → Bool
  delete : (old : α) → Bool

/-- The table after a statement, or `none` if a check fails.  A row that is not there is
neither updated nor deleted. -/
def Guard.exec {α : Type} [DecidableEq α] (g : Guard α) (rows : List α) :
    RowStmt α → Option (List α)
  | .insert row => if g.insert rows row then some (rows ++ [row]) else none
  | .update old new =>
      if old ∈ rows then
        if g.update (rows.erase old) old new then some (rows.erase old ++ [new]) else none
      else
        some rows
  | .delete old =>
      if old ∈ rows then
        if g.delete old then some (rows.erase old) else none
      else
        some rows

/-- What a statement that goes through can do. -/
theorem Guard.exec_cases {α : Type} [DecidableEq α] {g : Guard α} {rows rows' : List α}
    {s : RowStmt α} (h : g.exec rows s = some rows') :
    (rows' = rows ∧ ∀ row, s ≠ .insert row) ∨
      (∃ row, s = .insert row ∧ g.insert rows row = true ∧ rows' = rows ++ [row]) ∨
      (∃ old new, s = .update old new ∧ old ∈ rows ∧
        g.update (rows.erase old) old new = true ∧ rows' = rows.erase old ++ [new]) ∨
      ∃ old, s = .delete old ∧ old ∈ rows ∧ g.delete old = true ∧ rows' = rows.erase old := by
  cases s with
  | insert row =>
      simp only [Guard.exec] at h
      split at h
      · rename_i hok
        cases h
        exact .inr (.inl ⟨row, rfl, hok, rfl⟩)
      · cases h
  | update old new =>
      simp only [Guard.exec] at h
      split at h
      · rename_i hmem
        split at h
        · rename_i hok
          cases h
          exact .inr (.inr (.inl ⟨old, new, rfl, hmem, hok, rfl⟩))
        · cases h
      · cases h
        exact .inl ⟨rfl, fun row hrow => nomatch hrow⟩
  | delete old =>
      simp only [Guard.exec] at h
      split at h
      · rename_i hmem
        split at h
        · rename_i hok
          cases h
          exact .inr (.inr (.inr ⟨old, rfl, hmem, hok, rfl⟩))
        · cases h
      · cases h
        exact .inl ⟨rfl, fun row hrow => nomatch hrow⟩

section Postings

/-- What the postings of a ledger transaction sum up to. -/
def totalOf (postings : List PostingRow) (id : Nat) : Int :=
  ((postings.filter fun p => p.transactionId = id).map fun p => p.amount.toInt).sum

/-- `amount <> 0` and the two foreign keys. -/
def postingAllowed (db : Database) (row : PostingRow) : Bool :=
  row.amount ≠ 0 && db.transactions.any (fun t => t.id = row.transactionId) &&
    db.accounts.any fun a => a.id = row.accountId

/-- The checks of `ledger_postings`. -/
def postingGuard (db : Database) : Guard PostingRow where
  insert := fun _ row => postingAllowed db row
  update := fun _ _ new => postingAllowed db new
  delete := fun _ => true

/-- `ledger_assert_balanced`, for the row that was inserted. -/
def assertBalanced (postings : List PostingRow) : RowStmt PostingRow → Bool
  | .insert row => totalOf postings row.transactionId = 0
  | _ => true

/-- One database transaction on `ledger_postings`: its statements, and at the commit the
deferred trigger for every row that was inserted. -/
def clientCommit (db : Database) (stmts : List (RowStmt PostingRow)) : Option Database :=
  match stmts.foldlM (postingGuard db).exec db.postings with
  | none => none
  | some postings =>
      if stmts.all (assertBalanced postings) then some { db with postings := postings } else none

/-- Every ledger transaction balances. -/
def Balanced (db : Database) : Prop :=
  ∀ id, totalOf db.postings id = 0

/-- The ledger transactions a statement takes an amount from or gives one to, other than by
an insertion. -/
def RowStmt.touched : RowStmt PostingRow → List Nat
  | .insert _ => []
  | .update old new =>
      if old.transactionId = new.transactionId ∧ old.amount = new.amount then []
      else [old.transactionId, new.transactionId]
  | .delete old => [old.transactionId]

/-- The deferred trigger looks at every ledger transaction whose postings are changed,
moved or removed: it has got a posting, too. -/
def Covered (stmts : List (RowStmt PostingRow)) : Prop :=
  ∀ s ∈ stmts, ∀ id ∈ s.touched, ∃ row, .insert row ∈ stmts ∧ row.transactionId = id

/-- What a posting adds to the total of a ledger transaction. -/
def PostingRow.share (id : Nat) (p : PostingRow) : Int :=
  if p.transactionId = id then p.amount.toInt else 0

theorem totalOf_append (rows rows' : List PostingRow) (id : Nat) :
    totalOf (rows ++ rows') id = totalOf rows id + totalOf rows' id := by
  simp [totalOf]

theorem totalOf_cons (row : PostingRow) (rows : List PostingRow) (id : Nat) :
    totalOf (row :: rows) id = row.share id + totalOf rows id := by
  by_cases h : row.transactionId = id <;> simp [totalOf, PostingRow.share, h]

variable {rows rows' : List PostingRow} {db : Database} {stmts : List (RowStmt PostingRow)}

theorem totalOf_perm (h : rows.Perm rows') (id : Nat) : totalOf rows id = totalOf rows' id :=
  ((h.filter _).map _).sum_eq

theorem totalOf_erase {old : PostingRow} (h : old ∈ rows) (id : Nat) :
    totalOf rows id = old.share id + totalOf (rows.erase old) id := by
  rw [totalOf_perm (List.perm_cons_erase h) id, totalOf_cons]

/-- A ledger transaction that a statement neither touches nor inserts into keeps its
total. -/
theorem totalOf_exec {s : RowStmt PostingRow} (h : (postingGuard db).exec rows s = some rows')
    {id : Nat} (htouched : id ∉ s.touched)
    (hinsert : ∀ row, s = .insert row → row.transactionId ≠ id) :
    totalOf rows' id = totalOf rows id := by
  rcases Guard.exec_cases h with ⟨rfl, -⟩ | ⟨row, rfl, -, rfl⟩ | ⟨old, new, rfl, hmem, -, rfl⟩ |
    ⟨old, rfl, hmem, -, rfl⟩
  · rfl
  · have hrow := hinsert row rfl
    rw [totalOf_append, totalOf_cons, PostingRow.share, if_neg hrow]
    simp [totalOf]
  · have hshare : new.share id = old.share id := by
      simp only [RowStmt.touched] at htouched
      split at htouched
      · rename_i hsame
        rw [PostingRow.share, PostingRow.share, hsame.1, hsame.2]
      · simp only [List.mem_cons, List.not_mem_nil, or_false, not_or] at htouched
        rw [PostingRow.share, PostingRow.share, if_neg (Ne.symm htouched.1),
          if_neg (Ne.symm htouched.2)]
    rw [totalOf_erase hmem, totalOf_append, totalOf_cons, hshare]
    simp [totalOf]
    omega
  · have hold : old.transactionId ≠ id := by
      simpa [RowStmt.touched, eq_comm] using htouched
    rw [totalOf_erase hmem, PostingRow.share, if_neg hold, Int.zero_add]

theorem totalOf_foldlM (h : stmts.foldlM (postingGuard db).exec rows = some rows') {id : Nat}
    (htouched : ∀ s ∈ stmts, id ∉ s.touched)
    (hinsert : ∀ row, .insert row ∈ stmts → row.transactionId ≠ id) :
    totalOf rows' id = totalOf rows id := by
  induction stmts generalizing rows with
  | nil =>
      cases h
      rfl
  | cons s stmts ih =>
      obtain ⟨rows₁, hs, hrest⟩ := Option.bind_eq_some_iff.1 h
      rw [List.forall_mem_cons] at htouched
      have hone := totalOf_exec hs htouched.1 fun row hrow =>
        hinsert row (hrow ▸ List.mem_cons_self)
      have hothers := ih hrest htouched.2 fun row hrow =>
        hinsert row (List.mem_cons_of_mem _ hrow)
      exact hothers.trans hone

/-- A commit of covered statements keeps the ledger balanced. -/
theorem balanced_commit {db' : Database} (h : Balanced db) (hcovered : Covered stmts)
    (hcommit : clientCommit db stmts = some db') : Balanced db' := by
  rw [clientCommit] at hcommit
  split at hcommit
  · cases hcommit
  rename_i postings hrun
  split at hcommit
  · rename_i hchecked
    cases hcommit
    intro id
    by_cases hinsert : ∃ row, .insert row ∈ stmts ∧ row.transactionId = id
    · obtain ⟨row, hmem, rfl⟩ := hinsert
      simpa [assertBalanced] using List.all_eq_true.1 hchecked _ hmem
    · have hsame := totalOf_foldlM hrun
        (fun s hs hid => hinsert (hcovered s hs id hid))
        (fun row hrow hid => hinsert ⟨row, hrow, hid⟩)
      exact hsame.trans (h id)
  · cases hcommit

/-- Any client commits any statements that satisfy a condition. -/
inductive ClientStep (allowed : List (RowStmt PostingRow) → Prop) : Database → Database → Prop
  | commit {db db' : Database} {stmts : List (RowStmt PostingRow)} (hallowed : allowed stmts)
      (hcommit : clientCommit db stmts = some db') : ClientStep allowed db db'

/-- A ledger that starts out balanced stays balanced, whatever statements are committed, as
long as they are covered. -/
theorem balanced_of_clientRun {db db' : Database} (h : Balanced db)
    (hrun : Relation.ReflTransGen (ClientStep Covered) db db') : Balanced db' := by
  induction hrun with
  | refl => exact h
  | tail _ hstep ih =>
      cases hstep with
      | commit hcovered hcommit =>
          exact balanced_commit ih hcovered hcommit

/-- A ledger with two accounts and one transaction that has no postings yet. -/
def bareLedger : Database :=
  { Database.empty with
    accounts := [⟨1, "receivable:acme", .asset⟩, ⟨2, "revenue:calls", .revenue⟩]
    transactions := [⟨1, "usage:acme:2026-08", 0, "usage for acme in 2026-08"⟩] }

/-- Two balanced postings. -/
def balancedInserts : List (RowStmt PostingRow) :=
  [.insert ⟨1, 1, 5⟩, .insert ⟨1, 2, -5⟩]

theorem balanced_bareLedger : Balanced bareLedger := by
  intro id
  rfl

/-- The amount is corrected in place on one side; on the other the posting is replaced, which
covers both. -/
def correction : List (RowStmt PostingRow) :=
  [.update ⟨1, 1, 5⟩ ⟨1, 1, 8⟩, .delete ⟨1, 2, -5⟩, .insert ⟨1, 2, -8⟩]

/-- The ledger after a commit of inserts and a correction. -/
theorem balanced_of_clientRun_sample :
    ∃ db db', clientCommit bareLedger balancedInserts = some db ∧
      clientCommit db correction = some db' ∧ db'.postings = [⟨1, 1, 8⟩, ⟨1, 2, -8⟩] ∧
      Balanced db' := by
  have hinserts : Covered balancedInserts := by
    intro s hs id hid
    simp only [balancedInserts, List.mem_cons, List.not_mem_nil, or_false] at hs
    rcases hs with rfl | rfl <;> cases hid
  have hcorrection : Covered correction := by
    have htouched : ∀ s ∈ correction, ∀ id ∈ s.touched, id = 1 := by
      decide +kernel
    exact fun s hs id hid => ⟨⟨1, 2, -8⟩, by decide, (htouched s hs id hid).symm⟩
  refine ⟨_, _, rfl, rfl, rfl, balanced_of_clientRun balanced_bareLedger ?_⟩
  exact .tail (.single (.commit hinserts rfl)) (.commit hcorrection rfl)

/-- One of the two postings is deleted: the trigger does not fire, and the transaction no
longer balances. -/
theorem unbalanced_by_delete :
    ∃ db db', Balanced bareLedger ∧ ClientStep (fun _ => True) bareLedger db ∧
      ClientStep (fun _ => True) db db' ∧ ¬ Balanced db' := by
  have hinsert : clientCommit bareLedger balancedInserts =
      some { bareLedger with postings := [⟨1, 1, 5⟩, ⟨1, 2, -5⟩] } := by
    rfl
  have hdelete : clientCommit { bareLedger with postings := [⟨1, 1, 5⟩, ⟨1, 2, -5⟩] }
      [.delete ⟨1, 2, -5⟩] = some { bareLedger with postings := [⟨1, 1, 5⟩] } := by
    rfl
  refine ⟨_, _, balanced_bareLedger, .commit trivial hinsert, .commit trivial hdelete, ?_⟩
  intro h
  exact absurd (h 1) (by decide +kernel)

end Postings

section Invoices

/-- A row statement on one of the billing tables. -/
inductive BillingRowStmt
  | period (s : RowStmt Period)
  | invoice (s : RowStmt InvoiceRow)
  | lineItem (s : RowStmt LineItemRow)
  | event (s : RowStmt EventRow)
deriving DecidableEq, Repr

/-- The constraints on a row of `billing_periods`. -/
def periodAllowed (others : List Period) (row : Period) : Bool :=
  others.all (fun p => p.id ≠ row.id ∧ p.key ≠ row.key) && row.start < row.finish &&
    (row.state = .closed) = row.closedAt.isSome

/-- The checks of `billing_periods`: `invoices` refers to it. -/
def periodGuard (db : Database) : Guard Period where
  insert := periodAllowed
  update := fun others old new =>
    periodAllowed others new &&
      (old.id = new.id || db.invoices.all fun i => i.periodId ≠ old.id)
  delete := fun old => db.invoices.all fun i => i.periodId ≠ old.id

/-- The checks of `invoices`; `invoices_immutable` refuses every update and deletion. -/
def invoiceGuard (db : Database) : Guard InvoiceRow where
  insert := fun others row =>
    others.all (fun i => i.id ≠ row.id ∧ i.periodId ≠ row.periodId) &&
      db.periods.any (fun p => p.id = row.periodId) &&
      db.transactions.any fun t => t.id = row.ledgerTransactionId
  update := fun _ _ _ => false
  delete := fun _ => false

/-- The checks of `invoice_line_items`; `invoice_line_items_immutable` refuses every update
and deletion. -/
def lineItemGuard (db : Database) : Guard LineItemRow where
  insert := fun others row =>
    others.all (fun l => ¬ (l.invoiceId = row.invoiceId ∧ l.meter = row.meter)) &&
      db.invoices.any (fun i => i.id = row.invoiceId) && row.quantity.natAbs < 10 ^ 38
  update := fun _ _ _ => false
  delete := fun _ => false

/-- The constraints on a row of `events`. -/
def eventAllowed (db : Database) (others : List EventRow) (row : EventRow) : Bool :=
  others.all (fun r => r.key ≠ row.key) && row.quantity.natAbs < 10 ^ 38 &&
    row.invoiceId.all fun id => db.invoices.any fun i => i.id = id

/-- The checks of `events`, among them `events_billed_once_trigger`. -/
def eventGuard (db : Database) : Guard EventRow where
  insert := eventAllowed db
  update := fun others old new =>
    eventAllowed db others new && (old.invoiceId = none || new.invoiceId = old.invoiceId)
  delete := fun _ => true

/-- The tables after a statement, or `none` if it is refused. -/
def Database.execRow (db : Database) : BillingRowStmt → Option Database
  | .period s => ((periodGuard db).exec db.periods s).map fun rows => { db with periods := rows }
  | .invoice s =>
      ((invoiceGuard db).exec db.invoices s).map fun rows => { db with invoices := rows }
  | .lineItem s =>
      ((lineItemGuard db).exec db.lineItems s).map fun rows => { db with lineItems := rows }
  | .event s => ((eventGuard db).exec db.events s).map fun rows => { db with events := rows }

/-- The statement adds a line item to an invoice. -/
def BillingRowStmt.addsLine (invoice : Nat) : BillingRowStmt → Prop
  | .lineItem (.insert row) => row.invoiceId = invoice
  | _ => False

/-- A table that refuses updates and deletions only ever gets rows. -/
theorem Guard.exec_of_immutable {α : Type} [DecidableEq α] {g : Guard α}
    (hupdate : ∀ others old new, g.update others old new = false)
    (hdelete : ∀ old, g.delete old = false) {rows rows' : List α} {s : RowStmt α}
    (h : g.exec rows s = some rows') :
    (rows' = rows ∧ ∀ row, s ≠ .insert row) ∨ ∃ row, s = .insert row ∧ rows' = rows ++ [row] := by
  rcases Guard.exec_cases h with hsame | ⟨row, hs, -, hrows⟩ | ⟨old, new, -, -, hok, -⟩ |
    ⟨old, -, -, hok, -⟩
  · exact .inl hsame
  · exact .inr ⟨row, hs, hrows⟩
  · rw [hupdate] at hok
    cases hok
  · rw [hdelete] at hok
    cases hok

/-- What a statement can do to an invoice: nothing, or add a line to it. -/
theorem execRow_invoice {db db' : Database} {s : BillingRowStmt} (h : db.execRow s = some db')
    (invoice : Nat) :
    db.invoices ⊆ db'.invoices ∧
      ((¬ s.addsLine invoice ∧ db'.linesOf invoice = db.linesOf invoice) ∨
        s.addsLine invoice ∧ ∃ row, db'.linesOf invoice = db.linesOf invoice ++ [row]) := by
  cases s with
  | period s | event s =>
      obtain ⟨rows, -, rfl⟩ := Option.map_eq_some_iff.1 h
      exact ⟨List.Subset.refl _, .inl ⟨id, rfl⟩⟩
  | invoice s =>
      obtain ⟨rows, hrows, rfl⟩ := Option.map_eq_some_iff.1 h
      refine ⟨?_, .inl ⟨id, rfl⟩⟩
      rcases Guard.exec_of_immutable (fun _ _ _ => rfl) (fun _ => rfl) hrows with
        ⟨rfl, -⟩ | ⟨row, -, rfl⟩
      · exact List.Subset.refl _
      · exact List.subset_append_left _ _
  | lineItem s =>
      obtain ⟨rows, hrows, rfl⟩ := Option.map_eq_some_iff.1 h
      refine ⟨List.Subset.refl _, ?_⟩
      rcases Guard.exec_of_immutable (fun _ _ _ => rfl) (fun _ => rfl) hrows with
        ⟨rfl, hs⟩ | ⟨row, rfl, rfl⟩
      · left
        refine ⟨?_, rfl⟩
        intro hadds
        cases s with
        | insert row => exact hs row rfl
        | update old new | delete old => exact hadds
      · by_cases hrow : row.invoiceId = invoice
        · right
          refine ⟨hrow, row, ?_⟩
          simp [Database.linesOf, hrow]
        · left
          refine ⟨hrow, ?_⟩
          simp [Database.linesOf, hrow]

/-- What any number of statements can do to an invoice. -/
theorem foldlM_invoice {db db' : Database} {stmts : List BillingRowStmt}
    (h : stmts.foldlM Database.execRow db = some db') (invoice : Nat) :
    db.invoices ⊆ db'.invoices ∧
      (((∀ s ∈ stmts, ¬ s.addsLine invoice) ∧ db'.linesOf invoice = db.linesOf invoice) ∨
        (∃ s ∈ stmts, s.addsLine invoice) ∧
          (db.linesOf invoice).length < (db'.linesOf invoice).length) := by
  induction stmts generalizing db with
  | nil =>
      cases h
      exact ⟨List.Subset.refl _, .inl ⟨(fun s hs => nomatch hs), rfl⟩⟩
  | cons s stmts ih =>
      obtain ⟨db₁, hs, hrest⟩ := Option.bind_eq_some_iff.1 h
      obtain ⟨hmem, hone⟩ := execRow_invoice hs invoice
      obtain ⟨hmem', hothers⟩ := ih hrest
      refine ⟨List.Subset.trans hmem hmem', ?_⟩
      rcases hone with ⟨hnot, hsame⟩ | ⟨hadds, row, hmore⟩
      · rcases hothers with ⟨hnone, hsame'⟩ | ⟨⟨s', hs', hadds⟩, hlt⟩
        · exact .inl ⟨List.forall_mem_cons.2 ⟨hnot, hnone⟩, hsame'.trans hsame⟩
        · right
          rw [hsame] at hlt
          exact ⟨⟨s', List.mem_cons_of_mem _ hs', hadds⟩, hlt⟩
      · right
        refine ⟨⟨s, List.mem_cons_self, hadds⟩, ?_⟩
        have hlen : (db₁.linesOf invoice).length = (db.linesOf invoice).length + 1 := by
          rw [hmore]
          simp
        rcases hothers with ⟨-, hsame'⟩ | ⟨-, hlt⟩
        · rw [hsame']
          omega
        · omega

/-- An invoice stays what it is, its total the sum of its lines, exactly as long as no
statement adds a line to it. -/
theorem invoice_unchanged_iff {db db' : Database} {stmts : List BillingRowStmt}
    {invoice : InvoiceRow} (hmem : invoice ∈ db.invoices)
    (hrun : stmts.foldlM Database.execRow db = some db') :
    (invoice ∈ db'.invoices ∧ (db'.linesOf invoice.id).Perm (db.linesOf invoice.id) ∧
      (db.lineTotal invoice.id = invoice.total.toInt →
        db'.lineTotal invoice.id = invoice.total.toInt)) ↔
      ∀ s ∈ stmts, ¬ s.addsLine invoice.id := by
  obtain ⟨hinvoices, hlines⟩ := foldlM_invoice hrun invoice.id
  constructor
  · rintro ⟨-, hperm, -⟩
    rcases hlines with ⟨hnone, -⟩ | ⟨-, hlt⟩
    · exact hnone
    · have := hperm.length_eq
      omega
  · intro hnone
    rcases hlines with ⟨-, hsame⟩ | ⟨⟨s, hs, hadds⟩, -⟩
    · refine ⟨hinvoices hmem, ?_, ?_⟩
      · rw [hsame]
      · rw [Database.lineTotal, Database.lineTotal, hsame]
        exact id
    · exact absurd hadds (hnone s hs)

/-- A closed period with its invoice. -/
def invoicedDatabase : Database :=
  { bareLedger with
    postings := [⟨1, 1, 5⟩, ⟨1, 2, -5⟩]
    periods := [⟨1, "acme", "2026-08", 0, 10, .closed, some 11⟩]
    invoices := [⟨1, 1, "acme", 5, 1, 11⟩]
    lineItems := [⟨1, "calls", 1000000000, 5⟩]
    events := [⟨"acme", "calls", 1000000000, 3, 4, "k", none, some 1⟩] }

/-- Statements that leave the invoice alone: a late event, and the period renamed. -/
def harmlessStatements : List BillingRowStmt :=
  [.event (.insert ⟨"acme", "calls", 7, 3, 12, "k2", none, none⟩),
    .period (.update ⟨1, "acme", "2026-08", 0, 10, .closed, some 11⟩
      ⟨1, "acme", "August", 0, 10, .closed, some 11⟩)]

theorem invoice_unchanged_iff_sample :
    ∃ db, harmlessStatements.foldlM Database.execRow invoicedDatabase = some db ∧
      (⟨1, 1, "acme", 5, 1, 11⟩ : InvoiceRow) ∈ db.invoices ∧
      (db.linesOf 1).Perm (invoicedDatabase.linesOf 1) ∧
      (invoicedDatabase.lineTotal 1 = 5 → db.lineTotal 1 = 5) := by
  have hmem : (⟨1, 1, "acme", 5, 1, 11⟩ : InvoiceRow) ∈ invoicedDatabase.invoices := by
    decide
  obtain ⟨db, hrun⟩ : ∃ db,
      harmlessStatements.foldlM Database.execRow invoicedDatabase = some db := ⟨_, rfl⟩
  refine ⟨db, hrun, (invoice_unchanged_iff hmem hrun).2 ?_⟩
  intro s hs
  simp only [harmlessStatements, List.mem_cons, List.not_mem_nil, or_false] at hs
  rcases hs with rfl | rfl <;> exact id

/-- A line item is inserted for an invoice that was issued: the invoice now has two lines,
and its total is no longer their sum. -/
theorem invoice_changed_by_insert :
    ∃ db, Database.execRow invoicedDatabase
        (.lineItem (.insert ⟨1, "storage", 1000000000, 7⟩)) = some db ∧
      invoicedDatabase.lineTotal 1 = 5 ∧ ¬ (db.linesOf 1).Perm (invoicedDatabase.linesOf 1) ∧
      db.lineTotal 1 = 12 := by
  refine ⟨_, rfl, ?_, ?_, ?_⟩
  · decide +kernel
  · intro h
    exact absurd h.length_eq (by decide +kernel)
  · decide +kernel

end Invoices

end LedgerLine.Billing
