import LedgerLine.Billing.Constraints

/-!
# Invoices and ledger transactions

An invoice refers to the ledger transaction that books it: the tenant's receivable account
is debited with the total, and the revenue account of each meter is credited with the amount
of its line.

The key of that transaction is made of the tenant and the label of the period.  Two periods
may have one key, and then the second invoice refers to the transaction of the first
(`shared_transaction`).  As long as no open period is closed that shares its key with a
closed one, invoices and transactions match (`invoices_match_ledger`).
-/

namespace LedgerLine.Billing

/-- The name of an account. -/
def Database.accountName (db : Database) (id : AccountID) : Option String :=
  (db.accounts.find? fun a => a.id = id).map AccountRow.name

/-- The postings of a transaction, by the names of their accounts. -/
def Database.entries (db : Database) (transaction : Nat) : List (Option String × Amount) :=
  (entriesOf db.postings transaction).map fun p => (db.accountName p.account, p.amount)

/-- What a transaction posts to an account, in all. -/
def Database.posted (db : Database) (transaction : Nat) (name : String) : Int :=
  (((db.entries transaction).filter fun e => e.1 = some name).map fun e => e.2.toInt).sum

/-- The ledger transaction of an invoice books the invoice. -/
structure InvoiceMatches (db : Database) (row : InvoiceRow) : Prop where
  receivable : db.posted row.ledgerTransactionId (receivableAccount row.tenantId) =
    row.total.toInt
  revenue : ∀ line ∈ db.linesOf row.id, line.amount ≠ 0 →
    db.posted row.ledgerTransactionId (revenueAccount line.meter) = - line.amount.toInt
  total : row.total.toInt = db.lineTotal row.id

/-- A period that is to be closed does not share its key with a closed one. -/
def KeysApart (w : World) : SerialCall → Prop
  | .close _ _ _ id => ∀ p ∈ w.db.periods, p.id = id → p.state = .open →
      ∀ q ∈ w.db.periods, q.state = .closed →
        transactionKey q.tenantId q.label ≠ transactionKey p.tenantId p.label
  | _ => True

instance (w : World) : (call : SerialCall) → Decidable (KeysApart w call)
  | .close _ _ _ id => inferInstanceAs (Decidable (∀ p ∈ w.db.periods, p.id = id →
      p.state = .open → ∀ q ∈ w.db.periods, q.state = .closed →
        transactionKey q.tenantId q.label ≠ transactionKey p.tenantId p.label))
  | .append _ => .isTrue trivial
  | .batch _ _ _ => .isTrue trivial
  | .ensurePeriod _ _ _ _ => .isTrue trivial

section Names

theorem receivable_ne_revenue (tenant meter : String) :
    receivableAccount tenant ≠ revenueAccount meter := by
  intro h
  have hlist := congrArg (fun s => s.toList.take 3) h
  simp [receivableAccount, revenueAccount] at hlist

theorem revenueAccount_inj {meter meter' : String} :
    revenueAccount meter = revenueAccount meter' ↔ meter = meter' := by
  rw [revenueAccount, revenueAccount, ← String.toList_inj, String.toList_append,
    String.toList_append, List.append_cancel_left_eq, String.toList_inj]

end Names

/-- The entries that book some lines for a tenant. -/
def chargeEntries (tenant : String) (lines : List LineItemRow) : List (Option String × Amount) :=
  (lines.filter fun l => l.amount ≠ 0).flatMap fun l =>
    [(some (receivableAccount tenant), l.amount), (some (revenueAccount l.meter), -l.amount)]

/-- The postings of an invoice, one by one. -/
structure InvoiceBooked (db : Database) (row : InvoiceRow) : Prop where
  entries : db.entries row.ledgerTransactionId = chargeEntries row.tenantId (db.linesOf row.id)
  total : row.total.toInt = db.lineTotal row.id
  meters : ((db.linesOf row.id).map LineItemRow.meter).Nodup
  positive : ∀ line ∈ db.linesOf row.id, line.amount ≠ 0 → 0 < line.amount.toInt

section Sums

theorem sum_receivable (tenant : String) (lines : List LineItemRow) :
    (((chargeEntries tenant lines).filter fun e => e.1 = some (receivableAccount tenant)).map
      fun e => e.2.toInt).sum = (lines.map fun l => l.amount.toInt).sum := by
  induction lines with
  | nil => rfl
  | cons l lines ih =>
      have hrevenue : revenueAccount l.meter ≠ receivableAccount tenant :=
        (receivable_ne_revenue tenant l.meter).symm
      by_cases hzero : l.amount = 0
      · simpa [chargeEntries, hzero] using ih
      · simpa [chargeEntries, hzero, hrevenue] using ih

variable {lines : List LineItemRow}

theorem sum_revenue_absent (tenant : String) {meter : String}
    (h : meter ∉ lines.map LineItemRow.meter) :
    (((chargeEntries tenant lines).filter fun e => e.1 = some (revenueAccount meter)).map
      fun e => e.2.toInt).sum = 0 := by
  have hnone : (chargeEntries tenant lines).filter
      (fun e => e.1 = some (revenueAccount meter)) = [] := by
    rw [List.filter_eq_nil_iff]
    intro e he
    obtain ⟨l, hl, he⟩ := List.mem_flatMap.1 he
    have hmeter : l.meter ≠ meter :=
      fun heq => h (heq ▸ List.mem_map_of_mem (List.mem_filter.1 hl).1)
    rcases List.mem_cons.1 he with rfl | he
    · simpa using receivable_ne_revenue tenant meter
    · cases List.mem_singleton.1 he
      simpa [revenueAccount_inj] using hmeter
  rw [hnone]
  rfl

theorem sum_revenue (tenant : String) {line : LineItemRow}
    (hnodup : (lines.map LineItemRow.meter).Nodup) (hline : line ∈ lines)
    (hpositive : 0 < line.amount.toInt) :
    (((chargeEntries tenant lines).filter fun e => e.1 = some (revenueAccount line.meter)).map
      fun e => e.2.toInt).sum = - line.amount.toInt := by
  induction lines with
  | nil => cases hline
  | cons l lines ih =>
      obtain ⟨hnew, hnodup⟩ := List.nodup_cons.1 hnodup
      have hsplit : chargeEntries tenant (l :: lines) =
          chargeEntries tenant [l] ++ chargeEntries tenant lines := by
        rw [chargeEntries, ← List.singleton_append, List.filter_append, List.flatMap_append]
        rfl
      have hreceivable := receivable_ne_revenue tenant line.meter
      rw [hsplit, List.filter_append, List.map_append, List.sum_append]
      rcases List.mem_cons.1 hline with rfl | hline
      · have hzero : line.amount ≠ 0 := by
          intro hzero
          rw [hzero, Int64.toInt_zero] at hpositive
          exact absurd hpositive (Int.lt_irrefl 0)
        rw [sum_revenue_absent tenant hnew]
        simp [chargeEntries, hzero, hreceivable, Amount.toInt_neg_of_pos hpositive]
      · have hmeter : l.meter ≠ line.meter := fun heq => hnew (heq ▸ List.mem_map_of_mem hline)
        rw [ih hnodup hline]
        by_cases hzero : l.amount = 0
        · simp [chargeEntries, hzero]
        · simp [chargeEntries, hzero, hreceivable, revenueAccount_inj, hmeter]

theorem InvoiceBooked.matches {db : Database} {row : InvoiceRow} (h : InvoiceBooked db row) :
    InvoiceMatches db row := by
  constructor
  · rw [Database.posted, h.entries, sum_receivable, h.total, Database.lineTotal]
  · intro line hline hzero
    rw [Database.posted, h.entries,
      sum_revenue row.tenantId h.meters hline (h.positive line hline hzero)]
  · exact h.total

end Sums

section Serial

variable {cols : Columns} {registry : Registry} {plan : Plan} {now : Time} {id : Nat}
  {seen : Trace} {inv : Invoice} {x : Issue} {w base : World}

/-- A transaction that `Close` inserts has a new identity. -/
theorem fresh_of_inserted (hchain : (billingEngine cols).SerialChain w seen base)
    {row : TransactionRow} (hrow : row ∈ ownTransactions ((billingEngine cols).writesOf seen)) :
    w.db.sequences.transactions ≤ row.id := by
  obtain ⟨c, hc, hown⟩ := List.mem_filterMap.1 hrow
  obtain ⟨⟨o, sight⟩, hentry, hc'⟩ := List.mem_flatMap.1 hc
  obtain ⟨before, after, rfl⟩ := List.append_of_mem hentry
  obtain ⟨w', hw', hsight, -⟩ := sight_of_serial hchain
  have hexec : row ∈ ownTransactions (o.exec cols sight).2 := List.mem_filterMap.2 ⟨c, hc', hown⟩
  rw [(transaction_of_exec hexec).2.1, hsight, World.sequences_view]
  exact hw'.sequences.transactions

/-- An account that was looked up or created is there at the end. -/
theorem account_of_ensured (hchain : (billingEngine cols).SerialChain w seen base) {name : String}
    {kind : AccountKind} {account : AccountID} (h : Ensured cols seen name kind account) :
    ∃ a ∈ ((billingEngine cols).view base ((billingEngine cols).writesOf seen)).db.accounts,
      a.id = account ∧ a.name = name := by
  obtain ⟨sight, hmem, hanswer⟩ := h
  obtain ⟨before, after, rfl⟩ := List.append_of_mem hmem
  have hbase := (sameTables_of_drawn hchain.drawn).accounts
  obtain ⟨w', hw', hsight, -⟩ := sight_of_serial hchain
  have hold : ∀ a ∈ sight.db.accounts,
      a ∈ w.db.accounts ++ ownAccounts ((billingEngine cols).writesOf before) := by
    intro a ha
    rw [hsight, view_accounts, hw'.accounts] at ha
    exact ha
  rw [view_accounts, hbase, Engine.writesOf_append, Engine.writesOf_cons, billingEngine_exec,
    BillingStmt.exec, ownAccounts, List.filterMap_append, List.filterMap_append,
    ← List.append_assoc]
  rcases execEnsureAccount_cases cols name kind sight.db with
    hexec | ⟨row, hrow, hname, hexec⟩ | ⟨-, hexec⟩ <;> rw [hexec] at hanswer ⊢ <;> cases hanswer
  · exact ⟨row, List.mem_append_left _ (hold row hrow), rfl, hname⟩
  · exact ⟨_, List.mem_append_right _ (List.mem_append_left _ (List.mem_singleton.2 rfl)), rfl,
      rfl⟩

/-- A transaction that `Close` finds was there before. -/
theorem found_before (h : Issued cols registry plan now id seen inv x)
    (hchain : (billingEngine cols).SerialChain w seen base) (hposted : x.alreadyPosted = true) :
    ∃ t ∈ w.db.transactions, t.idempotencyKey = transactionKey x.period.tenantId x.period.label ∧
      t.id = inv.ledgerTransactionId := by
  obtain ⟨hkey, -⟩ := postings_of_newTransaction h.transaction
  rcases h.posted with ⟨hfalse, -⟩ | ⟨-, hwrites, first, second, hposting, t, ht, htkey, htid⟩
  · rw [hfalse] at hposted
    cases hposted
  refine ⟨t, ?_, htkey.trans hkey, htid⟩
  have hsplit : seen = (x.opening ++ x.accounts ++
      [(.insertTransaction x.transaction.idempotencyKey x.transaction.occurredAt
        x.transaction.description, first)]) ++
      (.selectTransactionByKey x.transaction.idempotencyKey, second) ::
        (x.writing inv now ++ x.ending inv now) := by
    rw [h.seen, hposting]
    simp
  rw [hsplit] at hchain
  obtain ⟨w', hw', hsight, -⟩ := sight_of_serial hchain
  have hfirst : ((BillingStmt.insertTransaction x.transaction.idempotencyKey
      x.transaction.occurredAt x.transaction.description).exec cols first).2 = [] := by
    rw [hposting] at hwrites
    exact (List.append_eq_nil_iff.1 hwrites).1
  have hnone : ownTransactions ((billingEngine cols).writesOf (x.opening ++ x.accounts ++
      [(.insertTransaction x.transaction.idempotencyKey x.transaction.occurredAt
        x.transaction.description, first)])) = [] := by
    have haccounts : ownTransactions ((billingEngine cols).writesOf x.accounts) = [] :=
      h.accounts_none (fun _ => rfl) (fun _ => rfl)
    rw [Engine.writesOf_append, Engine.writesOf_append, ownTransactions,
      List.filterMap_append, List.filterMap_append, ← ownTransactions, ← ownTransactions,
      ← ownTransactions, haccounts, Engine.writesOf_cons, billingEngine_exec, hfirst]
    simp [ownTransactions, Issue.opening, BillingStmt.exec, h.lock]
  rw [hsight, view_transactions, hnone, List.append_nil, hw'.transactions] at ht
  exact ht

end Serial

section Names

variable {db db' : Database}

theorem accountName_of_mem (h : Constraints db) {a : AccountRow} (ha : a ∈ db.accounts) :
    db.accountName a.id = some a.name := by
  rw [Database.accountName]
  cases hfind : db.accounts.find? (fun b => b.id = a.id) with
  | none =>
      rw [List.find?_eq_none] at hfind
      exact absurd (decide_eq_true rfl) (hfind a ha)
  | some b =>
      have hid : b.id = a.id := by
        simpa using List.find?_some hfind
      rw [List.inj_on_of_nodup_map h.accounts (List.mem_of_find?_eq_some hfind) ha hid]
      rfl

/-- New accounts leave the names of the old ones alone. -/
theorem accountName_append {new : List AccountRow} (h : db'.accounts = db.accounts ++ new)
    {id : AccountID} (hid : ∃ a ∈ db.accounts, a.id = id) :
    db'.accountName id = db.accountName id := by
  rw [Database.accountName, Database.accountName, h, List.find?_append]
  cases hfind : db.accounts.find? (fun a => a.id = id) with
  | none =>
      obtain ⟨a, ha, hid⟩ := hid
      rw [List.find?_eq_none] at hfind
      exact absurd hid (by simpa using hfind a ha)
  | some a => rfl

end Names

/-- An invoice stays booked when other ones are added. -/
theorem InvoiceBooked.mono {db db' : Database} {row : InvoiceRow} (h : InvoiceBooked db row)
    (hdb : Constraints db) {accounts : List AccountRow} {postings : List PostingRow}
    {lines : List LineItemRow} (haccounts : db'.accounts = db.accounts ++ accounts)
    (hpostings : db'.postings = db.postings ++ postings)
    (hnew : ∀ p ∈ postings, p.transactionId ≠ row.ledgerTransactionId)
    (hlines : db'.lineItems = db.lineItems ++ lines) (hother : ∀ l ∈ lines, l.invoiceId ≠ row.id) :
    InvoiceBooked db' row := by
  have hlinesOf : db'.linesOf row.id = db.linesOf row.id := by
    have hnone : lines.filter (fun l => l.invoiceId = row.id) = [] := by
      rw [List.filter_eq_nil_iff]
      exact fun l hl => by simpa using hother l hl
    rw [Database.linesOf, hlines, List.filter_append, hnone, List.append_nil, Database.linesOf]
  have hentries : db'.entries row.ledgerTransactionId = db.entries row.ledgerTransactionId := by
    have hnone : postings.filter (fun p => p.transactionId = row.ledgerTransactionId) = [] := by
      rw [List.filter_eq_nil_iff]
      exact fun p hp => by simpa using hnew p hp
    rw [Database.entries, Database.entries, entriesOf, hpostings, List.filter_append, hnone,
      List.append_nil, entriesOf, List.map_map, List.map_map]
    apply List.map_congr_left
    intro p hp
    exact Prod.ext
      (accountName_append haccounts (hdb.postings p (List.mem_filter.1 hp).1).2) rfl
  constructor
  · rw [hentries, hlinesOf]
    exact h.entries
  · rw [Database.lineTotal, hlinesOf]
    exact h.total
  · rw [hlinesOf]
    exact h.meters
  · rw [hlinesOf]
    exact h.positive

/-- The postings of transfers, by names. -/
theorem entries_of_transfers {name : AccountID → Option String} {tenant : String}
    {receivable : AccountID} {items : List LineItem} {transfers : List Transfer}
    (hreceivable : name receivable = some (receivableAccount tenant))
    (h : List.Forall₂ (fun (item : LineItem) (t : Transfer) => t.debit = receivable ∧
      t.amount = item.amount ∧ name t.credit = some (revenueAccount item.meter)) items transfers) :
    (transfers.flatMap Transfer.postings).map (fun p => (name p.account, p.amount)) =
      items.flatMap fun i =>
        [(some (receivableAccount tenant), i.amount),
          (some (revenueAccount i.meter), -i.amount)] := by
  induction h with
  | nil => rfl
  | cons ht _ ih =>
      obtain ⟨hdebit, hamount, hcredit⟩ := ht
      rw [List.flatMap_cons, List.map_append, ih, List.flatMap_cons]
      simp [Transfer.postings, hdebit, hamount, hcredit, hreceivable]

theorem chargeEntries_map (tenant : String) (items : List LineItem) {f : LineItem → LineItemRow}
    (hmeter : ∀ i, (f i).meter = i.meter) (hamount : ∀ i, (f i).amount = i.amount) :
    chargeEntries tenant (items.map f) = (items.filter fun i => i.amount ≠ 0).flatMap fun i =>
      [(some (receivableAccount tenant), i.amount),
        (some (revenueAccount i.meter), -i.amount)] := by
  have hfilter : (items.map f).filter (fun l => l.amount ≠ 0) =
      (items.filter fun i => i.amount ≠ 0).map f := by
    rw [List.filter_map]
    simp only [Function.comp_def, hamount]
  rw [chargeEntries, hfilter, List.flatMap_map]
  simp only [hmeter, hamount]

/-- An item with a transfer costs something. -/
theorem positive_of_transfers {seen : Trace} {cols : Columns} {receivable : AccountID}
    {items : List LineItem} {transfers : List Transfer}
    (h : List.Forall₂ (TransferOf cols seen receivable) items transfers)
    (hvalid : ∀ t ∈ transfers, t.Valid) : ∀ i ∈ items, 0 < i.amount.toInt := by
  induction h with
  | nil =>
      exact nofun
  | cons ht _ ih =>
      rw [List.forall_mem_cons] at hvalid ⊢
      refine ⟨?_, ih hvalid.2⟩
      rw [← ht.2.1]
      exact hvalid.1.positive

section New

variable {cols : Columns} {registry : Registry} {plan : Plan} {now : Time} {id : Nat}
  {seen : Trace} {inv : Invoice} {x : Issue} {w w' base : World}

theorem Issued.accounts_subset (h : Issued cols registry plan now id seen inv x) :
    x.accounts ⊆ seen := by
  rw [h.seen]
  intro e he
  simp [he]

/-- The lines of the new invoice. -/
theorem linesOf_new (hw : Constraints w.db) (heffect : SerialIssue cols w w' inv x) :
    w'.db.linesOf inv.id = x.entry.lines.map (InvoiceLine.row inv.id) := by
  refine linesOf_append heffect.lineItems fun l hl => ?_
  obtain ⟨r, hr, hid⟩ := hw.lineItems l hl
  rw [← hid]
  exact Nat.ne_of_lt (Nat.lt_of_lt_of_le (hw.invoices r hr).1 heffect.fresh)

/-- A ledger transaction that is inserted: nothing refers to it yet. -/
theorem posting_new (h : Issued cols registry plan now id seen inv x)
    (hchain : (billingEngine cols).SerialChain w seen base) (hposted : x.alreadyPosted = false) :
    w.db.sequences.transactions ≤ inv.ledgerTransactionId ∧
      (∃ row, ownTransactions ((billingEngine cols).writesOf x.posting) = [row] ∧
        row.id = inv.ledgerTransactionId ∧
        row.idempotencyKey = transactionKey x.period.tenantId x.period.label) ∧
      ownPostings ((billingEngine cols).writesOf x.posting) =
        x.transaction.postings.map (Posting.row inv.ledgerTransactionId) := by
  obtain ⟨hkey, -⟩ := postings_of_newTransaction h.transaction
  rcases h.posted with ⟨-, row, hid, hrowKey, hwrites⟩ | ⟨htrue, -⟩
  · have htransactions : ownTransactions ((billingEngine cols).writesOf x.posting) = [row] := by
      rw [hwrites]
      simp [ownTransactions]
    refine ⟨?_, ⟨row, htransactions, hid, hrowKey.trans hkey⟩, ?_⟩
    · rw [← hid]
      apply fresh_of_inserted hchain
      have hsub : (billingEngine cols).writesOf x.posting ⊆ (billingEngine cols).writesOf seen := by
        rw [h.seen]
        intro c hc
        simp [hc]
      obtain ⟨c, hc, hown⟩ := List.mem_filterMap.1
        (htransactions ▸ List.mem_singleton.2 rfl :
          row ∈ ownTransactions ((billingEngine cols).writesOf x.posting))
      exact List.mem_filterMap.2 ⟨c, hsub hc, hown⟩
    · rw [hwrites]
      simp [ownPostings]
  · rw [hposted] at htrue
    cases htrue

/-- The new invoice is booked by a new transaction. -/
theorem booked_new (h : Issued cols registry plan now id seen inv x)
    (hchain : (billingEngine cols).SerialChain w seen base)
    (hview : w' = (billingEngine cols).view base ((billingEngine cols).writesOf seen))
    (hw : Constraints w.db) (hw' : Constraints w'.db) (hposted : x.alreadyPosted = false) :
    InvoiceBooked w'.db (x.invoiceRow inv) := by
  have heffect : SerialIssue cols w w' inv x := hview ▸ serial_issue h hchain
  obtain ⟨hfresh, -, hpostings⟩ := posting_new h hchain hposted
  obtain ⟨-, hpostingsOf, hvalid⟩ := postings_of_newTransaction h.transaction
  have hlines := linesOf_new hw heffect
  have hrows : w'.db.linesOf (x.invoiceRow inv).id =
      x.items.map fun i => (lineOf x.period x.earliest i).row inv.id := by
    rw [show (x.invoiceRow inv).id = inv.id from rfl, hlines, h.entry.lines, List.map_map]
    rfl
  have hentries : entriesOf w'.db.postings inv.ledgerTransactionId =
      x.entry.transfers.flatMap Transfer.postings := by
    have hold : w.db.postings.filter (fun p => p.transactionId = inv.ledgerTransactionId) = [] := by
      rw [List.filter_eq_nil_iff]
      intro p hp
      obtain ⟨t, ht, hid⟩ := (hw.postings p hp).1
      have hlt := Nat.lt_of_lt_of_le (hw.transactionIds t ht) hfresh
      simpa [← hid] using Nat.ne_of_lt hlt
    rw [entriesOf, heffect.postings, hpostings, List.filter_append, hold, List.nil_append,
      ← hpostingsOf, List.filter_eq_self.2, List.map_map]
    · exact List.map_id _
    · refine List.forall_mem_map.2 fun q _ => ?_
      simp [Posting.row]
  have hname : ∀ {name : String} {kind : AccountKind} {account : AccountID},
      Ensured cols x.accounts name kind account → w'.db.accountName account = some name := by
    intro name kind account hensured
    obtain ⟨a, ha, rfl, rfl⟩ := account_of_ensured hchain (hensured.mono h.accounts_subset)
    rw [← hview] at ha
    exact accountName_of_mem hw' ha
  constructor
  · rw [hrows, chargeEntries_map _ _ (fun _ => rfl) (fun _ => rfl)]
    show (entriesOf w'.db.postings inv.ledgerTransactionId).map _ = _
    rw [hentries]
    exact entries_of_transfers (hname h.receivable)
      (h.entry.transfers.imp fun i t ht => ⟨ht.1, ht.2.1, hname ht.2.2⟩)
  · rw [Database.lineTotal, hrows, List.map_map]
    exact h.entry.total
  · rw [hrows, List.map_map]
    exact (rate_spec h.rated).nodup
  · rw [hrows]
    intro line hline hzero
    obtain ⟨i, hi, rfl⟩ := List.mem_map.1 hline
    have hcosts : i.amount ≠ 0 := hzero
    exact positive_of_transfers h.entry.transfers hvalid i
      (List.mem_filter.2 ⟨hi, by simpa using hcosts⟩)

end New

/-- Invoices and transactions match, and the keys in the ledger are those of closed
periods. -/
structure Booked (w : World) : Prop where
  constraints : Constraints w.db
  keys : ∀ t ∈ w.db.transactions, ∃ p ∈ w.db.periods, p.state = .closed ∧
    transactionKey p.tenantId p.label = t.idempotencyKey
  booked : ∀ row ∈ w.db.invoices, InvoiceBooked w.db row
  distinct : (w.db.invoices.map InvoiceRow.ledgerTransactionId).Nodup

namespace Booked

variable {cols : Columns} {w w' : World}

theorem start (haccounts : w.db.accounts = []) (htransactions : w.db.transactions = [])
    (hpostings : w.db.postings = []) (hinvoices : w.db.invoices = [])
    (hlineItems : w.db.lineItems = []) : Booked w := by
  refine ⟨⟨?_, ?_, ?_, ?_, ?_, ?_⟩, ?_, ?_, ?_⟩
  · rw [haccounts]
    exact List.nodup_nil
  · rw [haccounts]
    exact nofun
  · rw [htransactions]
    exact nofun
  · rw [hpostings]
    exact nofun
  · rw [hinvoices]
    exact nofun
  · rw [hlineItems]
    exact nofun
  · rw [htransactions]
    exact nofun
  · rw [hinvoices]
    exact nofun
  · rw [hinvoices]
    exact List.nodup_nil

/-- Nothing has happened to the ledger or the invoices. -/
theorem same (h : Booked w) (hw' : Constraints w'.db) (haccounts : w'.db.accounts = w.db.accounts)
    (htransactions : w'.db.transactions = w.db.transactions)
    (hpostings : w'.db.postings = w.db.postings) (hinvoices : w'.db.invoices = w.db.invoices)
    (hlineItems : w'.db.lineItems = w.db.lineItems) (hperiods : w.db.periods ⊆ w'.db.periods) :
    Booked w' := by
  refine ⟨hw', ?_, ?_, ?_⟩
  · rw [htransactions]
    intro t ht
    obtain ⟨p, hp, hclosed⟩ := h.keys t ht
    exact ⟨p, hperiods hp, hclosed⟩
  · rw [hinvoices]
    intro row hrow
    exact (h.booked row hrow).mono h.constraints (haccounts.trans (List.append_nil _).symm)
      (hpostings.trans (List.append_nil _).symm) nofun
      (hlineItems.trans (List.append_nil _).symm) nofun
  · rw [hinvoices]
    exact h.distinct

/-- A period that is closed stays closed, under its key. -/
theorem closed_of_close {periods : List Period} {p : Period} {id : Nat} {storedAt : Time}
    (hp : p ∈ periods) (hclosed : p.state = .closed ∨ p.id = id) :
    ∃ q ∈ periods.map (Period.close id storedAt), q.state = .closed ∧
      transactionKey q.tenantId q.label = transactionKey p.tenantId p.label := by
  refine ⟨p.close id storedAt, List.mem_map_of_mem hp, ?_⟩
  rw [Period.close]
  split
  · exact ⟨rfl, rfl⟩
  · rename_i hid
    exact ⟨hclosed.resolve_right hid, rfl⟩

/-- A `Close` that issues an invoice. -/
theorem close (h : Booked w) {registry : Registry} {plan : Plan} {now : Time} {id : Nat}
    {seen : Trace} {inv : Invoice} {x : Issue} {base : World}
    (hapart : KeysApart w (.close registry plan now id))
    (hissued : Issued cols registry plan now id seen inv x)
    (hchain : (billingEngine cols).SerialChain w seen base)
    (hview : w' = (billingEngine cols).view base ((billingEngine cols).writesOf seen))
    (hw' : Constraints w'.db) : Booked w' := by
  have heffect : SerialIssue cols w w' inv x := hview ▸ serial_issue hissued hchain
  have hposted : x.alreadyPosted = false := by
    rw [← Bool.not_eq_true]
    intro htrue
    obtain ⟨t, ht, hkey, -⟩ := found_before hissued hchain htrue
    obtain ⟨q, hq, hclosed, hqkey⟩ := h.keys t ht
    exact hapart x.period heffect.period hissued.period_id hissued.isOpen q hq hclosed
      (hqkey.trans hkey)
  obtain ⟨hfresh, ⟨row, hrow, hrowId, hrowKey⟩, hpostings⟩ := posting_new hissued hchain hposted
  have hless : ∀ r ∈ w.db.invoices, r.ledgerTransactionId < inv.ledgerTransactionId := by
    intro r hr
    obtain ⟨-, t, ht, hid⟩ := h.constraints.invoices r hr
    rw [← hid]
    exact Nat.lt_of_lt_of_le (h.constraints.transactionIds t ht) hfresh
  refine ⟨hw', ?_, ?_, ?_⟩
  · rw [heffect.transactions, heffect.periods, hrow]
    intro t ht
    rcases List.mem_append.1 ht with ht | ht
    · obtain ⟨p, hp, hclosed, hkey⟩ := h.keys t ht
      rw [← hkey]
      exact closed_of_close hp (.inl hclosed)
    · cases List.mem_singleton.1 ht
      rw [hrowKey]
      exact closed_of_close heffect.period (.inr rfl)
  · rw [heffect.invoices]
    intro r hr
    rcases List.mem_append.1 hr with hr | hr
    · refine (h.booked r hr).mono h.constraints heffect.accounts heffect.postings ?_
        heffect.lineItems ?_
      · rw [hpostings]
        refine List.forall_mem_map.2 fun q _ => ?_
        exact Nat.ne_of_gt (hless r hr)
      · refine List.forall_mem_map.2 fun line _ => ?_
        exact Nat.ne_of_gt
          (Nat.lt_of_lt_of_le (h.constraints.invoices r hr).1 heffect.fresh)
    · cases List.mem_singleton.1 hr
      exact booked_new hissued hchain hview h.constraints hw' hposted
  · rw [heffect.invoices, List.map_append, List.nodup_append]
    refine ⟨h.distinct, List.nodup_singleton _, ?_⟩
    intro t ht t' ht'
    obtain ⟨r, hr, rfl⟩ := List.mem_map.1 ht
    cases List.mem_singleton.1 ht'
    exact Nat.ne_of_lt (hless r hr)

theorem step {decode : Decoder} (h : Booked w) {call : SerialCall} {new : List Happening}
    (hapart : KeysApart w call) (hstep : SerialStep cols decode w call new w') : Booked w' := by
  have hw' := constraints_step hstep h.constraints
  cases hstep with
  | append record =>
      exact h.same hw' rfl rfl rfl rfl rfl (List.Subset.refl _)
  | batch c start stop hbatch =>
      obtain ⟨rows, heffect⟩ := batch_effect hbatch
      rw [heffect.eq] at hw' ⊢
      exact h.same hw' rfl rfl rfl rfl rfl (List.Subset.refl _)
  | ensurePeriod tenant label start finish hensure =>
      obtain ⟨new, heffect⟩ := ensure_effect hensure
      rw [heffect.eq] at hw' ⊢
      exact h.same hw' rfl rfl rfl rfl rfl (List.subset_append_left _ _)
  | close registry plan now id hclose =>
      rcases close_cases hclose with
        ⟨inv, x, seen, base, -, hissued, hchain, hview⟩ | ⟨-, hsame⟩
      · exact h.close hapart hissued hchain hview hw'
      · exact h.same hw' hsame.accounts hsame.transactions hsame.postings hsame.invoices
          hsame.lineItems (hsame.periods ▸ List.Subset.refl _)

end Booked

/-- In every serial run that starts with an empty ledger and closes no open period under the
key of a closed one, invoices and ledger transactions match one to one. -/
theorem invoices_match_ledger {cols : Columns} {decode : Decoder}
    {start w : World} {history : List Happening} (haccounts : start.db.accounts = [])
    (htransactions : start.db.transactions = []) (hpostings : start.db.postings = [])
    (hinvoices : start.db.invoices = []) (hlineItems : start.db.lineItems = [])
    (hrun : SerialRunWhere cols decode KeysApart start history w) :
    (∀ row ∈ w.db.invoices, InvoiceMatches w.db row) ∧
      (w.db.invoices.map InvoiceRow.ledgerTransactionId).Nodup := by
  have hbooked : Booked w := by
    induction hrun with
    | refl =>
        exact .start haccounts htransactions hpostings hinvoices hlineItems
    | step _ hapart hstep ih => exact ih.step hapart hstep
  exact ⟨fun row hrow => (hbooked.booked row hrow).matches, hbooked.distinct⟩

/-- Two periods are closed one after the other, each under a key of its own. -/
theorem invoices_match_ledger_sample :
    let w := (sampleCall (sampleClose 2) (sampleCall (sampleBatch 1) sampleClosed).2).2
    w.db.invoices = [⟨1, 1, "a", 5, 1, 30000⟩, ⟨2, 2, "a", 5, 2, 30000⟩] ∧
      (∀ row ∈ w.db.invoices, InvoiceMatches w.db row) ∧
      (w.db.invoices.map InvoiceRow.ledgerTransactionId).Nodup := by
  have hone := sampleClosed_reachable (fun _ _ _ _ _ => trivial) (fun _ _ _ _ => trivial)
    (by decide +kernel : KeysApart _ _)
  have hbatch := sampleRun_batch 1 ⟨1, 1, 0, 0, 0⟩ _ hone trivial (by decide +kernel) rfl
  have htwo := sampleRun_close 2 (.issued (sampleInvoice 2 true)) _ hbatch (by decide +kernel)
    (by decide +kernel) rfl
  exact ⟨by decide +kernel, invoices_match_ledger rfl rfl rfl rfl rfl htwo⟩

section Shared

/-- Two tenants, and two periods with one key. -/
def sharedOpen : World :=
  (sampleCall (ensurePeriod "a:b" "c" 1000 10000)
    (sampleCall (ensurePeriod "a" "b:c" 1000 10000) sampleStart).2).2

/-- Their events. -/
def sharedEvents : World :=
  (sampleCall (sampleBatch 2) (sampleCall (sampleBatch 1)
    (sampleCall (sampleBatch 0) sharedOpen).2).2).2

/-- Both periods are closed. -/
def sharedClosed : World :=
  (sampleCall (sampleClose 2) (sampleCall (sampleClose 1) sharedEvents).2).2

theorem sharedClosed_reachable :
    ∃ history, SerialRun postgresColumns sampleDecode sampleStart history sharedClosed := by
  have hstart : SerialRun postgresColumns sampleDecode sampleStart [] sampleStart := .refl
  have hone := sampleRun_ensure "a" "b:c" 1000 10000 ⟨1, "a", "b:c", 1000, 10000, .open, none⟩
    hstart trivial (by decide +kernel)
  have htwo := sampleRun_ensure "a:b" "c" 1000 10000 ⟨2, "a:b", "c", 1000, 10000, .open, none⟩
    hone trivial (by decide +kernel)
  have hfirst := sampleRun_batch 0 ⟨1, 1, 0, 0, 0⟩ _ htwo trivial (by decide +kernel) rfl
  have hsecond := sampleRun_batch 1 ⟨1, 1, 0, 0, 0⟩ _ hfirst trivial (by decide +kernel) rfl
  have hthird := sampleRun_batch 2 ⟨1, 1, 0, 0, 0⟩ _ hsecond trivial (by decide +kernel) rfl
  have hclose := sampleRun_close 1
    (.issued ⟨1, 1, "a", 10, 1, 30000, [⟨"m", 2000000000, 10, false⟩]⟩) _ hthird trivial
    (by decide +kernel) rfl
  exact ⟨_, sampleRun_close 2
    (.issued ⟨2, 2, "a:b", 5, 1, 30000, [⟨"m", 1000000000, 5, false⟩]⟩) _ hclose trivial
    (by decide +kernel) rfl⟩

/-- Two periods share a key: the second invoice refers to the transaction of the first, and
nothing is posted for its tenant. -/
theorem shared_transaction :
    (∃ history, SerialRun postgresColumns sampleDecode sampleStart history sharedClosed) ∧
      sharedClosed.db.invoices =
        [⟨1, 1, "a", 10, 1, 30000⟩, ⟨2, 2, "a:b", 5, 1, 30000⟩] ∧
      ¬ (sharedClosed.db.invoices.map InvoiceRow.ledgerTransactionId).Nodup ∧
      sharedClosed.db.posted 1 (receivableAccount "a:b") = 0 :=
  ⟨sharedClosed_reachable, by decide +kernel, by decide +kernel, by decide +kernel⟩

end Shared

end LedgerLine.Billing
