import LedgerLine.Billing.Invoicing
import Mathlib.Data.List.Dedup

/-!
# What a Close has done

A `Close` that commits went through its statements in one of two ways.  On a closed period
it locked the period and read the invoice (`Returned`).  On an open period it issued an
invoice, and `Issued` says what each of its statements saw and changed, and how the lines,
the transfers and the total come from what the gathering SELECT saw.

Nothing here depends on what other transactions do in between: the facts are about the
answers the code got.  Main facts: `path_close`, and `Issued.writes`, all changes of such a
call in order.
-/

namespace LedgerLine.Billing

variable {cols : Columns}

section Usage

theorem quantityOf_cons (r : EventRow) (rows : List EventRow) (meter : String) :
    quantityOf (r :: rows) meter =
      (if r.meter = meter then r.quantity else 0) + quantityOf rows meter := by
  by_cases h : r.meter = meter <;> simp [quantityOf, h]

theorem quantityOf_append (rows rows' : List EventRow) (meter : String) :
    quantityOf (rows ++ rows') meter = quantityOf rows meter + quantityOf rows' meter := by
  simp [quantityOf]

variable {rows : List EventRow} {earliest : String → Time} {usages : List Usage}

theorem mem_metersOf {meter : String} :
    meter ∈ metersOf cols rows ↔ ∃ r ∈ rows, r.meter = meter := by
  rw [metersOf, List.mem_insertionSort, List.mem_dedup, List.mem_map]

theorem nodup_metersOf (rows : List EventRow) : (metersOf cols rows).Nodup :=
  (List.perm_insertionSort _ _).nodup_iff.2 (List.nodup_dedup _)

/-- The usage that is gathered: one entry for each meter, with exactly its sum, and its
earliest occurrence. -/
structure Gathered (cols : Columns) (rows : List EventRow) (usages : List Usage)
    (earliest : String → Time) : Prop where
  meters : usages.map Usage.meter = metersOf cols rows
  quantity : ∀ u ∈ usages, u.quantity.toInt = quantityOf rows u.meter
  earliest : ∀ r ∈ rows, earliest r.meter = earliestOf rows r.meter

theorem usageFrom_spec {f : String → String} {g : String → Time} {meters : List String}
    {usages' : List Usage} {earliest' : String → Time} (hnodup : meters.Nodup)
    (h : usageFrom usages earliest (meters.map fun m => (m, f m, g m)) = .ok (usages', earliest')) :
    ∃ new, usages' = usages ++ new ∧ new.map Usage.meter = meters ∧
      (∀ u ∈ new, parseQuantity (f u.meter) = .ok u.quantity) ∧
      ∀ m, earliest' m = if m ∈ meters then g m else earliest m := by
  induction meters generalizing usages earliest with
  | nil =>
      cases h
      exact ⟨[], by simp, rfl, nofun, by simp⟩
  | cons meter meters ih =>
      obtain ⟨hnew, hnodup⟩ := List.nodup_cons.1 hnodup
      obtain ⟨quantity, hquantity, h⟩ := ok_of_bind h
      obtain ⟨new, husages, hmeters, hparse, hearliest⟩ := ih hnodup h
      refine ⟨⟨meter, quantity⟩ :: new, ?_, ?_, ?_, ?_⟩
      · rw [husages, List.append_assoc, List.singleton_append]
      · rw [List.map_cons, hmeters]
      · rw [List.forall_mem_cons]
        exact ⟨mapError_eq_ok_iff.1 hquantity, hparse⟩
      · intro m
        rw [hearliest m]
        by_cases hm : m = meter
        · subst hm
          simp [hnew]
        · simp [hm]

theorem gathered_of_usageFrom
    (h : usageFrom [] (fun _ => 0) (usageRows cols rows) = .ok (usages, earliest)) :
    Gathered cols rows usages earliest := by
  obtain ⟨new, husages, hmeters, hparse, hearliest⟩ :=
    usageFrom_spec (nodup_metersOf rows) h
  rw [List.nil_append] at husages
  subst husages
  constructor
  · exact hmeters
  · exact fun u hu => toInt_of_parseQuantity (hparse u hu)
  · intro r hr
    rw [hearliest, if_pos (mem_metersOf.2 ⟨r, hr, rfl⟩)]

/-- The usage of a meter is the sum of its events. -/
theorem Gathered.meterUsage_eq (h : Gathered cols rows usages earliest) {meter : String}
    (hmeter : meter ∈ usages.map Usage.meter) :
    meterUsage usages meter = quantityOf rows meter := by
  have hnodup : (usages.map Usage.meter).Nodup := by
    rw [h.meters]
    exact nodup_metersOf rows
  obtain ⟨u, hu, rfl⟩ := List.mem_map.1 hmeter
  rw [← h.quantity u hu]
  clear h hmeter
  induction usages with
  | nil => cases hu
  | cons v us ih =>
      obtain ⟨hnew, hnodup⟩ := List.nodup_cons.1 hnodup
      rw [meterUsage_cons]
      rcases List.mem_cons.1 hu with rfl | hu
      · have hrest : meterUsage us u.meter = 0 := by
          have hnone : us.filter (fun v => v.meter = u.meter) = [] := by
            rw [List.filter_eq_nil_iff]
            intro v hv
            have hne : v.meter ≠ u.meter := fun heq => hnew (heq ▸ List.mem_map_of_mem hv)
            simp [hne]
          rw [meterUsage, hnone]
          rfl
        rw [if_pos rfl, hrest, Int.add_zero]
      · have hne : v.meter ≠ u.meter := fun heq => hnew (heq ▸ List.mem_map_of_mem hu)
        rw [if_neg hne, ih hnodup hu, Int.zero_add]

/-- The same for any meter. -/
theorem Gathered.meterUsage_all (h : Gathered cols rows usages earliest) (meter : String) :
    meterUsage usages meter = quantityOf rows meter := by
  by_cases hmeter : meter ∈ usages.map Usage.meter
  · exact h.meterUsage_eq hmeter
  · have hrows : rows.filter (fun r => r.meter = meter) = [] := by
      rw [List.filter_eq_nil_iff]
      intro r hr hsame
      rw [h.meters, mem_metersOf] at hmeter
      exact hmeter ⟨r, hr, of_decide_eq_true hsame⟩
    have husages : usages.filter (fun u => u.meter = meter) = [] := by
      rw [List.filter_eq_nil_iff]
      intro u hu hsame
      exact hmeter (List.mem_map.2 ⟨u, hu, of_decide_eq_true hsame⟩)
    rw [meterUsage, quantityOf, hrows, husages]
    rfl

end Usage

section Statements

variable {seen : Trace} {before : Time} {tenant : String} {r : Except StmtErr Unit} {invoice : Nat}

theorem path_lockPeriod {id : Nat} {r : Except StmtErr (Option Period)}
    (h : (billingEngine cols).PathTo (lockPeriod id) seen r) :
    ∃ w, seen = [(.lockPeriod id, w)] ∧ r = (execLockPeriod id w.db).1 :=
  Engine.path_perform h

theorem path_unbilledUsage {r : Except StmtErr (List (String × String × Time))}
    (h : (billingEngine cols).PathTo (unbilledUsage tenant before) seen r) :
    ∃ w, seen = [(.unbilledUsage tenant before, w)] ∧
      r = .ok (usageRows cols (w.db.unbilled tenant before)) :=
  Engine.path_perform h

theorem path_insertInvoice {period : Period} {total : Amount} {ledgerId : Nat} {issuedAt : Time}
    {r : Except StmtErr Nat}
    (h : (billingEngine cols).PathTo (insertInvoice period total ledgerId issuedAt) seen r) :
    ∃ w, seen = [(.insertInvoice period.id period.tenantId total ledgerId issuedAt, w)] ∧
      r = (execInsertInvoice cols period.id period.tenantId total ledgerId issuedAt w.db).1 :=
  Engine.path_perform h

theorem path_insertLineItem {line : InvoiceLine}
    (h : (billingEngine cols).PathTo (insertLineItem invoice line) seen r) :
    ∃ w, seen = [(.insertLineItem invoice line.meter (quantityString line.quantity)
        line.amount, w)] ∧
      r = (execInsertLineItem cols invoice line.meter (quantityString line.quantity) line.amount
        w.db).1 :=
  Engine.path_perform h

theorem path_findUnbilled {r : Except StmtErr (List (String × String))}
    (h : (billingEngine cols).PathTo (findUnbilled tenant before) seen r) :
    ∃ w, seen = [(.findUnbilled tenant before, w)] ∧
      r = .ok ((w.db.unbilled tenant before).map EventRow.key) :=
  Engine.path_perform h

theorem path_markFound {found : List (String × String)}
    (h : (billingEngine cols).PathTo (markFound found invoice tenant before) seen r) :
    ∃ w, seen = [(.markFound found invoice tenant before, w)] :=
  (Engine.path_perform h).imp fun _ => And.left

theorem path_closePeriod {id : Nat} {closedAt : Time}
    (h : (billingEngine cols).PathTo (closePeriod id closedAt) seen r) :
    ∃ w, seen = [(.closePeriod id closedAt, w)] ∧
      r = (execClosePeriod cols id closedAt w.db).1 :=
  Engine.path_perform h

theorem path_selectInvoice {period : Nat} {r : Except StmtErr (Option InvoiceRow)}
    (h : (billingEngine cols).PathTo (selectInvoiceByPeriod period) seen r) :
    ∃ w, seen = [(.selectInvoiceByPeriod period, w)] ∧
      r = .ok (w.db.invoices.find? fun row => row.periodId = period) :=
  Engine.path_perform h

theorem path_selectLineItems {r : Except StmtErr (List (String × String × Amount))}
    (h : (billingEngine cols).PathTo (selectLineItems invoice) seen r) :
    ∃ w, seen = [(.selectLineItems invoice, w)] ∧ r = .ok (lineItemRows cols invoice w.db) :=
  Engine.path_perform h

theorem path_ensureAccountStmt {name : String} {kind : AccountKind}
    {r : Except StmtErr (AccountID × AccountKind)}
    (h : (billingEngine cols).PathTo (ensureAccountStmt name kind) seen r) :
    ∃ w, seen = [(.ensureAccount name kind, w)] ∧
      r = (execEnsureAccount cols name kind w.db).1 :=
  Engine.path_perform h

end Statements

section Accounts

/-- `ensureAccount` is among the statements and returned `id`. -/
def Ensured (cols : Columns) (seen : Trace) (name : String) (kind : AccountKind)
    (id : AccountID) : Prop :=
  ∃ w, (.ensureAccount name kind, w) ∈ seen ∧
    (execEnsureAccount cols name kind w.db).1 = .ok (id, kind)

variable {earliest : String → Time} {seen : Trace}

theorem Ensured.mono {seen' : Trace} {name : String} {kind : AccountKind} {id : AccountID}
    (h : Ensured cols seen name kind id) (hsub : seen ⊆ seen') :
    Ensured cols seen' name kind id := by
  obtain ⟨w, hmem, hanswer⟩ := h
  exact ⟨w, hsub hmem, hanswer⟩

/-- Only accounts are looked up or created. -/
def OnlyAccounts (seen : Trace) : Prop :=
  ∀ e ∈ seen, ∃ name kind, e.1 = .ensureAccount name kind

theorem path_ensureAccount {name : String} {kind : AccountKind} {id : AccountID}
    (h : (billingEngine cols).PathTo (ensureAccount name kind) seen (.ok id)) :
    ∃ w, seen = [(.ensureAccount name kind, w)] ∧
      (execEnsureAccount cols name kind w.db).1 = .ok (id, kind) := by
  rw [ensureAccount] at h
  split at h
  · cases (Engine.path_done h).2
  · obtain ⟨first, rest, a, rfl, hfirst, hrest⟩ := Engine.path_bind_ok h fun e => ⟨_, rfl, by simp⟩
    obtain ⟨w, rfl, hr⟩ := path_ensureAccountStmt hfirst
    obtain ⟨id', existing⟩ := a
    simp only at hrest
    split at hrest
    · cases (Engine.path_done hrest).2
    · rename_i hkind
      obtain ⟨rfl, hid⟩ := Engine.path_done hrest
      cases hid
      rw [ne_eq, not_not] at hkind
      subst hkind
      exact ⟨w, rfl, hr.symm⟩

/-- The transfer of a priced item, between accounts that were looked up. -/
def TransferOf (cols : Columns) (seen : Trace) (receivable : AccountID) (item : LineItem)
    (t : Transfer) : Prop :=
  t.debit = receivable ∧ t.amount = item.amount ∧
    Ensured cols seen (revenueAccount item.meter) .revenue t.credit

/-- How an entry comes from priced items. -/
structure EntryOf (cols : Columns) (seen : Trace) (period : Period) (earliest : String → Time)
    (receivable : AccountID) (items : List LineItem) (entry : Entry) : Prop where
  accounts : OnlyAccounts seen
  /-- A transfer for each item that costs something. -/
  transfers : List.Forall₂ (TransferOf cols seen receivable)
    (items.filter fun i => i.amount ≠ 0) entry.transfers
  total : entry.total.toInt = (items.map fun i => i.amount.toInt).sum
  lines : entry.lines = items.map (lineOf period earliest)

theorem path_entryFrom {period : Period} {earliest : String → Time} {receivable : AccountID}
    {entry entry' : Entry} {items : List LineItem} {seen : Trace}
    (h : (billingEngine cols).PathTo (entryFrom period earliest receivable entry items) seen
      (.ok entry')) :
    OnlyAccounts seen ∧
      (∃ transfers, entry'.transfers = entry.transfers ++ transfers ∧
        List.Forall₂ (TransferOf cols seen receivable) (items.filter fun i => i.amount ≠ 0)
          transfers) ∧
      entry'.total.toInt = entry.total.toInt + (items.map fun i => i.amount.toInt).sum ∧
      entry'.lines = entry.lines ++ items.map (lineOf period earliest) := by
  induction items generalizing entry seen with
  | nil =>
      obtain ⟨rfl, hentry⟩ := Engine.path_done h
      cases hentry
      exact ⟨nofun, ⟨[], by simp, .nil⟩, by simp, by simp⟩
  | cons item items ih =>
      rw [entryFrom] at h
      split at h
      · rename_i hzero
        obtain ⟨haccounts, htransfers, htotal, hlines⟩ := ih h
        refine ⟨haccounts, ?_, ?_, ?_⟩
        · simpa [hzero] using htransfers
        · rw [htotal]
          simp [hzero]
        · rw [hlines]
          simp
      · rename_i hzero
        obtain ⟨first, rest, revenue, rfl, hfirst, hrest⟩ := Engine.path_bind_ok h
          fun e => ⟨_, rfl, by simp⟩
        obtain ⟨w, rfl, hanswer⟩ := path_ensureAccount hfirst
        simp only at hrest
        split at hrest
        · cases (Engine.path_done hrest).2
        · rename_i next hadd
          obtain ⟨haccounts, ⟨transfers, htransfers, hall⟩, htotal, hlines⟩ := ih hrest
          refine ⟨?_, ⟨⟨receivable, revenue, item.amount⟩ :: transfers, ?_, ?_⟩, ?_, ?_⟩
          · exact List.forall_mem_append.2 ⟨List.forall_mem_singleton.2 ⟨_, _, rfl⟩, haccounts⟩
          · rw [htransfers, List.append_assoc, List.singleton_append]
          · have hfilter : (item :: items).filter (fun i => i.amount ≠ 0) =
                item :: items.filter fun i => i.amount ≠ 0 :=
              List.filter_cons_of_pos (by simpa using hzero)
            rw [hfilter]
            refine .cons ⟨rfl, rfl, w, List.mem_append_left _ (List.mem_singleton.2 rfl),
              hanswer⟩ (hall.imp ?_)
            intro i t ht
            exact ⟨ht.1, ht.2.1, ht.2.2.mono (List.subset_append_right _ _)⟩
          · rw [htotal, Amount.toInt_of_add hadd, List.map_cons, List.sum_cons]
            omega
          · rw [hlines, List.append_assoc, List.singleton_append, List.map_cons]

theorem path_buildEntry {period : Period} {items : List LineItem} {entry : Entry}
    (h : (billingEngine cols).PathTo (buildEntry period items earliest) seen (.ok entry)) :
    ∃ receivable, Ensured cols seen (receivableAccount period.tenantId) .asset receivable ∧
      EntryOf cols seen period earliest receivable items entry := by
  obtain ⟨first, rest, receivable, rfl, hfirst, hrest⟩ := Engine.path_bind_ok h
    fun e => ⟨_, rfl, nofun⟩
  obtain ⟨w, rfl, hanswer⟩ := path_ensureAccount hfirst
  obtain ⟨haccounts, ⟨transfers, htransfers, hall⟩, htotal, hlines⟩ := path_entryFrom hrest
  refine ⟨receivable, ⟨w, List.mem_append_left _ (List.mem_singleton.2 rfl), hanswer⟩, ?_⟩
  constructor
  · exact List.forall_mem_append.2 ⟨List.forall_mem_singleton.2 ⟨_, _, rfl⟩, haccounts⟩
  · rw [htransfers]
    refine hall.imp fun i t ht => ?_
    exact ⟨ht.1, ht.2.1, ht.2.2.mono (List.subset_append_right _ _)⟩
  · rw [htotal]
    simp
  · rw [hlines]
    rfl

end Accounts

section Issue

/-- The row of a line of an invoice. -/
def InvoiceLine.row (invoice : Nat) (line : InvoiceLine) : LineItemRow :=
  ⟨invoice, line.meter, line.quantity.toInt, line.amount⟩

variable {seen : Trace} {result : Closed} {now : Time} {period : Period} {entry : Entry} {id : Nat}

theorem path_insertLineItems {invoice : Nat} {lines : List InvoiceLine}
    (hlines : ∀ line ∈ lines, 0 ≤ line.quantity.toInt)
    (h : (billingEngine cols).PathTo (insertLineItems invoice lines) seen (.ok ())) :
    (billingEngine cols).writesOf seen = lines.map fun line => .lineItem (line.row invoice) := by
  induction lines generalizing seen with
  | nil =>
      obtain ⟨rfl, -⟩ := Engine.path_done h
      rfl
  | cons line lines ih =>
      rw [List.forall_mem_cons] at hlines
      obtain ⟨first, rest, u, rfl, hfirst, hrest⟩ := Engine.path_bind_ok h fun e => ⟨_, rfl, nofun⟩
      obtain ⟨w, rfl, hr⟩ := path_insertLineItem hfirst
      rw [Engine.writesOf_append, ih hlines.2 hrest, Engine.writesOf_cons, Engine.writesOf_nil,
        billingEngine_exec]
      simp only [BillingStmt.exec]
      rcases execInsertLineItem_cases cols invoice line.meter (quantityString line.quantity)
        line.amount w.db with hexec | ⟨nanos, hnanos, hexec⟩ <;> rw [hexec] at hr ⊢
      · cases hr
      · rw [cols.numeric_quantityString _ hlines.1] at hnanos
        cases hnanos
        rfl

theorem path_markBilled {invoice : Nat} {tenant : String} {before : Time} {r : Except StmtErr Unit}
    (h : (billingEngine cols).PathTo (markBilled invoice tenant before) seen r) :
    ∃ found marked, seen = [(.findUnbilled tenant before, found),
      (.markFound ((found.db.unbilled tenant before).map EventRow.key) invoice tenant before,
        marked)] := by
  obtain ⟨first, rest, r, rfl, hfirst, hrest⟩ := Engine.path_bind h
  obtain ⟨found, rfl, rfl⟩ := path_findUnbilled hfirst
  obtain ⟨marked, rfl⟩ := path_markFound hrest
  exact ⟨found, marked, rfl⟩

/-- What a `Close` that issues an invoice computes, and what its statements see. -/
structure Issue where
  period : Period
  usages : List Usage
  earliest : String → Time
  items : List LineItem
  receivable : AccountID
  entry : Entry
  transaction : Transaction
  alreadyPosted : Bool
  /-- `issued_at` and `closed_at` as they are stored. -/
  storedAt : Time
  locked : World
  gathered : World
  accounts : Trace
  posting : Trace
  inserted : World
  lines : Trace
  found : World
  marked : World
  closed : World

namespace Issue

variable (x : Issue)

/-- The events that are gathered. -/
def gatheredRows : List EventRow :=
  x.gathered.db.unbilled x.period.tenantId x.period.finish

/-- The keys of the events that `markBilled` finds. -/
def foundKeys : List (String × String) :=
  (x.found.db.unbilled x.period.tenantId x.period.finish).map EventRow.key

/-- The events that are marked. -/
def markedRows : List EventRow :=
  Billing.markedRows x.foundKeys x.period.tenantId x.period.finish x.marked.db

/-- The statements up to the gathering SELECT. -/
def opening : Trace :=
  [(.lockPeriod x.period.id, x.locked),
    (.unbilledUsage x.period.tenantId x.period.finish, x.gathered)]

/-- The insertion of the invoice and its lines. -/
def writing (inv : Invoice) (now : Time) : Trace :=
  (.insertInvoice x.period.id x.period.tenantId x.entry.total inv.ledgerTransactionId now,
    x.inserted) :: x.lines

/-- The statements after that. -/
def ending (inv : Invoice) (now : Time) : Trace :=
  [(.findUnbilled x.period.tenantId x.period.finish, x.found),
    (.markFound x.foundKeys inv.id x.period.tenantId x.period.finish, x.marked),
    (.closePeriod x.period.id now, x.closed)]

/-- The row of the invoice. -/
def invoiceRow (inv : Invoice) : InvoiceRow :=
  ⟨inv.id, x.period.id, x.period.tenantId, x.entry.total, inv.ledgerTransactionId, x.storedAt⟩

/-- The changes that mark events. -/
def marks (inv : Invoice) : List Write :=
  x.markedRows.map fun r => .bill r.key inv.id

/-- The changes that close the period. -/
def closes : List Write :=
  (x.closed.db.periods.filter fun p => p.id = x.period.id).map
    fun p => .closePeriod p.id x.storedAt

/-- The changes before events are marked. -/
def beforeMark (cols : Columns) (inv : Invoice) : List Write :=
  .touchPeriod x.period.key :: (billingEngine cols).writesOf x.accounts ++
    (billingEngine cols).writesOf x.posting ++
    .invoice (x.invoiceRow inv) :: x.entry.lines.map fun line => .lineItem (line.row inv.id)

end Issue

/-- The statements from the insertion of the invoice on. -/
structure Ended (cols : Columns) (now : Time) (inv : Invoice) (x : Issue) : Prop where
  invoice : inv = ⟨x.inserted.db.sequences.invoices, x.period.id, x.period.tenantId,
    x.entry.total, inv.ledgerTransactionId, now, x.entry.lines⟩
  noInvoice : ∀ r ∈ x.inserted.db.invoices, r.periodId ≠ x.period.id
  storedAt : cols.timestamptz now = some x.storedAt
  inserted : execInsertInvoice cols x.period.id x.period.tenantId x.entry.total
    inv.ledgerTransactionId now x.inserted.db = (.ok inv.id, [.invoice (x.invoiceRow inv)])
  lines : (billingEngine cols).writesOf x.lines =
    x.entry.lines.map fun line => .lineItem (line.row inv.id)
  closed : execClosePeriod cols x.period.id now x.closed.db = (.ok (), x.closes)

theorem path_issue {ledgerId : Nat} (hlines : ∀ line ∈ entry.lines, 0 ≤ line.quantity.toInt)
    (h : (billingEngine cols).PathTo (issue period entry ledgerId now) seen (.commit result)) :
    ∃ inv storedAt inserted lines found marked closed, result = .issued inv ∧
      inv.ledgerTransactionId = ledgerId ∧
      ∀ x : Issue, x.period = period → x.entry = entry → x.storedAt = storedAt →
        x.inserted = inserted → x.lines = lines → x.found = found → x.marked = marked →
        x.closed = closed →
        seen = x.writing inv now ++ x.ending inv now ∧ Ended cols now inv x := by
  obtain ⟨first, rest, invoice, rfl, hfirst, hrest⟩ := Engine.path_bind_ok h
    fun e => ⟨_, rfl, nofun⟩
  obtain ⟨inserted, rfl, hr⟩ := path_insertInvoice hfirst
  obtain ⟨lines, rest, u, rfl, hsecond, hrest⟩ := Engine.path_bind_ok hrest fun e => ⟨_, rfl, nofun⟩
  have hlineWrites := path_insertLineItems hlines hsecond
  obtain ⟨third, rest, u, rfl, hthird, hlast⟩ := Engine.path_bind_ok hrest fun e => ⟨_, rfl, nofun⟩
  obtain ⟨found, marked, rfl⟩ := path_markBilled hthird
  obtain ⟨fourth, rest, u, rfl, hfourth, hdone⟩ := Engine.path_bind_ok hlast
    fun e => ⟨_, rfl, nofun⟩
  obtain ⟨closed, rfl, hr'⟩ := path_closePeriod hfourth
  obtain ⟨rfl, hresult⟩ := Engine.path_done hdone
  cases hresult
  rcases execInsertInvoice_cases cols period.id period.tenantId entry.total ledgerId now inserted.db
    with hexec | ⟨hnone, storedAt, hstored, hexec⟩
  · rw [hexec] at hr
    cases hr
  rcases execClosePeriod_cases cols period.id now closed.db with
    hexec' | ⟨storedAt', hstored', hexec'⟩
  · rw [hexec'] at hr'
    cases hr'
  rw [hstored] at hstored'
  cases hstored'
  have hid : invoice = inserted.db.sequences.invoices := by
    rw [hexec] at hr
    cases hr
    rfl
  refine ⟨_, storedAt, inserted, lines, found, marked, closed, rfl, rfl, ?_⟩
  intro x hperiod hentry hat hinserted hxlines hfound hmarked hclosed
  subst hperiod hentry hat hinserted hxlines hfound hmarked hclosed
  refine ⟨by simp [Issue.writing, Issue.ending, Issue.foundKeys], ?_, hnone, hstored, ?_,
    hlineWrites, hexec'⟩
  · rw [hid]
  · rw [hexec, hid]
    rfl

/-- A `Close` that issued an invoice. -/
structure Issued (cols : Columns) (registry : Registry) (plan : Plan) (now : Time) (id : Nat)
    (seen : Trace) (inv : Invoice) (x : Issue) : Prop where
  seen : seen = x.opening ++ x.accounts ++ x.posting ++ x.writing inv now ++ x.ending inv now
  period_id : x.period.id = id
  locked : x.period ∈ x.locked.db.periods
  lock : execLockPeriod x.period.id x.locked.db = (.ok (some x.period), [.touchPeriod x.period.key])
  isOpen : x.period.state = .open
  gathered : Gathered cols x.gatheredRows x.usages x.earliest
  usages : x.usages ≠ []
  rated : rate x.usages plan registry = .ok x.items
  receivable : Ensured cols x.accounts (receivableAccount x.period.tenantId) .asset x.receivable
  entry : EntryOf cols x.accounts x.period x.earliest x.receivable x.items x.entry
  transfers : x.entry.transfers ≠ []
  transaction : newTransaction (transactionKey x.period.tenantId x.period.label) x.period.start
    (usageDescription x.period) x.entry.transfers = .ok x.transaction
  posted : PostedAs cols x.transaction inv.ledgerTransactionId x.alreadyPosted x.posting
  ended : Ended cols now inv x

/-- A `Close` that found the period closed. -/
structure Returned (id : Nat) (seen : Trace) (inv : Invoice) (period : Period) (row : InvoiceRow)
    (locked read lines : World) : Prop where
  seen : seen = [(.lockPeriod id, locked), (.selectInvoiceByPeriod id, read),
    (.selectLineItems row.id, lines)]
  period_id : period.id = id
  locked : period ∈ locked.db.periods
  isClosed : period.state = .closed
  row_mem : row ∈ read.db.invoices
  row_period : row.periodId = id
  invoice_id : inv.id = row.id
  invoice_total : inv.total = row.total

theorem path_postEntry
    (h : (billingEngine cols).PathTo (postEntry period entry now) seen (.commit result)) :
    ∃ transaction ledgerId alreadyPosted posting rest, entry.transfers ≠ [] ∧
      newTransaction (transactionKey period.tenantId period.label) period.start
        (usageDescription period) entry.transfers = .ok transaction ∧
      PostedAs cols transaction ledgerId alreadyPosted posting ∧ seen = posting ++ rest ∧
      (billingEngine cols).PathTo (issue period entry ledgerId now) rest (.commit result) := by
  rw [postEntry] at h
  split at h
  · cases (Engine.path_done h).2
  rename_i htransfers
  split at h
  · cases (Engine.path_done h).2
  rename_i transaction htransaction
  obtain ⟨posting, rest, a, rfl, hposting, hrest⟩ := Engine.path_bind_ok h
    fun e => ⟨_, rfl, by simp⟩
  obtain ⟨ledgerId, alreadyPosted⟩ := a
  exact ⟨transaction, ledgerId, alreadyPosted, posting, rest, htransfers, htransaction,
    path_postTx hposting, rfl, hrest⟩

/-- The quantities on the lines are those that were priced, which are not negative. -/
theorem EntryOf.nonneg {earliest : String → Time} {receivable : AccountID} {items : List LineItem}
    {usages : List Usage} (h : EntryOf cols seen period earliest receivable items entry)
    (hrated : Rated usages items) : ∀ line ∈ entry.lines, 0 ≤ line.quantity.toInt := by
  rw [h.lines]
  refine List.forall_mem_map.2 fun item hitem => ?_
  exact hrated.nonneg item hitem

theorem path_billPeriod {registry : Registry} {plan : Plan} {locked : World}
    (hlocked : period ∈ locked.db.periods)
    (hlock : execLockPeriod period.id locked.db = (.ok (some period), [.touchPeriod period.key]))
    (hopen : period.state = .open)
    (h : (billingEngine cols).PathTo (billPeriod registry plan now period) seen (.commit result)) :
    ∃ inv x, result = .issued inv ∧ Issued cols registry plan now period.id
      ((.lockPeriod period.id, locked) :: seen) inv x := by
  obtain ⟨first, rest, r, rfl, hfirst, hrest⟩ := Engine.path_bind h
  obtain ⟨usage, rest', r', rfl, husage, hrest'⟩ := Engine.path_bind hfirst
  obtain ⟨gathered, rfl, rfl⟩ := path_unbilledUsage husage
  obtain ⟨rfl, rfl⟩ := Engine.path_done hrest'
  cases hgather : usageFrom [] (fun _ => 0)
      (usageRows cols (gathered.db.unbilled period.tenantId period.finish)) with
  | error e =>
      rw [hgather] at hrest
      cases (Engine.path_done hrest).2
  | ok a =>
  obtain ⟨usages, earliest⟩ := a
  rw [hgather] at hrest
  simp only at hrest
  split at hrest
  · cases (Engine.path_done hrest).2
  rename_i husages
  split at hrest
  · cases (Engine.path_done hrest).2
  rename_i items hrate
  obtain ⟨accounts, rest, entry, rfl, haccounts, hrest⟩ := Engine.path_bind_ok hrest
    fun e => ⟨_, rfl, nofun⟩
  obtain ⟨receivable, hreceivable, hentry⟩ := path_buildEntry haccounts
  obtain ⟨transaction, ledgerId, alreadyPosted, posting, rest, htransfers, htransaction, hposted,
    rfl, hissue⟩ := path_postEntry hrest
  obtain ⟨inv, storedAt, inserted, lines, found, marked, closed, hresult, rfl, hended⟩ :=
    path_issue (hentry.nonneg (rate_spec hrate)) hissue
  let x : Issue := ⟨period, usages, earliest, items, receivable, entry, transaction,
    alreadyPosted, storedAt, locked, gathered, accounts, posting, inserted, lines, found, marked,
    closed⟩
  obtain ⟨hseen, hended⟩ := hended x rfl rfl rfl rfl rfl rfl rfl rfl
  refine ⟨inv, x, hresult, ?_, rfl, hlocked, hlock, hopen, gathered_of_usageFrom hgather, husages,
    hrate,
    hreceivable, hentry, htransfers, htransaction, hposted, hended⟩
  rw [hseen]
  simp [Issue.opening, x]

/-- The two statements of `invoiceForPeriod`, and the invoice that is made of their answers. -/
theorem path_invoice {inv : Invoice}
    (h : (billingEngine cols).PathTo (invoiceForPeriod id) seen (.ok inv)) :
    ∃ row read lines items, seen = [(.selectInvoiceByPeriod id, read),
        (.selectLineItems row.id, lines)] ∧
      read.db.invoices.find? (fun r => r.periodId = id) = some row ∧
      linesFrom [] (lineItemRows cols row.id lines.db) = .ok items ∧
      inv = ⟨row.id, row.periodId, row.tenantId, row.total, row.ledgerTransactionId,
        row.issuedAt, items⟩ := by
  obtain ⟨first, rest, r, rfl, hfirst, hrest⟩ := Engine.path_bind h
  obtain ⟨read, rfl, rfl⟩ := path_selectInvoice hfirst
  cases hfind : read.db.invoices.find? (fun row => row.periodId = id) with
  | none =>
      rw [hfind] at hrest
      cases (Engine.path_done hrest).2
  | some row =>
      rw [hfind] at hrest
      obtain ⟨second, rest', r, rfl, hsecond, hrest'⟩ := Engine.path_bind hrest
      obtain ⟨lines, rfl, rfl⟩ := path_selectLineItems hsecond
      obtain ⟨rfl, hinv⟩ := Engine.path_done hrest'
      cases hlines : linesFrom [] (lineItemRows cols row.id lines.db) with
      | error e =>
          rw [hlines] at hinv
          cases hinv
      | ok items =>
          rw [hlines] at hinv
          cases hinv
          exact ⟨row, read, lines, items, rfl, hfind, hlines, rfl⟩

theorem path_invoiceForPeriod {inv : Invoice}
    (h : (billingEngine cols).PathTo (invoiceForPeriod id) seen (.ok inv)) :
    ∃ row read lines, seen = [(.selectInvoiceByPeriod id, read), (.selectLineItems row.id, lines)] ∧
      row ∈ read.db.invoices ∧ row.periodId = id ∧ inv.id = row.id ∧ inv.total = row.total := by
  obtain ⟨row, read, lines, items, hseen, hfind, -, rfl⟩ := path_invoice h
  exact ⟨row, read, lines, hseen, List.mem_of_find?_eq_some hfind,
    by simpa using List.find?_some hfind, rfl, rfl⟩

/-- The two ways in which a `Close` commits. -/
theorem path_close {registry : Registry} {plan : Plan}
    (h : (billingEngine cols).PathTo (close registry plan now id) seen (.commit result)) :
    (∃ inv x, result = .issued inv ∧ Issued cols registry plan now id seen inv x) ∨
      ∃ inv period row locked read lines, result = .periodClosed inv ∧
        Returned id seen inv period row locked read lines := by
  obtain ⟨first, rest, r, rfl, hfirst, hrest⟩ := Engine.path_bind h
  obtain ⟨locked, rfl, rfl⟩ := path_lockPeriod hfirst
  rcases execLockPeriod_cases id locked.db with hexec | ⟨period, hmem, hid, hexec⟩ <;>
    rw [hexec] at hrest
  · cases (Engine.path_done hrest).2
  subst hid
  simp only at hrest
  split at hrest
  · rename_i hclosed
    right
    obtain ⟨second, last, inv, rfl, hsecond, hlast⟩ := Engine.path_bind_ok hrest
      fun e => ⟨_, rfl, nofun⟩
    obtain ⟨row, read, lines, rfl, hrow, hperiod, hid, htotal⟩ := path_invoiceForPeriod hsecond
    obtain ⟨rfl, hresult⟩ := Engine.path_done hlast
    cases hresult
    exact ⟨inv, period, row, locked, read, lines, rfl, rfl, rfl, hmem, hclosed, hrow, hperiod,
      hid, htotal⟩
  · rename_i hstate
    left
    have hopen : period.state = .open := by
      cases hcases : period.state with
      | «open» => rfl
      | closed => exact absurd hcases hstate
    exact path_billPeriod hmem hexec hopen hrest

section Positions

variable {registry : Registry} {plan : Plan} {now : Time} {id : Nat} {seen : Trace}
  {inv : Invoice} {x : Issue}

variable (h : Issued cols registry plan now id seen inv x)

include h

/-- A line has the quantity that was gathered for its meter. -/
theorem Issued.line_quantity {line : InvoiceLine} (hline : line ∈ x.entry.lines) :
    line.quantity.toInt = quantityOf x.gatheredRows line.meter := by
  have hrated := rate_spec h.rated
  rw [h.entry.lines] at hline
  obtain ⟨item, hitem, rfl⟩ := List.mem_map.1 hline
  have hmeter : item.meter ∈ x.usages.map Usage.meter :=
    (hrated.meters _).1 (List.mem_map_of_mem hitem)
  exact (hrated.quantity item hitem).trans (h.gathered.meterUsage_eq hmeter)

/-- There is a line for each meter that was gathered. -/
theorem Issued.line_meter {meter : String} :
    (∃ line ∈ x.entry.lines, line.meter = meter) ↔ ∃ r ∈ x.gatheredRows, r.meter = meter := by
  rw [← mem_metersOf, ← h.gathered.meters, ← (rate_spec h.rated).meters, h.entry.lines]
  simp [lineOf]

/-- An invoice has a line. -/
theorem Issued.exists_line : ∃ line, line ∈ x.entry.lines := by
  obtain ⟨u, us, husages⟩ := List.exists_cons_of_ne_nil h.usages
  have hmeter : u.meter ∈ metersOf cols x.gatheredRows := by
    rw [← h.gathered.meters, husages]
    exact List.mem_cons_self
  obtain ⟨line, hline, -⟩ := h.line_meter.2 (mem_metersOf.1 hmeter)
  exact ⟨line, hline⟩

/-- The changes up to the insertion of the invoice. -/
theorem Issued.writesOf_posting :
    (billingEngine cols).writesOf (x.opening ++ x.accounts ++ x.posting) =
      .touchPeriod x.period.key :: (billingEngine cols).writesOf x.accounts ++
        (billingEngine cols).writesOf x.posting := by
  simp [Issue.opening, BillingStmt.exec, h.lock]

/-- The changes up to the insertion of the lines. -/
theorem Issued.writesOf_writing :
    (billingEngine cols).writesOf (x.opening ++ x.accounts ++ x.posting ++ x.writing inv now) =
      x.beforeMark cols inv := by
  rw [Engine.writesOf_append, h.writesOf_posting]
  simp [Issue.writing, Issue.beforeMark, BillingStmt.exec, h.ended.inserted, h.ended.lines]

/-- All changes of a `Close` that issued an invoice, in order. -/
theorem Issued.writes :
    (billingEngine cols).writesOf seen =
      x.beforeMark cols inv ++ x.marks inv ++ x.closes := by
  rw [h.seen, Engine.writesOf_append, h.writesOf_writing]
  simp [Issue.ending, BillingStmt.exec, execMarkFound, h.ended.closed, Issue.marks,
    Issue.markedRows]

theorem Issued.at_locked : ∃ after, seen = [] ++ (.lockPeriod x.period.id, x.locked) :: after := by
  rw [h.seen]
  exact ⟨_, rfl⟩

theorem Issued.at_gathered :
    ∃ before after, seen = before ++
        (.unbilledUsage x.period.tenantId x.period.finish, x.gathered) :: after ∧
      (billingEngine cols).writesOf before = [.touchPeriod x.period.key] := by
  refine ⟨[(.lockPeriod x.period.id, x.locked)],
    x.accounts ++ x.posting ++ x.writing inv now ++ x.ending inv now, ?_, ?_⟩
  · rw [h.seen]
    simp [Issue.opening]
  · simp [BillingStmt.exec, h.lock]

theorem Issued.at_inserted :
    ∃ before after, seen = before ++
        (.insertInvoice x.period.id x.period.tenantId x.entry.total inv.ledgerTransactionId now,
          x.inserted) :: after ∧
      (billingEngine cols).writesOf before = .touchPeriod x.period.key ::
        (billingEngine cols).writesOf x.accounts ++ (billingEngine cols).writesOf x.posting := by
  refine ⟨x.opening ++ x.accounts ++ x.posting, x.lines ++ x.ending inv now, ?_,
    h.writesOf_posting⟩
  rw [h.seen]
  simp [Issue.writing]

theorem Issued.at_found :
    ∃ before after, seen = before ++
        (.findUnbilled x.period.tenantId x.period.finish, x.found) :: after ∧
      (billingEngine cols).writesOf before = x.beforeMark cols inv := by
  refine ⟨_, [(.markFound x.foundKeys inv.id x.period.tenantId x.period.finish, x.marked),
    (.closePeriod x.period.id now, x.closed)], ?_, h.writesOf_writing⟩
  rw [h.seen]
  rfl

theorem Issued.at_marked :
    ∃ before after, seen = before ++
        (.markFound x.foundKeys inv.id x.period.tenantId x.period.finish, x.marked) :: after ∧
      (billingEngine cols).writesOf before = x.beforeMark cols inv := by
  refine ⟨x.opening ++ x.accounts ++ x.posting ++ x.writing inv now ++
    [(.findUnbilled x.period.tenantId x.period.finish, x.found)],
    [(.closePeriod x.period.id now, x.closed)], ?_, ?_⟩
  · rw [h.seen]
    simp [Issue.ending]
  · rw [Engine.writesOf_append, h.writesOf_writing]
    simp [BillingStmt.exec]

/-- The statements of `markBilled`, after those that gather. -/
theorem Issued.at_marking :
    ∃ mid, seen = x.opening ++ mid ++
        [(.findUnbilled x.period.tenantId x.period.finish, x.found),
          (.markFound x.foundKeys inv.id x.period.tenantId x.period.finish, x.marked),
          (.closePeriod x.period.id now, x.closed)] ∧
      (billingEngine cols).writesOf (x.opening ++ mid) = x.beforeMark cols inv ∧
      (billingEngine cols).writesOf (x.opening ++ mid ++
        [(.findUnbilled x.period.tenantId x.period.finish, x.found)]) =
          x.beforeMark cols inv := by
  have hwrites : (billingEngine cols).writesOf
      (x.opening ++ (x.accounts ++ x.posting ++ x.writing inv now)) = x.beforeMark cols inv := by
    rw [← List.append_assoc, ← List.append_assoc]
    exact h.writesOf_writing
  refine ⟨x.accounts ++ x.posting ++ x.writing inv now, ?_, hwrites, ?_⟩
  · rw [h.seen]
    simp [Issue.ending]
  · rw [Engine.writesOf_append, hwrites]
    simp [BillingStmt.exec]

theorem Issued.at_closed :
    ∃ before, seen = before ++ (.closePeriod x.period.id now, x.closed) :: [] ∧
      (billingEngine cols).writesOf before = x.beforeMark cols inv ++ x.marks inv := by
  refine ⟨x.opening ++ x.accounts ++ x.posting ++ x.writing inv now ++
    [(.findUnbilled x.period.tenantId x.period.finish, x.found),
      (.markFound x.foundKeys inv.id x.period.tenantId x.period.finish, x.marked)], ?_, ?_⟩
  · rw [h.seen]
    simp [Issue.ending]
  · rw [Engine.writesOf_append, h.writesOf_writing]
    simp [BillingStmt.exec, execMarkFound, Issue.marks, Issue.markedRows]

end Positions

end Issue

end LedgerLine.Billing
