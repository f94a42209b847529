import LedgerLine.Billing.Runs
import LedgerLine.Lib.Serial

/-!
# Two databases side by side

A database into which all of the log has been drained, next to one that is still waiting for
some of the events: the tables are the same up to those events and the times of closing
(`Rebuilt`).

The code of `EnsurePeriod` and of `Close` takes the same way on both, unless one of the events
that are waited for is in the usage of the period that is closed.

Main facts: `rebuilt_ensurePeriod` and `rebuilt_close`.
-/

namespace LedgerLine.Billing

/-- A period without the time it was closed at. -/
def Period.unclocked (p : Period) : Period :=
  match p.state with
  | .open => p
  | .closed => { p with closedAt := none }

/-- An invoice without the time it was issued at. -/
def InvoiceRow.unclocked (r : InvoiceRow) : InvoiceRow :=
  { r with issuedAt := 0 }

/-- Two databases that differ in events that are not in the first one yet, and in the times
of closing. -/
structure Rebuilt (extra : List EventRow) (w v : World) : Prop where
  events : v.db.events = w.db.events ++ extra
  fresh : ∀ r ∈ extra, ∀ stored ∈ w.db.events, stored.key ≠ r.key
  periods : v.db.periods.map Period.unclocked = w.db.periods.map Period.unclocked
  invoices : v.db.invoices.map InvoiceRow.unclocked = w.db.invoices.map InvoiceRow.unclocked
  lineItems : v.db.lineItems = w.db.lineItems
  accounts : v.db.accounts = w.db.accounts
  transactions : v.db.transactions = w.db.transactions
  postings : v.db.postings = w.db.postings
  sequences : v.db.sequences = w.db.sequences

section Unclocked

theorem Period.unclocked_id (p : Period) : p.unclocked.id = p.id := by
  rw [unclocked]
  split <;> rfl

theorem Period.unclocked_key (p : Period) : p.unclocked.key = p.key := by
  rw [unclocked]
  split <;> rfl

theorem Period.unclocked_state (p : Period) : p.unclocked.state = p.state := by
  rw [unclocked]
  split <;> rfl

/-- An open period has no time to differ in. -/
theorem Period.eq_of_unclocked {p q : Period} (h : q.unclocked = p.unclocked)
    (hopen : p.state = .open) : q = p := by
  have hstate : q.state = .open := by
    rw [← q.unclocked_state, h, p.unclocked_state, hopen]
  rw [unclocked, unclocked, hopen, hstate] at h
  exact h

theorem Period.unclocked_close {p q : Period} (h : q.unclocked = p.unclocked) (id : Nat)
    (at' at'' : Time) : (q.close id at'').unclocked = (p.close id at').unclocked := by
  have hid : q.id = p.id := by
    rw [← q.unclocked_id, h, p.unclocked_id]
  have hstate : q.state = p.state := by
    rw [← q.unclocked_state, h, p.unclocked_state]
  by_cases hp : p.id = id
  · rw [close, close, if_pos hp, if_pos (hid.trans hp)]
    show { q with state := .closed, closedAt := none } =
      ({ p with state := .closed, closedAt := none } : Period)
    rw [unclocked, unclocked, hstate] at h
    cases hcase : p.state with
    | «open» | closed =>
        rw [hcase] at h
        exact congrArg (fun r : Period => { r with state := .closed, closedAt := none }) h
  · rw [close, close, if_neg hp, if_neg fun hq => hp (hid.symm.trans hq)]
    exact h

end Unclocked

/-- The changes of the two runs: the same up to the times of closing. -/
inductive WriteAlike (extra : List EventRow) : Write → Write → Prop
  | same {c : Write} (h : c.isEvent = false) : WriteAlike extra c c
  | bill {key : String × String} (invoice : Nat) (h : ∀ r ∈ extra, r.key ≠ key) :
      WriteAlike extra (.bill key invoice) (.bill key invoice)
  | invoice {row row' : InvoiceRow} (h : row'.unclocked = row.unclocked) :
      WriteAlike extra (.invoice row) (.invoice row')
  | closePeriod (id : Nat) (at' at'' : Time) :
      WriteAlike extra (.closePeriod id at') (.closePeriod id at'')

namespace Rebuilt

variable {cols : Columns} {extra : List EventRow} {w v : World}

section

variable (h : Rebuilt extra w v)

include h

/-- One row of the table, in both databases. -/
theorem forall₂_periods :
    List.Forall₂ (fun p q : Period => q.unclocked = p.unclocked) w.db.periods v.db.periods := by
  have hmap := List.forall₂_eq_eq_eq ▸ h.periods.symm
  rw [List.forall₂_map_left_iff, List.forall₂_map_right_iff] at hmap
  exact hmap.imp fun _ _ heq => heq.symm

theorem closePeriod (id : Nat) (at' at'' : Time) :
    Rebuilt extra (w.apply (.closePeriod id at')) (v.apply (.closePeriod id at'')) := by
  refine { h with periods := ?_ }
  have hrows := h.forall₂_periods
  simp only [World.apply, Database.apply, List.map_map]
  generalize w.db.periods = ps at hrows ⊢
  generalize v.db.periods = qs at hrows ⊢
  induction hrows with
  | nil => rfl
  | cons hpq _ ih =>
      rw [List.map_cons, List.map_cons, ih]
      exact congrArg (· :: _) (Period.unclocked_close hpq id at' at'')

theorem apply {c c' : Write} (hc : WriteAlike extra c c') :
    Rebuilt extra (w.apply c) (v.apply c') := by
  cases hc with
  | same hkind =>
      cases c with
      | event row | bill key invoice => cases hkind
      | account row =>
          exact { h with accounts := congrArg (· ++ [row]) h.accounts }
      | transaction row =>
          exact { h with transactions := congrArg (· ++ [row]) h.transactions }
      | posting row =>
          exact { h with postings := congrArg (· ++ [row]) h.postings }
      | lineItem row =>
          exact { h with lineItems := congrArg (· ++ [row]) h.lineItems }
      | period row =>
          refine { h with periods := ?_ }
          simp only [World.apply, Database.apply, List.map_append, h.periods]
      | invoice row =>
          refine { h with invoices := ?_ }
          simp only [World.apply, Database.apply, List.map_append, h.invoices]
      | closePeriod id at' =>
          exact h.closePeriod id at' at'
      | _ => exact { h with }
  | @bill key invoice hkey =>
      have hextra : extra.map (EventRow.bill key invoice) = extra := by
        conv_rhs => rw [← List.map_id extra]
        apply List.map_congr_left
        intro r hr
        rw [EventRow.bill, if_neg (hkey r hr)]
        rfl
      refine { h with events := ?_, fresh := ?_ }
      · simp only [World.apply, Database.apply, h.events, List.map_append, hextra]
      · intro r hr stored hstored
        obtain ⟨stored, hold, rfl⟩ := List.mem_map.1 hstored
        rw [EventRow.bill]
        split
        · exact h.fresh r hr stored hold
        · exact h.fresh r hr stored hold
  | invoice hrow =>
      refine { h with invoices := ?_ }
      simp only [World.apply, Database.apply, List.map_append, h.invoices, List.map_cons, hrow]
  | closePeriod id at' at'' =>
      exact h.closePeriod id at' at''

theorem draw (o : BillingStmt) : Rebuilt extra (w.draw o) (v.draw o) :=
  { h with sequences := congrArg (fun s => s.draw o) h.sequences }

/-- Nothing that is waited for is in the usage. -/
theorem unbilled {tenant : String} {before : Time}
    (hnone : ∀ r ∈ extra, r.isUnbilled tenant before = false) :
    v.db.unbilled tenant before = w.db.unbilled tenant before := by
  have hextra : extra.filter (EventRow.isUnbilled tenant before) = [] := by
    rw [List.filter_eq_nil_iff]
    intro r hr
    rw [hnone r hr]
    exact Bool.false_ne_true
  rw [Database.unbilled, Database.unbilled, h.events, List.filter_append, hextra, List.append_nil]

end

/-- A question about rows that is not about their time. -/
theorem any_eq_of_map {α : Type} {f : α → α} {q : α → Bool} {rows rows' : List α}
    (h : rows'.map f = rows.map f) (hq : ∀ a, q (f a) = q a) : rows'.any q = rows.any q := by
  have hmap : ∀ l : List α, (l.map f).any q = l.any q := by
    intro l
    rw [List.any_map]
    exact congrArg (l.any ·) (funext hq)
  rw [← hmap, h, hmap]

/-- A question about periods that is not about their time, answered with a row. -/
theorem find_period (h : Rebuilt extra w v) {q : Period → Bool} (hq : ∀ p, q p.unclocked = q p) :
    (v.db.periods.find? q).map Period.unclocked = (w.db.periods.find? q).map Period.unclocked := by
  have hunclocked : ∀ rows : List Period,
      (rows.map Period.unclocked).find? q = (rows.find? q).map Period.unclocked := by
    intro rows
    rw [List.find?_map]
    exact congrArg (fun f => (rows.find? f).map Period.unclocked) (funext hq)
  rw [← hunclocked, h.periods, hunclocked]

end Rebuilt

section Statements

variable {cols : Columns} {extra : List EventRow} {w v : World}

theorem keeps_rebuilt (cols : Columns) (extra : List EventRow) :
    (billingEngine cols).Keeps (Rebuilt extra) (WriteAlike extra) :=
  fun _ _ _ _ h hc => h.apply hc

/-- The same changes on either side, none of them to events. -/
theorem writesAlike_refl {ws : List Write} (h : ∀ c ∈ ws, c.isEvent = false) :
    List.Forall₂ (WriteAlike extra) ws ws := by
  induction ws with
  | nil => exact .nil
  | cons c ws ih =>
      rw [List.forall_mem_cons] at h
      exact .cons (.same h.1) (ih h.2)

/-- The statements of `Close` that are the same whatever the clock says, on the usage of one
period. -/
def BillingStmt.Plain (tenant : String) (before : Time) : BillingStmt → Prop
  | .ensureAccount _ _ => True
  | .insertTransaction _ _ _ => True
  | .selectTransactionByKey _ => True
  | .insertPosting _ _ _ => True
  | .insertLineItem _ _ _ _ => True
  | .unbilledUsage t b => t = tenant ∧ b = before
  | .findUnbilled t b => t = tenant ∧ b = before
  | .markFound _ _ t b => t = tenant ∧ b = before
  | _ => False

variable {o : BillingStmt}

/-- The statements of billing change nothing that is the consumer's, and only marking usage as
billed changes events. -/
theorem billing_writes (ho : ¬ o.isConsumer) (w : World) :
    ∀ c ∈ (o.exec cols w).2, c.isConsumer = false ∧ (c.isEvent = true →
      ∃ found invoice tenant before, o = .markFound found invoice tenant before) := by
  intro c hc
  have heffect := effect_of_exec cols o w
  generalize (o.exec cols w).2 = ws at heffect hc
  cases heffect with
  | nothing => cases hc
  | consumer o => exact absurd trivial ho
  | bill found invoice tenant before =>
      obtain ⟨r, -, rfl⟩ := List.mem_map.1 hc
      exact ⟨rfl, fun _ => ⟨found, invoice, tenant, before, rfl⟩⟩
  | closePeriod =>
      obtain ⟨_, -, rfl⟩ := List.mem_map.1 hc
      exact ⟨rfl, nofun⟩
  | _ =>
      cases List.mem_singleton.1 hc
      exact ⟨rfl, nofun⟩

/-- Statements that are answered the same and change the same, but not events. -/
theorem alike_of_eq (ho : ¬ o.isConsumer)
    (hmark : ∀ found invoice tenant before, o ≠ .markFound found invoice tenant before)
    (heq : o.exec cols v = o.exec cols w) :
    (o.exec cols w).1 = (o.exec cols v).1 ∧
      List.Forall₂ (WriteAlike extra) (o.exec cols w).2 (o.exec cols v).2 := by
  rw [heq]
  refine ⟨rfl, writesAlike_refl fun c hc => ?_⟩
  rw [← Bool.not_eq_true]
  intro hevent
  obtain ⟨found, invoice, tenant, before, h⟩ := (billing_writes ho w c hc).2 hevent
  exact hmark found invoice tenant before h

/-- They are answered alike. -/
theorem exec_alike (h : Rebuilt extra w v) {tenant : String} {before : Time}
    (hnone : ∀ r ∈ extra, r.isUnbilled tenant before = false) (ho : o.Plain tenant before) :
    (o.exec cols w).1 = (o.exec cols v).1 ∧
      List.Forall₂ (WriteAlike extra) (o.exec cols w).2 (o.exec cols v).2 := by
  cases o with
  | ensureAccount name kind =>
      refine alike_of_eq id (fun _ _ _ _ => BillingStmt.noConfusion) ?_
      show execEnsureAccount cols name kind v.db = execEnsureAccount cols name kind w.db
      simp only [execEnsureAccount, h.accounts, h.sequences]
  | insertTransaction key occurredAt description =>
      refine alike_of_eq id (fun _ _ _ _ => BillingStmt.noConfusion) ?_
      show execInsertTransaction cols key occurredAt description v.db =
        execInsertTransaction cols key occurredAt description w.db
      simp only [execInsertTransaction, h.transactions, h.sequences]
  | selectTransactionByKey key =>
      refine alike_of_eq id (fun _ _ _ _ => BillingStmt.noConfusion) ?_
      show execSelectTransaction key v.db = execSelectTransaction key w.db
      simp only [execSelectTransaction, h.transactions]
  | insertPosting transaction account amount =>
      refine alike_of_eq id (fun _ _ _ _ => BillingStmt.noConfusion) ?_
      show execInsertPosting _ v.db = execInsertPosting _ w.db
      simp only [execInsertPosting, h.transactions, h.accounts]
  | insertLineItem invoice meter quantity amount =>
      have hany : v.db.invoices.any (fun r => r.id = invoice) =
          w.db.invoices.any (fun r => r.id = invoice) :=
        Rebuilt.any_eq_of_map h.invoices fun _ => rfl
      refine alike_of_eq id (fun _ _ _ _ => BillingStmt.noConfusion) ?_
      show execInsertLineItem cols invoice meter quantity amount v.db =
        execInsertLineItem cols invoice meter quantity amount w.db
      simp only [execInsertLineItem, hany, h.lineItems]
  | unbilledUsage t b | findUnbilled t b =>
      obtain ⟨rfl, rfl⟩ := ho
      refine alike_of_eq id (fun _ _ _ _ => BillingStmt.noConfusion) ?_
      simp only [BillingStmt.exec, h.unbilled hnone]
  | markFound found invoice t b =>
      obtain ⟨rfl, rfl⟩ := ho
      refine ⟨rfl, ?_⟩
      simp only [BillingStmt.exec, execMarkFound, markedRows, h.unbilled hnone]
      rw [List.forall₂_map_left_iff, List.forall₂_map_right_iff, List.forall₂_same]
      intro r hr
      -- what is marked is there already, so it is none of the events that are waited for
      have hmem : r ∈ w.db.events := List.mem_of_mem_filter (List.mem_of_mem_filter hr)
      exact .bill invoice fun r' hr' => (h.fresh r' hr' r hmem).symm
  | _ => exact ho.elim

/-- An invoice issued at another time. -/
theorem insertInvoice_alike (h : Rebuilt extra w v) {now now' : Time}
    (hnow : (cols.timestamptz now).isSome) (hnow' : (cols.timestamptz now').isSome) (period : Nat)
    (tenant : String) (total : Amount) (transaction : Nat) :
    (execInsertInvoice cols period tenant total transaction now w.db).1 =
        (execInsertInvoice cols period tenant total transaction now' v.db).1 ∧
      List.Forall₂ (WriteAlike extra)
        (execInsertInvoice cols period tenant total transaction now w.db).2
        (execInsertInvoice cols period tenant total transaction now' v.db).2 := by
  obtain ⟨at', hat'⟩ := Option.isSome_iff_exists.1 hnow
  obtain ⟨at'', hat''⟩ := Option.isSome_iff_exists.1 hnow'
  have hperiods : v.db.periods.any (fun p => p.id = period) =
      w.db.periods.any (fun p => p.id = period) :=
    Rebuilt.any_eq_of_map h.periods fun p => by rw [p.unclocked_id]
  have hinvoices : v.db.invoices.any (fun r => r.periodId = period) =
      w.db.invoices.any (fun r => r.periodId = period) :=
    Rebuilt.any_eq_of_map h.invoices fun _ => rfl
  simp only [execInsertInvoice, hat', hat'', hperiods, hinvoices, h.transactions, h.sequences]
  cases cols.text tenant with
  | true =>
      simp only
      split
      · exact ⟨rfl, .cons (.invoice rfl) .nil⟩
      · exact ⟨rfl, .nil⟩
  | false => exact ⟨rfl, .nil⟩

/-- A period closed at another time. -/
theorem closePeriod_alike (h : Rebuilt extra w v) {now now' : Time}
    (hnow : (cols.timestamptz now).isSome) (hnow' : (cols.timestamptz now').isSome) (id : Nat) :
    (execClosePeriod cols id now w.db).1 = (execClosePeriod cols id now' v.db).1 ∧
      List.Forall₂ (WriteAlike extra) (execClosePeriod cols id now w.db).2
        (execClosePeriod cols id now' v.db).2 := by
  obtain ⟨at', hat'⟩ := Option.isSome_iff_exists.1 hnow
  obtain ⟨at'', hat''⟩ := Option.isSome_iff_exists.1 hnow'
  simp only [execClosePeriod, hat', hat'', true_and]
  have hid : ∀ p q : Period, q.unclocked = p.unclocked → q.id = p.id := by
    intro p q hpq
    rw [← q.unclocked_id, hpq, p.unclocked_id]
  have hfilter := List.rel_filter (p := fun p : Period => decide (p.id = id))
    (q := fun p : Period => decide (p.id = id))
    (fun p q hpq => by
      show decide (p.id = id) = true ↔ decide (q.id = id) = true
      rw [hid p q hpq]) h.forall₂_periods
  rw [List.forall₂_map_left_iff, List.forall₂_map_right_iff]
  refine hfilter.imp fun p q hpq => ?_
  rw [hid p q hpq]
  exact .closePeriod p.id at' at''

end Statements

/-! ### The code of `Close` -/

section Plain

variable {tenant : String} {before : Time}

theorem plain_ensureAccount (name : String) (kind : AccountKind) :
    Program.Only (BillingStmt.Plain tenant before) (ensureAccount name kind) := by
  rw [ensureAccount]
  split
  · trivial
  refine ⟨trivial, fun r => ?_⟩
  rcases r with e | found
  · trivial
  show Program.Only _ (if found.2 ≠ kind then _ else _)
  split <;> trivial

theorem plain_entryFrom (period : Period) (earliest : String → Time) (receivable : AccountID)
    (entry : Entry) (items : List LineItem) :
    Program.Only (BillingStmt.Plain tenant before)
      (entryFrom period earliest receivable entry items) := by
  induction items generalizing entry with
  | nil => trivial
  | cons item items ih =>
      rw [entryFrom]
      split
      · exact ih _
      refine Program.only_bind (plain_ensureAccount _ _) fun r => ?_
      rcases r with e | revenue
      · trivial
      dsimp only
      split
      · trivial
      · exact ih _

theorem plain_buildEntry (period : Period) (items : List LineItem) (earliest : String → Time) :
    Program.Only (BillingStmt.Plain tenant before) (buildEntry period items earliest) := by
  refine Program.only_bind (plain_ensureAccount _ _) fun r => ?_
  cases r with
  | error e => trivial
  | ok receivable =>
      exact plain_entryFrom period earliest receivable _ items

theorem plain_insertPostings (id i : Nat) (ps : List Posting) :
    Program.Only (BillingStmt.Plain tenant before) (insertPostings id i ps) := by
  induction ps generalizing i with
  | nil => trivial
  | cons p ps ih =>
      refine ⟨trivial, fun r => ?_⟩
      cases r with
      | error e => trivial
      | ok _ => exact ih (i + 1)

theorem plain_postTx (t : Transaction) :
    Program.Only (BillingStmt.Plain tenant before) (postTx t) := by
  rw [postTx]
  split
  · trivial
  split
  · trivial
  refine ⟨trivial, fun r => ?_⟩
  rcases r with e | found
  · trivial
  cases found with
  | none =>
      refine ⟨trivial, fun r => ?_⟩
      rcases r with e | _ | id <;> trivial
  | some id =>
      show Program.Only _ (insertPostings id 0 t.postings >>= fun r => _)
      refine Program.only_bind (plain_insertPostings id 0 t.postings) fun r => ?_
      cases r <;> trivial

theorem plain_insertLineItems (invoice : Nat) (lines : List InvoiceLine) :
    Program.Only (BillingStmt.Plain tenant before) (insertLineItems invoice lines) := by
  induction lines with
  | nil => trivial
  | cons line lines ih =>
      refine ⟨trivial, fun r => ?_⟩
      cases r with
      | error e => trivial
      | ok _ => exact ih

theorem plain_gatherUsage (period : Period) :
    Program.Only (BillingStmt.Plain period.tenantId period.finish) (gatherUsage period) := by
  refine ⟨⟨rfl, rfl⟩, fun r => ?_⟩
  cases r <;> trivial

theorem plain_markBilled (invoice : Nat) :
    Program.Only (BillingStmt.Plain tenant before) (markBilled invoice tenant before) := by
  refine ⟨⟨rfl, rfl⟩, fun r => ?_⟩
  cases r with
  | error e => trivial
  | ok found =>
      exact ⟨⟨rfl, rfl⟩, fun _ => trivial⟩

end Plain

/-- Two transactions of billing side by side. -/
abbrev BillingAlike (extra : List EventRow) :
    Txn BillingStmt World Write → Txn BillingStmt World Write → Prop :=
  Engine.TxnAlike (Rebuilt extra) (WriteAlike extra)

/-- They have come to the same end. -/
structure EndsAlike {ε β : Type} (extra : List EventRow)
    (r r' : Outcome ε β × Txn BillingStmt World Write) : Prop where
  txn : BillingAlike extra r.2 r'.2
  commits : (∃ b, r.1 = .commit b) ↔ ∃ b, r'.1 = .commit b

section Close

variable {cols : Columns} {extra : List EventRow} {w v : World} {ε β α : Type}
  {x y : Txn BillingStmt World Write} {tenant : String} {before : Time}

theorem endsAlike_done (out : Outcome ε β) (h : BillingAlike extra x y) :
    EndsAlike extra (out, x) (out, y) :=
  ⟨h, Iff.rfl⟩

theorem BillingAlike.sight (cols : Columns) (h : BillingAlike extra x y) :
    Rebuilt extra ((billingEngine cols).sight x) ((billingEngine cols).sight y) :=
  Engine.view_related (keeps_rebuilt cols extra) h.data h.writes

/-- Code that does not depend on the clock, and what follows it. -/
theorem endsAlike_bind (hnone : ∀ r ∈ extra, r.isUnbilled tenant before = false)
    {body : BillingBody α} (honly : Program.Only (BillingStmt.Plain tenant before) body)
    {k k' : α → BillingBody (Outcome ε β)} (h : BillingAlike extra x y)
    (hk : ∀ a x y, BillingAlike extra x y → EndsAlike extra
      ((billingEngine cols).runBody (k a) x) ((billingEngine cols).runBody (k' a) y)) :
    EndsAlike extra ((billingEngine cols).runBody (body >>= k) x)
      ((billingEngine cols).runBody (body >>= k') y) := by
  obtain ⟨hresult, halike⟩ := Engine.runBody_alike (keeps_rebuilt cols extra)
    (fun o _ _ h => h.draw o) (fun o ho _ _ h => exec_alike h hnone ho) honly h
  rw [Engine.runBody_bind, Engine.runBody_bind, hresult]
  exact hk _ _ _ halike

variable {now now' : Time} {period : Period}

section

variable (hnow : (cols.timestamptz now).isSome) (hnow' : (cols.timestamptz now').isSome)

include hnow hnow'

/-- Issuing the invoice, and what follows it. -/
theorem endsAlike_insertInvoice (total : Amount) (ledgerId : Nat)
    {k k' : Except StmtErr Nat → BillingBody (Outcome ε β)} (h : BillingAlike extra x y)
    (hk : ∀ r x y, BillingAlike extra x y → EndsAlike extra
      ((billingEngine cols).runBody (k r) x) ((billingEngine cols).runBody (k' r) y)) :
    EndsAlike extra
      ((billingEngine cols).runBody (insertInvoice period total ledgerId now >>= k) x)
      ((billingEngine cols).runBody (insertInvoice period total ledgerId now' >>= k') y) := by
  obtain ⟨hanswer, hwrites⟩ := insertInvoice_alike (h.sight cols) hnow hnow' period.id
    period.tenantId total ledgerId
  have hafter : BillingAlike extra
      ((billingEngine cols).after
        (.insertInvoice period.id period.tenantId total ledgerId now) x)
      ((billingEngine cols).after
        (.insertInvoice period.id period.tenantId total ledgerId now') y) :=
    h.after (h.data.draw (.insertInvoice period.id period.tenantId total ledgerId now)) hwrites
  have hrest := hk (execInsertInvoice cols period.id period.tenantId total ledgerId now
    ((billingEngine cols).sight x).db).1 _ _ hafter
  nth_rewrite 2 [hanswer] at hrest
  exact hrest

/-- Closing the period, and what follows it. -/
theorem endsAlike_closePeriod (id : Nat) {k k' : Except StmtErr Unit → BillingBody (Outcome ε β)}
    (h : BillingAlike extra x y)
    (hk : ∀ r x y, BillingAlike extra x y → EndsAlike extra
      ((billingEngine cols).runBody (k r) x) ((billingEngine cols).runBody (k' r) y)) :
    EndsAlike extra ((billingEngine cols).runBody (closePeriod id now >>= k) x)
      ((billingEngine cols).runBody (closePeriod id now' >>= k') y) := by
  obtain ⟨hanswer, hwrites⟩ := closePeriod_alike (h.sight cols) hnow hnow' id
  have hafter : BillingAlike extra ((billingEngine cols).after (.closePeriod id now) x)
      ((billingEngine cols).after (.closePeriod id now') y) :=
    h.after (h.data.draw (.closePeriod id now)) hwrites
  have hrest := hk (execClosePeriod cols id now ((billingEngine cols).sight x).db).1 _ _ hafter
  nth_rewrite 2 [hanswer] at hrest
  exact hrest

theorem issue_alike (hnone : ∀ r ∈ extra, r.isUnbilled period.tenantId period.finish = false)
    (entry : Entry) (ledgerId : Nat) (h : BillingAlike extra x y) :
    EndsAlike extra ((billingEngine cols).runBody (issue period entry ledgerId now) x)
      ((billingEngine cols).runBody (issue period entry ledgerId now') y) := by
  refine endsAlike_insertInvoice hnow hnow' _ _ h fun r x y h => ?_
  rcases r with e | invoice
  · exact endsAlike_done _ h
  refine endsAlike_bind hnone (plain_insertLineItems invoice entry.lines) h fun r x y h => ?_
  rcases r with e | _
  · exact endsAlike_done _ h
  refine endsAlike_bind hnone (plain_markBilled invoice) h fun r x y h => ?_
  rcases r with e | _
  · exact endsAlike_done _ h
  refine endsAlike_closePeriod hnow hnow' _ h fun r x y h => ?_
  cases r with
  | error e => exact endsAlike_done _ h
  | ok _ =>
      exact ⟨h, iff_of_true ⟨_, rfl⟩ ⟨_, rfl⟩⟩

theorem postEntry_alike (hnone : ∀ r ∈ extra, r.isUnbilled period.tenantId period.finish = false)
    (entry : Entry) (h : BillingAlike extra x y) :
    EndsAlike extra ((billingEngine cols).runBody (postEntry period entry now) x)
      ((billingEngine cols).runBody (postEntry period entry now') y) := by
  rw [postEntry, postEntry]
  split
  · exact endsAlike_done _ h
  split
  · exact endsAlike_done _ h
  · rename_i t ht
    refine endsAlike_bind hnone (plain_postTx t) h fun r x y h => ?_
    cases r with
    | error e => exact endsAlike_done _ h
    | ok posted =>
        exact issue_alike hnow hnow' hnone entry posted.1 h

end

theorem billPeriod_alike (registry : Registry) (plan : Plan)
    (hnow : (cols.timestamptz now).isSome) (hnow' : (cols.timestamptz now').isSome)
    (hnone : ∀ r ∈ extra, r.isUnbilled period.tenantId period.finish = false)
    (h : BillingAlike extra x y) :
    EndsAlike extra ((billingEngine cols).runBody (billPeriod registry plan now period) x)
      ((billingEngine cols).runBody (billPeriod registry plan now' period) y) := by
  refine endsAlike_bind hnone (plain_gatherUsage period) h fun r x y h => ?_
  rcases r with e | ⟨usages, earliest⟩
  · exact endsAlike_done _ h
  show EndsAlike extra
    ((billingEngine cols).runBody (if usages = [] then _ else _) x)
    ((billingEngine cols).runBody (if usages = [] then _ else _) y)
  split
  · exact endsAlike_done _ h
  split
  · exact endsAlike_done _ h
  · rename_i items _
    refine endsAlike_bind hnone (plain_buildEntry period items earliest) h fun r x y h => ?_
    cases r with
    | error e => exact endsAlike_done _ h
    | ok entry =>
        exact postEntry_alike hnow hnow' hnone entry h

end Close

section Calls

variable {cols : Columns} {extra : List EventRow} {w v : World}
  {x y : Txn BillingStmt World Write}

/-- The deferred trigger is about the ledger. -/
theorem triggersPass_alike (h : BillingAlike extra x y) :
    triggersPass cols x.data x.writes ↔ triggersPass cols y.data y.writes := by
  have hown : ownPostings x.writes = ownPostings y.writes := by
    have hwrites := h.writes
    generalize x.writes = ws at hwrites
    generalize y.writes = ws' at hwrites
    induction hwrites with
    | nil => rfl
    | cons hc _ ih =>
        cases hc <;> simp only [ownPostings, List.filterMap_cons] at ih ⊢ <;> rw [ih]
  have hview : Rebuilt extra ((billingEngine cols).view x.data x.writes)
      ((billingEngine cols).view y.data y.writes) := h.sight cols
  rw [triggersPass, triggersPass, hown, hview.postings]

/-- A statement that changes nothing. -/
def BillingStmt.Reads (cols : Columns) (o : BillingStmt) : Prop :=
  ∀ w : World, (o.exec cols w).2 = [] ∧ w.draw o = w

/-- Code that only reads leaves everything as it is. -/
theorem runBody_reads {α : Type} {body : BillingBody α}
    (honly : Program.Only (BillingStmt.Reads cols) body) (x : Txn BillingStmt World Write) :
    ((billingEngine cols).runBody body x).2.data = x.data ∧
      ((billingEngine cols).runBody body x).2.writes = x.writes := by
  induction body generalizing x with
  | done a => exact ⟨rfl, rfl⟩
  | call o next ih =>
      obtain ⟨hdata, hwrites⟩ := ih _ (honly.2 _) ((billingEngine cols).after o x)
      have hnone : ((billingEngine cols).exec o ((billingEngine cols).sight x)).2 = [] :=
        (honly.1 _).1
      refine ⟨hdata.trans (honly.1 _).2, hwrites.trans ?_⟩
      rw [Engine.after, hnone, List.append_nil]

theorem reads_invoiceForPeriod (id : Nat) :
    Program.Only (BillingStmt.Reads cols) (invoiceForPeriod id) := by
  refine ⟨fun w => ⟨rfl, rfl⟩, fun r => ?_⟩
  rcases r with e | _ | row
  · trivial
  · trivial
  · refine ⟨fun w => ⟨rfl, rfl⟩, fun r => ?_⟩
    cases r <;> trivial

/-- The lock that `Close` begins with. -/
theorem runBody_lockPeriod (cols : Columns) (id : Nat) (w : World) :
    (billingEngine cols).runBody (lockPeriod id) ⟨w, [], []⟩ =
      ((execLockPeriod id w.db).1, ⟨w, (execLockPeriod id w.db).2, [(.lockPeriod id, w)]⟩) :=
  rfl

variable {id : Nat}

/-- `Close` once it has locked the period. -/
theorem runBody_close (cols : Columns) (registry : Registry) (plan : Plan) (now : Time) {p : Period}
    (hfind : w.db.periods.find? (fun p => p.id = id) = some p) :
    ∃ body seen, Program.Only (BillingStmt.Reads cols) body ∧
      (billingEngine cols).runBody (close registry plan now id) ⟨w, [], []⟩ =
        (billingEngine cols).runBody
          (if p.state = .closed then body else billPeriod registry plan now p)
          ⟨w, [.touchPeriod p.key], seen⟩ := by
  have hexec : execLockPeriod id w.db = (.ok (some p), [.touchPeriod p.key]) := by
    rw [execLockPeriod, hfind]
  refine ⟨_, _, ?_, by rw [close, Engine.runBody_bind, runBody_lockPeriod, hexec]⟩
  refine Program.only_bind (reads_invoiceForPeriod p.id) fun r => ?_
  cases r <;> trivial

/-- `Close` on a closed period. -/
theorem close_closed (registry : Registry) (plan : Plan) (now : Time) {p : Period}
    (hfind : w.db.periods.find? (fun p => p.id = id) = some p) (hclosed : p.state = .closed) :
    ((billingEngine cols).call (triggersPass cols) (close registry plan now id) w).2 = w := by
  obtain ⟨body, seen, hreads, hrun⟩ := runBody_close cols registry plan now hfind
  obtain ⟨hdata, hwrites⟩ := runBody_reads hreads ⟨w, [.touchPeriod p.key], seen⟩
  rw [if_pos hclosed] at hrun
  rw [← hrun] at hdata hwrites
  rw [Engine.call]
  rcases hends : (billingEngine cols).runBody (close registry plan now id) ⟨w, [], []⟩ with
    ⟨b | e, x⟩
  · rw [hends] at hdata hwrites
    simp only at hdata hwrites ⊢
    rw [hdata, hwrites]
    split <;> rfl
  · rw [hends] at hdata
    exact hdata

/-- `Close` on a period that does not exist. -/
theorem close_missing (registry : Registry) (plan : Plan) (now : Time)
    (hfind : w.db.periods.find? (fun p => p.id = id) = none) :
    ((billingEngine cols).call (triggersPass cols) (close registry plan now id) w).2 = w := by
  have hexec : execLockPeriod id w.db = (.ok none, []) := by
    rw [execLockPeriod, hfind]
  rw [Engine.call, close, Engine.runBody_bind, runBody_lockPeriod, hexec]
  rfl

/-- `Close` on either side. -/
theorem rebuilt_close (registry : Registry) (plan : Plan) {now now' : Time}
    (hnow : (cols.timestamptz now).isSome) (hnow' : (cols.timestamptz now').isSome) (id : Nat)
    (h : Rebuilt extra w v)
    (hnone : ∀ p, w.db.periods.find? (fun p => p.id = id) = some p → p.state = .open →
      ∀ r ∈ extra, r.isUnbilled p.tenantId p.finish = false) :
    Rebuilt extra
      ((billingEngine cols).call (triggersPass cols) (close registry plan now id) w).2
      ((billingEngine cols).call (triggersPass cols) (close registry plan now' id) v).2 := by
  have hfound : (v.db.periods.find? (fun p => p.id = id)).map Period.unclocked =
      (w.db.periods.find? (fun p => p.id = id)).map Period.unclocked :=
    h.find_period fun p => by rw [p.unclocked_id]
  cases hw : w.db.periods.find? (fun p => p.id = id) with
  | none =>
      rw [hw, Option.map_none, Option.map_eq_none_iff] at hfound
      rw [close_missing registry plan now hw, close_missing registry plan now' hfound]
      exact h
  | some p =>
      rw [hw, Option.map_some, Option.map_eq_some_iff] at hfound
      obtain ⟨q, hv, hpq⟩ := hfound
      cases hstate : p.state with
      | closed =>
          have hclosed : q.state = .closed := by
            rw [← q.unclocked_state, hpq, p.unclocked_state, hstate]
          rw [close_closed registry plan now hw hstate, close_closed registry plan now' hv hclosed]
          exact h
      | «open» =>
          obtain rfl := Period.eq_of_unclocked hpq hstate
          obtain ⟨body, seen, -, hx⟩ := runBody_close cols registry plan now hw
          obtain ⟨body', seen', -, hy⟩ := runBody_close cols registry plan now' hv
          have hnotClosed : ¬ q.state = .closed := by
            rw [hstate]
            exact State.noConfusion
          rw [if_neg hnotClosed] at hx hy
          have htouch : BillingAlike extra ⟨w, [.touchPeriod q.key], seen⟩
              ⟨v, [.touchPeriod q.key], seen'⟩ := ⟨h, .cons (.same rfl) .nil⟩
          have hends : EndsAlike extra
              ((billingEngine cols).runBody (billPeriod registry plan now q) _)
              ((billingEngine cols).runBody (billPeriod registry plan now' q) _) :=
            billPeriod_alike registry plan hnow hnow' (hnone q hw hstate) htouch
          rw [← hx, ← hy] at hends
          exact Engine.call_related (keeps_rebuilt cols extra)
            (fun x y h => triggersPass_alike h) hends.txn hends.commits

/-- The period that is found may have been closed at another time. -/
theorem ensurePeriodStmt_alike (cols : Columns) (h : Rebuilt extra w v) (tenant label : String)
    (start finish : Time) :
    List.Forall₂ (WriteAlike extra) (execEnsurePeriod cols tenant label start finish w.db).2
        (execEnsurePeriod cols tenant label start finish v.db).2 ∧
      ((∃ e, (execEnsurePeriod cols tenant label start finish w.db).1 = .error e ∧
          (execEnsurePeriod cols tenant label start finish v.db).1 = .error e) ∨
        ∃ p q, (execEnsurePeriod cols tenant label start finish w.db).1 = .ok p ∧
          (execEnsurePeriod cols tenant label start finish v.db).1 = .ok q) := by
  have hfound : (v.db.periods.find? (fun p => p.key = (tenant, label))).map Period.unclocked =
      (w.db.periods.find? (fun p => p.key = (tenant, label))).map Period.unclocked :=
    h.find_period fun p => by rw [p.unclocked_key]
  unfold execEnsurePeriod
  split
  · split
    · cases hw : w.db.periods.find? (fun p => p.key = (tenant, label)) with
      | none =>
          rw [hw, Option.map_none, Option.map_eq_none_iff] at hfound
          simp only [hfound, h.sequences]
          exact ⟨.cons (.same rfl) .nil, .inr ⟨_, _, rfl, rfl⟩⟩
      | some p =>
          rw [hw, Option.map_some, Option.map_eq_some_iff] at hfound
          obtain ⟨q, hv, -⟩ := hfound
          simp only [hv]
          exact ⟨.cons (.same rfl) .nil, .inr ⟨_, _, rfl, rfl⟩⟩
    · exact ⟨.nil, .inl ⟨_, rfl, rfl⟩⟩
  · exact ⟨.nil, .inl ⟨_, rfl, rfl⟩⟩

/-- `EnsurePeriod` on either side. -/
theorem rebuilt_ensurePeriod (tenant label : String) (start finish : Time) (h : Rebuilt extra w v) :
    Rebuilt extra
      ((billingEngine cols).call (triggersPass cols) (ensurePeriod tenant label start finish) w).2
      ((billingEngine cols).call (triggersPass cols)
        (ensurePeriod tenant label start finish) v).2 := by
  have hends : EndsAlike extra
      ((billingEngine cols).runBody (ensurePeriod tenant label start finish) ⟨w, [], []⟩)
      ((billingEngine cols).runBody (ensurePeriod tenant label start finish) ⟨v, [], []⟩) := by
    have hbegun : BillingAlike extra ⟨w, [], []⟩ ⟨v, [], []⟩ := ⟨h, .nil⟩
    rw [ensurePeriod]
    split
    · exact endsAlike_done _ hbegun
    split
    · exact endsAlike_done _ hbegun
    obtain ⟨hwrites, hanswer⟩ := ensurePeriodStmt_alike cols h tenant label start finish
    have hafter : BillingAlike extra
        ((billingEngine cols).after (.ensurePeriod tenant label start finish) ⟨w, [], []⟩)
        ((billingEngine cols).after (.ensurePeriod tenant label start finish) ⟨v, [], []⟩) :=
      hbegun.after (h.draw (.ensurePeriod tenant label start finish)) hwrites
    have hrun : ∀ w : World, (billingEngine cols).runBody
        (ensurePeriodStmt tenant label start finish) ⟨w, [], []⟩ =
          ((execEnsurePeriod cols tenant label start finish w.db).1,
            (billingEngine cols).after (.ensurePeriod tenant label start finish) ⟨w, [], []⟩) :=
      fun _ => rfl
    rw [Engine.runBody_bind, Engine.runBody_bind, hrun, hrun]
    rcases hanswer with ⟨e, hw, hv⟩ | ⟨p, q, hw, hv⟩
    · rw [hw, hv]
      exact endsAlike_done _ hafter
    · rw [hw, hv]
      exact ⟨hafter, iff_of_true ⟨_, rfl⟩ ⟨_, rfl⟩⟩
  exact Engine.call_related (keeps_rebuilt cols extra) (fun x y h => triggersPass_alike h)
    hends.txn hends.commits

end Calls

end LedgerLine.Billing
