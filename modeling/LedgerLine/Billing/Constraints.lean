import LedgerLine.Billing.Runs

/-!
# Keys and references

The primary keys, unique keys and foreign keys of the ledger and the invoices, as the
migrations declare them.  Every statement keeps the constraints, and so does every call of a
serial run (`constraints_step`).
-/

namespace LedgerLine.Billing

/-- Changes that add a row to a table with a key that is referred to, or with a reference. -/
def Write.adds : Write → Bool
  | .account _ => true
  | .transaction _ => true
  | .posting _ => true
  | .period _ => true
  | .invoice _ => true
  | .lineItem _ => true
  | _ => false

/-- The keys and references of the ledger and the invoices. -/
structure Constraints (db : Database) : Prop where
  accounts : (db.accounts.map AccountRow.id).Nodup
  accountIds : ∀ a ∈ db.accounts, a.id < db.sequences.accounts
  transactionIds : ∀ t ∈ db.transactions, t.id < db.sequences.transactions
  postings : ∀ p ∈ db.postings, (∃ t ∈ db.transactions, t.id = p.transactionId) ∧
    ∃ a ∈ db.accounts, a.id = p.accountId
  invoices : ∀ r ∈ db.invoices, r.id < db.sequences.invoices ∧
    ∃ t ∈ db.transactions, t.id = r.ledgerTransactionId
  lineItems : ∀ l ∈ db.lineItems, ∃ r ∈ db.invoices, r.id = l.invoiceId

namespace Constraints

/-- The tables the constraints are about. -/
theorem congr {db db' : Database} (h : Constraints db) (haccounts : db'.accounts = db.accounts)
    (htransactions : db'.transactions = db.transactions) (hpostings : db'.postings = db.postings)
    (hinvoices : db'.invoices = db.invoices) (hlineItems : db'.lineItems = db.lineItems)
    (hsequences : db.sequences.Le db'.sequences) : Constraints db' := by
  constructor
  · rw [haccounts]
    exact h.accounts
  · rw [haccounts]
    exact fun a ha => Int.lt_of_lt_of_le (h.accountIds a ha) (Int.ofNat_le.2 hsequences.accounts)
  · rw [htransactions]
    exact fun t ht => Nat.lt_of_lt_of_le (h.transactionIds t ht) hsequences.transactions
  · rw [hpostings, htransactions, haccounts]
    exact h.postings
  · rw [hinvoices, htransactions]
    exact fun r hr => ⟨Nat.lt_of_lt_of_le (h.invoices r hr).1 hsequences.invoices,
      (h.invoices r hr).2⟩
  · rw [hlineItems, hinvoices]
    exact h.lineItems

variable {cols : Columns} {w : World}

theorem quiet (h : Constraints w.db) {ws : List Write} (hws : ∀ c ∈ ws, c.adds = false) :
    Constraints ((billingEngine cols).view w ws).db := by
  induction ws generalizing w with
  | nil => exact h
  | cons c ws ih =>
      rw [List.forall_mem_cons] at hws
      refine ih (w := w.apply c) ?_ hws.2
      cases c <;> first | exact h.congr rfl rfl rfl rfl rfl (.refl _) | cases hws.1

theorem draw (h : Constraints w.db) (o : BillingStmt) : Constraints (w.draw o).db :=
  h.congr rfl rfl rfl rfl rfl (Sequences.le_draw _ o)

/-- One statement. -/
theorem exec (h : Constraints w.db) (o : BillingStmt) :
    Constraints (((billingEngine cols).view w (o.exec cols w).2).draw o).db := by
  have heffect := effect_of_exec cols o w
  generalize (o.exec cols w).2 = ws at heffect ⊢
  cases heffect with
  | consumer o =>
      refine (h.quiet fun c hc => ?_).draw _
      have hconsumer := isConsumer_of_exec hc
      cases c <;> first | rfl | cases hconsumer
  | bill | closePeriod =>
      refine (h.quiet fun c hc => ?_).draw _
      obtain ⟨_, -, rfl⟩ := List.mem_map.1 hc
      rfl
  | nothing | touchAccount | touchPeriod | lockPeriod =>
      exact (h.quiet (by simp [Write.adds])).draw _
  | account name kind hnew =>
      refine ⟨?_, ?_, h.transactionIds, ?_, h.invoices, h.lineItems⟩
      · show ((w.db.accounts ++ [_]).map AccountRow.id).Nodup
        rw [List.map_append, List.nodup_append]
        refine ⟨h.accounts, List.nodup_singleton _, ?_⟩
        intro id hid id' hid'
        obtain ⟨a, ha, rfl⟩ := List.mem_map.1 hid
        cases List.mem_singleton.1 hid'
        exact Int.ne_of_lt (h.accountIds a ha)
      · intro a ha
        rcases List.mem_append.1 ha with ha | ha
        · exact Int.lt_add_one_of_le (Int.le_of_lt (h.accountIds a ha))
        · cases List.mem_singleton.1 ha
          exact Int.lt_succ _
      · intro p hp
        obtain ⟨ht, a, ha, hid⟩ := h.postings p hp
        exact ⟨ht, a, List.mem_append_left _ ha, hid⟩
  | transaction key occurredAt description storedAt hnew =>
      refine ⟨h.accounts, h.accountIds, ?_, ?_, ?_, h.lineItems⟩
      · intro t ht
        rcases List.mem_append.1 ht with ht | ht
        · exact Nat.lt_succ_of_lt (h.transactionIds t ht)
        · cases List.mem_singleton.1 ht
          exact Nat.lt_succ_self _
      · intro p hp
        obtain ⟨⟨t, ht, hid⟩, ha⟩ := h.postings p hp
        exact ⟨⟨t, List.mem_append_left _ ht, hid⟩, ha⟩
      · intro r hr
        obtain ⟨hlt, t, ht, hid⟩ := h.invoices r hr
        exact ⟨hlt, t, List.mem_append_left _ ht, hid⟩
  | posting row htransaction haccount =>
      refine ⟨h.accounts, h.accountIds, h.transactionIds, ?_, h.invoices, h.lineItems⟩
      exact List.forall_mem_append.2 ⟨h.postings,
        List.forall_mem_singleton.2 ⟨htransaction, haccount⟩⟩
  | period tenant label start finish start' finish' hnew =>
      exact h.congr rfl rfl rfl rfl rfl
        (Sequences.le_draw w.db.sequences (.ensurePeriod tenant label start finish))
  | invoice period tenant total transaction issuedAt storedAt hperiod htransaction hnew =>
      refine ⟨h.accounts, h.accountIds, h.transactionIds, h.postings, ?_, ?_⟩
      · intro r hr
        rcases List.mem_append.1 hr with hr | hr
        · exact ⟨Nat.lt_succ_of_lt (h.invoices r hr).1, (h.invoices r hr).2⟩
        · cases List.mem_singleton.1 hr
          exact ⟨Nat.lt_succ_self _, htransaction⟩
      · intro l hl
        obtain ⟨r, hr, hid⟩ := h.lineItems l hl
        exact ⟨r, List.mem_append_left _ hr, hid⟩
  | lineItem invoice meter quantity amount nanos hinvoice =>
      refine ⟨h.accounts, h.accountIds, h.transactionIds, h.postings, h.invoices, ?_⟩
      exact List.forall_mem_append.2 ⟨h.lineItems, List.forall_mem_singleton.2 hinvoice⟩

end Constraints

section Serial

variable {cols : Columns}

/-- What is drawn and what is changed do not meet. -/
theorem view_draw (w : World) (ws : List Write) (o : BillingStmt) :
    (billingEngine cols).view (w.draw o) ws = ((billingEngine cols).view w ws).draw o := by
  induction ws generalizing w with
  | nil => rfl
  | cons c ws ih =>
      have happly : (w.draw o).apply c = (w.apply c).draw o := by
        cases c <;> rfl
      exact (congrArg (fun w => (billingEngine cols).view w ws) happly).trans (ih (w.apply c))

/-- What every statement keeps is kept by every transaction on its own. -/
theorem alone_invariant {P : World → Prop}
    (hexec : ∀ w o, P w → P (((billingEngine cols).view w (o.exec cols w).2).draw o))
    (hdraw : ∀ w (o : BillingStmt), P w → P (w.draw o)) {check : World → List Write → Prop}
    {ε β : Type} {body : BillingBody (Outcome ε β)} {w w' : World} {out : Option β}
    (h : (billingEngine cols).Alone check body w out w') (hw : P w) : P w' := by
  refine h.invariant ?_ ?_ hw
  · intro base ws o hbase
    rw [billingEngine_draw, billingEngine_exec, view_draw, Engine.view_append]
    exact hexec _ o hbase
  · intro base ws o hbase
    rw [billingEngine_draw, view_draw]
    exact hdraw _ o hbase

/-- Every call of a serial run keeps the constraints. -/
theorem constraints_step {decode : Decoder} {w w' : World}
    {call : SerialCall} {new : List Happening} (h : SerialStep cols decode w call new w')
    (hw : Constraints w.db) : Constraints w'.db := by
  have hexec : ∀ (w : World) (o : BillingStmt), Constraints w.db →
      Constraints (((billingEngine cols).view w (o.exec cols w).2).draw o).db :=
    fun w o hw => hw.exec o
  have hdraw : ∀ (w : World) (o : BillingStmt), Constraints w.db → Constraints (w.draw o).db :=
    fun w o hw => hw.draw o
  cases h with
  | append record => exact hw
  | batch c start stop h | ensurePeriod tenant label start finish h
  | close registry plan now id h =>
      exact alone_invariant (P := fun w => Constraints w.db) hexec hdraw h hw

end Serial

end LedgerLine.Billing
