import LedgerLine.Billing.AmountText
import LedgerLine.Billing.ReadBack

/-!
# The invariants of the chaos suite

Follows `chaos/invariants.go`: the checks that read the ledger, the invoices and the billed events
(I1, the billing half of I2, and I4).

Calls of any kind run with their statements interleaved and fail anywhere, as under the faults of
the harness.  What a commit does to the tables that are checked is said once (`Effect`): it adds
events that are not billed, or one invoice as a whole, with its lines, a balanced ledger
transaction and its mark on some events.  `checks_pass`: no check ever reports a violation, and
`read_invoices_add_up`: neither does what is read of an invoice contradict itself.
-/

namespace LedgerLine.Billing
namespace Chaos

/-- `Violation`. -/
structure Violation where
  invariant : String
  detail : String
deriving DecidableEq, Repr

/-- `CheckMoneyConserved`.  A sum that is not an `int64` cannot be scanned. -/
def checkMoneyConserved (scanErr : String) (db : Database) : Option Violation :=
  let total := trialBalance db
  if total < -2 ^ 63 ∨ 2 ^ 63 ≤ total then
    some ⟨"I1", "could not read trial balance: trial balance: " ++ scanErr⟩
  else if total ≠ 0 then
    some ⟨"I1", "trial balance is " ++ amountString (Int64.ofInt total) ++ ", want 0"⟩
  else none

/-- The event points at an invoice that does not exist. -/
def orphaned (db : Database) (e : EventRow) : Bool :=
  e.invoiceId.any fun id => db.invoices.all fun row => row.id ≠ id

/-- The invoice disagrees with its line items. -/
def mismatched (db : Database) (row : InvoiceRow) : Bool :=
  row.total.toInt ≠ ((db.linesOf row.id).map fun l => l.amount.toInt).sum

/-- `CheckEventsBilledAtMostOnce`. -/
def checkEventsBilledAtMostOnce (db : Database) : Option Violation :=
  let orphans := db.events.countP (orphaned db)
  let mismatches := db.invoices.countP (mismatched db)
  if orphans ≠ 0 then
    some ⟨"I2", toString orphans ++ " events point at an invoice that does not exist"⟩
  else if mismatches ≠ 0 then
    some ⟨"I1", toString mismatches ++ " invoices disagree with their own line items"⟩
  else none

/-- `SnapshotInvoices`. -/
def snapshotInvoices (db : Database) : List (Nat × Amount) :=
  db.invoices.map fun row => (row.id, row.total)

/-- `CheckInvoicesUnchanged`, for a snapshot in the order in which it is gone through. -/
def checkInvoicesUnchanged (db : Database) (before : List (Nat × Amount)) : Option Violation :=
  before.findSome? fun (id, total) =>
    match (snapshotInvoices db).lookup id with
    | none => some ⟨"I4", "invoice " ++ toString id ++ " has disappeared"⟩
    | some now =>
        if now ≠ total then
          some ⟨"I4", "invoice " ++ toString id ++ " was " ++ amountString total ++
            " and is now " ++ amountString now⟩
        else none

/-- What the checks are about. -/
structure Checked (db : Database) : Prop where
  trial : trialBalance db = 0
  ids : (db.invoices.map InvoiceRow.id).Nodup
  totals : ∀ row ∈ db.invoices, mismatched db row = false
  billed : ∀ e ∈ db.events, orphaned db e = false

/-- Only events that are not billed are added. -/
structure Quiet (db db' : Database) : Prop where
  invoices : db'.invoices = db.invoices
  lines : db'.lineItems = db.lineItems
  postings : db'.postings = db.postings
  events : ∀ e ∈ db'.events, e ∈ db.events ∨ e.invoiceId = none

/-- What a commit does to the tables that are checked. -/
inductive Effect (db db' : Database) : Prop
  | quiet (h : Quiet db db')
  | issued (row : InvoiceRow) (lines : List InvoiceLine) (postings : List PostingRow)
      (hinvoices : db'.invoices = db.invoices ++ [row])
      (hlines : db'.lineItems = db.lineItems ++ lines.map (InvoiceLine.row row.id))
      (hpostings : db'.postings = db.postings ++ postings)
      (hnew : ∀ r ∈ db.invoices, r.id ≠ row.id)
      (hfree : ∀ l ∈ db.lineItems, l.invoiceId ≠ row.id)
      (htotal : row.total.toInt = (lines.map fun l => l.amount.toInt).sum)
      (hbalanced : (postings.map fun p => p.amount.toInt).sum = 0)
      (hevents : ∀ e ∈ db'.events, e ∈ db.events ∨ e.invoiceId = some row.id)

variable {db : Database}

theorem orphaned_eq_false {e : EventRow} :
    orphaned db e = false ↔ ∀ id, e.invoiceId = some id → ∃ row ∈ db.invoices, row.id = id := by
  rw [orphaned]
  cases e.invoiceId with
  | none | some id => simp

/-- A commit keeps what the checks are about. -/
theorem Checked.step {db db' : Database} (h : Checked db) (heffect : Effect db db') :
    Checked db' := by
  cases heffect with
  | quiet hquiet =>
      refine ⟨?_, hquiet.invoices ▸ h.ids, ?_, ?_⟩
      · rw [trialBalance, hquiet.postings]
        exact h.trial
      · rw [hquiet.invoices]
        intro row hrow
        rw [mismatched, Database.linesOf, hquiet.lines]
        exact h.totals row hrow
      · intro e he
        rw [orphaned_eq_false, hquiet.invoices]
        rcases hquiet.events e he with hold | hnone
        · exact orphaned_eq_false.1 (h.billed e hold)
        · intro id hid
          cases hnone.symm.trans hid
  | issued row lines postings hinvoices hlines hpostings hnew hfree htotal hbalanced hevents =>
      refine ⟨?_, ?_, ?_, ?_⟩
      · have htrial := h.trial
        rw [trialBalance] at htrial ⊢
        rw [hpostings, List.map_append, List.sum_append, htrial, hbalanced]
        rfl
      · rw [hinvoices, List.map_append, List.map_singleton, List.nodup_append]
        refine ⟨h.ids, List.nodup_singleton _, ?_⟩
        intro id hid id' hid'
        obtain ⟨r, hr, rfl⟩ := List.mem_map.1 hid
        rw [List.mem_singleton.1 hid']
        exact hnew r hr
      · rw [hinvoices]
        intro r hr
        rcases List.mem_append.1 hr with hr | hr
        · rw [mismatched, linesOf_append_ne hlines (hnew r hr).symm]
          exact h.totals r hr
        · rw [List.mem_singleton.1 hr, mismatched, linesOf_append hlines hfree, List.map_map,
            htotal]
          simp [Function.comp_def, InvoiceLine.row]
      · intro e he
        rw [orphaned_eq_false, hinvoices]
        intro id hid
        rcases hevents e he with hold | hnew
        · obtain ⟨r, hr, hrid⟩ := orphaned_eq_false.1 (h.billed e hold) id hid
          exact ⟨r, List.mem_append_left _ hr, hrid⟩
        · cases hnew.symm.trans hid
          exact ⟨row, by simp, rfl⟩

variable {cols : Columns} {calls : Nat → BillingCall}

/-- A change that touches neither the ledger nor an invoice. -/
def QuietWrite : Write → Prop
  | .event row => row.invoiceId = none
  | .touchEvent _ | .offset _ _ | .deadLetter _ | .period _ | .touchPeriod _ => True
  | _ => False

theorem quiet_of_writes {ws : List Write} (h : ∀ c ∈ ws, QuietWrite c) (w : World) :
    Quiet w.db ((billingEngine cols).view w ws).db := by
  induction ws generalizing w with
  | nil =>
      exact ⟨rfl, rfl, rfl, fun e he => .inl he⟩
  | cons c ws ih =>
      rw [List.forall_mem_cons] at h
      obtain ⟨hinvoices, hlines, hpostings, hevents⟩ := ih h.2 (w.apply c)
      cases c with
      | event row =>
          refine ⟨hinvoices, hlines, hpostings, fun e he => ?_⟩
          rcases hevents e he with hold | hnone
          · rcases List.mem_append.1 hold with hold | hrow
            · exact .inl hold
            · exact .inr (List.mem_singleton.1 hrow ▸ h.1)
          · exact .inr hnone
      | touchEvent | offset | deadLetter | period | touchPeriod =>
          exact ⟨hinvoices, hlines, hpostings, hevents⟩
      | _ => exact h.1.elim

/-- The changes of a batch are quiet. -/
theorem quiet_of_consumer {o : BillingStmt} (ho : o.isConsumer) (w : World) :
    ∀ c ∈ (o.exec cols w).2, QuietWrite c := by
  intro c hc
  obtain ⟨hkinds, hrows⟩ := consumer_writes cols ho w
  have hkind := hkinds c hc
  cases c with
  | event row =>
      have hrow := mem_ownRows.2 hc
      rcases hrows with hnone | ⟨row', hone, hinvoice, -⟩
      · rw [hnone] at hrow
        cases hrow
      · rw [hone, List.mem_singleton] at hrow
        exact hrow ▸ hinvoice
  | touchEvent | offset | deadLetter => trivial
  | _ => cases hkind

/-- A call that commits has issued an invoice, or its changes are quiet. -/
theorem quiet_or_issued {call : BillingCall} {seen : Trace} {result : BillingResult}
    (h : (billingEngine cols).PathTo call.body seen (.commit result)) :
    (∀ c ∈ (billingEngine cols).writesOf seen, QuietWrite c) ∨
      ∃ registry plan now id inv x, Issued cols registry plan now id seen inv x := by
  cases call with
  | close registry plan now id =>
      obtain ⟨closed, rfl, hclose⟩ := Engine.path_relabel h
      rcases path_close hclose with
        ⟨inv, x, rfl, hissued⟩ | ⟨_, _, _, locked, _, _, rfl, hreturned⟩
      · exact .inr ⟨registry, plan, now, id, inv, x, hissued⟩
      · left
        rw [hreturned.seen]
        rcases execLockPeriod_cases id locked.db with hexec | ⟨p, -, -, hexec⟩ <;>
          simp [BillingStmt.exec, hexec, QuietWrite]
  | invoiceForPeriod id =>
      obtain ⟨inv, rfl, hread⟩ := Engine.path_relabel h
      obtain ⟨row, read, lines, items, rfl, -⟩ := path_invoice (path_readInvoice hread)
      left
      simp [BillingStmt.exec]
  | ensurePeriod tenant label start finish =>
      obtain ⟨period, rfl, hensure⟩ := Engine.path_relabel h
      obtain ⟨w, rfl, -⟩ := path_ensurePeriod hensure
      left
      rcases execEnsurePeriod_cases cols tenant label start finish w.db with
        hexec | ⟨p, -, -, hexec⟩ | ⟨-, start', finish', hexec⟩ <;>
          simp [BillingStmt.exec, hexec, QuietWrite]
  | batch decode c start stop =>
      have honly := Engine.only_of_path h (Program.only_bind (only_asBilling _) fun _ => trivial)
      left
      intro c hc
      obtain ⟨e, he, hc⟩ := List.mem_flatMap.1 hc
      exact quiet_of_consumer (honly e he) e.2 c hc

section Issue

variable {registry : Registry} {plan : Plan} {now : Time} {id : Nat} {seen : Trace}
  {inv : Invoice} {x : Issue}

/-- The postings of a `Close` balance, also if it finds its transaction posted. -/
theorem balanced_of_issue (h : Issued cols registry plan now id seen inv x) :
    ((ownPostings ((billingEngine cols).writesOf x.posting)).map
      fun p => p.amount.toInt).sum = 0 := by
  have hbuilt : Built x.transaction := ⟨_, _, _, _, h.transaction⟩
  rcases h.posted with ⟨-, row, -, -, hwrites⟩ | ⟨-, hwrites, -⟩
  · rw [hwrites]
    simpa [ownPostings, Function.comp_def, Posting.row] using hbuilt.balanced
  · rw [hwrites]
    rfl

/-- A `Close` that issues an invoice adds it as a whole. -/
theorem effect_of_issue (h : Issued cols registry plan now id seen inv x) {w : World}
    (hfree : Unrivalled w inv x) :
    Effect w.db ((billingEngine cols).view w ((billingEngine cols).writesOf seen)).db := by
  refine .issued (x.invoiceRow inv) x.entry.lines _ (issued_invoices h w) (issued_lineItems h w)
    (issued_postings h w) (fun r hr => (hfree.invoices r hr).1) hfree.lines ?_
    (balanced_of_issue h) ?_
  · rw [show (x.invoiceRow inv).total = x.entry.total from rfl, h.entry.total, h.entry.lines,
      List.map_map]
    rfl
  · rw [issued_events h w]
    refine List.forall_mem_map.2 fun r hr => ?_
    rw [EventRow.billed]
    split
    · exact .inr rfl
    · exact .inl hr

end Issue

theorem effect_of_commit {t : Nat} {start w : World} {seen : Trace} {result : BillingResult}
    (hpath : (billingEngine cols).PathTo (calls t).body seen (.commit result))
    (hchain : InvoicesChain cols calls start seen w) :
    Effect w.db ((billingEngine cols).view w ((billingEngine cols).writesOf seen)).db := by
  rcases quiet_or_issued hpath with hquiet | ⟨_, _, _, _, inv, x, hissued⟩
  · exact .quiet (quiet_of_writes hquiet w)
  · exact effect_of_issue hissued (unrivalled hissued hchain)

/-- An invoice that is there is found as it was. -/
theorem lookup_snapshot (h : (db.invoices.map InvoiceRow.id).Nodup) {row : InvoiceRow}
    (hrow : row ∈ db.invoices) : (snapshotInvoices db).lookup row.id = some row.total := by
  obtain ⟨before, after, hsplit⟩ := List.append_of_mem hrow
  rw [hsplit, List.map_append, List.map_cons, List.nodup_middle, List.nodup_cons] at h
  refine List.lookup_eq_some_iff.2 ⟨before.map fun r => (r.id, r.total),
    after.map fun r => (r.id, r.total), ?_, ?_⟩
  · rw [snapshotInvoices, hsplit, List.map_append, List.map_cons]
  · refine List.forall_mem_map.2 fun r hr => ?_
    rw [bne_iff_ne]
    rintro heq
    exact h.1 (List.mem_append_left _ (heq ▸ List.mem_map_of_mem hr))

theorem checkMoneyConserved_eq_none (h : Checked db) (scanErr : String) :
    checkMoneyConserved scanErr db = none := by
  simp [checkMoneyConserved, h.trial]

theorem checkEventsBilledAtMostOnce_eq_none (h : Checked db) :
    checkEventsBilledAtMostOnce db = none := by
  have horphans : db.events.countP (orphaned db) = 0 := by
    rw [List.countP_eq_zero]
    intro e he
    simp [h.billed e he]
  have hmismatches : db.invoices.countP (mismatched db) = 0 := by
    rw [List.countP_eq_zero]
    intro row hrow
    simp [h.totals row hrow]
  simp [checkEventsBilledAtMostOnce, horphans, hmismatches]

theorem checkInvoicesUnchanged_eq_none {db' : Database} (h : Checked db')
    (hkept : db.invoices ⊆ db'.invoices) :
    checkInvoicesUnchanged db' (snapshotInvoices db) = none := by
  rw [checkInvoicesUnchanged, List.findSome?_eq_none_iff]
  refine List.forall_mem_map.2 fun row hrow => ?_
  simp [lookup_snapshot h.ids (hkept hrow)]

/-- Calls that run into each other. -/
abbrev BillingCalls :=
  Calls BillingStmt BillingStmt.Answer StmtErr World Write MeanwhileErr BillingResult

/-- What calls can reach. -/
abbrev Reaches (cols : Columns) (calls : Nat → BillingCall) :=
  Relation.ReflTransGen (CallStep (billingEngine cols) (fun t => (calls t).body)
    (triggersPass cols) fun _ _ _ => True)

/-- What holds along a run. -/
theorem checked_of_run {c c' : BillingCalls} {kept : List InvoiceRow}
    (hinv : CallInv (invoicesContract cols calls) c) (hrun : Reaches cols calls c c')
    (h : Checked c.pool.data.db) (hkept : kept ⊆ c.pool.data.db.invoices) :
    Checked c'.pool.data.db ∧ kept ⊆ c'.pool.data.db.invoices := by
  refine holds_of_run (P := fun w : World => Checked w.db ∧ kept ⊆ w.db.invoices) ?_ ?_ hinv hrun
    ⟨h, hkept⟩
  · -- drawing a number changes no table
    rintro o w ⟨h, hkept⟩
    exact ⟨⟨h.trial, h.ids, h.totals, h.billed⟩, hkept⟩
  · rintro t start b w seen ⟨h, hkept⟩ hpath hchain
    refine ⟨h.step (effect_of_commit hpath hchain), ?_⟩
    rw [view_invoices]
    exact List.subset_append_of_subset_left _ hkept

theorem inv_of_start {w : World} (hknown : IdsKnown w.db) (hw : Checked w.db) {c : BillingCalls}
    (hrun : Reaches cols calls (.start w) c) :
    CallInv (invoicesContract cols calls) c ∧ Checked c.pool.data.db := by
  have hinv : CallInv (invoicesContract cols calls) (.start w) :=
    .start ⟨hknown, List.forall_mem_nil _, List.forall_mem_nil _⟩
  exact ⟨callInv_of_run hinv hrun, (checked_of_run hinv hrun hw (List.Subset.refl _)).1⟩

/-- However calls run into each other and wherever they fail: none of the checks reports a
violation, in any state on the way, and no invoice that was there has changed or disappeared
later. -/
theorem checks_pass (cols : Columns) (calls : Nat → BillingCall) (scanErr : String) {w : World}
    (hknown : IdsKnown w.db) (hw : Checked w.db) {c c' : BillingCalls}
    (hrun : Reaches cols calls (.start w) c) (hrun' : Reaches cols calls c c') :
    checkMoneyConserved scanErr c.pool.data.db = none ∧
      checkEventsBilledAtMostOnce c.pool.data.db = none ∧
      checkInvoicesUnchanged c'.pool.data.db (snapshotInvoices c.pool.data.db) = none := by
  obtain ⟨hinv, hc⟩ := inv_of_start hknown hw hrun
  have hc' := checked_of_run hinv hrun' hc (List.Subset.refl _)
  exact ⟨checkMoneyConserved_eq_none hc scanErr, checkEventsBilledAtMostOnce_eq_none hc,
    checkInvoicesUnchanged_eq_none hc'.1 hc'.2⟩

theorem amounts_of_linesFrom {rows : List (String × String × Amount)}
    {acc lines : List InvoiceLine} (h : linesFrom acc rows = .ok lines) :
    lines.map InvoiceLine.amount = acc.map InvoiceLine.amount ++ rows.map (·.2.2) := by
  induction rows generalizing acc with
  | nil =>
      cases h
      simp
  | cons row rows ih =>
      obtain ⟨quantity, -, h⟩ := ok_of_bind h
      simpa using ih h

/-- What is read of an invoice adds up. -/
theorem Checked.readInvoice (h : Checked db) {id : Nat} {inv : Invoice}
    (hread : db.readInvoice cols id = .ok inv) :
    inv.total.toInt = (inv.lineItems.map fun l => l.amount.toInt).sum := by
  rw [Database.readInvoice] at hread
  split at hread
  · cases hread
  rename_i row hfind
  cases hlines : linesFrom [] (lineItemRows cols row.id db) with
  | error e =>
      rw [hlines] at hread
      cases hread
  | ok lines =>
      rw [hlines] at hread
      cases hread
      have htotal : row.total.toInt = ((db.linesOf row.id).map fun l => l.amount.toInt).sum := by
        simpa [mismatched] using h.totals row (List.mem_of_find?_eq_some hfind)
      have hperm : (lines.map InvoiceLine.amount).Perm
          ((db.linesOf row.id).map LineItemRow.amount) := by
        rw [amounts_of_linesFrom hlines, List.map_nil, List.nil_append, lineItemRows]
        refine ((List.perm_insertionSort _ _).map _).trans ?_
        rw [List.map_map]
        exact .refl _
      have hsum := (hperm.map Int64.toInt).sum_eq
      rw [List.map_map, List.map_map] at hsum
      exact htotal.trans hsum.symm

/-- `InvoiceForPeriod` reads an invoice and its lines in two statements, and so does a `Close` that
finds the period closed.  Whatever is committed in between, what they return adds up. -/
theorem read_invoices_add_up (cols : Columns) (calls : Nat → BillingCall) {w : World}
    (hknown : IdsKnown w.db) (hw : Checked w.db) {c : BillingCalls}
    (hrun : Reaches cols calls (.start w) c) {f : FinishedCall} (hf : f ∈ c.finished) {id : Nat}
    {inv : Invoice} (hread : ReturnsRead (calls f.call) f.result id inv) :
    inv.total.toInt = (inv.lineItems.map fun l => l.amount.toInt).sum := by
  obtain ⟨hinv, hc⟩ := inv_of_start hknown hw hrun
  have hgood : InvoicesGood cols calls c.pool.data c.finished := hinv.good
  exact hc.readInvoice (hgood.read f hf id inv hread)

/-- The invoice of the sample is issued and read. -/
theorem reads_sample : ∃ c, Reaches postgresColumns sampleReads (.start samplePeriod) c ∧
    ∃ f ∈ c.finished, f.call = 1 ∧ f.result = .invoice (sampleInvoice 1 false) := by
  have hplay : (playReads [.begin 0, .statements 0 12, .commit 0, .begin 1, .statements 1 2,
      .commit 1]).any (fun c => c.finished.any fun f =>
        f.call = 1 ∧ f.result = .invoice (sampleInvoice 1 false)) := by
    decide +kernel
  obtain ⟨c, hc, hfinished⟩ := (Option.any_eq_true _ _).1 hplay
  exact ⟨c, Calls.reachable_of_play (fun _ _ _ _ _ => trivial) hc, by simpa using hfinished⟩

theorem known_sample : IdsKnown samplePeriod.db := by
  constructor <;> decide +kernel

theorem checked_sample : Checked samplePeriod.db := by
  constructor <;> decide +kernel

theorem checks_pass_sample :
    ∃ c : BillingCalls, c.finished ≠ [] ∧ checkMoneyConserved "" c.pool.data.db = none ∧
      checkEventsBilledAtMostOnce c.pool.data.db = none := by
  obtain ⟨c, hrun, f, hf, -⟩ := reads_sample
  obtain ⟨hmoney, hbilled, -⟩ := checks_pass postgresColumns sampleReads "" known_sample
    checked_sample hrun .refl
  exact ⟨c, List.ne_nil_of_mem hf, hmoney, hbilled⟩

theorem read_invoices_add_up_sample :
    ∃ c : BillingCalls, ∃ f ∈ c.finished, ∃ inv, f.result = .invoice inv ∧
      inv.total.toInt = (inv.lineItems.map fun l => l.amount.toInt).sum := by
  obtain ⟨c, hrun, f, hf, hcall, hresult⟩ := reads_sample
  have hread : ReturnsRead (sampleReads f.call) f.result 1 (sampleInvoice 1 false) :=
    .inr ⟨by rw [hcall]; rfl, hresult⟩
  exact ⟨c, f, hf, _, hresult, read_invoices_add_up postgresColumns sampleReads known_sample
    checked_sample hrun hf hread⟩

end Chaos
end LedgerLine.Billing
