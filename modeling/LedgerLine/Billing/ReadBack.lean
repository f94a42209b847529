import LedgerLine.Billing.Meanwhile

/-!
# Reading an invoice back

Calls of any kind on the database, with their statements interleaved: `Close` on any periods,
`InvoiceForPeriod`, `EnsurePeriod` and consumer batches.  Once an invoice is committed nobody
adds a line to it, and nobody inserts another one for its period (`InvoicesMove`), so that
whoever reads it reads the same rows.

What is read is not all that was issued.  The lines come back in the order of the database's
collation, while `Rate` puts them in the order of their bytes; and whether a line is late is
not stored, so that every line comes back as not late (`late_is_lost`).  `reads_back_iff`: the
lines come back unchanged exactly if none is late and they are in the order of the collation.
-/

namespace LedgerLine.Billing

/-- A call on the database. -/
inductive BillingCall
  | close (registry : Registry) (plan : Plan) (now : Time) (id : Nat)
  | invoiceForPeriod (id : Nat)
  | ensurePeriod (tenant label : String) (start finish : Time)
  | batch (decode : Decoder) (c : Consumer) (start stop : Nat)

/-- What it returns. -/
inductive BillingResult
  | closed (result : Closed)
  | invoice (inv : Invoice)
  | period (period : Period)
  | batch (stats : Stats)
deriving DecidableEq, Repr

/-- `InvoiceForPeriod`.  It has no transaction of its own; each of its statements sees what is
committed, as it would in a transaction that changes nothing. -/
def readInvoice (id : Nat) : BillingBody (Outcome CloseErr Invoice) := do
  match ← invoiceForPeriod id with
  | .error e => pure (.rollback e)
  | .ok inv => pure (.commit inv)

/-- The code of a call. -/
def BillingCall.body : BillingCall → BillingBody (Outcome MeanwhileErr BillingResult)
  | close registry plan now id => relabel .inl .closed (Billing.close registry plan now id)
  | invoiceForPeriod id => relabel .inl .invoice (readInvoice id)
  | ensurePeriod tenant label start finish =>
      relabel .inl .period (Billing.ensurePeriod tenant label start finish)
  | batch decode c start stop =>
      relabel .inr .batch (asBilling (processBatch decode c start stop))

/-- A call that has committed. -/
abbrev FinishedCall := Finished BillingStmt World Write BillingResult

/-- The call has read an invoice of the period and returned it: `InvoiceForPeriod`, or a `Close`
that found the period closed. -/
def ReturnsRead (call : BillingCall) (result : BillingResult) (id : Nat) (inv : Invoice) : Prop :=
  (∃ registry plan now, call = .close registry plan now id ∧
      result = .closed (.periodClosed inv)) ∨
    call = .invoiceForPeriod id ∧ result = .invoice inv

/-- What `invoiceForPeriod` makes of the tables. -/
def Database.readInvoice (cols : Columns) (db : Database) (id : Nat) : Except CloseErr Invoice :=
  match db.invoices.find? fun r => r.periodId = id with
  | none => .error (.noInvoice id)
  | some row => (linesFrom [] (lineItemRows cols row.id db)).map fun lines =>
      ⟨row.id, row.periodId, row.tenantId, row.total, row.ledgerTransactionId, row.issuedAt, lines⟩

/-- Invoices and lines have identities that were handed out. -/
structure IdsKnown (db : Database) : Prop where
  invoices : ∀ row ∈ db.invoices, row.id < db.sequences.invoices
  lines : ∀ l ∈ db.lineItems, l.invoiceId < db.sequences.invoices

section Lines

variable {cols : Columns}

/-- A line as it is read. -/
def InvoiceLine.read (line : InvoiceLine) : InvoiceLine :=
  { line with late := false }

/-- The lines in the order of the collation. -/
def collated (cols : Columns) (lines : List InvoiceLine) : List InvoiceLine :=
  lines.insertionSort fun a b => cols.collate a.meter b.meter

variable {lines : List InvoiceLine}

theorem linesFrom_rows {acc : List InvoiceLine} (h : ∀ line ∈ lines, 0 ≤ line.quantity.toInt) :
    linesFrom acc (lines.map fun line =>
      (line.meter, numericText line.quantity.toInt, line.amount)) =
        .ok (acc ++ lines.map InvoiceLine.read) := by
  induction lines generalizing acc with
  | nil => simp [linesFrom]
  | cons line lines ih =>
      rw [List.forall_mem_cons] at h
      have hparse : parseQuantity (numericText line.quantity.toInt) = .ok line.quantity :=
        parseQuantity_numericText.2 ⟨h.1, rfl⟩
      rw [List.map_cons, linesFrom, hparse]
      refine (ih h.2).trans ?_
      rw [List.map_cons, List.append_assoc, List.singleton_append]
      rfl

theorem lineItemRows_congr {db db' : Database} {invoice : Nat}
    (h : db'.linesOf invoice = db.linesOf invoice) :
    lineItemRows cols invoice db' = lineItemRows cols invoice db := by
  rw [lineItemRows, lineItemRows, ← Database.linesOf, h]
  rfl

/-- What is read of the stored lines of an invoice. -/
theorem linesFrom_lineItemRows {db : Database} {invoice : Nat}
    (hlines : db.linesOf invoice = lines.map (InvoiceLine.row invoice))
    (h : ∀ line ∈ lines, 0 ≤ line.quantity.toInt) :
    linesFrom [] (lineItemRows cols invoice db) =
      .ok ((collated cols lines).map InvoiceLine.read) := by
  have hrows : lineItemRows cols invoice db = (collated cols lines).map fun line =>
      (line.meter, numericText line.quantity.toInt, line.amount) := by
    rw [lineItemRows, ← Database.linesOf, hlines, List.map_map, collated]
    exact (List.map_insertionSort (fun a b : InvoiceLine => cols.collate a.meter b.meter = true)
      (fun a b : String × String × Amount => cols.collate a.1 b.1 = true) _ _
      fun a _ b _ => Iff.rfl).symm
  rw [hrows, linesFrom_rows]
  · rfl
  · exact fun line hline => h line ((List.mem_insertionSort _).1 hline)

/-- Lines are in order exactly if the collation leaves them as they are. -/
theorem collated_eq_iff :
    collated cols lines = lines ↔
      lines.Pairwise fun a b => cols.collate a.meter b.meter = true := by
  have : Std.Total fun a b : InvoiceLine => cols.collate a.meter b.meter = true :=
    ⟨fun a b => cols.collate_total a.meter b.meter⟩
  have : IsTrans InvoiceLine fun a b => cols.collate a.meter b.meter = true :=
    ⟨fun a b c => cols.collate_trans a.meter b.meter c.meter⟩
  constructor
  · intro heq
    rw [← heq]
    exact List.pairwise_insertionSort _ lines
  · exact List.Pairwise.insertionSort_eq

/-- The lines come back as they were exactly if they are in order and none is late. -/
theorem read_collated_eq_iff :
    (collated cols lines).map InvoiceLine.read = lines ↔
      (∀ line ∈ lines, line.late = false) ∧
        lines.Pairwise fun a b => cols.collate a.meter b.meter = true := by
  have hread : (∀ line ∈ lines, line.late = false) →
      (collated cols lines).map InvoiceLine.read = collated cols lines := by
    intro hlate
    refine (List.map_congr_left ?_).trans (List.map_id _)
    intro line hline
    have hfalse := hlate line ((List.mem_insertionSort _).1 hline)
    rw [InvoiceLine.read, ← hfalse]
    rfl
  constructor
  · intro heq
    have hlate : ∀ line ∈ lines, line.late = false := by
      intro line hline
      rw [← heq] at hline
      obtain ⟨line', -, rfl⟩ := List.mem_map.1 hline
      rfl
    rw [hread hlate] at heq
    exact ⟨hlate, collated_eq_iff.1 heq⟩
  · rintro ⟨hlate, hsorted⟩
    rw [hread hlate]
    exact collated_eq_iff.2 hsorted

end Lines

section Moves

/-- What may happen while a call is open that has inserted the given invoices: invoices of other
periods come in, and lines of invoices that were not there. -/
structure InvoicesMove (own : List InvoiceRow) (w w' : World) : Prop where
  invoices : ∃ new, w'.db.invoices = w.db.invoices ++ new ∧
    ∀ row ∈ new, ∀ r ∈ own, row.id ≠ r.id ∧ row.periodId ≠ r.periodId
  lines : ∃ new, w'.db.lineItems = w.db.lineItems ++ new ∧
    ∀ l ∈ new, (∀ r ∈ own, l.invoiceId ≠ r.id) ∧ ∀ row ∈ w.db.invoices, l.invoiceId ≠ row.id
  periods : ∀ p ∈ w.db.periods, ∃ p' ∈ w'.db.periods, p'.id = p.id
  sequences : w.db.sequences.invoices ≤ w'.db.sequences.invoices

namespace InvoicesMove

variable {own own' : List InvoiceRow} {w w' w₁ w₂ w₃ : World}

theorem refl (w : World) : InvoicesMove own w w :=
  ⟨⟨[], by simp, List.forall_mem_nil _⟩, ⟨[], by simp, List.forall_mem_nil _⟩,
    fun p hp => ⟨p, hp, rfl⟩, Nat.le_refl _⟩

theorem trans (h : InvoicesMove own w₁ w₂) (h' : InvoicesMove own w₂ w₃) :
    InvoicesMove own w₁ w₃ := by
  obtain ⟨new, hnew, hother⟩ := h.invoices
  obtain ⟨new', hnew', hother'⟩ := h'.invoices
  obtain ⟨lines, hlines, hapart⟩ := h.lines
  obtain ⟨lines', hlines', hapart'⟩ := h'.lines
  refine ⟨⟨new ++ new', ?_, ?_⟩, ⟨lines ++ lines', ?_, ?_⟩, ?_,
    Nat.le_trans h.sequences h'.sequences⟩
  · rw [hnew', hnew, List.append_assoc]
  · exact List.forall_mem_append.2 ⟨hother, hother'⟩
  · rw [hlines', hlines, List.append_assoc]
  · intro l hl
    rcases List.mem_append.1 hl with hl | hl
    · exact hapart l hl
    · refine ⟨(hapart' l hl).1, fun row hrow => (hapart' l hl).2 row ?_⟩
      rw [hnew]
      exact List.mem_append_left _ hrow
  · intro p hp
    obtain ⟨p', hp', hid⟩ := h.periods p hp
    obtain ⟨p'', hp'', hid'⟩ := h'.periods p' hp'
    exact ⟨p'', hp'', hid'.trans hid⟩

theorem mono (h : InvoicesMove own w w') (hsub : own' ⊆ own) : InvoicesMove own' w w' := by
  obtain ⟨new, hnew, hother⟩ := h.invoices
  obtain ⟨lines, hlines, hapart⟩ := h.lines
  exact ⟨⟨new, hnew, fun row hrow r hr => hother row hrow r (hsub hr)⟩,
    ⟨lines, hlines, fun l hl => ⟨fun r hr => (hapart l hl).1 r (hsub hr), (hapart l hl).2⟩⟩,
    h.periods, h.sequences⟩

theorem draw (w : World) (o : BillingStmt) : InvoicesMove own w (w.draw o) :=
  ⟨(refl w).invoices, (refl w).lines, fun p hp => ⟨p, hp, rfl⟩,
    (Sequences.le_draw w.db.sequences o).invoices⟩

/-- The invoice that is found for a period stays the same. -/
theorem find_eq (h : InvoicesMove own w w') {id : Nat} {row : InvoiceRow}
    (hfind : w.db.invoices.find? (fun r => r.periodId = id) = some row) :
    w'.db.invoices.find? (fun r => r.periodId = id) = some row := by
  obtain ⟨new, hnew, -⟩ := h.invoices
  rw [hnew, List.find?_append, hfind]
  rfl

/-- An invoice that is there gets no further lines. -/
theorem linesOf_eq (h : InvoicesMove own w w') {row : InvoiceRow} (hrow : row ∈ w.db.invoices) :
    w'.db.linesOf row.id = w.db.linesOf row.id := by
  obtain ⟨new, hnew, hapart⟩ := h.lines
  have hnone : new.filter (fun l => l.invoiceId = row.id) = [] := by
    rw [List.filter_eq_nil_iff]
    intro l hl hid
    exact (hapart l hl).2 row hrow (of_decide_eq_true hid)
  rw [Database.linesOf, hnew, List.filter_append, hnone, List.append_nil]
  rfl

/-- What is read of a period stays the same. -/
theorem readInvoice_eq {cols : Columns} (h : InvoicesMove own w w') {id : Nat} {inv : Invoice}
    (hread : w.db.readInvoice cols id = .ok inv) : w'.db.readInvoice cols id = .ok inv := by
  rw [Database.readInvoice] at hread ⊢
  cases hfind : w.db.invoices.find? (fun r => r.periodId = id) with
  | none =>
      rw [hfind] at hread
      cases hread
  | some row =>
      have hlines := h.linesOf_eq (List.mem_of_find?_eq_some hfind)
      rw [hfind] at hread
      rw [h.find_eq hfind, ← hread]
      simp only [lineItemRows_congr hlines]

end InvoicesMove

end Moves

section Kept

variable {cols : Columns}

/-- A statement that inserts neither an invoice nor a line. -/
def BillingStmt.KeepsInvoices : BillingStmt → Prop
  | .insertInvoice _ _ _ _ _ => False
  | .insertLineItem _ _ _ _ => False
  | _ => True

/-- A change of the tables of invoices and lines. -/
def Write.isInvoice : Write → Bool
  | .invoice _ => true
  | .lineItem _ => true
  | _ => false

theorem BillingStmt.KeepsInvoices.writes {o : BillingStmt} (ho : o.KeepsInvoices) (w : World) :
    ∀ c ∈ (o.exec cols w).2, c.isInvoice = false := by
  intro c hc
  have heffect := effect_of_exec cols o w
  generalize (o.exec cols w).2 = ws at heffect hc
  cases heffect with
  | nothing => cases hc
  | consumer o =>
      have hconsumer := isConsumer_of_exec hc
      cases c <;> first | rfl | cases hconsumer
  | invoice | lineItem => exact ho.elim
  | bill | closePeriod =>
      obtain ⟨_, -, rfl⟩ := List.mem_map.1 hc
      rfl
  | _ =>
      cases List.mem_singleton.1 hc
      rfl

variable {seen : Trace} {id : Nat}

theorem noInvoices_of_seen (h : ∀ e ∈ seen, e.1.KeepsInvoices) :
    ∀ c ∈ (billingEngine cols).writesOf seen, c.isInvoice = false := by
  intro c hc
  obtain ⟨e, he, hc⟩ := List.mem_flatMap.1 hc
  exact (h e he).writes e.2 c hc

theorem ownInvoices_of_none {ws : List Write} (h : ∀ c ∈ ws, c.isInvoice = false) :
    ownInvoices ws = [] := by
  rw [ownInvoices, List.filterMap_eq_nil_iff]
  intro c hc
  have hnone := h c hc
  cases c <;> first | rfl | cases hnone

theorem ownLines_of_none {ws : List Write} (h : ∀ c ∈ ws, c.isInvoice = false) :
    ownLines ws = [] := by
  rw [ownLines, List.filterMap_eq_nil_iff]
  intro c hc
  have hnone := h c hc
  cases c <;> first | rfl | cases hnone

/-- No change drops a period. -/
theorem view_period_mem (w : World) (ws : List Write) {p : Period} (hp : p ∈ w.db.periods) :
    ∃ p' ∈ ((billingEngine cols).view w ws).db.periods, p'.id = p.id := by
  induction ws generalizing w p with
  | nil => exact ⟨p, hp, rfl⟩
  | cons c ws ih =>
      have happly : ∃ p' ∈ (w.apply c).db.periods, p'.id = p.id := by
        cases c with
        | period row =>
            exact ⟨p, List.mem_append_left _ hp, rfl⟩
        | closePeriod id closedAt =>
            refine ⟨p.close id closedAt, List.mem_map_of_mem hp, ?_⟩
            rw [Period.close]
            split <;> rfl
        | _ => exact ⟨p, hp, rfl⟩
      obtain ⟨p', hp', hid⟩ := happly
      obtain ⟨p'', hp'', hid'⟩ := ih (w.apply c) hp'
      exact ⟨p'', hp'', hid'.trans hid⟩

/-- The period that is found under the identity is closed. -/
def Database.Closed (db : Database) (id : Nat) : Prop :=
  ∃ p, db.periods.find? (fun p => p.id = id) = some p ∧ p.state = .closed

/-- Closing a period keeps identities. -/
theorem find_close (periods : List Period) (id other : Nat) (closedAt : Time) :
    (periods.map (Period.close other closedAt)).find? (fun p => p.id = id) =
      (periods.find? fun p => p.id = id).map (Period.close other closedAt) := by
  rw [List.find?_map]
  congr 2
  funext p
  simp only [Function.comp_apply, Period.close]
  split <;> rfl

/-- No change opens a period that is closed. -/
theorem closed_view (w : World) (ws : List Write) (h : w.db.Closed id) :
    ((billingEngine cols).view w ws).db.Closed id := by
  induction ws generalizing w with
  | nil => exact h
  | cons c ws ih =>
      refine ih (w.apply c) ?_
      obtain ⟨p, hfind, hclosed⟩ := h
      cases c with
      | period row =>
          refine ⟨p, ?_, hclosed⟩
          show (w.db.periods ++ [row]).find? _ = _
          rw [List.find?_append, hfind]
          rfl
      | closePeriod other closedAt =>
          refine ⟨p.close other closedAt, ?_, ?_⟩
          · show (w.db.periods.map (Period.close other closedAt)).find? _ = _
            rw [find_close, hfind]
            rfl
          · rw [Period.close]
            split
            · rfl
            · exact hclosed
      | _ => exact ⟨p, hfind, hclosed⟩

theorem keeps_ensurePeriod (tenant label : String) (start finish : Time) :
    Program.Only BillingStmt.KeepsInvoices (ensurePeriod tenant label start finish) := by
  rw [ensurePeriod]
  split
  · trivial
  split
  · trivial
  · refine ⟨trivial, fun r => ?_⟩
    cases r <;> trivial

theorem keeps_batch (body : BatchBody BatchEnd) :
    Program.Only BillingStmt.KeepsInvoices (asBilling body) := by
  refine Program.only_mono ?_ (only_asBilling body)
  intro o ho
  cases o with
  | consumer o => trivial
  | _ => exact ho.elim

/-- A `Close` that returns an invoice it has read. -/
theorem path_periodClosed {registry : Registry} {plan : Plan} {now : Time} {id : Nat}
    {seen : Trace} {inv : Invoice}
    (h : (billingEngine cols).PathTo (close registry plan now id) seen
      (.commit (.periodClosed inv))) :
    ∃ locked rest, seen = (.lockPeriod id, locked) :: rest ∧
      (billingEngine cols).PathTo (invoiceForPeriod id) rest (.ok inv) := by
  obtain ⟨first, rest, r, rfl, hfirst, hrest⟩ := Engine.path_bind h
  obtain ⟨locked, rfl, rfl⟩ := path_lockPeriod hfirst
  refine ⟨locked, rest, rfl, ?_⟩
  rcases execLockPeriod_cases id locked.db with hexec | ⟨period, hmem, hid, hexec⟩ <;>
    rw [hexec] at hrest
  · cases (Engine.path_done hrest).2
  subst hid
  simp only at hrest
  split at hrest
  · obtain ⟨second, last, inv', rfl, hsecond, hlast⟩ := Engine.path_bind_ok hrest
      fun e => ⟨_, rfl, nofun⟩
    obtain ⟨rfl, hresult⟩ := Engine.path_done hlast
    cases hresult
    rw [List.append_nil]
    exact hsecond
  · rename_i hstate
    have hopen : period.state = .open := by
      cases hcases : period.state with
      | «open» => rfl
      | closed => exact absurd hcases hstate
    obtain ⟨inv', x, hresult, -⟩ := path_billPeriod hmem hexec hopen hrest
    cases hresult

theorem path_readInvoice {inv : Invoice}
    (h : (billingEngine cols).PathTo (readInvoice id) seen (.commit inv)) :
    (billingEngine cols).PathTo (invoiceForPeriod id) seen (.ok inv) := by
  obtain ⟨first, last, inv', rfl, hfirst, hlast⟩ := Engine.path_bind_ok h fun e => ⟨_, rfl, nofun⟩
  obtain ⟨rfl, hresult⟩ := Engine.path_done hlast
  cases hresult
  rw [List.append_nil]
  exact hfirst

/-- A call that commits has issued an invoice; or it has changed none, and read the invoice it
returns. -/
theorem commit_cases {call : BillingCall} {result : BillingResult}
    (h : (billingEngine cols).PathTo call.body seen (.commit result)) :
    (∃ registry plan now id inv x, call = .close registry plan now id ∧
      result = .closed (.issued inv) ∧ Issued cols registry plan now id seen inv x) ∨
    (∀ e ∈ seen, e.1.KeepsInvoices) ∧ (∀ inv, result ≠ .closed (.issued inv)) ∧
      ∀ id inv, ReturnsRead call result id inv → ∃ before rest, seen = before ++ rest ∧
        (billingEngine cols).PathTo (invoiceForPeriod id) rest (.ok inv) := by
  cases call with
  | close registry plan now id =>
      obtain ⟨closed, rfl, hclose⟩ := Engine.path_relabel h
      rcases path_close hclose with
        ⟨inv, x, rfl, hissued⟩ | ⟨inv, period, row, locked, read, lines, rfl, hreturned⟩
      · exact .inl ⟨registry, plan, now, id, inv, x, rfl, rfl, hissued⟩
      · refine .inr ⟨?_, (by intro inv heq; cases heq), ?_⟩
        · rw [hreturned.seen]
          simp [BillingStmt.KeepsInvoices]
        · rintro id' inv' (⟨_, _, _, hcall, hresult⟩ | ⟨hcall, -⟩)
          · cases hcall
            cases hresult
            obtain ⟨locked', rest, hseen, hpath⟩ := path_periodClosed hclose
            exact ⟨[(.lockPeriod id, locked')], rest, hseen, hpath⟩
          · cases hcall
  | invoiceForPeriod id =>
      obtain ⟨inv, rfl, hread⟩ := Engine.path_relabel h
      have hpath := path_readInvoice hread
      refine .inr ⟨?_, (by intro inv heq; cases heq), ?_⟩
      · obtain ⟨row, read, lines, items, rfl, -⟩ := path_invoice hpath
        simp [BillingStmt.KeepsInvoices]
      · rintro id' inv' (⟨_, _, _, hcall, -⟩ | ⟨hcall, hresult⟩)
        · cases hcall
        · cases hcall
          cases hresult
          exact ⟨[], seen, rfl, hpath⟩
  | ensurePeriod tenant label start finish =>
      refine .inr ⟨?_, ?_, ?_⟩
      · exact Engine.only_of_path h
          (Program.only_bind (keeps_ensurePeriod tenant label start finish) fun _ => trivial)
      · obtain ⟨period, rfl, -⟩ := Engine.path_relabel h
        intro inv heq
        cases heq
      · rintro id' inv' (⟨_, _, _, hcall, -⟩ | ⟨hcall, -⟩) <;> cases hcall
  | batch decode c start stop =>
      refine .inr ⟨?_, ?_, ?_⟩
      · exact Engine.only_of_path h (Program.only_bind (keeps_batch _) fun _ => trivial)
      · obtain ⟨stats, rfl, -⟩ := Engine.path_relabel h
        intro inv heq
        cases heq
      · rintro id' inv' (⟨_, _, _, hcall, -⟩ | ⟨hcall, -⟩) <;> cases hcall

end Kept

section Contract

variable {cols : Columns} {calls : Nat → BillingCall}

/-- The row of an invoice. -/
def Invoice.row (inv : Invoice) (issuedAt : Time) : InvoiceRow :=
  ⟨inv.id, inv.periodId, inv.tenantId, inv.total, inv.ledgerTransactionId, issuedAt⟩

/-- An issued invoice is in the tables, and its period is closed. -/
structure Stored (w : World) (id : Nat) (inv : Invoice) : Prop where
  row : ∃ issuedAt, w.db.invoices.find? (fun r => r.periodId = id) = some (inv.row issuedAt)
  lines : w.db.linesOf inv.id = inv.lineItems.map (InvoiceLine.row inv.id)
  nonneg : ∀ line ∈ inv.lineItems, 0 ≤ line.quantity.toInt
  closed : w.db.Closed id

/-- Every invoice that was issued is stored, and every invoice that was read is read still. -/
structure InvoicesGood (cols : Columns) (calls : Nat → BillingCall) (w : World)
    (fs : List FinishedCall) : Prop where
  known : IdsKnown w.db
  issued : ∀ f ∈ fs, ∀ registry plan now id inv, calls f.call = .close registry plan now id →
    f.result = .closed (.issued inv) → Stored w id inv
  read : ∀ f ∈ fs, ∀ id inv, ReturnsRead (calls f.call) f.result id inv →
    w.db.readInvoice cols id = .ok inv

/-- What calls rely on. -/
def invoicesRely (cols : Columns) (seen : Trace) (w w' : World) : Prop :=
  InvoicesMove (ownInvoices ((billingEngine cols).writesOf seen)) w w'

/-- The states a call has gone through. -/
abbrev InvoicesChain (cols : Columns) (calls : Nat → BillingCall) :=
  (billingEngine cols).Chain (fun w => ∃ fs, InvoicesGood cols calls w fs) (invoicesRely cols)

theorem invoicesRely_mono (seen seen' : Trace) (w w' : World)
    (h : invoicesRely cols (seen ++ seen') w w') : invoicesRely cols seen w w' := by
  refine InvoicesMove.mono h ?_
  rw [Engine.writesOf_append, ownInvoices, ownInvoices, List.filterMap_append]
  exact List.subset_append_left _ _

theorem invoicesRely_trans (seen : Trace) (w₁ w₂ w₃ : World) (h : invoicesRely cols seen w₁ w₂)
    (h' : invoicesRely cols seen w₂ w₃) : invoicesRely cols seen w₁ w₃ :=
  InvoicesMove.trans h h'

theorem invoicesRely_draw (seen : Trace) (o : BillingStmt) (w : World)
    (_ : ∃ fs, InvoicesGood cols calls w fs) : invoicesRely cols seen w (w.draw o) :=
  .draw w o

variable {seen : Trace} {id : Nat} {start w : World} {inv : Invoice} {own : List InvoiceRow}

theorem entry_of_invoices {sight : World} {seen' : Trace} {o : BillingStmt}
    (h : InvoicesChain cols calls start (seen ++ (o, sight) :: seen') w) :
    ∃ base, InvoicesChain cols calls start seen base ∧ IdsKnown base.db ∧
      sight = (billingEngine cols).view base ((billingEngine cols).writesOf seen) ∧
      invoicesRely cols (seen ++ [(o, sight)]) (base.draw o) w := by
  obtain ⟨base, hchain, ⟨_, hgood⟩, hsight, hmove⟩ := h.entry invoicesRely_trans
    invoicesRely_mono invoicesRely_draw
  exact ⟨base, hchain, hgood.known, hsight, hmove⟩

/-- Statements that insert no invoice show the invoices and lines that are committed. -/
theorem view_keeps (cols : Columns) (h : ∀ e ∈ seen, e.1.KeepsInvoices) (base : World) :
    ((billingEngine cols).view base ((billingEngine cols).writesOf seen)).db.invoices =
        base.db.invoices ∧
      ((billingEngine cols).view base ((billingEngine cols).writesOf seen)).db.lineItems =
        base.db.lineItems := by
  have hnone : ∀ c ∈ (billingEngine cols).writesOf seen, c.isInvoice = false :=
    noInvoices_of_seen h
  rw [view_invoices, view_lineItems, ownInvoices_of_none hnone, ownLines_of_none hnone]
  exact ⟨List.append_nil _, List.append_nil _⟩

/-- What a call has read of a period is what there is to read. -/
theorem read_of_path {before rest : Trace} (hkeeps : ∀ e ∈ before ++ rest, e.1.KeepsInvoices)
    (hpath : (billingEngine cols).PathTo (invoiceForPeriod id) rest (.ok inv))
    (hchain : InvoicesChain cols calls start (before ++ rest) w) :
    w.db.readInvoice cols id = .ok inv := by
  obtain ⟨row, read, lines, items, rfl, hfind, hlines, rfl⟩ := path_invoice hpath
  have hsplit : before ++ [(.selectInvoiceByPeriod id, read), (.selectLineItems row.id, lines)] =
      (before ++ [(.selectInvoiceByPeriod id, read)]) ++ [(.selectLineItems row.id, lines)] := by
    simp
  rw [hsplit] at hkeeps hchain
  obtain ⟨base, hbefore, -, hsight, hmove⟩ := hchain.last
  obtain ⟨base₀, -, -, hsight₀, hmove₀⟩ := hbefore.last
  have hkeeps' := fun e he => hkeeps e (List.mem_append_left _ he)
  have hrow : base.db.invoices.find? (fun r => r.periodId = id) = some row := by
    refine InvoicesMove.find_eq hmove₀ ?_
    rw [hsight₀, (view_keeps cols (fun e he => hkeeps' e (List.mem_append_left _ he)) _).1] at hfind
    exact hfind
  have hread : base.db.readInvoice cols id = .ok ⟨row.id, row.periodId, row.tenantId, row.total,
      row.ledgerTransactionId, row.issuedAt, items⟩ := by
    have hsame : lines.db.linesOf row.id = base.db.linesOf row.id := by
      rw [hsight, Database.linesOf, (view_keeps cols hkeeps' _).2]
      rfl
    rw [lineItemRows_congr hsame] at hlines
    rw [Database.readInvoice, hrow]
    simp only [hlines]
    rfl
  exact InvoicesMove.readInvoice_eq hmove hread

section Issue

variable {registry : Registry} {plan : Plan} {now : Time} {id : Nat} {seen : Trace}
  {inv : Invoice} {x : Issue} {start w : World}

/-- The period that was locked is still there. -/
theorem period_of_chain {after : Trace} (h : Issued cols registry plan now id seen inv x)
    (hchain : InvoicesChain cols calls start
      ([] ++ (.lockPeriod x.period.id, x.locked) :: after) w) :
    ∃ p ∈ w.db.periods, p.id = x.period.id := by
  obtain ⟨base, -, -, hsight, hmove⟩ := entry_of_invoices hchain
  rw [Engine.writesOf_nil] at hsight
  obtain rfl : x.locked = base := hsight
  exact hmove.periods x.period h.locked

/-- What a call that issues an invoice finds when it commits: no other invoice of the period, and
nothing under the identity of the new one. -/
structure Unrivalled (w : World) (inv : Invoice) (x : Issue) : Prop where
  issued : inv.id < w.db.sequences.invoices
  invoices : ∀ row ∈ w.db.invoices, row.id ≠ inv.id ∧ row.periodId ≠ x.period.id
  lines : ∀ l ∈ w.db.lineItems, l.invoiceId ≠ inv.id

variable (h : Issued cols registry plan now id seen inv x)

include h

theorem unrivalled (hchain : InvoicesChain cols calls start seen w) : Unrivalled w inv x := by
  obtain ⟨before, after, hseen, -⟩ := h.at_inserted
  rw [hseen] at hchain
  obtain ⟨base, -, hknown, hsight, hmove⟩ := entry_of_invoices hchain
  have hid : inv.id = base.db.sequences.invoices := by
    rw [h.ended.invoice, hsight, World.sequences_view]
  have hown : x.invoiceRow inv ∈ ownInvoices ((billingEngine cols).writesOf (before ++
      [(.insertInvoice x.period.id x.period.tenantId x.entry.total inv.ledgerTransactionId now,
        x.inserted)])) := by
    rw [Engine.writesOf_append, ownInvoices, List.filterMap_append]
    apply List.mem_append_right
    simp [BillingStmt.exec, h.ended.inserted]
  obtain ⟨new, hnew, hother⟩ := hmove.invoices
  obtain ⟨lines, hlines, hapart⟩ := hmove.lines
  refine ⟨?_, ?_, ?_⟩
  · rw [hid]
    exact Nat.lt_of_lt_of_le (Nat.lt_succ_self _) hmove.sequences
  · intro row hrow
    rw [hnew] at hrow
    rcases List.mem_append.1 hrow with hrow | hrow
    · refine ⟨Nat.ne_of_lt ?_, h.ended.noInvoice row ?_⟩
      · rw [hid]
        exact hknown.invoices row hrow
      · rw [hsight, view_invoices]
        exact List.mem_append_left _ hrow
    · exact hother row hrow _ hown
  · intro l hl
    rw [hlines] at hl
    rcases List.mem_append.1 hl with hl | hl
    · rw [hid]
      exact Nat.ne_of_lt (hknown.lines l hl)
    · exact (hapart l hl).1 _ hown

/-- A call that issues an invoice does what the other open calls allow. -/
theorem move_of_invoice (hfree : Unrivalled w inv x) {own : List InvoiceRow}
    (hown : ∀ r ∈ own, inv.id ≠ r.id ∧ x.period.id ≠ r.periodId) :
    InvoicesMove own w ((billingEngine cols).view w ((billingEngine cols).writesOf seen)) := by
  refine ⟨⟨_, issued_invoices h w, ?_⟩, ⟨_, issued_lineItems h w, ?_⟩,
    fun p hp => view_period_mem w _ hp, ?_⟩
  · intro row hrow
    cases List.mem_singleton.1 hrow
    exact hown
  · refine List.forall_mem_map.2 fun line _ => ?_
    exact ⟨fun r hr => (hown r hr).1, fun row hrow => (hfree.invoices row hrow).1.symm⟩
  · rw [World.sequences_view]

/-- The period is closed with it. -/
theorem closed_of_issue (hchain : InvoicesChain cols calls start seen w) :
    ((billingEngine cols).view w ((billingEngine cols).writesOf seen)).db.Closed id := by
  obtain ⟨after, hlock⟩ := h.at_locked
  obtain ⟨p, hp, hid⟩ := period_of_chain h (hlock ▸ hchain)
  -- the statement that closes the period finds it too
  have hclosed : ∃ p ∈ x.closed.db.periods, p.id = x.period.id := by
    obtain ⟨before, hseen, -⟩ := h.at_closed
    have hbefore : ∃ rest, before = [] ++ (.lockPeriod x.period.id, x.locked) :: rest := by
      rw [hlock, List.nil_append] at hseen
      cases before with
      | nil => cases hseen
      | cons e rest =>
          exact ⟨rest, by rw [(List.cons.inj hseen).1, List.nil_append]⟩
    obtain ⟨rest, rfl⟩ := hbefore
    rw [hseen] at hchain
    obtain ⟨base, hbase, -, hsight, -⟩ := entry_of_invoices hchain
    obtain ⟨p', hp', hid'⟩ := period_of_chain h hbase
    rw [hsight, ← hid']
    exact view_period_mem base _ hp'
  rw [Database.Closed, issued_periods h hclosed w, h.period_id, find_close]
  have hfound : (w.db.periods.find? fun p => p.id = id).isSome = true := by
    rw [List.find?_isSome]
    exact ⟨p, hp, decide_eq_true (hid.trans h.period_id)⟩
  obtain ⟨q, hq⟩ := Option.isSome_iff_exists.1 hfound
  refine ⟨q.close id x.storedAt, by rw [hq]; rfl, ?_⟩
  have hqid : q.id = id := by simpa using List.find?_some hq
  rw [Period.close, if_pos hqid]

/-- The invoice is stored as it was issued. -/
theorem stored_of_issue (hchain : InvoicesChain cols calls start seen w) :
    Stored ((billingEngine cols).view w ((billingEngine cols).writesOf seen)) id inv := by
  have hfree := unrivalled h hchain
  have hinv := h.ended.invoice
  have hlines : inv.lineItems = x.entry.lines := congrArg Invoice.lineItems hinv
  have hrow : x.invoiceRow inv = inv.row x.storedAt := by
    rw [Issue.invoiceRow, Invoice.row, show inv.periodId = _ from congrArg Invoice.periodId hinv,
      show inv.tenantId = _ from congrArg Invoice.tenantId hinv,
      show inv.total = _ from congrArg Invoice.total hinv]
  have hnone : w.db.invoices.find? (fun r => r.periodId = id) = none := by
    rw [List.find?_eq_none]
    intro row hrow hperiod
    exact (hfree.invoices row hrow).2 ((of_decide_eq_true hperiod).trans h.period_id.symm)
  refine ⟨⟨x.storedAt, ?_⟩, ?_, ?_, ?_⟩
  · have hperiod : (x.invoiceRow inv).periodId = id := h.period_id
    rw [issued_invoices h w, List.find?_append, hnone, ← hrow]
    simp [hperiod]
  · rw [hlines]
    exact linesOf_append (issued_lineItems h w) hfree.lines
  · rw [hlines]
    exact h.entry.nonneg (rate_spec h.rated)
  · exact closed_of_issue h hchain

end Issue

/-- A stored invoice stays stored. -/
theorem Stored.move {ws : List Write} (h : Stored w id inv)
    (hmove : InvoicesMove own w ((billingEngine cols).view w ws)) :
    Stored ((billingEngine cols).view w ws) id inv := by
  obtain ⟨issuedAt, hfind⟩ := h.row
  refine ⟨⟨issuedAt, hmove.find_eq hfind⟩, ?_, h.nonneg, closed_view w ws h.closed⟩
  exact (hmove.linesOf_eq (List.mem_of_find?_eq_some hfind)).trans h.lines

/-- What is read of a stored invoice. -/
theorem Stored.read (cols : Columns) (h : Stored w id inv) :
    ∃ issuedAt, w.db.readInvoice cols id = .ok { inv with
      issuedAt := issuedAt, lineItems := (collated cols inv.lineItems).map InvoiceLine.read } := by
  obtain ⟨issuedAt, hfind⟩ := h.row
  refine ⟨issuedAt, ?_⟩
  have hlines : linesFrom [] (lineItemRows cols (inv.row issuedAt).id w.db) = _ :=
    linesFrom_lineItemRows h.lines h.nonneg
  rw [Database.readInvoice, hfind]
  simp only [hlines]
  rfl

/-- What a commit does to the tables of invoices and lines. -/
theorem move_of_commit {start w : World} {seen : Trace} {call : BillingCall}
    {result : BillingResult} {own : List InvoiceRow}
    (hpath : (billingEngine cols).PathTo call.body seen (.commit result))
    (hchain : InvoicesChain cols calls start seen w)
    (hown : ∀ row ∈ ownInvoices ((billingEngine cols).writesOf seen), ∀ r ∈ own,
      row.id ≠ r.id ∧ row.periodId ≠ r.periodId) :
    InvoicesMove own w ((billingEngine cols).view w ((billingEngine cols).writesOf seen)) := by
  rcases commit_cases hpath with ⟨_, _, _, _, inv, x, -, -, hissued⟩ | ⟨hkeeps, -⟩
  · refine move_of_invoice hissued (unrivalled hissued hchain) (hown (x.invoiceRow inv) ?_)
    have hall := (view_invoices cols w _).symm.trans (issued_invoices hissued w)
    rw [List.append_cancel_left hall]
    exact List.mem_singleton.2 rfl
  · obtain ⟨hinvoices, hlines⟩ := view_keeps cols hkeeps w
    exact ⟨⟨[], by rw [hinvoices, List.append_nil], List.forall_mem_nil _⟩,
      ⟨[], by rw [hlines, List.append_nil], List.forall_mem_nil _⟩,
      fun p hp => view_period_mem w _ hp, by rw [World.sequences_view]⟩

/-- The identities stay known. -/
theorem IdsKnown.commit {start w : World} {seen : Trace} {call : BillingCall}
    {result : BillingResult} (h : IdsKnown w.db)
    (hpath : (billingEngine cols).PathTo call.body seen (.commit result))
    (hchain : InvoicesChain cols calls start seen w) :
    IdsKnown ((billingEngine cols).view w ((billingEngine cols).writesOf seen)).db := by
  rcases commit_cases hpath with ⟨_, _, _, _, inv, x, -, -, hissued⟩ | ⟨hkeeps, -⟩
  · have hid := (unrivalled hissued hchain).issued
    constructor
    · rw [issued_invoices hissued, World.sequences_view]
      exact List.forall_mem_append.2 ⟨h.invoices, List.forall_mem_singleton.2 hid⟩
    · rw [issued_lineItems hissued, World.sequences_view]
      intro l hl
      rcases List.mem_append.1 hl with hl | hl
      · exact h.lines l hl
      · obtain ⟨line, -, rfl⟩ := List.mem_map.1 hl
        exact hid
  · obtain ⟨hinvoices, hlines⟩ := view_keeps cols hkeeps w
    exact ⟨by rw [hinvoices, World.sequences_view]; exact h.invoices,
      by rw [hlines, World.sequences_view]; exact h.lines⟩

theorem InvoicesGood.commit {start w : World} {seen : Trace} {result : BillingResult} {t : Nat}
    {fs : List FinishedCall} (hgood : InvoicesGood cols calls w fs)
    (hpath : (billingEngine cols).PathTo (calls t).body seen (.commit result))
    (hchain : InvoicesChain cols calls start seen w) :
    InvoicesGood cols calls
      ((billingEngine cols).view w ((billingEngine cols).writesOf seen))
      (fs ++ [⟨t, start, result, ⟨w, (billingEngine cols).writesOf seen, seen⟩⟩]) := by
  have hmove : InvoicesMove [] w
      ((billingEngine cols).view w ((billingEngine cols).writesOf seen)) :=
    move_of_commit hpath hchain fun _ _ => List.forall_mem_nil _
  refine ⟨hgood.known.commit hpath hchain, ?_, ?_⟩
  · intro f hf registry plan now id inv hcall hresult
    rcases List.mem_append.1 hf with hf | hf
    · exact (hgood.issued f hf registry plan now id inv hcall hresult).move hmove
    · cases List.mem_singleton.1 hf
      rcases commit_cases hpath with ⟨_, _, _, _, _, x, hcall', hresult', hissued⟩ | ⟨-, hnot, -⟩
      · cases hcall.symm.trans hcall'
        cases hresult.symm.trans hresult'
        exact stored_of_issue hissued hchain
      · exact absurd hresult (hnot inv)
  · intro f hf id inv hread
    rcases List.mem_append.1 hf with hf | hf
    · exact hmove.readInvoice_eq (hgood.read f hf id inv hread)
    · cases List.mem_singleton.1 hf
      rcases commit_cases hpath with ⟨_, _, _, _, _, x, hcall', hresult', -⟩ | ⟨hkeeps, -, hreads⟩
      · rcases hread with ⟨_, _, _, -, hresult⟩ | ⟨-, hresult⟩ <;>
          cases hresult.symm.trans hresult'
      · obtain ⟨before, rest, rfl, hrest⟩ := hreads id inv hread
        exact hmove.readInvoice_eq (read_of_path hkeeps hrest hchain)

theorem givesUp_call (call : BillingCall) : GivesUp call.body := by
  cases call with
  | close registry plan now id =>
      exact givesUp_relabel _ _ (givesUp_close registry plan now id)
  | invoiceForPeriod id =>
      refine givesUp_relabel _ _ (stopsWith_bind (passesOn_invoiceForPeriod id) ?_ ?_)
      · exact fun e => ⟨_, rfl, _, rfl⟩
      · exact fun _ => trivial
  | ensurePeriod tenant label start finish =>
      exact givesUp_relabel _ _ (givesUp_ensurePeriod tenant label start finish)
  | batch decode c start stop =>
      exact givesUp_relabel _ _ (stopsWith_asBilling (givesUp_processBatch decode c start stop))

/-- The calls, and what keeps invoices stored and read. -/
def invoicesContract (cols : Columns) (calls : Nat → BillingCall) :
    CallContract (billingEngine cols) (fun t => (calls t).body) (triggersPass cols)
      (fun _ _ _ => True) (billingNumbering cols) where
  Good := InvoicesGood cols calls
  R := fun _ => invoicesRely cols
  Apart := fun _ _ => True
  givesUp := fun t => givesUp_call (calls t)
  refl := fun _ _ w => .refl w
  trans := fun _ => invoicesRely_trans
  draw := fun _ _ o w _ _ => .draw w o
  good_draw := fun o w fs h => {
    known := ⟨fun row hrow => Nat.lt_of_lt_of_le (h.known.invoices row hrow)
        (Sequences.le_draw w.db.sequences o).invoices,
      fun l hl => Nat.lt_of_lt_of_le (h.known.lines l hl)
        (Sequences.le_draw w.db.sequences o).invoices⟩
    issued := fun f hf registry plan now id inv hcall hresult =>
      let hstored := h.issued f hf registry plan now id inv hcall hresult
      ⟨hstored.row, hstored.lines, hstored.nonneg, hstored.closed⟩
    read := h.read }
  apart_symm := fun _ _ _ => trivial
  apart_nil := fun _ => trivial
  apart_step := fun _ _ _ _ _ _ _ _ _ _ _ _ _ => trivial
  commit := fun t start result w fs seen hgood hpath hchain _ _ => hgood.commit hpath hchain
  others := by
    intro t u start start' result w fs seen seen' body _ hgood hpath hchain _ _ _ hlocks hidents _
    refine move_of_commit hpath hchain ?_
    intro row hrow r hr
    constructor
    · intro heq
      exact hidents (.invoice row.id) (idents_invoices (List.mem_map_of_mem hrow))
        (idents_invoices (heq ▸ List.mem_map_of_mem hr))
    · intro heq
      apply hlocks _ (mem_ownInvoices.1 hrow) _ (mem_ownInvoices.1 hr)
      · simp [Write.lock]
      · simp [Write.lock, heq]

end Contract

section Alone

variable {cols : Columns}

/-- A statement that only reads leaves everything as the next statement sees it. -/
theorem sight_after {o : BillingStmt} {x : Txn BillingStmt World Write}
    (hdraw : ∀ w : World, w.draw o = w)
    (hwrites : (o.exec cols ((billingEngine cols).sight x)).2 = []) :
    (billingEngine cols).sight ((billingEngine cols).after o x) = (billingEngine cols).sight x := by
  show (billingEngine cols).view (x.data.draw o) (x.writes ++ _) = _
  rw [billingEngine_exec, hwrites, List.append_nil, hdraw]
  rfl

/-- `invoiceForPeriod` on its own. -/
theorem runBody_invoiceForPeriod (id : Nat) (x : Txn BillingStmt World Write) :
    ((billingEngine cols).runBody (invoiceForPeriod id) x).1 =
      ((billingEngine cols).sight x).db.readInvoice cols id := by
  have hsight : (billingEngine cols).sight
      ((billingEngine cols).after (.selectInvoiceByPeriod id) x) = (billingEngine cols).sight x :=
    sight_after (fun _ => rfl) rfl
  have hselect : (billingEngine cols).runBody (selectInvoiceByPeriod id) x =
      (.ok (((billingEngine cols).sight x).db.invoices.find? fun r => r.periodId = id),
        (billingEngine cols).after (.selectInvoiceByPeriod id) x) := rfl
  rw [invoiceForPeriod, Engine.runBody_bind, hselect, Database.readInvoice]
  cases ((billingEngine cols).sight x).db.invoices.find? (fun r => r.periodId = id) with
  | none => rfl
  | some row =>
      have hlines : (billingEngine cols).runBody (selectLineItems row.id)
          ((billingEngine cols).after (.selectInvoiceByPeriod id) x) =
          (.ok (lineItemRows cols row.id ((billingEngine cols).sight x).db),
            (billingEngine cols).after (.selectLineItems row.id)
              ((billingEngine cols).after (.selectInvoiceByPeriod id) x)) := by
        rw [← hsight]
        rfl
      simp only [Engine.runBody_bind, hlines]
      rfl

theorem runBody_relabel {ε ε' β β' : Type} (f : ε → ε') (g : β → β')
    (body : BillingBody (Outcome ε β)) (x : Txn BillingStmt World Write) :
    ((billingEngine cols).runBody (relabel f g body) x).1 =
      ((billingEngine cols).runBody body x).1.relabel f g := by
  rw [relabel, Engine.runBody_bind]
  rfl

/-- `InvoiceForPeriod` on its own returns what there is to read. -/
theorem runBody_readInvoice {id : Nat} {w : World} {inv : Invoice}
    (h : w.db.readInvoice cols id = .ok inv) :
    ((billingEngine cols).runBody (BillingCall.invoiceForPeriod id).body ⟨w, [], []⟩).1 =
      .commit (.invoice inv) := by
  have hread : ((billingEngine cols).runBody (invoiceForPeriod id) ⟨w, [], []⟩).1 = .ok inv :=
    (runBody_invoiceForPeriod id _).trans h
  rw [BillingCall.body, runBody_relabel, readInvoice, Engine.runBody_bind, hread]
  rfl

/-- So does a `Close` of a closed period. -/
theorem runBody_closed {id : Nat} {w : World} {inv : Invoice} (hclosed : w.db.Closed id)
    (h : w.db.readInvoice cols id = .ok inv) (registry : Registry) (plan : Plan) (now : Time) :
    ((billingEngine cols).runBody (BillingCall.close registry plan now id).body ⟨w, [], []⟩).1 =
      .commit (.closed (.periodClosed inv)) := by
  obtain ⟨p, hfind, hstate⟩ := hclosed
  have hid : p.id = id := by simpa using List.find?_some hfind
  have hexec : execLockPeriod id w.db = (.ok (some p), [.touchPeriod p.key]) := by
    rw [execLockPeriod, hfind]
  have hlock : (billingEngine cols).runBody (lockPeriod id) ⟨w, [], []⟩ =
      (.ok (some p), ⟨w, [.touchPeriod p.key], [(.lockPeriod id, w)]⟩) := by
    have hrun : (billingEngine cols).runBody (lockPeriod id) ⟨w, [], []⟩ =
        ((execLockPeriod id w.db).1, ⟨w, (execLockPeriod id w.db).2, [(.lockPeriod id, w)]⟩) := rfl
    rw [hrun, hexec]
  have hread : ((billingEngine cols).runBody (invoiceForPeriod p.id)
      ⟨w, [.touchPeriod p.key], [(.lockPeriod id, w)]⟩).1 = .ok inv := by
    rw [runBody_invoiceForPeriod, hid]
    exact h
  rw [BillingCall.body, runBody_relabel, close, Engine.runBody_bind, hlock]
  simp only [hstate, if_true, Engine.runBody_bind, hread]
  rfl

end Alone

/-- However calls run into each other: once a `Close` has issued an invoice, all calls that have
returned an invoice they read for the period have returned the same one, and so do
`InvoiceForPeriod` and every `Close` of the period from then on.  It is the invoice that was
issued, with its lines unchanged exactly if none of them is late and the collation of the
database has them in this order. -/
theorem reads_back_iff (cols : Columns) (calls : Nat → BillingCall) {w : World}
    (hw : IdsKnown w.db)
    {c : Calls BillingStmt BillingStmt.Answer StmtErr World Write MeanwhileErr BillingResult}
    (hrun : Relation.ReflTransGen (CallStep (billingEngine cols) (fun t => (calls t).body)
      (triggersPass cols) fun _ _ _ => True) (.start w) c)
    {f : FinishedCall} (hf : f ∈ c.finished) {registry : Registry} {plan : Plan} {now : Time}
    {id : Nat} {inv : Invoice} (hcall : calls f.call = .close registry plan now id)
    (hresult : f.result = .closed (.issued inv)) :
    ∃ back : Invoice,
      (∀ g ∈ c.finished, ∀ inv', ReturnsRead (calls g.call) g.result id inv' → inv' = back) ∧
      ((billingEngine cols).runBody (BillingCall.invoiceForPeriod id).body
        ⟨c.pool.data, [], []⟩).1 = .commit (.invoice back) ∧
      (∀ registry plan now, ((billingEngine cols).runBody
        (BillingCall.close registry plan now id).body ⟨c.pool.data, [], []⟩).1 =
          .commit (.closed (.periodClosed back))) ∧
      back.id = inv.id ∧ back.periodId = inv.periodId ∧ back.tenantId = inv.tenantId ∧
      back.total = inv.total ∧ back.ledgerTransactionId = inv.ledgerTransactionId ∧
      (back.lineItems = inv.lineItems ↔
        (∀ line ∈ inv.lineItems, line.late = false) ∧
          inv.lineItems.Pairwise fun a b => cols.collate a.meter b.meter = true) := by
  have hinv := callInv_of_run (K := invoicesContract cols calls)
    (.start ⟨hw, List.forall_mem_nil _, List.forall_mem_nil _⟩) hrun
  have hgood : InvoicesGood cols calls c.pool.data c.finished := hinv.good
  have hstored := hgood.issued f hf registry plan now id inv hcall hresult
  obtain ⟨issuedAt, hread⟩ := hstored.read cols
  refine ⟨_, ?_, runBody_readInvoice hread, runBody_closed hstored.closed hread, rfl, rfl, rfl, rfl,
    rfl, read_collated_eq_iff⟩
  intro g hg inv' hreturns
  have hsame := (hgood.read g hg id inv' hreturns).symm.trans hread
  exact Except.ok.inj hsame

section Sample

/-- `Close` of the two sample periods, each with a look at its invoice. -/
def sampleReads : Nat → BillingCall
  | 0 => .close ⟨["m"]⟩ samplePlan 30000 1
  | 1 => .invoiceForPeriod 1
  | 2 => .close ⟨["m"]⟩ samplePlan 30000 2
  | _ => .invoiceForPeriod 2

/-- The moves of a schedule of these calls. -/
def playReads (moves : List Move) :
    Option (Calls BillingStmt BillingStmt.Answer StmtErr World Write MeanwhileErr
      BillingResult) :=
  Calls.play (billingEngine postgresColumns) (fun t => (sampleReads t).body)
    (triggersPass postgresColumns) (fun _ _ _ => true) 4 moves (.start samplePeriod)

/-- An invoice that comes back as it was issued. -/
theorem reads_back_sample :
    ∃ c f, playReads [.begin 0, .statements 0 12, .commit 0, .begin 1, .statements 1 2,
        .commit 1] = some c ∧ f ∈ c.finished ∧
      f.result = .closed (.issued (sampleInvoice 1 false)) ∧
      ∃ back : Invoice, (∀ g ∈ c.finished, ∀ inv',
        ReturnsRead (sampleReads g.call) g.result 1 inv' → inv' = back) ∧
        back.lineItems = [⟨"m", 1000000000, 5, false⟩] := by
  have hplay : (playReads [.begin 0, .statements 0 12, .commit 0, .begin 1, .statements 1 2,
      .commit 1]).map (fun c => c.finished.map fun f => (f.call, f.result)) =
      some [(0, .closed (.issued (sampleInvoice 1 false))),
        (1, .invoice (sampleInvoice 1 false))] := by
    decide +kernel
  obtain ⟨c, hc, hfinished⟩ := Option.map_eq_some_iff.1 hplay
  have hmem : (0, BillingResult.closed (.issued (sampleInvoice 1 false))) ∈
      c.finished.map fun f => (f.call, f.result) := by
    rw [hfinished]
    exact List.mem_cons_self
  obtain ⟨f, hf, heq⟩ := List.mem_map.1 hmem
  obtain ⟨hcall, hresult⟩ := Prod.mk.inj heq
  have hknown : IdsKnown samplePeriod.db := by
    constructor <;> decide +kernel
  obtain ⟨back, hall, -, -, -, -, -, -, -, hlines⟩ := reads_back_iff postgresColumns sampleReads
    hknown (Calls.reachable_of_play (fun _ _ _ _ _ => trivial) hc) hf (by rw [hcall]; rfl) hresult
  exact ⟨c, f, hc, hf, hresult, back, hall, hlines.2 (by decide)⟩

/-- The second period is closed first: its invoice has a late line, and the line that is read
for it is not late. -/
theorem late_is_lost :
    ∃ c, Relation.ReflTransGen (CallStep (billingEngine postgresColumns)
        (fun t => (sampleReads t).body) (triggersPass postgresColumns) fun _ _ _ => True)
        (.start samplePeriod) c ∧
      (c.finished.map fun f => (f.call, f.result)) =
        [(2, .closed (.issued ⟨1, 2, "a", 5, 1, 30000, [⟨"m", 1000000000, 5, true⟩]⟩)),
          (3, .invoice ⟨1, 2, "a", 5, 1, 30000, [⟨"m", 1000000000, 5, false⟩]⟩)] := by
  have hplay : (playReads [.begin 2, .statements 2 12, .commit 2, .begin 3, .statements 3 2,
      .commit 3]).map (fun c => c.finished.map fun f => (f.call, f.result)) =
      some [(2, .closed (.issued ⟨1, 2, "a", 5, 1, 30000, [⟨"m", 1000000000, 5, true⟩]⟩)),
        (3, .invoice ⟨1, 2, "a", 5, 1, 30000, [⟨"m", 1000000000, 5, false⟩]⟩)] := by
    decide +kernel
  obtain ⟨c, hc, hfinished⟩ := Option.map_eq_some_iff.1 hplay
  exact ⟨c, Calls.reachable_of_play (fun _ _ _ _ _ => trivial) hc, hfinished⟩

end Sample

end LedgerLine.Billing
