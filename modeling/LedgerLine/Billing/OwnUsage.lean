import LedgerLine.Billing.Rollforward

/-!
# Periods that are closed one after the other

The periods of a tenant, each of them starting where the one before ends, are closed in
order, when all the usage from before their ends is in.  A `Close` issues an invoice or
reports that there is nothing to bill (`Rounds`).

A period whose usage costs nothing is not closed: its usage stays unbilled and is priced
together with the usage of the next period (`priced_together`).  As long as no usage of the
meter is left over from before a period, every period is priced on its own usage
(`priced_on_own_usage`).
-/

namespace LedgerLine.Billing

section Price

/-- What a meter's usage costs under a plan; nothing if it has no price. -/
def priceOf (plan : Plan) (meter : String) (quantity : Int) : Int :=
  match priceFor plan meter with
  | none => 0
  | some price =>
      match applyPrice price (Int64.ofInt quantity) with
      | .ok amount => amount.toInt
      | .error _ => 0

theorem applyPrice_zero (price : Price) {amount : Amount} (h : applyPrice price 0 = .ok amount) :
    amount = 0 := by
  rw [applyPrice] at h
  split at h
  · rw [multiply, if_pos (.inl rfl)] at h
    exact (Except.ok.inj h).symm
  · obtain ⟨_, -, h⟩ := ok_of_bind h
    cases htiers : price.tiers with
    | nil =>
        rw [htiers] at h
        exact (Except.ok.inj h).symm
    | cons tier rest =>
        rw [htiers, graduatedFrom, if_pos (Int64.le_refl 0)] at h
        exact (Except.ok.inj h).symm
  · obtain ⟨_, -, h⟩ := ok_of_bind h
    rw [if_pos rfl] at h
    exact (Except.ok.inj h).symm
  · cases h

/-- No usage costs nothing. -/
theorem priceOf_zero (plan : Plan) (meter : String) : priceOf plan meter 0 = 0 := by
  rw [priceOf]
  split
  · rfl
  · rename_i price _
    split
    · rename_i amount hamount
      rw [applyPrice_zero price hamount]
      rfl
    · rfl

theorem itemsFrom_price {plan : Plan} {totals : Totals} {meters : List String}
    {items : List LineItem} (h : itemsFrom plan totals meters = .ok items) :
    ∀ i ∈ items, ∃ price, priceFor plan i.meter = some price ∧
      applyPrice price i.quantity = .ok i.amount := by
  induction meters generalizing items with
  | nil =>
      cases h
      exact nofun
  | cons meter meters ih =>
      rw [itemsFrom] at h
      split at h
      · cases h
      · rename_i price hprice
        obtain ⟨amount, hamount, h⟩ := ok_of_bind h
        obtain ⟨rest, hrest, h⟩ := ok_of_bind h
        cases h
        rw [List.forall_mem_cons]
        exact ⟨⟨price, hprice, mapError_eq_ok_iff.1 hamount⟩, ih hrest⟩

/-- What the items of a meter cost is the price of its usage. -/
theorem amount_of_rate {usages : List Usage} {plan : Plan} {registry : Registry}
    {items : List LineItem} (h : rate usages plan registry = .ok items) (meter : String) :
    ((items.filter fun i => i.meter = meter).map fun i => i.amount.toInt).sum =
      priceOf plan meter (meterUsage usages meter) := by
  have hrated := rate_spec h
  obtain ⟨totals, -, hitems⟩ := ok_of_bind h
  by_cases hmeter : meter ∈ items.map LineItem.meter
  · obtain ⟨item, hitem, rfl⟩ := List.mem_map.1 hmeter
    obtain ⟨price, hprice, hamount⟩ := itemsFrom_price hitems item hitem
    have hone : items.filter (fun i => i.meter = item.meter) = [item] := by
      have hmem : item ∈ items.filter fun i => i.meter = item.meter :=
        List.mem_filter.2 ⟨hitem, decide_eq_true rfl⟩
      have hnodup : (items.filter fun i => i.meter = item.meter).Nodup :=
        (List.Nodup.of_map _ hrated.nodup).filter _
      refine List.perm_singleton.1 ((List.perm_ext_iff_of_nodup hnodup
        (List.nodup_singleton item)).2 fun i => ?_)
      rw [List.mem_singleton]
      constructor
      · intro hi
        obtain ⟨hi, hsame⟩ := List.mem_filter.1 hi
        exact List.inj_on_of_nodup_map hrated.nodup hi hitem (of_decide_eq_true hsame)
      · rintro rfl
        exact hmem
    rw [hone, priceOf, hprice, ← hrated.quantity item hitem, Int64.ofInt_toInt]
    simp [hamount]
  · have hnone : items.filter (fun i => i.meter = meter) = [] := by
      rw [List.filter_eq_nil_iff]
      intro i hi hsame
      exact hmeter (List.mem_map.2 ⟨i, hi, of_decide_eq_true hsame⟩)
    have husage : meterUsage usages meter = 0 := by
      have hno : usages.filter (fun u => u.meter = meter) = [] := by
        rw [List.filter_eq_nil_iff]
        intro u hu hsame
        exact hmeter ((hrated.meters meter).2 (List.mem_map.2 ⟨u, hu, of_decide_eq_true hsame⟩))
      rw [meterUsage, hno]
      rfl
    rw [hnone, husage, priceOf_zero]
    rfl

end Price

section Nothing

variable {cols : Columns}

variable {earliest : String → Time} {period : Period}

theorem usageFrom_error {usages : List Usage} (rows : List (String × String × Time)) :
    usageFrom usages earliest rows ≠ .error .nothingToBill := by
  induction rows generalizing usages earliest with
  | nil => exact nofun
  | cons row rows ih =>
      obtain ⟨meter, total, first⟩ := row
      rw [usageFrom]
      cases parseQuantity total with
      | error e => exact nofun
      | ok quantity => exact ih

theorem linesFrom_error {lines : List InvoiceLine} (rows : List (String × String × Amount)) :
    linesFrom lines rows ≠ .error .nothingToBill := by
  induction rows generalizing lines with
  | nil => exact nofun
  | cons row rows ih =>
      obtain ⟨meter, text, amount⟩ := row
      rw [linesFrom]
      cases parseQuantity text with
      | error e => exact nofun
      | ok quantity => exact ih

theorem yields_invoiceForPeriod (id : Nat) :
    Program.Yields (fun r => r ≠ .error .nothingToBill) (invoiceForPeriod id) := by
  apply Program.yields_bind (Program.yields_true _)
  intro r _
  match r with
  | .error e | .ok none => exact nofun
  | .ok (some row) =>
      apply Program.yields_bind (Program.yields_true _)
      intro r _
      rcases r with e | rows
      · exact nofun
      intro h
      cases hlines : linesFrom [] rows with
      | error e =>
          rw [hlines] at h
          cases h
          exact linesFrom_error rows hlines
      | ok lines =>
          rw [hlines] at h
          cases h

theorem yields_entryFrom (period : Period) (earliest : String → Time) (receivable : AccountID)
    (entry : Entry) (items : List LineItem) :
    Program.Yields (fun r => r ≠ .error .nothingToBill)
      (entryFrom period earliest receivable entry items) := by
  induction items generalizing entry with
  | nil =>
      intro h
      cases h
  | cons item items ih =>
      rw [entryFrom]
      split
      · exact ih _
      · apply Program.yields_bind (Program.yields_true _)
        intro r _
        cases r with
        | error e =>
            intro h
            cases h
        | ok revenue =>
            dsimp only
            split
            · intro h
              cases h
            · exact ih _

theorem yields_buildEntry (period : Period) (items : List LineItem) (earliest : String → Time) :
    Program.Yields (fun r => r ≠ .error .nothingToBill) (buildEntry period items earliest) := by
  apply Program.yields_bind (Program.yields_true _)
  intro r _
  cases r with
  | error e => exact nofun
  | ok receivable =>
      exact yields_entryFrom period earliest receivable _ items

theorem yields_insertLineItems (invoice : Nat) (lines : List InvoiceLine) :
    Program.Yields (fun r => r ≠ .error .nothingToBill) (insertLineItems invoice lines) := by
  induction lines with
  | nil => exact nofun
  | cons line lines ih =>
      apply Program.yields_bind (Program.yields_true _)
      intro r _
      cases r with
      | error e => exact nofun
      | ok _ => exact ih

theorem yields_issue (period : Period) (entry : Entry) (ledgerId : Nat) (now : Time) :
    Program.Yields (fun out => out ≠ .rollback .nothingToBill)
      (issue period entry ledgerId now) := by
  apply Program.yields_bind (Program.yields_true _)
  intro r _
  cases r with
  | error e => exact nofun
  | ok invoice =>
  apply Program.yields_bind (yields_insertLineItems invoice entry.lines)
  intro r hr
  cases r with
  | error e =>
      intro h
      cases h
      exact hr rfl
  | ok _ =>
  apply Program.yields_bind (Program.yields_true _)
  intro r _
  cases r with
  | error e => exact nofun
  | ok _ =>
  apply Program.yields_bind (Program.yields_true _)
  intro r _
  cases r with
  | error e | ok _ => exact nofun

/-- What a `Close` that finds nothing to bill has found: the usage costs nothing. -/
structure FoundNothing (cols : Columns) (plan : Plan) (registry : Registry) (id : Nat) (w : World)
    (period : Period) : Prop where
  found : w.db.periods.find? (fun p => p.id = id) = some period
  usage : ∃ usages earliest,
    Gathered cols (w.db.unbilled period.tenantId period.finish) usages earliest ∧
      (usages = [] ∨ ∃ items, rate usages plan registry = .ok items ∧ ∀ i ∈ items, i.amount = 0)

theorem EntryOf.amount_eq_zero {seen : Trace} {receivable : AccountID} {items : List LineItem}
    {entry : Entry} (h : EntryOf cols seen period earliest receivable items entry)
    (hnone : entry.transfers = []) : ∀ i ∈ items, i.amount = 0 := by
  have hempty : items.filter (fun i => i.amount ≠ 0) = [] := by
    have htransfers := h.transfers
    rw [hnone] at htransfers
    exact List.forall₂_nil_right_iff.1 htransfers
  intro i hi
  simpa using List.filter_eq_nil_iff.1 hempty i hi

variable {plan : Plan} {registry : Registry} {now : Time}

theorem ends_postEntry {period : Period} {entry : Entry} {x y : Txn BillingStmt World Write}
    (h : Program.Ends (billingEngine cols).Statement (postEntry period entry now) x
      (.rollback .nothingToBill) y) : entry.transfers = [] := by
  by_contra hne
  rw [postEntry, if_neg hne] at h
  split at h
  · cases h
  · obtain ⟨z, r, -, h⟩ := Program.ends_bind h
    rcases r with e | ⟨ledgerId, alreadyPosted⟩
    · cases h
    · exact Program.yields_of_ends h (yields_issue period entry ledgerId now) rfl

theorem ends_billPeriod {period : Period} {x y : Txn BillingStmt World Write}
    (h : Program.Ends (billingEngine cols).Statement (billPeriod registry plan now period) x
      (.rollback .nothingToBill) y) :
    ∃ usages earliest, Gathered cols
        (((billingEngine cols).sight x).db.unbilled period.tenantId period.finish) usages earliest ∧
      (usages = [] ∨
        ∃ items, rate usages plan registry = .ok items ∧ ∀ i ∈ items, i.amount = 0) := by
  obtain ⟨z, gathered, hgather, h⟩ := Program.ends_bind h
  obtain ⟨z', r, hread, hgather⟩ := Program.ends_bind hgather
  -- the usage was read, since a failure is reported as such
  have hgathered : ∃ rows, r = .ok rows ∧ gathered = usageFrom [] (fun _ => 0) rows := by
    cases r with
    | error e =>
        cases hgather
        cases h
    | ok rows =>
        cases hgather
        exact ⟨rows, rfl, rfl⟩
  obtain ⟨rows, rfl, hgathered⟩ := hgathered
  have hrows : rows = usageRows cols
      (((billingEngine cols).sight x).db.unbilled period.tenantId period.finish) := by
    rcases Engine.ends_perform hread with ⟨hr, -⟩ | ⟨e, hr⟩
    · exact Except.ok.inj hr
    · cases hr
  match gathered, hgathered with
  | .error e, herror =>
      cases h
      exact absurd herror.symm (usageFrom_error rows)
  | .ok (usages, earliest), hok =>
      have husage := gathered_of_usageFrom (hrows ▸ hok.symm)
      refine ⟨usages, earliest, husage, ?_⟩
      simp only at h
      split at h
      · rename_i hempty
        exact .inl hempty
      · split at h
        · cases h
        · rename_i items hitems
          refine .inr ⟨items, hitems, ?_⟩
          obtain ⟨z'', built, hbuild, h⟩ := Program.ends_bind h
          cases built with
          | error e =>
              cases h
              exact (Program.yields_of_ends hbuild (yields_buildEntry _ _ _) rfl).elim
          | ok entry =>
              obtain ⟨seen, -, hpath⟩ := Engine.path_of_ends hbuild (passesOn_buildEntry _ _ _)
                fun ⟨_, herror⟩ => (nomatch herror)
              obtain ⟨receivable, -, hentry⟩ := path_buildEntry hpath
              exact hentry.amount_eq_zero (ends_postEntry h)

/-- A `Close` that reports that there is nothing to bill. -/
theorem found_nothing {id : Nat} {w : World} {x : Txn BillingStmt World Write}
    (h : Program.Ends (billingEngine cols).Statement (close registry plan now id) ⟨w, [], []⟩
      (.rollback .nothingToBill) x) :
    ∃ period, FoundNothing cols plan registry id w period := by
  obtain ⟨z, r, hlock, h⟩ := Program.ends_bind h
  match r with
  | .error e | .ok none => cases h
  | .ok (some period) =>
      rcases Engine.ends_perform hlock with ⟨hanswer, hz⟩ | ⟨e, herror⟩
      · have hfound : w.db.periods.find? (fun p => p.id = id) = some period := by
          have hexec : (execLockPeriod id w.db).1 = .ok (some period) := hanswer.symm
          rw [execLockPeriod] at hexec
          split at hexec
          · rename_i p hp
            cases hexec
            exact hp
          · cases hexec
        have hevents : ((billingEngine cols).sight z).db.events = w.db.events := by
          have hwrites : z.writes = (execLockPeriod id w.db).2 := by
            rw [hz]
            exact List.nil_append _
          rw [Engine.sight, hwrites, hz]
          rcases execLockPeriod_cases id w.db with hexec | ⟨p, -, -, hexec⟩ <;> rw [hexec] <;> rfl
        refine ⟨period, hfound, ?_⟩
        simp only at h
        split at h
        · obtain ⟨_, r, hread, h⟩ := Program.ends_bind h
          cases r with
          | error e =>
              cases h
              exact (Program.yields_of_ends hread (yields_invoiceForPeriod _) rfl).elim
          | ok invoice => cases h
        · rw [← unbilled_congr hevents]
          exact ends_billPeriod h
      · cases herror

end Nothing

/-- The usage of a tenant's meter in a stretch of time. -/
def Database.usageIn (db : Database) (tenant : String) (start finish : Time) (meter : String) :
    Int :=
  quantityOf (db.events.filter fun r =>
    r.tenantId = tenant ∧ start ≤ r.occurredAt ∧ r.occurredAt < finish) meter

/-- What invoices charge for a meter. -/
def chargedFor (invoices : List Invoice) (meter : String) : Int :=
  (((invoices.flatMap Invoice.lineItems).filter fun l => l.meter = meter).map
    fun l => l.amount.toInt).sum

/-- What may happen between two closes of the tenant's periods: none of its other periods is
invoiced, and no event comes in that occurred before the end of a period already closed. -/
def BetweenCloses (tenant : String) (periods : List Period) : Happening → Prop
  | .inserted rows => ∀ r ∈ rows, r.tenantId = tenant →
      ∀ last ∈ periods.getLast?, last.finish ≤ r.occurredAt
  | .invoiced _ other _ => other ≠ tenant

instance (tenant : String) (periods : List Period) :
    (e : Happening) → Decidable (BetweenCloses tenant periods e)
  | .inserted rows => inferInstanceAs (Decidable (∀ r ∈ rows, r.tenantId = tenant →
      ∀ last ∈ periods.getLast?, last.finish ≤ r.occurredAt))
  | .invoiced _ other _ => inferInstanceAs (Decidable (other ≠ tenant))

/-- The next period of the tenant. -/
structure NextPeriod (tenant : String) (periods : List Period) (w : World) (p : Period) :
    Prop where
  found : w.db.periods.find? (fun q => q.id = p.id) = some p
  tenant : p.tenantId = tenant
  ordered : p.start ≤ p.finish
  contiguous : ∀ last ∈ periods.getLast?, p.start = last.finish

section Rounds

variable (cols : Columns) (decode : Decoder) (plan : Plan)
  (tenant : String) (allowed : World → Period → Prop)

/-- The periods of a tenant are closed in order; the invoices are those that were issued for
them. -/
inductive Rounds (start : World) : List Period → List Invoice → World → Prop
  | refl : Rounds start [] [] start
  | between {periods : List Period} {invoices : List Invoice} {w w' : World} {call : SerialCall}
      {new : List Happening} (before : Rounds start periods invoices w)
      (hstep : SerialStep cols decode w call new w')
      (hbetween : ∀ e ∈ new, BetweenCloses tenant periods e) : Rounds start periods invoices w'
  | issued {periods : List Period} {invoices : List Invoice} {w w' : World} {p : Period}
      {inv : Invoice} (registry : Registry) (now : Time)
      (before : Rounds start periods invoices w) (hnext : NextPeriod tenant periods w p)
      (hallowed : allowed w p)
      (hclose : (billingEngine cols).Alone (triggersPass cols) (close registry plan now p.id) w
        (some (.issued inv)) w') :
      Rounds start (periods ++ [p]) (invoices ++ [inv]) w'
  | nothing {periods : List Period} {invoices : List Invoice} {w : World} {p : Period}
      {x : Txn BillingStmt World Write} (registry : Registry) (now : Time)
      (before : Rounds start periods invoices w) (hnext : NextPeriod tenant periods w p)
      (hallowed : allowed w p)
      (hclose : Program.Ends (billingEngine cols).Statement (close registry plan now p.id)
        ⟨w, [], []⟩ (.rollback .nothingToBill) x) :
      Rounds start (periods ++ [p]) invoices x.data

end Rounds

/-- No usage of the meter is left over from before the period. -/
def NothingLeftOver (tenant meter : String) (w : World) (p : Period) : Prop :=
  quantityOf (w.db.unbilled tenant p.start) meter = 0

instance (tenant meter : String) (w : World) (p : Period) :
    Decidable (NothingLeftOver tenant meter w p) :=
  inferInstanceAs (Decidable (_ = _))

section Usage

variable {tenant meter : String} {start finish : Time}

variable {db' db : Database}

theorem usageIn_congr (h : db'.events = db.events) :
    db'.usageIn tenant start finish meter = db.usageIn tenant start finish meter := by
  rw [Database.usageIn, Database.usageIn, h]

/-- Marking events does not change the usage. -/
theorem usageIn_charge {invoice : Nat} {other : String} {before : Time}
    (h : db'.events = db.events.map (EventRow.charge invoice other before)) :
    db'.usageIn tenant start finish meter = db.usageIn tenant start finish meter := by
  have hsame : ∀ r : EventRow, (r.charge invoice other before).tenantId = r.tenantId ∧
      (r.charge invoice other before).occurredAt = r.occurredAt ∧
      (r.charge invoice other before).meter = r.meter ∧
      (r.charge invoice other before).quantity = r.quantity := by
    intro r
    rw [EventRow.charge]
    split <;> exact ⟨rfl, rfl, rfl, rfl⟩
  rw [Database.usageIn, Database.usageIn, h, quantityOf, quantityOf]
  simp only [List.filter_map, List.map_map, Function.comp_def, hsame]

/-- Nor do events from other times. -/
theorem usageIn_append {rows : List EventRow} (h : db'.events = db.events ++ rows)
    (hrows : ∀ r ∈ rows, r.tenantId = tenant → finish ≤ r.occurredAt) :
    db'.usageIn tenant start finish meter = db.usageIn tenant start finish meter := by
  have hnone : rows.filter (fun r =>
      r.tenantId = tenant ∧ start ≤ r.occurredAt ∧ r.occurredAt < finish) = [] := by
    rw [List.filter_eq_nil_iff]
    intro r hr hin
    obtain ⟨htenant, -, hlt⟩ := of_decide_eq_true hin
    exact absurd hlt (Int.not_lt.2 (hrows r hr htenant))
  rw [Database.usageIn, h, List.filter_append, hnone, List.append_nil]
  rfl

/-- The unbilled usage from before the end of a period is what is left over from before its
start, and its own usage. -/
theorem unbilled_split {events : List EventRow} (hle : start ≤ finish)
    (hunbilled : ∀ r ∈ events, r.tenantId = tenant → start ≤ r.occurredAt → r.invoiceId = none) :
    quantityOf (events.filter (EventRow.isUnbilled tenant finish)) meter =
      quantityOf (events.filter (EventRow.isUnbilled tenant start)) meter +
        quantityOf (events.filter fun r =>
          r.tenantId = tenant ∧ start ≤ r.occurredAt ∧ r.occurredAt < finish) meter := by
  induction events with
  | nil => rfl
  | cons r events ih =>
      rw [List.forall_mem_cons] at hunbilled
      simp only [List.filter_cons, EventRow.isUnbilled] at ih ⊢
      have hih := ih hunbilled.2
      by_cases htenant : r.tenantId = tenant
      · by_cases hearly : r.occurredAt < start
        · have hlt : r.occurredAt < finish := Int.lt_of_lt_of_le hearly hle
          have hnot : ¬ start ≤ r.occurredAt := Int.not_le.2 hearly
          by_cases hnone : r.invoiceId = none
          · simp only [htenant, hnone, hearly, hlt, hnot, decide_true, decide_false, Bool.and_self,
              if_true, true_and, false_and, quantityOf_cons, Bool.false_eq_true, if_false]
            omega
          · simp only [htenant, hnone, hnot, decide_true, decide_false, Bool.and_false,
              Bool.false_and, true_and, false_and, Bool.false_eq_true, if_false]
            exact hih
        · have hge : start ≤ r.occurredAt := Int.not_lt.1 hearly
          have hnone := hunbilled.1 htenant hge
          by_cases hlt : r.occurredAt < finish
          · simp only [htenant, hnone, hearly, hlt, hge, decide_true, decide_false, Bool.and_true,
              Bool.and_false, if_true, and_self, quantityOf_cons, Bool.false_eq_true, if_false]
            omega
          · simp only [htenant, hnone, hearly, hlt, hge, decide_true, decide_false, Bool.and_false,
              and_false, Bool.false_eq_true, if_false]
            exact hih
      · simp only [htenant, decide_false, Bool.false_and, false_and, Bool.false_eq_true, if_false]
        exact hih

theorem chargedFor_append (invoices : List Invoice) (inv : Invoice) :
    chargedFor (invoices ++ [inv]) meter = chargedFor invoices meter + chargedFor [inv] meter := by
  simp [chargedFor]

end Usage

section Charge

variable {cols : Columns} {plan : Plan} {registry : Registry} {now : Time}

/-- The lines of an invoice charge the price of what was gathered. -/
theorem charged_of_issued {id : Nat} {seen : Trace} {inv : Invoice} {x : Issue}
    (h : Issued cols registry plan now id seen inv x) (meter : String) :
    chargedFor [inv] meter = priceOf plan meter (quantityOf x.gatheredRows meter) := by
  have hlines : inv.lineItems = x.items.map (lineOf x.period x.earliest) := by
    rw [h.ended.invoice, h.entry.lines]
  rw [← h.gathered.meterUsage_all meter, ← amount_of_rate h.rated meter, chargedFor,
    List.flatMap_singleton, hlines, List.filter_map, List.map_map]
  rfl

/-- If there is nothing to bill, the price is zero. -/
theorem FoundNothing.price_eq_zero {id : Nat} {w : World} {period : Period}
    (h : FoundNothing cols plan registry id w period) (meter : String) :
    priceOf plan meter
      (quantityOf (w.db.unbilled period.tenantId period.finish) meter) = 0 := by
  obtain ⟨usages, earliest, hgathered, hcosts⟩ := h.usage
  rw [← hgathered.meterUsage_all meter]
  rcases hcosts with rfl | ⟨items, hitems, hzero⟩
  · exact priceOf_zero plan meter
  · rw [← amount_of_rate hitems meter]
    have hall : ((items.filter fun i => i.meter = meter).map fun i => i.amount.toInt) =
        (items.filter fun i => i.meter = meter).map fun _ => 0 := by
      apply List.map_congr_left
      intro i hi
      rw [hzero i (List.mem_filter.1 hi).1]
      rfl
    rw [hall]
    simp

end Charge

section Between

variable {tenant : String} {periods : List Period} {events events' : List EventRow}
  {new : List Happening}

/-- No event of the tenant is billed between closes of its periods. -/
theorem EventsAfter.billed (h : EventsAfter events new events')
    (hbetween : ∀ e ∈ new, BetweenCloses tenant periods e) {r : EventRow} (hr : r ∈ events')
    (htenant : r.tenantId = tenant) (hbilled : r.invoiceId ≠ none) : r ∈ events := by
  cases h with
  | same => exact hr
  | @inserted rows hrows =>
      rcases List.mem_append.1 hr with hr | hr
      · exact hr
      · exact absurd (hrows.unbilled r hr) hbilled
  | invoiced invoice other finish =>
      have hother : other ≠ tenant := hbetween _ List.mem_cons_self
      obtain ⟨r₀, hr₀, rfl⟩ := List.mem_map.1 hr
      by_cases hcharged : r₀.isUnbilled other finish = true
      · have hsame : r₀.tenantId = other := (EventRow.isUnbilled_iff.1 hcharged).1
        rw [EventRow.charge, if_pos hcharged] at htenant
        exact absurd (hsame.symm.trans htenant) hother
      · rw [EventRow.charge, if_neg hcharged]
        exact hr₀

/-- The usage of a period that is closed does not change between closes. -/
theorem EventsAfter.usageIn_eq {db db' : Database} (h : EventsAfter db.events new db'.events)
    (hbetween : ∀ e ∈ new, BetweenCloses tenant periods e) {p last : Period}
    (hlast : last ∈ periods.getLast?) (hle : p.finish ≤ last.finish) (meter : String) :
    db'.usageIn tenant p.start p.finish meter = db.usageIn tenant p.start p.finish meter := by
  generalize hevents : db'.events = after at h
  cases h with
  | same =>
      exact usageIn_congr hevents
  | @inserted rows hrows =>
      have hlate : ∀ r ∈ rows, r.tenantId = tenant → ∀ last ∈ periods.getLast?,
          last.finish ≤ r.occurredAt := hbetween _ List.mem_cons_self
      exact usageIn_append hevents fun r hr htenant =>
        Int.le_trans hle (hlate r hr htenant last hlast)
  | invoiced invoice other finish =>
      exact usageIn_charge hevents

end Between

/-- What holds after some periods have been closed. -/
structure Priced (plan : Plan) (tenant meter : String) (periods : List Period)
    (invoices : List Invoice) (w : World) : Prop where
  rolled : ∃ history, Rolled history w
  reached : ∀ p ∈ periods, ∀ last ∈ periods.getLast?, p.finish ≤ last.finish
  billed : ∀ r ∈ w.db.events, r.tenantId = tenant → r.invoiceId ≠ none →
    ∃ last ∈ periods.getLast?, r.occurredAt < last.finish
  charged : chargedFor invoices meter = (periods.map fun p =>
    priceOf plan meter (w.db.usageIn tenant p.start p.finish meter)).sum

namespace Priced

variable {cols : Columns} {decode : Decoder} {plan : Plan}
  {tenant meter : String} {periods : List Period} {invoices : List Invoice} {w w' : World}

theorem start (h : w.db = Database.empty) : Priced plan tenant meter [] [] w := by
  refine ⟨⟨[], .start h⟩, nofun, ?_, rfl⟩
  rw [h]
  exact nofun

section

variable (h : Priced plan tenant meter periods invoices w)

include h

/-- The usage of the periods that are closed stays as it is. -/
theorem charged_congr
    (hsame : ∀ p ∈ periods, w'.db.usageIn tenant p.start p.finish meter =
      w.db.usageIn tenant p.start p.finish meter) :
    chargedFor invoices meter = (periods.map fun p =>
      priceOf plan meter (w'.db.usageIn tenant p.start p.finish meter)).sum := by
  rw [h.charged]
  congr 1
  apply List.map_congr_left
  intro p hp
  rw [hsame p hp]

theorem between {call : SerialCall} {new : List Happening}
    (hstep : SerialStep cols decode w call new w')
    (hbetween : ∀ e ∈ new, BetweenCloses tenant periods e) :
    Priced plan tenant meter periods invoices w' := by
  obtain ⟨history, hrolled⟩ := h.rolled
  have hafter := events_of_step hrolled.keys hstep
  refine ⟨⟨_, hrolled.step hstep⟩, h.reached, ?_, ?_⟩
  · intro r hr htenant hbilled
    exact h.billed r (hafter.billed hbetween hr htenant hbilled) htenant hbilled
  · apply h.charged_congr
    intro p hp
    have hlast := List.getLast?_eq_some_getLast (List.ne_nil_of_mem hp)
    exact hafter.usageIn_eq hbetween hlast (h.reached p hp _ hlast) meter

/-- The next period is closed, with an invoice or without. -/
theorem next {p : Period} (hnext : NextPeriod tenant periods w p)
    (hleft : NothingLeftOver tenant meter w p) {history : List Happening}
    (hrolled : Rolled history w') {invoices' : List Invoice}
    (hevents : w'.db.events = w.db.events ∨
      ∃ invoice, w'.db.events = w.db.events.map (EventRow.charge invoice tenant p.finish))
    (hcharged : chargedFor invoices' meter = chargedFor invoices meter +
      priceOf plan meter (quantityOf (w.db.unbilled tenant p.finish) meter)) :
    Priced plan tenant meter (periods ++ [p]) invoices' w' := by
  have hbefore : ∀ last ∈ periods.getLast?, last.finish ≤ p.finish := by
    intro last hlast
    rw [← hnext.contiguous last hlast]
    exact hnext.ordered
  have hown : quantityOf (w.db.unbilled tenant p.finish) meter =
      w.db.usageIn tenant p.start p.finish meter := by
    rw [Database.unbilled, unbilled_split hnext.ordered, ← Database.unbilled, hleft, Int.zero_add]
    · rfl
    · intro r hr htenant hstart
      by_contra hbilled
      obtain ⟨last, hlast, hlt⟩ := h.billed r hr htenant hbilled
      rw [← hnext.contiguous last hlast] at hlt
      exact absurd hstart (Int.not_le.2 hlt)
  have husage : ∀ q : Period, w'.db.usageIn tenant q.start q.finish meter =
      w.db.usageIn tenant q.start q.finish meter := by
    intro q
    rcases hevents with hsame | ⟨invoice, hmarked⟩
    · exact usageIn_congr hsame
    · exact usageIn_charge hmarked
  refine ⟨⟨history, hrolled⟩, ?_, ?_, ?_⟩
  · intro q hq last hlast
    rw [List.getLast?_concat] at hlast
    cases hlast
    rcases List.mem_append.1 hq with hq | hq
    · have hlast := List.getLast?_eq_some_getLast (List.ne_nil_of_mem hq)
      exact Int.le_trans (h.reached q hq _ hlast) (hbefore _ hlast)
    · rw [List.mem_singleton.1 hq]
  · intro r hr htenant hbilled
    refine ⟨p, List.getLast?_concat, ?_⟩
    have hold : ∀ r ∈ w.db.events, r.tenantId = tenant → r.invoiceId ≠ none →
        r.occurredAt < p.finish := by
      intro r hr htenant hbilled
      obtain ⟨last, hlast, hlt⟩ := h.billed r hr htenant hbilled
      exact Int.lt_of_lt_of_le hlt (hbefore last hlast)
    rcases hevents with hsame | ⟨invoice, hmarked⟩
    · rw [hsame] at hr
      exact hold r hr htenant hbilled
    · rw [hmarked] at hr
      obtain ⟨r₀, hr₀, rfl⟩ := List.mem_map.1 hr
      by_cases hcase : r₀.isUnbilled tenant p.finish = true
      · rw [EventRow.charge, if_pos hcase]
        exact (EventRow.isUnbilled_iff.1 hcase).2.2
      · rw [EventRow.charge, if_neg hcase] at htenant hbilled ⊢
        exact hold r₀ hr₀ htenant hbilled
  · rw [hcharged, hown, h.charged_congr fun q _ => husage q, List.map_append, List.sum_append,
      List.map_singleton, List.sum_singleton, husage]

end

theorem run {first : World} (hfirst : first.db = Database.empty)
    (hrun : Rounds cols decode plan tenant (NothingLeftOver tenant meter) first periods invoices
      w) :
    Priced plan tenant meter periods invoices w := by
  induction hrun with
  | refl => exact .start hfirst
  | between _ hstep hbetween ih =>
      exact ih.between hstep hbetween
  | @issued periods invoices w w' p inv registry now _ hnext hallowed hclose ih =>
      obtain ⟨history, hrolled⟩ := ih.rolled
      have hstep : SerialStep cols decode w (.close registry plan now p.id) _ w' :=
        .close registry plan now p.id hclose
      have hrolled' := hrolled.step hstep
      rcases close_cases hclose with
        ⟨inv', x, seen, base, hout, hissued, hchain, rfl⟩ | ⟨hnone, -⟩
      · cases hout
        have heffect := serial_issue hissued hchain
        have hfound := find_of_issued hissued hchain
        have hid : inv.periodId = p.id := by
          rw [hissued.ended.invoice]
          exact hissued.period_id
        rw [hid, hnext.found] at hfound
        obtain rfl := Option.some.inj hfound
        refine ih.next hnext hallowed hrolled' (.inr ⟨inv.id, ?_⟩) ?_
        · rw [heffect.events, Database.unbilled, billed_eq_charge hrolled.keys, hnext.tenant]
        · rw [chargedFor_append, charged_of_issued hissued, heffect.gathered, hnext.tenant]
      · exact absurd rfl (hnone inv)
  | @nothing periods invoices w p x registry now _ hnext hallowed hclose ih =>
      obtain ⟨history, hrolled⟩ := ih.rolled
      have halone : (billingEngine cols).Alone (triggersPass cols)
          (close registry plan now p.id) w none x.data := .rollback hclose
      have hsame := sameTables_of_drawn (Engine.alone_rollback halone)
      obtain ⟨period, hnothing⟩ := found_nothing hclose
      obtain rfl : period = p := Option.some.inj (hnothing.found.symm.trans hnext.found)
      refine ih.next hnext hallowed
        (hrolled.same hsame.events hsame.lineItems hsame.sequences) (.inl hsame.events) ?_
      rw [← hnext.tenant, hnothing.price_eq_zero meter, Int.add_zero]

end Priced

/-- Periods that are closed in order, when all their usage is in: as long as no usage of the
meter is left over from before a period, what is charged for the meter is the sum of the
prices of the periods' own usage. -/
theorem priced_on_own_usage (cols : Columns) (decode : Decoder)
    (plan : Plan) (tenant meter : String) {start w : World} (hstart : start.db = Database.empty)
    {periods : List Period} {invoices : List Invoice}
    (hrun : Rounds cols decode plan tenant (NothingLeftOver tenant meter) start periods invoices
      w) :
    chargedFor invoices meter = (periods.map fun p =>
      priceOf plan meter (w.db.usageIn tenant p.start p.finish meter)).sum :=
  (Priced.run hstart hrun).charged

section Sample

/-- One unit of usage in each of the two sample periods. -/
def monthDecode (record : Bytes) : Except String UsageEvent :=
  if record = [0] then
    .ok (sampleEvent "a" "first" 1000)
  else
    .ok (sampleEvent "a" "second" 11000)

def monthBatch (offset : Nat) : BillingBody BatchEnd :=
  asBilling (processBatch monthDecode (.new "c" 1) offset (offset + 1))

def monthClose (plan : Plan) (id : Nat) : BillingBody CloseEnd :=
  close ⟨["m"]⟩ plan 30000 id

/-- The first unit is free, further units are five each. -/
def freeUnitPlan : Plan :=
  ⟨"free unit", [⟨"m", .graduated, 0, [⟨some 1000000000, 0, 0⟩, ⟨none, 5, 0⟩]⟩]⟩

/-- The two periods. -/
def firstMonth : Period :=
  ⟨1, "a", "one", 1000, 10000, .open, none⟩

def secondMonth : Period :=
  ⟨2, "a", "two", 10000, 20000, .open, none⟩

section Step

variable {plan : Plan} {allowed : World → Period → Prop} {w : World} {periods : List Period}
  {invoices : List Invoice}

theorem month_open (plan : Plan) (allowed : World → Period → Prop) :
    Rounds postgresColumns monthDecode plan "a" allowed sampleStart [] [] sampleOpen := by
  have hone : (sampleCall (ensurePeriod "a" "one" 1000 10000) sampleStart).1 =
      .committed firstMonth := by
    decide +kernel
  have htwo : (sampleCall (ensurePeriod "a" "two" 10000 20000)
      (sampleCall (ensurePeriod "a" "one" 1000 10000) sampleStart).2).1 =
      .committed secondMonth := by
    decide +kernel
  refine .between (.between .refl (.ensurePeriod "a" "one" 1000 10000 (Engine.alone_of_call hone))
    nofun) (.ensurePeriod "a" "two" 10000 20000 (Engine.alone_of_call htwo))
    nofun

theorem month_batch (offset : Nat) (stats : Stats) (rows : List EventRow)
    (hrun : Rounds postgresColumns monthDecode plan "a" allowed sampleStart periods invoices w)
    (hcall : (sampleCall (monthBatch offset) w).1 = .committed stats)
    (hrows : (sampleCall (monthBatch offset) w).2.db.events.drop w.db.events.length = rows)
    (hbetween : BetweenCloses "a" periods (.inserted rows)) :
    Rounds postgresColumns monthDecode plan "a" allowed sampleStart periods invoices
      (sampleCall (monthBatch offset) w).2 := by
  refine .between hrun (.batch (.new "c" 1) offset (offset + 1) (Engine.alone_of_call hcall)) ?_
  subst hrows
  intro e he
  rw [List.mem_singleton.1 he]
  exact hbetween

theorem month_close (p : Period) (inv : Invoice)
    (hrun : Rounds postgresColumns monthDecode plan "a" allowed sampleStart periods invoices w)
    (hnext : NextPeriod "a" periods w p) (hallowed : allowed w p)
    (hcall : (sampleCall (monthClose plan p.id) w).1 = .committed (.issued inv)) :
    Rounds postgresColumns monthDecode plan "a" allowed sampleStart (periods ++ [p])
      (invoices ++ [inv]) (sampleCall (monthClose plan p.id) w).2 :=
  .issued ⟨["m"]⟩ 30000 hrun hnext hallowed (Engine.alone_of_call hcall)

end Step

/-- The usage of the first period is in. -/
def firstUsage : World :=
  (sampleCall (monthBatch 0) sampleOpen).2

/-- It is invoiced, and the usage of the second period is in. -/
def secondUsage : World :=
  (sampleCall (monthBatch 1) (sampleCall (monthClose samplePlan 1) firstUsage).2).2

/-- Two periods, two invoices. -/
theorem priced_on_own_usage_sample :
    chargedFor [sampleInvoice 1 false, sampleInvoice 2 false] "m" = 10 ∧
      chargedFor [sampleInvoice 1 false, sampleInvoice 2 false] "m" =
        ([firstMonth, secondMonth].map fun p => priceOf samplePlan "m"
          ((sampleCall (monthClose samplePlan 2) secondUsage).2.db.usageIn "a" p.start p.finish
            "m")).sum := by
  refine ⟨by decide +kernel, ?_⟩
  have hfirst := month_batch 0 ⟨1, 1, 0, 0, 0⟩ [sampleRow "first" 1000 none]
    (month_open samplePlan (NothingLeftOver "a" "m")) (by decide +kernel) (by decide +kernel)
    (by decide +kernel)
  have hclosed := month_close firstMonth (sampleInvoice 1 false) hfirst
    ⟨by decide +kernel, rfl, by decide, nofun⟩ (by decide +kernel)
    (by decide +kernel)
  have hsecond := month_batch 1 ⟨1, 1, 0, 0, 0⟩ [sampleRow "second" 11000 none] hclosed
    (by decide +kernel) (by decide +kernel) (by decide +kernel)
  have hrun := month_close secondMonth (sampleInvoice 2 false) hsecond
    ⟨by decide +kernel, rfl, by decide, by decide⟩ (by decide +kernel) (by decide +kernel)
  exact priced_on_own_usage postgresColumns monthDecode samplePlan "a" "m" rfl hrun

/-- The invoice for the second period. -/
def twoUnits : Invoice :=
  ⟨1, 2, "a", 5, 1, 30000, [⟨"m", 2000000000, 5, true⟩]⟩

/-- A unit that is free in its own period is priced together with the unit of the next one. -/
theorem priced_together :
    ∃ w, Rounds postgresColumns monthDecode freeUnitPlan "a" (fun _ _ => True) sampleStart
        [firstMonth, secondMonth] [twoUnits] w ∧
      chargedFor [twoUnits] "m" = 5 ∧
      ([firstMonth, secondMonth].map fun p => priceOf freeUnitPlan "m"
        (w.db.usageIn "a" p.start p.finish "m")).sum = 0 := by
  have hfirst := month_batch 0 ⟨1, 1, 0, 0, 0⟩ [sampleRow "first" 1000 none]
    (month_open freeUnitPlan fun _ _ => True) (by decide +kernel) (by decide +kernel)
    (by decide +kernel)
  have hends := Engine.ends_runBody (E := billingEngine postgresColumns)
    (monthClose freeUnitPlan 1) ⟨firstUsage, [], []⟩
  have hnothing : ((billingEngine postgresColumns).runBody (monthClose freeUnitPlan 1)
      ⟨firstUsage, [], []⟩).1 = .rollback .nothingToBill := by
    decide +kernel
  rw [hnothing] at hends
  have hclosed := Rounds.nothing (p := firstMonth) ⟨["m"]⟩ 30000 hfirst
    ⟨by decide +kernel, rfl, by decide, by decide⟩ trivial hends
  have hsecond := month_batch 1 ⟨1, 1, 0, 0, 0⟩ [sampleRow "second" 11000 none] hclosed
    (by decide +kernel) (by decide +kernel) (by decide +kernel)
  have hrun := month_close secondMonth twoUnits hsecond
    ⟨by decide +kernel, rfl, by decide, by decide⟩ trivial (by decide +kernel)
  exact ⟨_, hrun, by decide +kernel, by decide +kernel⟩

end Sample

end LedgerLine.Billing
