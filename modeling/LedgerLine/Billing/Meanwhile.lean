import LedgerLine.Billing.Draining
import LedgerLine.Billing.Overlap

/-!
# A Close while the consumer goes on

One `Close` with its statements between those of any number of consumer batches.  The call
sums the unbilled events in one statement and marks them in a later one, which sees what was
committed in between: an event that comes in then is marked and not charged
(`marked_uncharged`).

An invoice is right about the events it carries exactly if the events that come in between
add nothing to a meter that was gathered, and have no other meter (`bills_marked_iff`).
-/

namespace LedgerLine.Billing

section GivesUp

theorem stopsWith_asBilling {α : Type} {failure : α → Prop} {body : BatchBody α}
    (h : StopsWith failure body) : StopsWith failure (asBilling body) := by
  induction body with
  | done a => trivial
  | call o next ih =>
      refine ⟨?_, fun a => ih _ (h.2 a)⟩
      intro e
      obtain ⟨a, hnext, hfailure⟩ := h.1 e
      refine ⟨a, ?_, hfailure⟩
      show asBilling (next (.error e)) = _
      rw [hnext]
      rfl

end GivesUp

/-- Why a `Close` or a batch ends without a commit. -/
abbrev MeanwhileErr := CloseErr ⊕ (Stats × BatchErr)

/-- What a `Close` or a batch returns. -/
abbrev MeanwhileResult := Closed ⊕ Stats

/-- Call 0 is a `Close`, the other calls are batches. -/
def withBatches (closing : BillingBody CloseEnd) (batches : Nat → BatchBody BatchEnd) :
    Nat → BillingBody (Outcome MeanwhileErr MeanwhileResult)
  | 0 => relabel .inl .inl closing
  | n + 1 => relabel .inr .inr (asBilling (batches n))

/-- A committed `Close` or batch. -/
abbrev FinishedMeanwhile := Finished BillingStmt World Write MeanwhileResult

/-- An invoice bills the events that carry it: each line has the sum of its meter, and every
event has a line. -/
structure BillsMarked (db : Database) (invoice : Nat) : Prop where
  quantity : ∀ line ∈ db.linesOf invoice,
    line.quantity = quantityOf (db.eventsOf invoice) line.meter
  line : ∀ r ∈ db.eventsOf invoice, ∃ line ∈ db.linesOf invoice, line.meter = r.meter

/-- The events that `markBilled` finds and that were not gathered. -/
def lateRows (tenant : String) (before : Time) (gathered found : World) : List EventRow :=
  (found.db.unbilled tenant before).filter fun r =>
    r.key ∉ (gathered.db.unbilled tenant before).map EventRow.key

/-- The events that come in late add nothing to a meter that was gathered, and have no other
meter. -/
structure LateAddsNothing (tenant : String) (before : Time) (gathered found : World) : Prop where
  quantity : ∀ r ∈ gathered.db.unbilled tenant before,
    quantityOf (lateRows tenant before gathered found) r.meter = 0
  meter : ∀ r ∈ lateRows tenant before gathered found,
    ∃ g ∈ gathered.db.unbilled tenant before, g.meter = r.meter

section Arrivals

/-- What batches do while a `Close` is open: unbilled events come in. -/
structure Arrivals (w w' : World) : Prop where
  events : ∃ new, w'.db.events = w.db.events ++ new ∧ ∀ r ∈ new, r.invoiceId = none
  lines : w'.db.lineItems = w.db.lineItems
  sequences : w.db.sequences.invoices ≤ w'.db.sequences.invoices

theorem Arrivals.refl (w : World) : Arrivals w w :=
  ⟨⟨[], by simp, nofun⟩, rfl, Nat.le_refl _⟩

theorem Arrivals.trans {w₁ w₂ w₃ : World} (h : Arrivals w₁ w₂) (h' : Arrivals w₂ w₃) :
    Arrivals w₁ w₃ := by
  obtain ⟨new, hnew, hnone⟩ := h.events
  obtain ⟨new', hnew', hnone'⟩ := h'.events
  refine ⟨⟨new ++ new', ?_, ?_⟩, h'.lines.trans h.lines, Nat.le_trans h.sequences h'.sequences⟩
  · rw [hnew', hnew, List.append_assoc]
  · exact List.forall_mem_append.2 ⟨hnone, hnone'⟩

theorem Arrivals.draw (w : World) (o : BillingStmt) : Arrivals w (w.draw o) :=
  ⟨⟨[], by simp [World.draw], nofun⟩, rfl,
    (Sequences.le_draw w.db.sequences o).invoices⟩

/-- Rows that come in have other keys than the rows that are there. -/
theorem filter_of_arrivals {events new : List EventRow} {keys : List (String × String)}
    (hnodup : ((events ++ new).map EventRow.key).Nodup) (hkeys : keys ⊆ events.map EventRow.key) :
    (events ++ new).filter (fun r => r.key ∈ keys) = events.filter fun r => r.key ∈ keys := by
  have hnone : new.filter (fun r => r.key ∈ keys) = [] := by
    rw [List.filter_eq_nil_iff]
    intro r hr hkey
    rw [List.map_append, List.nodup_append] at hnodup
    exact hnodup.2.2 _ (hkeys (of_decide_eq_true hkey)) _ (List.mem_map_of_mem hr) rfl
  rw [List.filter_append, hnone, List.append_nil]

end Arrivals

section Chain

variable {cols : Columns}

/-- What calls rely on. -/
def meanwhileRely (cols : Columns) : Nat → Trace → World → World → Prop
  | 0, _ => Arrivals
  | _ + 1, seen =>
      KeysApartFrom ((ownRows ((billingEngine cols).writesOf seen)).map EventRow.key)

theorem KeysApartFrom.trans {own : List (String × String)} {w₁ w₂ w₃ : World}
    (h : KeysApartFrom own w₁ w₂) (h' : KeysApartFrom own w₂ w₃) : KeysApartFrom own w₁ w₃ := by
  obtain ⟨new, hnew, hown⟩ := h
  obtain ⟨new', hnew', hown'⟩ := h'
  refine ⟨new ++ new', by rw [hnew', hnew, List.append_assoc], ?_⟩
  exact List.forall_mem_append.2 ⟨hown, hown'⟩

theorem meanwhileRely_refl (t : Nat) (seen : Trace) (w : World) :
    meanwhileRely cols t seen w w := by
  cases t with
  | zero => exact .refl w
  | succ n => exact .of_eq rfl

theorem meanwhileRely_trans (t : Nat) (seen : Trace) (w₁ w₂ w₃ : World)
    (h : meanwhileRely cols t seen w₁ w₂) (h' : meanwhileRely cols t seen w₂ w₃) :
    meanwhileRely cols t seen w₁ w₃ := by
  cases t with
  | zero => exact Arrivals.trans h h'
  | succ n =>
      exact KeysApartFrom.trans h h'

theorem meanwhileRely_mono (t : Nat) (seen seen' : Trace) (w w' : World)
    (h : meanwhileRely cols t (seen ++ seen') w w') : meanwhileRely cols t seen w w' := by
  cases t with
  | zero => exact h
  | succ n =>
      obtain ⟨new, hnew, hown⟩ := h
      refine ⟨new, hnew, fun key hkey hmem => hown key hkey ?_⟩
      rw [Engine.writesOf_append, ownRows_append, List.map_append]
      exact List.mem_append_left _ hmem

theorem meanwhileRely_draw (t : Nat) (seen : Trace) (o : BillingStmt) (w : World) :
    meanwhileRely cols t seen w (w.draw o) := by
  cases t with
  | zero => exact .draw w o
  | succ n => exact .of_eq rfl

variable {Fine : World → Prop} {registry : Registry} {plan : Plan} {now : Time} {id : Nat}
  {seen : Trace} {inv : Invoice} {x : Issue} {start w : World}

/-- Any statement of the `Close`, with the state it was answered at. -/
theorem entry_of_meanwhile {before after : Trace} {o : BillingStmt} {sight : World}
    (h : (billingEngine cols).Chain Fine (meanwhileRely cols 0) start
      (before ++ (o, sight) :: after) w) :
    ∃ base, (billingEngine cols).Chain Fine (meanwhileRely cols 0) start before base ∧
      Fine base ∧ sight = (billingEngine cols).view base ((billingEngine cols).writesOf before) ∧
      Arrivals (base.draw o) w := by
  obtain ⟨base, hchain, hfine, hsight, hmove⟩ := h.entry (meanwhileRely_trans 0)
    (meanwhileRely_mono 0) fun seen o w _ => meanwhileRely_draw 0 seen o w
  exact ⟨base, hchain, hfine, hsight, hmove⟩

/-- What comes in between the statements of a `Close` that issues an invoice. -/
structure ArrivalsAround (w : World) (x : Issue) (between after later : List EventRow) :
    Prop where
  found : x.found.db.events = x.gathered.db.events ++ between
  marked : x.marked.db.events = x.found.db.events ++ after
  committed : w.db.events = x.marked.db.events ++ later

theorem arrivals_around (h : Issued cols registry plan now id seen inv x)
    (hchain : (billingEngine cols).Chain Fine (meanwhileRely cols 0) start seen w) :
    ∃ between after later, ArrivalsAround w x between after later := by
  have hbefore : ∀ base, ((billingEngine cols).view base (x.beforeMark cols inv)).db.events =
      base.db.events :=
    fun base => view_events_of_none cols base fun c hc => (h.beforeMark_cases c hc).1
  obtain ⟨mid, hseen, hwrites, hwrites'⟩ := h.at_marking
  have hmark : seen = (x.opening ++ mid ++
      [(.findUnbilled x.period.tenantId x.period.finish, x.found)]) ++
      (.markFound x.foundKeys inv.id x.period.tenantId x.period.finish, x.marked) ::
        [(.closePeriod x.period.id now, x.closed)] := by
    rw [hseen]
    simp
  rw [hmark] at hchain
  obtain ⟨marking, hchain, -, hmarked, hlater⟩ := entry_of_meanwhile hchain
  obtain ⟨finding, hchain, -, hfound, hafter⟩ := entry_of_meanwhile hchain
  have hgather : x.opening ++ mid = [(.lockPeriod x.period.id, x.locked)] ++
      (.unbilledUsage x.period.tenantId x.period.finish, x.gathered) :: mid := rfl
  rw [hgather] at hchain
  obtain ⟨gathering, -, -, hgathered, hbetween⟩ := entry_of_meanwhile hchain
  have hgathered' : x.gathered.db.events = gathering.db.events := by
    rw [hgathered, Engine.writesOf_cons, billingEngine_exec, BillingStmt.exec, h.lock]
    rfl
  have hfound' : x.found.db.events = finding.db.events := by
    rw [hfound, hwrites, hbefore]
  have hmarked' : x.marked.db.events = marking.db.events := by
    rw [hmarked, hwrites', hbefore]
  obtain ⟨between, hbetween, -⟩ := hbetween.events
  obtain ⟨after, hafter, -⟩ := hafter.events
  obtain ⟨later, hlater, -⟩ := hlater.events
  refine ⟨between, after, later, ?_, ?_, ?_⟩
  · rw [hfound', hgathered', hbetween]
    rfl
  · rw [hmarked', hfound', hafter]
    rfl
  · rw [hmarked', hlater]
    rfl

/-- The events that `markBilled` finds. -/
def Issue.foundRows (x : Issue) : List EventRow :=
  x.found.db.unbilled x.period.tenantId x.period.finish

theorem Issue.foundKeys_subset (x : Issue) :
    x.foundRows.map EventRow.key ⊆ x.found.db.events.map EventRow.key := by
  refine List.forall_mem_map.2 fun r hr => ?_
  exact List.mem_map_of_mem (List.mem_filter.1 hr).1

section Around

variable {between after later : List EventRow} (harrivals : ArrivalsAround w x between after later)
  (hkeys : (w.db.events.map EventRow.key).Nodup)
include harrivals hkeys

theorem ArrivalsAround.nodup_marked : (x.marked.db.events.map EventRow.key).Nodup := by
  rw [harrivals.committed, List.map_append] at hkeys
  exact hkeys.of_append_left

theorem ArrivalsAround.nodup_found : (x.found.db.events.map EventRow.key).Nodup := by
  have hmarked := harrivals.nodup_marked hkeys
  rw [harrivals.marked, List.map_append] at hmarked
  exact hmarked.of_append_left

/-- The events that are marked are those that were found. -/
theorem ArrivalsAround.markedRows_eq : x.markedRows = x.foundRows := by
  have hrows : x.markedRows = (x.marked.db.events.filter
      fun r => r.key ∈ x.foundRows.map EventRow.key).filter
        (EventRow.isUnbilled x.period.tenantId x.period.finish) := by
    rw [Issue.markedRows, markedRows, Database.unbilled, List.filter_comm]
    rfl
  have hmarked := harrivals.nodup_marked hkeys
  rw [harrivals.marked] at hmarked
  rw [hrows, harrivals.marked, filter_of_arrivals hmarked x.foundKeys_subset]
  have hfound : (x.found.db.events.filter fun r => r.key ∈ x.foundRows.map EventRow.key) =
      x.foundRows := filter_key_mem (harrivals.nodup_found hkeys) _
  rw [hfound, Issue.foundRows, Database.unbilled, List.filter_filter]
  simp

/-- They are as they were found when the call commits. -/
theorem ArrivalsAround.rows_eq :
    w.db.events.filter (fun r => r.key ∈ x.markedRows.map EventRow.key) = x.foundRows := by
  have hall := hkeys
  rw [harrivals.committed, harrivals.marked, List.append_assoc] at hall
  rw [harrivals.markedRows_eq hkeys, harrivals.committed, harrivals.marked, List.append_assoc,
    filter_of_arrivals hall x.foundKeys_subset]
  exact filter_key_mem (harrivals.nodup_found hkeys) _

/-- Those that were found are those that were gathered and those that came in late. -/
theorem ArrivalsAround.foundRows_eq :
    x.foundRows = x.gatheredRows ++
      lateRows x.period.tenantId x.period.finish x.gathered x.found := by
  have hnodup := harrivals.nodup_found hkeys
  have hsplit : x.foundRows = x.gatheredRows ++
      between.filter (EventRow.isUnbilled x.period.tenantId x.period.finish) := by
    rw [Issue.foundRows, Database.unbilled, harrivals.found, List.filter_append]
    rfl
  have hfound : (x.foundRows.map EventRow.key).Nodup :=
    hnodup.sublist (List.filter_sublist.map _)
  have hlate : lateRows x.period.tenantId x.period.finish x.gathered x.found =
      x.foundRows.filter fun r => r.key ∉ x.gatheredRows.map EventRow.key := rfl
  rw [hlate]
  rw [hsplit, List.map_append, List.nodup_append] at hfound
  rw [hsplit, List.filter_append, List.append_cancel_left_eq]
  have hnone : x.gatheredRows.filter (fun r => r.key ∉ x.gatheredRows.map EventRow.key) = [] := by
    rw [List.filter_eq_nil_iff]
    intro r hr hnot
    exact of_decide_eq_true hnot (List.mem_map_of_mem hr)
  rw [hnone, List.nil_append, eq_comm, List.filter_eq_self]
  intro r hr
  refine decide_eq_true fun hmem => ?_
  exact hfound.2.2 _ hmem _ (List.mem_map_of_mem hr) rfl

end Around

/-- Nothing carries the invoice yet when the call that issues it commits. -/
structure Untaken (w : World) (inv : Invoice) : Prop where
  issued : inv.id < w.db.sequences.invoices
  events : ∀ r ∈ w.db.events, r.invoiceId ≠ some inv.id
  lines : ∀ l ∈ w.db.lineItems, l.invoiceId ≠ inv.id

theorem untaken (hknown : ∀ w, Fine w → InvoicesKnown w.db)
    (h : Issued cols registry plan now id seen inv x)
    (hchain : (billingEngine cols).Chain Fine (meanwhileRely cols 0) start seen w) :
    Untaken w inv := by
  obtain ⟨before, after, hseen, -⟩ := h.at_inserted
  rw [hseen] at hchain
  obtain ⟨base, -, hfine, hsight, hmove⟩ := entry_of_meanwhile hchain
  have hbase := hknown base hfine
  have hid : inv.id = base.db.sequences.invoices := by
    rw [h.ended.invoice, hsight, World.sequences_view]
  constructor
  · rw [hid]
    exact Nat.lt_of_lt_of_le (Nat.lt_succ_self _) hmove.sequences
  · intro r hr heq
    obtain ⟨new, hnew, hnone⟩ := hmove.events
    rw [hnew] at hr
    rcases List.mem_append.1 hr with hr | hr
    · have hlt := hbase.events r hr _ heq
      rw [hid] at hlt
      exact Nat.lt_irrefl _ hlt
    · rw [hnone r hr] at heq
      cases heq
  · intro l hl heq
    rw [hmove.lines] at hl
    have hlt := hbase.lines l hl
    rw [heq, hid] at hlt
    exact Nat.lt_irrefl _ hlt

end Chain

section Reported

variable {cols : Columns}

/-- What the tables hold of an invoice: its lines, and the events that were found. -/
structure Reported (db : Database) (inv : Invoice) (x : Issue) : Prop where
  lines : db.linesOf inv.id = x.entry.lines.map (InvoiceLine.row inv.id)
  events : db.eventsOf inv.id = x.foundRows.map fun r => { r with invoiceId := some inv.id }
  found : x.foundRows = x.gatheredRows ++
    lateRows x.period.tenantId x.period.finish x.gathered x.found

theorem Reported.congr {db db' : Database} {inv : Invoice} {x : Issue} (h : Reported db inv x)
    (hlines : db'.linesOf inv.id = db.linesOf inv.id)
    (hevents : db'.eventsOf inv.id = db.eventsOf inv.id) : Reported db' inv x :=
  ⟨hlines.trans h.lines, hevents.trans h.events, h.found⟩

variable {registry : Registry} {plan : Plan} {now : Time} {id : Nat} {seen : Trace}
  {inv : Invoice} {x : Issue}

/-- The lines say what was gathered; the events are those that were found. -/
theorem Reported.billsMarked_iff {db : Database} (h : Reported db inv x)
    (hissued : Issued cols registry plan now id seen inv x) :
    BillsMarked db inv.id ↔
      LateAddsNothing x.period.tenantId x.period.finish x.gathered x.found := by
  have hsum : ∀ meter, quantityOf (db.eventsOf inv.id) meter = quantityOf x.gatheredRows meter +
      quantityOf (lateRows x.period.tenantId x.period.finish x.gathered x.found) meter := by
    intro meter
    rw [h.events, quantityOf_invoice, h.found, quantityOf_append]
  have hline : ∀ meter, (∃ line ∈ db.linesOf inv.id, line.meter = meter) ↔
      ∃ r ∈ x.gatheredRows, r.meter = meter := by
    intro meter
    rw [← hissued.line_meter, h.lines]
    simp only [List.mem_map, exists_exists_and_eq_and]
    rfl
  have hquantity : ∀ line ∈ db.linesOf inv.id,
      line.quantity = quantityOf x.gatheredRows line.meter := by
    intro line hmem
    rw [h.lines] at hmem
    obtain ⟨l, hl, rfl⟩ := List.mem_map.1 hmem
    exact hissued.line_quantity hl
  have hmem : ∀ meter, (∃ r ∈ db.eventsOf inv.id, r.meter = meter) ↔
      ∃ r ∈ x.foundRows, r.meter = meter := by
    intro meter
    rw [h.events]
    simp only [List.mem_map, exists_exists_and_eq_and]
  constructor
  · intro hbills
    constructor
    · intro r hr
      obtain ⟨line, hmem, hmeter⟩ := (hline r.meter).2 ⟨r, hr, rfl⟩
      have heq := (hquantity line hmem).symm.trans (hbills.quantity line hmem)
      rw [hsum, hmeter] at heq
      omega
    · intro r hr
      have hfound : r ∈ x.foundRows := by
        rw [h.found]
        exact List.mem_append_right _ hr
      obtain ⟨e, he, hmeter⟩ := (hmem r.meter).2 ⟨r, hfound, rfl⟩
      rw [← hmeter]
      exact (hline e.meter).1 (hbills.line e he)
  · intro hlate
    constructor
    · intro line hl
      obtain ⟨r, hr, hmeter⟩ := (hline line.meter).1 ⟨line, hl, rfl⟩
      rw [hquantity line hl, hsum, ← hmeter, hlate.quantity r hr, Int.add_zero]
    · intro e he
      rw [hline]
      obtain ⟨r, hr, hmeter⟩ := (hmem e.meter).1 ⟨e, he, rfl⟩
      rw [h.found] at hr
      rcases List.mem_append.1 hr with hr | hr
      · exact ⟨r, hr, hmeter⟩
      · rw [← hmeter]
        exact hlate.meter r hr

end Reported

section Contract

variable {cols : Columns} {registry : Registry} {plan : Plan} {now : Time} {id : Nat}

/-- The tables are in order, and every invoice that was issued is in them. -/
structure MeanwhileGood (cols : Columns) (registry : Registry) (plan : Plan) (now : Time)
    (id : Nat) (w : World) (fs : List FinishedMeanwhile) : Prop where
  known : InvoicesKnown w.db
  reported : ∀ f ∈ fs, ∀ inv, f.result = .inl (.issued inv) →
    ∃ x, Issued cols registry plan now id f.txn.seen inv x ∧ Reported w.db inv x

variable {w : World} {fs : List FinishedMeanwhile} {f : FinishedMeanwhile}

theorem MeanwhileGood.draw (h : MeanwhileGood cols registry plan now id w fs) (o : BillingStmt) :
    MeanwhileGood cols registry plan now id (w.draw o) fs := by
  have hle := (Sequences.le_draw w.db.sequences o).invoices
  refine ⟨⟨h.known.keys, ?_, ?_⟩, ?_⟩
  · exact fun r hr i hi => Nat.lt_of_lt_of_le (h.known.events r hr i hi) hle
  · exact fun l hl => Nat.lt_of_lt_of_le (h.known.lines l hl) hle
  · intro f hf inv hresult
    obtain ⟨x, hissued, hreported⟩ := h.reported f hf inv hresult
    exact ⟨x, hissued, hreported.congr rfl rfl⟩

/-- A call that issues nothing has nothing to report. -/
theorem MeanwhileGood.snoc (h : MeanwhileGood cols registry plan now id w fs)
    (hf : ∀ inv, f.result ≠ .inl (.issued inv)) :
    MeanwhileGood cols registry plan now id w (fs ++ [f]) := by
  refine ⟨h.known, ?_⟩
  intro g hg inv hresult
  rcases List.mem_append.1 hg with hg | hg
  · exact h.reported g hg inv hresult
  · cases List.mem_singleton.1 hg
    exact absurd hresult (hf inv)

theorem MeanwhileGood.issue {w start : World} {fs : List FinishedMeanwhile} {seen : Trace}
    {inv : Invoice} {x : Issue} (hgood : MeanwhileGood cols registry plan now id w fs)
    (h : Issued cols registry plan now id seen inv x)
    (hchain : (billingEngine cols).Chain
      (fun w => ∃ fs, MeanwhileGood cols registry plan now id w fs)
      (meanwhileRely cols 0) start seen w) {f : FinishedMeanwhile}
    (hf : f.result = .inl (.issued inv)) (hseen : f.txn.seen = seen) :
    MeanwhileGood cols registry plan now id
      ((billingEngine cols).view w ((billingEngine cols).writesOf seen)) (fs ++ [f]) := by
  obtain ⟨between, after, later, harrivals⟩ := arrivals_around h hchain
  have huntaken := untaken (fun w hw => hw.choose_spec.known) h hchain
  have hrows := harrivals.rows_eq hgood.known.keys
  have hnone : ∀ r ∈ w.db.events, r.key ∈ x.markedRows.map EventRow.key → r.invoiceId = none := by
    intro r hr hkey
    have hfound : r ∈ x.foundRows := by
      rw [← hrows]
      exact List.mem_filter.2 ⟨hr, decide_eq_true hkey⟩
    have hunbilled := (List.mem_filter.1 hfound).2
    exact (EventRow.isUnbilled_iff.1 hunbilled).2.1
  refine ⟨hgood.known.issue h huntaken.issued, ?_⟩
  intro g hg other hresult
  rcases List.mem_append.1 hg with hg | hg
  · obtain ⟨y, hissued, hreported⟩ := hgood.reported g hg other hresult
    -- an invoice that was issued before has lines, so it is another one
    have hne : inv.id ≠ other.id := by
      intro heq
      obtain ⟨line, hline⟩ := hissued.exists_line
      have hmem : line.row other.id ∈ w.db.linesOf other.id := by
        rw [hreported.lines]
        exact List.mem_map_of_mem hline
      exact huntaken.lines _ (List.mem_filter.1 hmem).1 heq.symm
    refine ⟨y, hissued, hreported.congr (linesOf_append_ne (issued_lineItems h w) hne) ?_⟩
    rw [Database.eventsOf, issued_events h]
    exact filter_billed_other hnone hne.symm
  · cases List.mem_singleton.1 hg
    rw [hf] at hresult
    cases hresult
    refine ⟨x, hseen ▸ h, linesOf_append (issued_lineItems h w) huntaken.lines, ?_,
      harrivals.foundRows_eq hgood.known.keys⟩
    rw [Database.eventsOf, issued_events h, filter_billed_new huntaken.events, hrows]

/-- The commit of a batch. -/
theorem MeanwhileGood.batch {w : World} {fs : List FinishedMeanwhile} {ws : List Write}
    (hgood : MeanwhileGood cols registry plan now id w fs)
    (hnew : NewRows w.db.events (ownRows ws)) (hws : ∀ c ∈ ws, c.isConsumer = true) :
    MeanwhileGood cols registry plan now id ((billingEngine cols).view w ws) fs := by
  obtain ⟨offsets, deadLetters, reached, hview⟩ := view_of_consumer cols w hws
  have hnone : ∀ invoice, (ownRows ws).filter (fun r => r.invoiceId = some invoice) = [] := by
    intro invoice
    rw [List.filter_eq_nil_iff]
    intro r hr
    simp [hnew.unbilled r hr]
  rw [hview]
  refine ⟨⟨?_, ?_, hgood.known.lines⟩, ?_⟩
  · show ((w.db.events ++ ownRows ws).map EventRow.key).Nodup
    rw [List.map_append, List.nodup_append]
    refine ⟨hgood.known.keys, hnew.nodup, ?_⟩
    intro key hkey key' hkey'
    obtain ⟨stored, hstored, rfl⟩ := List.mem_map.1 hkey
    obtain ⟨r, hr, rfl⟩ := List.mem_map.1 hkey'
    exact hnew.fresh r hr stored hstored
  · intro r hr invoice hinvoice
    rcases List.mem_append.1 hr with hr | hr
    · exact hgood.known.events r hr invoice hinvoice
    · rw [hnew.unbilled r hr] at hinvoice
      cases hinvoice
  · intro f hf inv hresult
    obtain ⟨x, hissued, hreported⟩ := hgood.reported f hf inv hresult
    refine ⟨x, hissued, hreported.congr rfl ?_⟩
    show (w.db.events ++ ownRows ws).filter (fun r => r.invoiceId = some inv.id) = _
    rw [List.filter_append, hnone, List.append_nil]
    rfl

/-- What a batch that is open has inserted. -/
theorem newRows_of_batch {Fine : World → Prop} {n : Nat} {seen : Trace} {start : World}
    {batches : Nat → BatchBody BatchEnd} {closing : BillingBody CloseEnd}
    {body : BillingBody (Outcome MeanwhileErr MeanwhileResult)}
    (hpath : (billingEngine cols).Path (withBatches closing batches (n + 1)) seen body)
    (hchain : (billingEngine cols).Chain Fine (meanwhileRely cols (n + 1)) start seen w) :
    NewRows w.db.events (ownRows ((billingEngine cols).writesOf seen)) ∧
      ∀ c ∈ (billingEngine cols).writesOf seen, c.isConsumer = true := by
  refine newRows_of_chain (fun _ _ _ hmove => hmove) hchain (Engine.only_of_path hpath ?_)
  exact Program.only_bind (only_asBilling _) fun _ => trivial

theorem key_of_lock {ws ws' : List Write} {row : EventRow} (hrow : row ∈ ownRows ws)
    (hlocks : ∀ a ∈ ws, ∀ b ∈ ws', a.lock ≠ none → a.lock ≠ b.lock) :
    row.key ∉ (ownRows ws').map EventRow.key := by
  intro hkey
  obtain ⟨row', hrow', heq⟩ := List.mem_map.1 hkey
  have hmem := mem_ownRows.1 hrow
  have hmem' := mem_ownRows.1 hrow'
  refine hlocks _ hmem _ hmem' nofun ?_
  rw [Write.lock, Write.lock, heq]

/-- A `Close` and consumer batches, and what keeps invoices reported. -/
def meanwhileContract (cols : Columns) (registry : Registry) (plan : Plan) (now : Time)
    (id : Nat) (decode : Decoder) (consumer : Nat → Consumer)
    (first stop : Nat → Nat) :
    CallContract (billingEngine cols)
      (withBatches (close registry plan now id)
        fun n => processBatch decode (consumer n) (first n) (stop n))
      (triggersPass cols) (fun _ _ _ => True) (billingNumbering cols) where
  Good := MeanwhileGood cols registry plan now id
  R := meanwhileRely cols
  Apart := fun _ _ => True
  givesUp := by
    intro t
    cases t with
    | zero =>
        exact givesUp_relabel _ _ (givesUp_close registry plan now id)
    | succ n =>
        exact givesUp_relabel _ _ (stopsWith_asBilling (givesUp_processBatch _ _ _ _))
  refl := meanwhileRely_refl
  trans := meanwhileRely_trans
  draw := fun t seen o w _ _ => meanwhileRely_draw t seen o w
  good_draw := fun o _ _ h => h.draw o
  apart_symm := fun _ _ _ => trivial
  apart_nil := fun _ => trivial
  apart_step := fun _ _ _ _ _ _ _ _ _ _ _ _ _ => trivial
  commit := by
    intro t start result w fs seen hgood hpath hchain _ _
    cases t with
    | zero =>
        obtain ⟨closed, rfl, hclose⟩ := Engine.path_relabel hpath
        rcases path_close hclose with
          ⟨inv, x, rfl, hissued⟩ | ⟨inv, period, row, locked, read, lines, rfl, hreturned⟩
        · exact hgood.issue hissued hchain rfl rfl
        · rw [view_of_returned cols hreturned]
          exact hgood.snoc nofun
    | succ n =>
        obtain ⟨hnew, hws⟩ := newRows_of_batch hpath hchain
        obtain ⟨stats, rfl, -⟩ := Engine.path_relabel hpath
        exact (hgood.batch hnew hws).snoc nofun
  others := by
    intro t u start start' result w fs seen seen' body hne hgood hpath hchain _ hpath' hchain'
      hlocks _ _
    cases t with
    | zero =>
        obtain ⟨n, rfl⟩ := Nat.exists_eq_succ_of_ne_zero hne
        obtain ⟨closed, rfl, hclose⟩ := Engine.path_relabel hpath
        rcases path_close hclose with
          ⟨inv, x, rfl, hissued⟩ | ⟨inv, period, row, locked, read, lines, rfl, hreturned⟩
        · refine ⟨[], ?_, nofun⟩
          rw [issued_events hissued, List.map_map, List.append_nil]
          exact List.map_congr_left fun r _ => EventRow.key_billed _ _ r
        · rw [view_of_returned cols hreturned]
          exact .of_eq rfl
    | succ n =>
        obtain ⟨hnew, hws⟩ := newRows_of_batch hpath hchain
        obtain ⟨offsets, deadLetters, reached, hview⟩ := view_of_consumer cols w hws
        cases u with
        | zero =>
            rw [hview]
            exact ⟨⟨_, rfl, hnew.unbilled⟩, rfl, Nat.le_refl _⟩
        | succ m =>
            refine ⟨(ownRows ((billingEngine cols).writesOf seen)).map EventRow.key, ?_, ?_⟩
            · rw [hview]
              exact List.map_append
            · refine List.forall_mem_map.2 fun row hrow => ?_
              exact key_of_lock hrow hlocks

end Contract

/-- However the statements of a `Close` and the commits of consumer batches fall: the invoice
it issues bills exactly the events that carry it if and only if the events that came in
between its two looks at the unbilled events add nothing to a meter it gathered, and have no
other meter. -/
theorem bills_marked_iff (cols : Columns) (decode : Decoder)
    (registry : Registry) (plan : Plan) (now : Time) (id : Nat) (consumer : Nat → Consumer)
    (first stop : Nat → Nat) {w : World} (hw : InvoicesKnown w.db)
    {c : Calls BillingStmt BillingStmt.Answer StmtErr World Write MeanwhileErr MeanwhileResult}
    (hrun : Relation.ReflTransGen (CallStep (billingEngine cols)
      (withBatches (close registry plan now id)
        fun n => processBatch decode (consumer n) (first n) (stop n))
      (triggersPass cols) fun _ _ _ => True) (.start w) c)
    {f : FinishedMeanwhile} (hf : f ∈ c.finished) {inv : Invoice}
    (hresult : f.result = .inl (.issued inv)) :
    ∃ (period : Period) (gathered found : World), period.id = id ∧
      (.unbilledUsage period.tenantId period.finish, gathered) ∈ f.txn.seen ∧
      (.findUnbilled period.tenantId period.finish, found) ∈ f.txn.seen ∧
      (BillsMarked c.pool.data.db inv.id ↔
        LateAddsNothing period.tenantId period.finish gathered found) := by
  have hinv := callInv_of_run
    (K := meanwhileContract cols registry plan now id decode consumer first stop)
    (.start ⟨hw, nofun⟩) hrun
  obtain ⟨x, hissued, hreported⟩ := hinv.good.reported f hf inv hresult
  refine ⟨x.period, x.gathered, x.found, hissued.period_id, ?_, ?_,
    hreported.billsMarked_iff hissued⟩
  · obtain ⟨before, after, hseen, -⟩ := hissued.at_gathered
    rw [hseen]
    exact List.mem_append_right _ List.mem_cons_self
  · obtain ⟨before, after, hseen, -⟩ := hissued.at_found
    rw [hseen]
    exact List.mem_append_right _ List.mem_cons_self

section Sample

/-- A `Close` of the first sample period, and a batch with the record of another event in
it. -/
def sampleMeanwhile : Nat → BillingBody (Outcome MeanwhileErr MeanwhileResult) :=
  withBatches (sampleClose 1) fun _ => processBatch sampleDecode (.new "c" 1) 1 2

/-- The moves of a schedule of these calls. -/
def playMeanwhile (moves : List Move) :
    Option (Calls BillingStmt BillingStmt.Answer StmtErr World Write MeanwhileErr
      MeanwhileResult) :=
  Calls.play (billingEngine postgresColumns) sampleMeanwhile (triggersPass postgresColumns)
    (fun _ _ _ => true) 3 moves (.start samplePeriod)

/-- What a state of these calls holds of interest here. -/
def billedIn (c : Calls BillingStmt BillingStmt.Answer StmtErr World Write MeanwhileErr
    MeanwhileResult) : List MeanwhileResult × List EventRow × List LineItemRow :=
  (c.finished.map Finished.result, c.pool.data.db.events, c.pool.data.db.lineItems)

/-- The batch comes before the `Close`, and once more between gathering and marking, where it
adds nothing. -/
def batchFirst : List Move :=
  [.begin 1, .statements 1 3, .commit 1, .begin 0, .statements 0 2, .begin 2, .statements 2 3,
    .commit 2, .statements 0 10, .commit 0]

/-- The batch commits after the `Close` has gathered, and before it marks. -/
def batchBetween : List Move :=
  [.begin 0, .statements 0 2, .begin 1, .statements 1 3, .commit 1, .statements 0 10, .commit 0]

theorem invoicesKnown_sample : InvoicesKnown samplePeriod.db := by
  constructor <;> decide +kernel

/-- Two events, both of them charged, with the record of one read twice. -/
theorem bills_marked_sample :
    ∃ c f inv, playMeanwhile batchFirst = some c ∧ f ∈ c.finished ∧
      f.result = .inl (.issued inv) ∧
      c.pool.data.db.events = [sampleRow "first" 1000 (some 1), sampleRow "late" 2000 (some 1)] ∧
      BillsMarked c.pool.data.db inv.id ∧
      ∃ (period : Period) (gathered found : World), period.id = 1 ∧
        (.unbilledUsage period.tenantId period.finish, gathered) ∈ f.txn.seen ∧
        (.findUnbilled period.tenantId period.finish, found) ∈ f.txn.seen ∧
        (BillsMarked c.pool.data.db inv.id ↔
          LateAddsNothing period.tenantId period.finish gathered found) := by
  have hplay : (playMeanwhile batchFirst).map billedIn =
      some ([.inr ⟨1, 1, 0, 0, 0⟩, .inr ⟨1, 0, 1, 0, 0⟩,
          .inl (.issued ⟨1, 1, "a", 10, 1, 30000, [⟨"m", 2000000000, 10, false⟩]⟩)],
        [sampleRow "first" 1000 (some 1), sampleRow "late" 2000 (some 1)],
        [⟨1, "m", 2000000000, 10⟩]) := by
    decide +kernel
  obtain ⟨c, hc, heq⟩ := Option.map_eq_some_iff.1 hplay
  obtain ⟨hfinished, heq⟩ := Prod.mk.inj heq
  obtain ⟨hevents, hlines⟩ := Prod.mk.inj heq
  have hmem : (.inl (.issued ⟨1, 1, "a", 10, 1, 30000, [⟨"m", 2000000000, 10, false⟩]⟩) :
      MeanwhileResult) ∈ c.finished.map Finished.result := by
    rw [hfinished]
    exact List.mem_of_getLast? rfl
  obtain ⟨f, hf, hresult⟩ := List.mem_map.1 hmem
  refine ⟨c, f, _, hc, hf, hresult, hevents, ?_, ?_⟩
  · constructor
    · rw [Database.linesOf, hlines, Database.eventsOf, hevents]
      decide +kernel
    · rw [Database.linesOf, hlines, Database.eventsOf, hevents]
      decide +kernel
  · exact bills_marked_iff postgresColumns sampleDecode ⟨["m"]⟩ samplePlan 30000 1
      (fun _ => .new "c" 1) (fun _ => 1) (fun _ => 2) invoicesKnown_sample
      (Calls.reachable_of_play (fun _ _ _ _ _ => trivial) hc) hf hresult

/-- Two events are marked, and one of them is charged. -/
theorem marked_uncharged :
    ∃ c, Relation.ReflTransGen (CallStep (billingEngine postgresColumns) sampleMeanwhile
        (triggersPass postgresColumns) fun _ _ _ => True) (.start samplePeriod) c ∧
      c.finished.map Finished.result =
        [.inr ⟨1, 1, 0, 0, 0⟩, .inl (.issued (sampleInvoice 1 false))] ∧
      c.pool.data.db.events = [sampleRow "first" 1000 (some 1), sampleRow "late" 2000 (some 1)] ∧
      c.pool.data.db.lineItems = [⟨1, "m", 1000000000, 5⟩] ∧ ¬ BillsMarked c.pool.data.db 1 := by
  have hplay : (playMeanwhile batchBetween).map billedIn =
      some ([.inr ⟨1, 1, 0, 0, 0⟩, .inl (.issued (sampleInvoice 1 false))],
        [sampleRow "first" 1000 (some 1), sampleRow "late" 2000 (some 1)],
        [⟨1, "m", 1000000000, 5⟩]) := by
    decide +kernel
  obtain ⟨c, hc, heq⟩ := Option.map_eq_some_iff.1 hplay
  obtain ⟨hfinished, heq⟩ := Prod.mk.inj heq
  obtain ⟨hevents, hlines⟩ := Prod.mk.inj heq
  refine ⟨c, Calls.reachable_of_play (fun _ _ _ _ _ => trivial) hc, hfinished, hevents, hlines, ?_⟩
  intro hbills
  have hline : (⟨1, "m", 1000000000, 5⟩ : LineItemRow) ∈ c.pool.data.db.linesOf 1 := by
    rw [Database.linesOf, hlines]
    decide
  have hquantity := hbills.quantity _ hline
  rw [Database.eventsOf, hevents] at hquantity
  exact absurd hquantity (by decide +kernel)

end Sample

end LedgerLine.Billing
