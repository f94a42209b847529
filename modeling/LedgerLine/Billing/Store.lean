import LedgerLine.Billing.Statements
import LedgerLine.Billing.Guards

/-!
# The ledger store

Follows `billing/ledger/store.go`: `ensureAccount`, `PostTx` and `Post`.  A caller of
`PostTx` is any code that posts transactions and performs other statements in between, and
rolls back on an error (`Caller`); it reports what every `PostTx` returned.

Main fact: `money_conserved`, over every run of any number of callers, however their
statements are interleaved and whichever of them are rolled back.
-/

namespace LedgerLine.Billing

/-- Code that runs inside a transaction. -/
abbrev BillingBody (α : Type) := Body BillingStmt BillingStmt.Answer StmtErr α

/-- The errors of the store. -/
inductive StoreErr
  | ledger (e : LedgerErr)
  | ensureAccount (name : String) (e : StmtErr)
  | insertTransaction (e : StmtErr)
  /-- The existing transaction could not be read, or is not there. -/
  | lookUp (e : Option StmtErr)
  | insertPosting (i : Nat) (e : StmtErr)
deriving DecidableEq, Repr

/-- The statement `ensureAccountSQL`. -/
def ensureAccountStmt (name : String) (kind : AccountKind) :
    BillingBody (Except StmtErr (AccountID × AccountKind)) :=
  Program.perform (BillingStmt.ensureAccount name kind)

/-- The statement `insertTransaction`. -/
def insertTransaction (t : Transaction) : BillingBody (Except StmtErr (Option Nat)) :=
  Program.perform (BillingStmt.insertTransaction t.idempotencyKey t.occurredAt t.description)

/-- The statement `selectTransactionByKey`. -/
def selectTransactionByKey (key : String) : BillingBody (Except StmtErr (Option Nat)) :=
  Program.perform (BillingStmt.selectTransactionByKey key)

/-- The statement `insertPosting`. -/
def insertPosting (id : Nat) (p : Posting) : BillingBody (Except StmtErr Unit) :=
  Program.perform (BillingStmt.insertPosting id p.account p.amount)

/-- `ensureAccount`. -/
def ensureAccount (name : String) (kind : AccountKind) :
    BillingBody (Except StoreErr AccountID) :=
  if name = "" then
    pure (.error (.ledger .nameRequired))
  else do
    match ← ensureAccountStmt name kind with
    | .error e => pure (.error (.ensureAccount name e))
    | .ok (id, existing) =>
        if existing ≠ kind then
          pure (.error (.ledger (.otherKind name existing kind)))
        else
          pure (.ok id)

/-- The loop of `PostTx`, from posting `i` on. -/
def insertPostings (id : Nat) : Nat → List Posting → BillingBody (Except StoreErr Unit)
  | _, [] => pure (.ok ())
  | i, p :: ps => do
      match ← insertPosting id p with
      | .error e => pure (.error (.insertPosting i e))
      | .ok () => insertPostings id (i + 1) ps

/-- `PostTx`, once the balance has been checked. -/
def postBalanced (t : Transaction) : BillingBody (Except StoreErr (Nat × Bool)) := do
  match ← insertTransaction t with
  | .error e => pure (.error (.insertTransaction e))
  | .ok none => do
      match ← selectTransactionByKey t.idempotencyKey with
      | .error e => pure (.error (.lookUp (some e)))
      | .ok none => pure (.error (.lookUp none))
      | .ok (some id) => pure (.ok (id, true))
  | .ok (some id) => do
      match ← insertPostings id 0 t.postings with
      | .error e => pure (.error e)
      | .ok () => pure (.ok (id, false))

/-- `PostTx`: the id, and whether the transaction was already posted. -/
def postTx (t : Transaction) : BillingBody (Except StoreErr (Nat × Bool)) :=
  match t.balance with
  | .error e => pure (.error (.ledger e))
  | .ok total =>
      if total ≠ 0 then pure (.error (.ledger (.unbalanced total))) else postBalanced t

/-- What `PostTx` returned for a transaction. -/
structure Report where
  transaction : Transaction
  id : Nat
  alreadyPosted : Bool
deriving DecidableEq, Repr

/-- `Post`. -/
def post (t : Transaction) : BillingBody (Outcome StoreErr (List Report)) := do
  match ← postTx t with
  | .error e => pure (.rollback e)
  | .ok (id, alreadyPosted) => pure (.commit [⟨t, id, alreadyPosted⟩])

section PassesOn

theorem passesOn_ensureAccount (name : String) (kind : AccountKind) :
    PassesOn (ensureAccount name kind) := by
  rw [ensureAccount]
  split
  · trivial
  · apply stopsWith_bind (passesOn_perform _)
    · exact fun e => ⟨_, rfl, _, rfl⟩
    · rintro ⟨id, existing⟩
      show PassesOn (if existing ≠ kind then _ else _)
      split <;> trivial

theorem passesOn_insertPostings (id i : Nat) (ps : List Posting) :
    PassesOn (insertPostings id i ps) := by
  induction ps generalizing i with
  | nil => trivial
  | cons p ps ih =>
      apply stopsWith_bind (passesOn_perform _)
      · exact fun e => ⟨_, rfl, _, rfl⟩
      · exact fun _ => ih (i + 1)

theorem passesOn_postBalanced (t : Transaction) : PassesOn (postBalanced t) := by
  apply stopsWith_bind (passesOn_perform _)
  · exact fun e => ⟨_, rfl, _, rfl⟩
  · intro found
    cases found with
    | none =>
        apply stopsWith_bind (passesOn_perform _)
        · exact fun e => ⟨_, rfl, _, rfl⟩
        · intro existing
          cases existing <;> trivial
    | some id =>
        apply stopsWith_bind (passesOn_insertPostings id 0 t.postings)
        · exact fun e => ⟨_, rfl, _, rfl⟩
        · exact fun _ => trivial

theorem passesOn_postTx (t : Transaction) : PassesOn (postTx t) := by
  rw [postTx]
  split
  · trivial
  · split
    · trivial
    · exact passesOn_postBalanced t

end PassesOn

/-- The ledger transactions among some changes. -/
def ownTransactions (ws : List Write) : List TransactionRow :=
  ws.filterMap fun
    | .transaction row => some row
    | _ => none

/-- The postings among some changes. -/
def ownPostings (ws : List Write) : List PostingRow :=
  ws.filterMap fun
    | .posting row => some row
    | _ => none

@[simp] theorem ownTransactions_append (ws ws' : List Write) :
    ownTransactions (ws ++ ws') = ownTransactions ws ++ ownTransactions ws' := by
  simp [ownTransactions]

@[simp] theorem ownPostings_append (ws ws' : List Write) :
    ownPostings (ws ++ ws') = ownPostings ws ++ ownPostings ws' := by
  simp [ownPostings]

theorem mem_ownTransactions {ws : List Write} {row : TransactionRow} :
    row ∈ ownTransactions ws ↔ .transaction row ∈ ws := by
  rw [ownTransactions, List.mem_filterMap]
  constructor
  · rintro ⟨a, ha, hrow⟩
    cases a <;> simp_all
  · intro h
    exact ⟨_, h, rfl⟩

section View

variable (cols : Columns) (w : World) (ws : List Write)

/-- Ledger transactions are only ever added. -/
theorem view_transactions :
    ((billingEngine cols).view w ws).db.transactions =
      w.db.transactions ++ ownTransactions ws :=
  view_table cols (fun db c => by cases c <;> simp [Database.apply]) w ws

/-- So are postings. -/
theorem view_postings :
    ((billingEngine cols).view w ws).db.postings = w.db.postings ++ ownPostings ws :=
  view_table cols (fun db c => by cases c <;> simp [Database.apply]) w ws

end View

/-- The statements that write to the ledger. -/
def BillingStmt.isLedger : BillingStmt → Bool
  | .insertTransaction _ _ _ => true
  | .insertPosting _ _ _ => true
  | _ => false

/-- Nothing else writes to the ledger. -/
theorem ledger_of_exec (cols : Columns) (w : World) {o : BillingStmt} (h : o.isLedger = false) :
    ownTransactions (o.exec cols w).2 = [] ∧ ownPostings (o.exec cols w).2 = [] := by
  have heffect := effect_of_exec cols o w
  generalize (o.exec cols w).2 = ws at heffect ⊢
  cases heffect with
  | consumer o =>
      refine ⟨List.filterMap_eq_nil_iff.2 fun c hc => ?_,
        List.filterMap_eq_nil_iff.2 fun c hc => ?_⟩ <;>
      · have hconsumer := isConsumer_of_exec hc
        cases c <;> first | rfl | cases hconsumer
  | transaction | posting => cases h
  | bill | closePeriod =>
      simp [ownTransactions, ownPostings]
  | _ => exact ⟨rfl, rfl⟩

/-- A new ledger transaction has a key that was not in sight, and the next identity. -/
theorem transaction_of_exec {cols : Columns} {o : BillingStmt} {w : World}
    {row : TransactionRow} (h : row ∈ ownTransactions (o.exec cols w).2) :
    (∀ r ∈ w.db.transactions, r.idempotencyKey ≠ row.idempotencyKey) ∧
      row.id = w.db.sequences.transactions ∧
      (w.draw o).db.sequences.transactions = w.db.sequences.transactions + 1 ∧
      ownTransactions (o.exec cols w).2 = [row] := by
  cases hledger : o.isLedger with
  | false =>
      rw [(ledger_of_exec cols w hledger).1] at h
      cases h
  | true =>
      cases o with
      | insertTransaction key occurredAt description =>
          simp only [BillingStmt.exec] at h ⊢
          rcases execInsertTransaction_cases cols key occurredAt description w.db with
            hexec | ⟨-, hexec⟩ | ⟨hnew, at', hexec⟩ <;> rw [hexec] at h ⊢
          · cases h
          · cases h
          · cases List.mem_singleton.1 h
            exact ⟨hnew, rfl, rfl, rfl⟩
      | insertPosting transaction account amount =>
          simp only [BillingStmt.exec] at h
          rcases execInsertPosting_cases ⟨transaction, account, amount⟩ w.db with
            hexec | hexec <;> rw [hexec] at h <;> cases h
      | _ => cases hledger

section Paths

variable {cols : Columns}

/-- A posting of a ledger transaction as a row. -/
def Posting.row (id : Nat) (p : Posting) : PostingRow :=
  ⟨id, p.account, p.amount⟩

variable {id : Nat} {seen : Trace}

theorem path_insertPostings {i : Nat} {ps : List Posting}
    (h : (billingEngine cols).PathTo (insertPostings id i ps) seen (.ok ())) :
    (billingEngine cols).writesOf seen = ps.map fun p => .posting (p.row id) := by
  induction ps generalizing i seen with
  | nil =>
      obtain ⟨rfl, -⟩ := Engine.path_done h
      rfl
  | cons p ps ih =>
      obtain ⟨first, rest, r, rfl, hfirst, hrest⟩ := Engine.path_bind h
      obtain ⟨w, rfl, rfl⟩ := Engine.path_perform hfirst
      rcases execInsertPosting_cases (p.row id) w.db with hexec | hexec
      · change (billingEngine cols).PathTo
          (match (execInsertPosting (p.row id) w.db).1 with | .error e => _ | .ok () => _) _ _
          at hrest
        rw [hexec] at hrest
        cases (Engine.path_done hrest).2
      · change (billingEngine cols).PathTo
          (match (execInsertPosting (p.row id) w.db).1 with | .error e => _ | .ok () => _) _ _
          at hrest
        rw [hexec] at hrest
        rw [Engine.writesOf_append, ih hrest, Engine.writesOf_cons]
        change (execInsertPosting (p.row id) w.db).2 ++ [] ++ _ = _
        rw [hexec]
        rfl

/-- `PostTx` inserts the transaction with its postings, or finds it. -/
def PostedAs (cols : Columns) (t : Transaction) (id : Nat) (alreadyPosted : Bool)
    (seen : Trace) : Prop :=
  (alreadyPosted = false ∧ ∃ row : TransactionRow, row.id = id ∧
    row.idempotencyKey = t.idempotencyKey ∧
    (billingEngine cols).writesOf seen =
      .transaction row :: t.postings.map fun p => .posting (p.row id)) ∨
  (alreadyPosted = true ∧ (billingEngine cols).writesOf seen = [] ∧ ∃ w w',
    seen = [(.insertTransaction t.idempotencyKey t.occurredAt t.description, w),
      (.selectTransactionByKey t.idempotencyKey, w')] ∧
    ∃ row ∈ w'.db.transactions, row.idempotencyKey = t.idempotencyKey ∧ row.id = id)

theorem path_postBalanced {t : Transaction} {alreadyPosted : Bool}
    (h : (billingEngine cols).PathTo (postBalanced t) seen (.ok (id, alreadyPosted))) :
    PostedAs cols t id alreadyPosted seen := by
  obtain ⟨first, rest, r, rfl, hfirst, hrest⟩ := Engine.path_bind h
  obtain ⟨w, rfl, rfl⟩ := Engine.path_perform hfirst
  change (billingEngine cols).PathTo
    (match (execInsertTransaction cols t.idempotencyKey t.occurredAt t.description w.db).1 with
      | .error e => _ | .ok none => _ | .ok (some id) => _) _ _ at hrest
  have hwrites : (billingEngine cols).writesOf
      ([(.insertTransaction t.idempotencyKey t.occurredAt t.description, w)] ++ rest) =
      (execInsertTransaction cols t.idempotencyKey t.occurredAt t.description w.db).2 ++
        (billingEngine cols).writesOf rest := by
    rfl
  rcases execInsertTransaction_cases cols t.idempotencyKey t.occurredAt t.description w.db with
    hexec | ⟨-, hexec⟩ | ⟨-, at', hexec⟩ <;> rw [hexec] at hrest hwrites
  · cases (Engine.path_done hrest).2
  · obtain ⟨second, rest', r, rfl, hsecond, hrest'⟩ := Engine.path_bind hrest
    obtain ⟨w', rfl, rfl⟩ := Engine.path_perform hsecond
    change (billingEngine cols).PathTo
      (match (execSelectTransaction t.idempotencyKey w'.db).1 with
        | .error e => _ | .ok none => _ | .ok (some id) => _) _ _ at hrest'
    rw [execSelectTransaction] at hrest'
    cases hfind : w'.db.transactions.find? (fun r => r.idempotencyKey = t.idempotencyKey) with
    | none =>
        rw [hfind] at hrest'
        cases (Engine.path_done hrest').2
    | some row =>
        rw [hfind] at hrest'
        obtain ⟨rfl, hresult⟩ := Engine.path_done hrest'
        cases hresult
        refine .inr ⟨rfl, hwrites, w, w', rfl, row, List.mem_of_find?_eq_some hfind, ?_, rfl⟩
        simpa using List.find?_some hfind
  · obtain ⟨second, rest', u, rfl, hsecond, hrest'⟩ := Engine.path_bind_ok hrest
      fun e => ⟨_, rfl, nofun⟩
    obtain ⟨rfl, hresult⟩ := Engine.path_done hrest'
    cases hresult
    rw [List.append_nil, path_insertPostings hsecond] at hwrites
    rw [List.append_nil]
    exact .inl ⟨rfl, _, rfl, rfl, hwrites⟩

theorem path_postTx {t : Transaction} {alreadyPosted : Bool}
    (h : (billingEngine cols).PathTo (postTx t) seen (.ok (id, alreadyPosted))) :
    PostedAs cols t id alreadyPosted seen := by
  rw [postTx] at h
  split at h
  · cases (Engine.path_done h).2
  · split at h
    · cases (Engine.path_done h).2
    · exact path_postBalanced h

end Paths

section Callers

/-- Code that posts transactions of `T` with `PostTx` and performs any other statements,
but does not write to the ledger itself and rolls back when something fails; `reports` is
what `PostTx` has returned so far. -/
inductive Caller (T : Transaction → Prop) :
    List Report → BillingBody (Outcome StoreErr (List Report)) → Prop
  | commit (reports : List Report) : Caller T reports (.done (.commit reports))
  | rollback (reports : List Report) (e : StoreErr) : Caller T reports (.done (.rollback e))
  | other {reports : List Report} {o : BillingStmt}
      {next : Except StmtErr o.Answer → BillingBody (Outcome StoreErr (List Report))}
      (hledger : o.isLedger = false) (hfail : ∀ e, ∃ e', next (.error e) = .done (.rollback e'))
      (hnext : ∀ a, Caller T reports (next (.ok a))) : Caller T reports (.call o next)
  | postTx {reports : List Report} {t : Transaction}
      {next : Except StoreErr (Nat × Bool) → BillingBody (Outcome StoreErr (List Report))}
      (ht : T t) (hfail : ∀ e, ∃ e', next (.error e) = .done (.rollback e'))
      (hnext : ∀ id alreadyPosted,
        Caller T (reports ++ [⟨t, id, alreadyPosted⟩]) (next (.ok (id, alreadyPosted)))) :
      Caller T reports (postTx t >>= next)

variable {T : Transaction → Prop}

/-- `Post` is such a caller. -/
theorem caller_post {t : Transaction} (ht : T t) : Caller T [] (post t) :=
  .postTx ht (fun e => ⟨e, rfl⟩) fun _ _ => .commit _

variable {seen : Trace} {body : BillingBody (Outcome StoreErr (List Report))}
  {reports : List Report} {cols : Columns}

theorem Caller.givesUp (h : Caller T reports body) : GivesUp body := by
  induction h with
  | commit reports | rollback reports e => trivial
  | other hledger hfail hnext ih =>
      refine ⟨?_, ih⟩
      intro e
      obtain ⟨e', he'⟩ := hfail e
      exact ⟨_, he', e', rfl⟩
  | @postTx reports t next ht hfail hnext ih =>
      apply stopsWith_bind (passesOn_postTx t)
      · intro e
        obtain ⟨e', he'⟩ := hfail e
        exact ⟨_, he', e', rfl⟩
      · rintro ⟨id, alreadyPosted⟩
        exact ih id alreadyPosted

/-- The postings of some transactions, each under its row. -/
def postingRows (posts : List (TransactionRow × Transaction)) : List PostingRow :=
  posts.flatMap fun e => e.2.postings.map (Posting.row e.1.id)

/-- Where a report comes from: a transaction that the caller inserted, or one that it
found. -/
def Origin (cols : Columns) (seen : Trace) (r : Report) : Prop :=
  (r.alreadyPosted = false ∧ ∃ row ∈ ownTransactions ((billingEngine cols).writesOf seen),
    row.id = r.id ∧ row.idempotencyKey = r.transaction.idempotencyKey) ∨
  (r.alreadyPosted = true ∧ ∃ before w after,
    seen = before ++ (.selectTransactionByKey r.transaction.idempotencyKey, w) :: after ∧
    ∃ row ∈ w.db.transactions,
      row.idempotencyKey = r.transaction.idempotencyKey ∧ row.id = r.id)

theorem Origin.extend {r : Report} (h : Origin cols seen r)
    (first last : Trace) : Origin cols (first ++ seen ++ last) r := by
  rcases h with ⟨hnew, row, hrow, hid⟩ | ⟨hold, before, w, after, rfl, hrow⟩
  · refine .inl ⟨hnew, row, ?_, hid⟩
    simp only [Engine.writesOf_append, ownTransactions_append, List.mem_append]
    exact .inl (.inr hrow)
  · exact .inr ⟨hold, first ++ before, w, after ++ last, by simp, hrow⟩

/-- What a caller has written to the ledger and reported by the time it commits. -/
structure Tally (cols : Columns) (T : Transaction → Prop) (seen : Trace)
    (posts : List (TransactionRow × Transaction)) (reports : List Report) : Prop where
  transactions : ownTransactions ((billingEngine cols).writesOf seen) = posts.map Prod.fst
  postings : ownPostings ((billingEngine cols).writesOf seen) = postingRows posts
  posted : ∀ e ∈ posts, T e.2 ∧ e.2.idempotencyKey = e.1.idempotencyKey
  reports : ∀ r ∈ reports, Origin cols seen r

theorem tally_append {first rest : Trace}
    {posts posts' : List (TransactionRow × Transaction)} {reports' : List Report}
    (h : Tally cols T first posts reports) (h' : Tally cols T rest posts' reports') :
    Tally cols T (first ++ rest) (posts ++ posts') (reports ++ reports') where
  transactions := by
    rw [Engine.writesOf_append, ownTransactions_append, h.transactions, h'.transactions,
      List.map_append]
  postings := by
    rw [Engine.writesOf_append, ownPostings_append, h.postings, h'.postings, postingRows,
      postingRows, postingRows, List.flatMap_append]
  posted := by
    exact List.forall_mem_append.2 ⟨h.posted, h'.posted⟩
  reports := by
    intro r hr
    rcases List.mem_append.1 hr with hr | hr
    · simpa using (h.reports r hr).extend [] rest
    · simpa using (h'.reports r hr).extend first []

/-- One `PostTx`. -/
theorem tally_postTx {t : Transaction} (ht : T t) {id : Nat} {alreadyPosted : Bool}
    (h : PostedAs cols t id alreadyPosted seen) :
    ∃ posts, Tally cols T seen posts [⟨t, id, alreadyPosted⟩] := by
  rcases h with ⟨rfl, row, hid, hkey, hwrites⟩ | ⟨rfl, hwrites, w, w', rfl, hrow⟩
  · have hown : ownTransactions ((billingEngine cols).writesOf seen) = [row] := by
      rw [hwrites]
      simp [ownTransactions]
    refine ⟨[(row, t)], hown, ?_, ?_, ?_⟩
    · rw [hwrites, ← hid]
      simp [ownPostings, postingRows]
    · simpa using ⟨ht, hkey.symm⟩
    · simpa using .inl ⟨rfl, row, by rw [hown]; exact List.mem_singleton.2 rfl, hid, hkey⟩
  · refine ⟨[], ?_, ?_, ?_, ?_⟩
    · rw [hwrites]
      rfl
    · rw [hwrites]
      rfl
    · exact fun e he => absurd he List.not_mem_nil
    · simp only [List.mem_singleton, forall_eq]
      exact .inr ⟨rfl, [(_, w)], w', [], rfl, hrow⟩

/-- What a caller that commits has done. -/
theorem Caller.tally {reports' : List Report} (h : Caller T reports body)
    (hpath : (billingEngine cols).PathTo body seen (.commit reports')) :
    ∃ posts new, reports' = reports ++ new ∧ Tally cols T seen posts new := by
  induction h generalizing seen with
  | commit reports =>
      obtain ⟨rfl, hresult⟩ := Engine.path_done hpath
      cases hresult
      refine ⟨[], [], by simp, rfl, rfl, ?_, ?_⟩
      · exact fun e he => absurd he List.not_mem_nil
      · exact fun r hr => absurd hr List.not_mem_nil
  | rollback reports e =>
      cases (Engine.path_done hpath).2
  | @other reports o next hledger hfail hnext ih =>
      obtain ⟨w, rest, rfl, hrest⟩ := Engine.path_call hpath
      cases hanswer : ((billingEngine cols).exec o w).1 with
      | error e =>
          obtain ⟨e', he'⟩ := hfail e
          rw [hanswer, he'] at hrest
          cases (Engine.path_done hrest).2
      | ok a =>
          rw [hanswer] at hrest
          obtain ⟨posts, new, hreports, htally⟩ := ih a hrest
          obtain ⟨htransactions, hpostings⟩ := ledger_of_exec cols w hledger
          have hfirst : Tally cols T [(o, w)] [] [] := by
            refine ⟨?_, ?_, ?_, ?_⟩
            · simpa using htransactions
            · simpa [postingRows] using hpostings
            · exact fun e he => absurd he List.not_mem_nil
            · exact fun r hr => absurd hr List.not_mem_nil
          exact ⟨posts, new, hreports, tally_append hfirst htally⟩
  | @postTx reports t next ht hfail hnext ih =>
      obtain ⟨first, rest, r, rfl, hfirst, hrest⟩ := Engine.path_bind hpath
      cases r with
      | error e =>
          obtain ⟨e', he'⟩ := hfail e
          rw [he'] at hrest
          cases (Engine.path_done hrest).2
      | ok a =>
          obtain ⟨id, alreadyPosted⟩ := a
          obtain ⟨posts, new, hreports, htally⟩ := ih id alreadyPosted hrest
          obtain ⟨posts', htally'⟩ := tally_postTx ht (path_postTx hfirst)
          exact ⟨posts' ++ posts, [⟨t, id, alreadyPosted⟩] ++ new,
            by rw [hreports, List.append_assoc], tally_append htally' htally⟩

end Callers

section Conservation

/-- The postings recorded under a ledger transaction. -/
def entriesOf (postings : List PostingRow) (id : Nat) : List Posting :=
  (postings.filter fun p => p.transactionId = id).map fun p => ⟨p.accountId, p.amount⟩

/-- `selectTrialBalance`. -/
def trialBalance (db : Database) : Int :=
  (db.postings.map fun p => p.amount.toInt).sum

/-- The deferred trigger: every ledger transaction that has got a posting balances. -/
def triggersPass (cols : Columns) (w : World) (ws : List Write) : Prop :=
  ∀ row ∈ ownPostings ws,
    totalOf ((billingEngine cols).view w ws).db.postings row.transactionId = 0

instance (cols : Columns) (w : World) (ws : List Write) : Decidable (triggersPass cols w ws) :=
  inferInstanceAs (Decidable (∀ row ∈ ownPostings ws, _ = _))

/-- What `PostTx` has promised about a transaction, for a call that has committed: the row
it reported is there, and a row that was there when the call began is the one it reported
and has got no posting. -/
def ReportHolds (w : World) (f : Finished BillingStmt World Write (List Report))
    (r : Report) : Prop :=
  (∃ row ∈ w.db.transactions,
    row.idempotencyKey = r.transaction.idempotencyKey ∧ row.id = r.id) ∧
  ∀ row ∈ f.start.db.transactions, row.idempotencyKey = r.transaction.idempotencyKey →
    r.alreadyPosted = true ∧ r.id = row.id ∧
      ∀ p ∈ ownPostings f.txn.writes, p.transactionId ≠ row.id

/-- The ledger, with the calls that have committed. -/
structure LedgerGood (T : Transaction → Prop) (w : World)
    (fs : List (Finished BillingStmt World Write (List Report))) : Prop where
  keys : (w.db.transactions.map TransactionRow.idempotencyKey).Nodup
  issued : ∀ row ∈ w.db.transactions, row.id < w.db.sequences.transactions
  entries : ∀ row ∈ w.db.transactions, ∃ t, T t ∧ t.idempotencyKey = row.idempotencyKey ∧
    entriesOf w.db.postings row.id = t.postings
  owned : ∀ p ∈ w.db.postings, ∃ row ∈ w.db.transactions, row.id = p.transactionId
  trial : trialBalance w.db = 0
  reports : ∀ f ∈ fs, ∀ r ∈ f.result, ReportHolds w f r

/-- Others add ledger transactions with other keys and identities. -/
def LedgerMove (own : List TransactionRow) (w w' : World) : Prop :=
  (∃ rows, w'.db.transactions = w.db.transactions ++ rows ∧
    ∀ row ∈ rows, ∀ r ∈ own, row.idempotencyKey ≠ r.idempotencyKey ∧ row.id ≠ r.id) ∧
  w.db.sequences.transactions ≤ w'.db.sequences.transactions

theorem LedgerMove.refl (own : List TransactionRow) (w : World) : LedgerMove own w w :=
  ⟨⟨[], by simp, nofun⟩, Nat.le_refl _⟩

variable {seen : Trace} {own : List TransactionRow} {w w' start : World}
  {posts : List (TransactionRow × Transaction)}

theorem LedgerMove.trans {w₁ w₂ w₃ : World} (h : LedgerMove own w₁ w₂) (h' : LedgerMove own w₂ w₃) :
    LedgerMove own w₁ w₃ := by
  obtain ⟨⟨rows, hrows, hnew⟩, hseq⟩ := h
  obtain ⟨⟨rows', hrows', hnew'⟩, hseq'⟩ := h'
  refine ⟨⟨rows ++ rows', ?_, ?_⟩, Nat.le_trans hseq hseq'⟩
  · rw [hrows', hrows, List.append_assoc]
  · exact List.forall_mem_append.2 ⟨hnew, hnew'⟩

theorem LedgerMove.mono {own' : List TransactionRow} (h : LedgerMove (own ++ own') w w') :
    LedgerMove own w w' := by
  obtain ⟨⟨rows, hrows, hnew⟩, hseq⟩ := h
  exact ⟨⟨rows, hrows, fun row hrow r hr => hnew row hrow r (List.mem_append_left _ hr)⟩, hseq⟩

theorem draw_transactions (w : World) (o : BillingStmt) :
    w.db.sequences.transactions ≤ (w.draw o).db.sequences.transactions := by
  cases o <;> simp [World.draw, Sequences.draw]

theorem LedgerMove.draw (own : List TransactionRow) (w : World) (o : BillingStmt) :
    LedgerMove own w (w.draw o) :=
  ⟨⟨[], by simp [World.draw], nofun⟩, draw_transactions w o⟩

/-- A ledger transaction that is in the data stays there. -/
theorem LedgerMove.subset (h : LedgerMove own w w') : w.db.transactions ⊆ w'.db.transactions := by
  obtain ⟨⟨rows, hrows, -⟩, -⟩ := h
  rw [hrows]
  exact List.subset_append_left _ _

variable {cols : Columns} {T : Transaction → Prop}

/-- What callers rely on. -/
def ledgerRely (cols : Columns) (seen : Trace) (w w' : World) : Prop :=
  LedgerMove (ownTransactions ((billingEngine cols).writesOf seen)) w w'

theorem ledgerRely_trans (seen : Trace) (w₁ w₂ w₃ : World) (h : ledgerRely cols seen w₁ w₂)
    (h' : ledgerRely cols seen w₂ w₃) : ledgerRely cols seen w₁ w₃ :=
  LedgerMove.trans h h'

theorem ledgerRely_mono (seen seen' : Trace) (w w' : World)
    (h : ledgerRely cols (seen ++ seen') w w') : ledgerRely cols seen w w' := by
  rw [ledgerRely, Engine.writesOf_append, ownTransactions_append] at h
  exact h.mono

theorem ledgerRely_draw (seen : Trace) (o : BillingStmt) (w : World) :
    ledgerRely cols seen w ((billingEngine cols).draw o w) :=
  .draw _ w o

/-- The chain of states behind what a caller has seen. -/
abbrev LedgerChain (cols : Columns) (T : Transaction → Prop) :=
  (billingEngine cols).Chain (fun w => ∃ fs, LedgerGood T w fs) (ledgerRely cols)

/-- The ledger transactions a caller has inserted differ from all others, committed or its
own. -/
structure OwnNew (own : List TransactionRow) (w : World) : Prop where
  keys : ∀ r ∈ own, ∀ row ∈ w.db.transactions, row.idempotencyKey ≠ r.idempotencyKey
  ids : ∀ r ∈ own, ∀ row ∈ w.db.transactions, row.id ≠ r.id
  issued : ∀ r ∈ own, r.id < w.db.sequences.transactions
  nodup : (own.map TransactionRow.idempotencyKey).Nodup

/-- They stay different. -/
theorem OwnNew.move (h : OwnNew own w) (hmove : LedgerMove own w w') : OwnNew own w' := by
  obtain ⟨⟨rows, hrows, hnew⟩, hseq⟩ := hmove
  refine ⟨?_, ?_, fun r hr => Nat.lt_of_lt_of_le (h.issued r hr) hseq, h.nodup⟩
  · intro r hr row hrow
    rw [hrows] at hrow
    rcases List.mem_append.1 hrow with hrow | hrow
    · exact h.keys r hr row hrow
    · exact (hnew row hrow r hr).1
  · intro r hr row hrow
    rw [hrows] at hrow
    rcases List.mem_append.1 hrow with hrow | hrow
    · exact h.ids r hr row hrow
    · exact (hnew row hrow r hr).2

/-- One more statement. -/
theorem OwnNew.answered (cols : Columns) {ws : List Write} {w : World} {fs}
    (hgood : LedgerGood T w fs) (h : OwnNew (ownTransactions ws) w) (o : BillingStmt) :
    OwnNew (ownTransactions (ws ++ (o.exec cols ((billingEngine cols).view w ws)).2))
      (w.draw o) := by
  have hold : OwnNew (ownTransactions ws) (w.draw o) := h.move (.draw _ w o)
  rw [ownTransactions_append]
  cases hnew : ownTransactions (o.exec cols ((billingEngine cols).view w ws)).2 with
  | nil =>
      rw [List.append_nil]
      exact hold
  | cons row rows =>
      have hrow : row ∈ ownTransactions (o.exec cols ((billingEngine cols).view w ws)).2 := by
        rw [hnew]
        exact List.mem_cons_self
      obtain ⟨hkeys, hid, hdraw, hrows⟩ := transaction_of_exec hrow
      obtain rfl : rows = [] := by
        rw [hnew] at hrows
        exact (List.cons.inj hrows).2
      rw [view_transactions] at hkeys
      rw [World.sequences_view] at hid
      have hnext : (w.draw o).db.sequences.transactions = w.db.sequences.transactions + 1 := by
        have hview := World.sequences_view cols w ws
        simp only [World.draw, hview] at hdraw ⊢
        exact hdraw
      have hcommitted : ∀ r ∈ w.db.transactions, r.id ≠ row.id := by
        intro r hr heq
        have := hgood.issued r hr
        omega
      refine ⟨?_, ?_, ?_, ?_⟩
      · intro r hr
        rcases List.mem_append.1 hr with hr | hr
        · exact hold.keys r hr
        · cases List.mem_singleton.1 hr
          exact fun r' hr' => hkeys r' (List.mem_append_left _ hr')
      · exact List.forall_mem_append.2 ⟨hold.ids, List.forall_mem_singleton.2 hcommitted⟩
      · intro r hr
        rcases List.mem_append.1 hr with hr | hr
        · exact hold.issued r hr
        · cases List.mem_singleton.1 hr
          omega
      · rw [List.map_append, List.nodup_append]
        refine ⟨hold.nodup, List.nodup_singleton _, ?_⟩
        intro key hkey key' hkey'
        obtain ⟨r, hr, rfl⟩ := List.mem_map.1 hkey
        cases List.mem_singleton.1 hkey'
        exact hkeys r (List.mem_append_right _ hr)

theorem ownNew_of_chain (h : LedgerChain cols T start seen w) :
    OwnNew (ownTransactions ((billingEngine cols).writesOf seen)) w := by
  induction h with
  | start hfine hmove =>
      refine ⟨?_, ?_, ?_, List.nodup_nil⟩ <;> exact nofun
  | @answered seen base w o before hfine hmove ih =>
      obtain ⟨fs, hgood⟩ := hfine
      have hnext := ih.answered cols hgood o
      simp only [ledgerRely] at hmove
      simp only [Engine.writesOf_append, Engine.writesOf_cons, Engine.writesOf_nil,
        List.append_nil] at hmove ⊢
      exact hnext.move hmove

/-- What was there when a call began is there all along. -/
theorem subset_of_chain (h : LedgerChain cols T start seen w) :
    start.db.transactions ⊆ w.db.transactions := by
  induction h with
  | start hfine hmove => exact hmove.subset
  | answered before hfine hmove ih =>
      exact List.Subset.trans ih hmove.subset

/-- The entries under one of several ledger transactions with different identities. -/
theorem entriesOf_postingRows (hnodup : (posts.map fun e => e.1.id).Nodup)
    {e : TransactionRow × Transaction} (he : e ∈ posts) :
    entriesOf (postingRows posts) e.1.id = e.2.postings := by
  induction posts with
  | nil => cases he
  | cons first rest ih =>
      rw [List.map_cons, List.nodup_cons] at hnodup
      have hsplit : entriesOf (postingRows (first :: rest)) e.1.id =
          entriesOf (first.2.postings.map (Posting.row first.1.id)) e.1.id ++
            entriesOf (postingRows rest) e.1.id := by
        simp [entriesOf, postingRows]
      rw [hsplit]
      rcases List.mem_cons.1 he with rfl | he
      · have hrest : entriesOf (postingRows rest) e.1.id = [] := by
          simp only [entriesOf, List.map_eq_nil_iff, List.filter_eq_nil_iff, postingRows]
          intro p hp
          obtain ⟨e', he', hp⟩ := List.mem_flatMap.1 hp
          obtain ⟨q, -, rfl⟩ := List.mem_map.1 hp
          have hne : e'.1.id ≠ e.1.id :=
            fun heq => hnodup.1 (heq ▸ List.mem_map_of_mem he')
          simp [Posting.row, hne]
        rw [hrest, List.append_nil]
        simp [entriesOf, Posting.row, Function.comp_def, List.filter_eq_self.2]
      · have hne : first.1.id ≠ e.1.id :=
          fun heq => hnodup.1 (heq ▸ List.mem_map_of_mem he)
        rw [ih hnodup.2 he]
        simp [entriesOf, Posting.row, hne]

/-- The two postings of a transfer cancel. -/
theorem sum_postings {ts : List Transfer} (h : ∀ t ∈ ts, t.Valid) :
    ((ts.flatMap Transfer.postings).map fun p => p.amount.toInt).sum = 0 := by
  induction ts with
  | nil => rfl
  | cons t ts ih =>
      rw [List.forall_mem_cons] at h
      have hneg := Amount.toInt_neg_of_pos h.1.positive
      rw [List.flatMap_cons, List.map_append, List.sum_append, ih h.2]
      simp only [Transfer.postings, List.map_cons, List.map_nil, List.sum_cons, List.sum_nil]
      omega

/-- A transaction built by `NewTransaction`. -/
def Built (t : Transaction) : Prop :=
  ∃ key occurredAt description transfers,
    newTransaction key occurredAt description transfers = .ok t

theorem Built.balanced {t : Transaction} (h : Built t) :
    (t.postings.map fun p => p.amount.toInt).sum = 0 := by
  obtain ⟨key, occurredAt, description, transfers, h⟩ := h
  obtain ⟨-, hpostings, hvalid⟩ := postings_of_newTransaction h
  rw [hpostings]
  exact sum_postings hvalid

theorem totalOf_eq (postings : List PostingRow) (id : Nat) :
    totalOf postings id = ((entriesOf postings id).map fun p => p.amount.toInt).sum := by
  rw [totalOf, entriesOf, List.map_map]
  rfl

theorem sum_postingRows (h : ∀ e ∈ posts, Built e.2) :
    ((postingRows posts).map fun p => p.amount.toInt).sum = 0 := by
  induction posts with
  | nil => rfl
  | cons e posts ih =>
      rw [List.forall_mem_cons] at h
      have hfirst := h.1.balanced
      have hrest := ih h.2
      rw [postingRows] at hrest ⊢
      rw [List.flatMap_cons, List.map_append, List.sum_append, hrest, List.map_map, Int.add_zero]
      exact hfirst

/-- What a caller inserts, seen from the committed ledger. -/
structure Fresh (w : World) (posts : List (TransactionRow × Transaction)) : Prop where
  ownNew : OwnNew (posts.map Prod.fst) w
  nodup : (posts.map fun e => e.1.id).Nodup

/-- Entries are not mixed: committed ledger transactions keep theirs, and the new ones have
exactly their own. -/
theorem LedgerGood.entries_append {fs} (h : LedgerGood T w fs) (hfresh : Fresh w posts) :
    (∀ row ∈ w.db.transactions, entriesOf (w.db.postings ++ postingRows posts) row.id =
      entriesOf w.db.postings row.id) ∧
    ∀ e ∈ posts, entriesOf (w.db.postings ++ postingRows posts) e.1.id = e.2.postings := by
  have hsplit : ∀ id, entriesOf (w.db.postings ++ postingRows posts) id =
      entriesOf w.db.postings id ++ entriesOf (postingRows posts) id := by
    intro id
    simp [entriesOf]
  constructor
  · intro row hrow
    have hnone : entriesOf (postingRows posts) row.id = [] := by
      simp only [entriesOf, List.map_eq_nil_iff, List.filter_eq_nil_iff, postingRows]
      intro p hp
      obtain ⟨e, he, hp⟩ := List.mem_flatMap.1 hp
      obtain ⟨q, -, rfl⟩ := List.mem_map.1 hp
      have hne := hfresh.ownNew.ids e.1 (List.mem_map_of_mem he) row hrow
      simp [Posting.row, hne.symm]
    rw [hsplit, hnone, List.append_nil]
  · intro e he
    have hnone : entriesOf w.db.postings e.1.id = [] := by
      simp only [entriesOf, List.map_eq_nil_iff, List.filter_eq_nil_iff]
      intro p hp
      obtain ⟨row, hrow, hid⟩ := h.owned p hp
      have hne := hfresh.ownNew.ids e.1 (List.mem_map_of_mem he) row hrow
      simpa [← hid] using hne
    rw [hsplit, hnone, List.nil_append, entriesOf_postingRows hfresh.nodup he]

/-- A report holds once the caller has committed. -/
theorem reportHolds_commit {reports : List Report} (hchain : LedgerChain cols T start seen w)
    (htally : Tally cols T seen posts reports) (hfresh : Fresh w posts) {t : Nat} {r : Report}
    (hr : r ∈ reports) :
    ReportHolds ((billingEngine cols).view w ((billingEngine cols).writesOf seen))
      ⟨t, start, reports, ⟨w, (billingEngine cols).writesOf seen, seen⟩⟩ r := by
  have hstart := subset_of_chain hchain
  have hown := ownNew_of_chain hchain
  -- a row that was there at the start has got no posting
  have hpostings : ∀ row ∈ w.db.transactions,
      ∀ p ∈ ownPostings ((billingEngine cols).writesOf seen), p.transactionId ≠ row.id := by
    intro row hrow p hp
    rw [htally.postings] at hp
    obtain ⟨e, he, hp⟩ := List.mem_flatMap.1 hp
    obtain ⟨q, -, rfl⟩ := List.mem_map.1 hp
    exact (hfresh.ownNew.ids e.1 (List.mem_map_of_mem he) row hrow).symm
  rcases htally.reports r hr with ⟨hnew, own, hmem, hid, hkey⟩ | ⟨hold, before, sight, after, hseen,
    found, hfound, hkey, hid⟩
  · refine ⟨⟨own, ?_, hkey, hid⟩, ?_⟩
    · rw [view_transactions]
      exact List.mem_append_right _ hmem
    · intro row hrow hrowkey
      exact absurd (hrowkey.trans hkey.symm) (hown.keys own hmem row (hstart hrow))
  · rw [hseen] at hchain
    obtain ⟨base, hbefore, ⟨fs', hbase⟩, hsight, hmove⟩ := hchain.entry ledgerRely_trans
      ledgerRely_mono fun seen o w _ => ledgerRely_draw seen o w
    have hlater : base.db.transactions ⊆ w.db.transactions := hmove.subset
    rw [hsight, view_transactions] at hfound
    refine ⟨⟨found, ?_, hkey, hid⟩, ?_⟩
    · rw [view_transactions, hseen]
      rcases List.mem_append.1 hfound with hfound | hfound
      · exact List.mem_append_left _ (hlater hfound)
      · simp only [Engine.writesOf_append, ownTransactions_append, List.mem_append]
        exact .inr (.inl hfound)
    · intro row hrow hrowkey
      refine ⟨hold, ?_, hpostings row (hstart hrow)⟩
      have hrow' : row ∈ base.db.transactions := subset_of_chain hbefore hrow
      have hsame : found = row := by
        rcases List.mem_append.1 hfound with hfound | hfound
        · exact List.inj_on_of_nodup_map hbase.keys hfound hrow' (hkey.trans hrowkey.symm)
        · exact absurd (hrowkey.trans hkey.symm)
            ((ownNew_of_chain hbefore).keys found hfound row hrow')
      rw [← hid, hsame]

/-- Adding to the ledger leaves reports true. -/
theorem ReportHolds.mono (h : w.db.transactions ⊆ w'.db.transactions) {f} {r : Report}
    (hr : ReportHolds w f r) : ReportHolds w' f r := by
  obtain ⟨⟨row, hrow, hkey⟩, hstart⟩ := hr
  exact ⟨⟨row, h hrow, hkey⟩, hstart⟩

/-- A commit keeps the ledger good. -/
theorem LedgerGood.commit (hT : ∀ t, T t → Built t) {start w : World}
    {seen : Trace} {fs} {posts : List (TransactionRow × Transaction)}
    {reports : List Report} (hgood : LedgerGood T w fs) (hchain : LedgerChain cols T start seen w)
    (htally : Tally cols T seen posts reports) (hfresh : Fresh w posts) (t : Nat) :
    LedgerGood T ((billingEngine cols).view w ((billingEngine cols).writesOf seen))
      (fs ++ [⟨t, start, reports, ⟨w, (billingEngine cols).writesOf seen, seen⟩⟩]) := by
  obtain ⟨hold, hnew⟩ := hgood.entries_append hfresh
  have htransactions :
      ((billingEngine cols).view w ((billingEngine cols).writesOf seen)).db.transactions =
      w.db.transactions ++ posts.map Prod.fst := by
    rw [view_transactions, htally.transactions]
  have hpostings : ((billingEngine cols).view w ((billingEngine cols).writesOf seen)).db.postings =
      w.db.postings ++ postingRows posts := by
    rw [view_postings, htally.postings]
  refine ⟨?_, ?_, ?_, ?_, ?_, ?_⟩
  · rw [htransactions, List.map_append, List.nodup_append]
    refine ⟨hgood.keys, hfresh.ownNew.nodup, ?_⟩
    intro key hkey key' hkey'
    obtain ⟨row, hrow, rfl⟩ := List.mem_map.1 hkey
    obtain ⟨r, hr, rfl⟩ := List.mem_map.1 hkey'
    exact hfresh.ownNew.keys r hr row hrow
  · rw [htransactions, World.sequences_view]
    exact List.forall_mem_append.2 ⟨hgood.issued, hfresh.ownNew.issued⟩
  · rw [htransactions, hpostings]
    intro row hrow
    rcases List.mem_append.1 hrow with hrow | hrow
    · rw [hold row hrow]
      exact hgood.entries row hrow
    · obtain ⟨e, he, rfl⟩ := List.mem_map.1 hrow
      exact ⟨e.2, (htally.posted e he).1, (htally.posted e he).2, hnew e he⟩
  · rw [htransactions, hpostings]
    intro p hp
    rcases List.mem_append.1 hp with hp | hp
    · obtain ⟨row, hrow, hid⟩ := hgood.owned p hp
      exact ⟨row, List.mem_append_left _ hrow, hid⟩
    · obtain ⟨e, he, hp⟩ := List.mem_flatMap.1 hp
      obtain ⟨q, -, rfl⟩ := List.mem_map.1 hp
      exact ⟨e.1, List.mem_append_right _ (List.mem_map_of_mem he), rfl⟩
  · have htrial := hgood.trial
    have hsum := sum_postingRows fun e he => hT e.2 (htally.posted e he).1
    rw [trialBalance] at htrial ⊢
    rw [hpostings, List.map_append, List.sum_append, htrial, hsum]
    rfl
  · intro f hf r hr
    rcases List.mem_append.1 hf with hf | hf
    · refine (hgood.reports f hf r hr).mono ?_
      rw [htransactions]
      exact List.subset_append_left _ _
    · cases List.mem_singleton.1 hf
      exact reportHolds_commit hchain htally hfresh hr

/-- The numbers of ledger transactions among the identities of some changes. -/
theorem idents_transactions (cols : Columns) {ws : List Write} {id : Nat} :
    .transaction id ∈ (billingNumbering cols).idents ws ↔
      ∃ row ∈ ownTransactions ws, row.id = id := by
  rw [Engine.Numbering.idents, List.mem_filterMap]
  constructor
  · rintro ⟨c, hc, hident⟩
    cases c with
    | transaction row =>
        cases hident
        exact ⟨row, mem_ownTransactions.2 hc, rfl⟩
    | _ => cases hident
  · rintro ⟨row, hrow, rfl⟩
    exact ⟨_, mem_ownTransactions.1 hrow, rfl⟩

theorem nodup_transactions {ws : List Write} (h : ((billingNumbering cols).idents ws).Nodup) :
    ((ownTransactions ws).map TransactionRow.id).Nodup := by
  induction ws with
  | nil => exact List.nodup_nil
  | cons c ws ih =>
      cases c with
      | transaction row =>
          obtain ⟨hnew, hrest⟩ := List.nodup_cons.1 h
          refine List.nodup_cons.2 ⟨?_, ih hrest⟩
          intro hmem
          obtain ⟨row', hrow', hid⟩ := List.mem_map.1 hmem
          exact hnew ((idents_transactions cols).2 ⟨row', hrow', hid⟩)
      | account row | period row | invoice row =>
          exact ih (List.nodup_cons.1 h).2
      | _ => exact ih h

/-- What keeps the ledger good, for any number of callers. -/
def ledgerContract (cols : Columns) (hT : ∀ t, T t → Built t)
    {calls : Nat → BillingBody (Outcome StoreErr (List Report))}
    (hcalls : ∀ n, Caller T [] (calls n)) :
    CallContract (billingEngine cols) calls (triggersPass cols) (fun _ _ _ => True)
      (billingNumbering cols) where
  Good := LedgerGood T
  R := fun _ => ledgerRely cols
  Apart := fun _ _ => True
  givesUp := fun n => (hcalls n).givesUp
  refl := fun _ _ w => .refl _ w
  trans := fun _ => ledgerRely_trans
  draw := fun _ seen o w _ _ => ledgerRely_draw seen o w
  good_draw := fun o w fs h => {
    keys := h.keys
    issued := fun row hrow => Nat.lt_of_lt_of_le (h.issued row hrow) (draw_transactions w o)
    entries := h.entries
    owned := h.owned
    trial := h.trial
    reports := h.reports }
  apart_symm := fun _ _ _ => trivial
  apart_nil := fun _ => trivial
  apart_step := fun _ _ _ _ _ _ _ _ _ _ _ _ _ => trivial
  commit := by
    intro n start reports w fs seen hgood hpath hchain hnodup _
    obtain ⟨posts, new, hreports, htally⟩ := (hcalls n).tally hpath
    rw [List.nil_append] at hreports
    subst hreports
    refine hgood.commit hT hchain htally ⟨?_, ?_⟩ n
    · rw [← htally.transactions]
      exact ownNew_of_chain hchain
    · have hids := nodup_transactions hnodup
      rw [htally.transactions, List.map_map] at hids
      exact hids
  others := by
    intro n m start start' reports w fs seen seen' body _ hgood hpath hchain _ hpath' hchain'
      hlocks hidents _
    refine ⟨⟨ownTransactions ((billingEngine cols).writesOf seen), view_transactions cols w _, ?_⟩,
      by rw [World.sequences_view]⟩
    intro row hrow r hr
    constructor
    · intro heq
      apply hlocks _ (mem_ownTransactions.1 hrow) _ (mem_ownTransactions.1 hr)
      · simp [Write.lock]
      · simp [Write.lock, heq]
    · intro heq
      exact hidents _ ((idents_transactions cols).2 ⟨row, hrow, rfl⟩)
        ((idents_transactions cols).2 ⟨r, hr, heq.symm⟩)

/-- Money is conserved: each idempotency key has one ledger transaction, with exactly the
postings of one of the transactions posted under that key, which sum to zero; a call that
begins when the key is there finds that transaction and adds nothing to it; and the trial
balance is zero. -/
theorem money_conserved (cols : Columns) (hT : ∀ t, T t → Built t)
    {calls : Nat → BillingBody (Outcome StoreErr (List Report))}
    (hcalls : ∀ n, Caller T [] (calls n)) {w : World} (htransactions : w.db.transactions = [])
    (hpostings : w.db.postings = [])
    {c : Calls BillingStmt BillingStmt.Answer StmtErr World Write StoreErr (List Report)}
    (hrun : Relation.ReflTransGen
      (CallStep (billingEngine cols) calls (triggersPass cols) fun _ _ _ => True) (.start w) c) :
    (c.pool.data.db.transactions.map TransactionRow.idempotencyKey).Nodup ∧
    (∀ row ∈ c.pool.data.db.transactions, ∃ t, T t ∧ t.idempotencyKey = row.idempotencyKey ∧
      entriesOf c.pool.data.db.postings row.id = t.postings ∧
      totalOf c.pool.data.db.postings row.id = 0) ∧
    (∀ f ∈ c.finished, ∀ r ∈ f.result, ReportHolds c.pool.data f r) ∧
    trialBalance c.pool.data.db = 0 := by
  have hstart : LedgerGood T w [] := by
    constructor
    · rw [htransactions]
      exact List.nodup_nil
    · rw [htransactions]
      exact nofun
    · rw [htransactions]
      exact nofun
    · rw [hpostings]
      exact nofun
    · rw [trialBalance, hpostings]
      rfl
    · exact nofun
  have hinv := callInv_of_run (K := ledgerContract cols hT hcalls) (.start hstart) hrun
  obtain ⟨hkeys, hissued, hentries, howned, htrial, hreports⟩ := hinv.good
  refine ⟨hkeys, ?_, hreports, htrial⟩
  intro row hrow
  obtain ⟨t, ht, hkey, hent⟩ := hentries row hrow
  refine ⟨t, ht, hkey, hent, ?_⟩
  rw [totalOf_eq, hent]
  exact (hT t ht).balanced

/-- Two accounts and an empty ledger. -/
def sampleLedger : World :=
  ⟨[], { Database.empty with
    accounts := [⟨1, "receivable:a", .asset⟩, ⟨2, "revenue:m", .revenue⟩]
    sequences := ⟨3, 1, 1, 1⟩ }, fun _ => 0⟩

/-- A transaction over five units. -/
def sampleTransaction : Transaction :=
  ⟨"k", 1000, "five units", [⟨1, 5⟩, ⟨2, -5⟩]⟩

/-- Posting it, with nothing else going on. -/
def samplePost (w : World) : Outcome StoreErr (List Report) × Txn BillingStmt World Write :=
  (billingEngine postgresColumns).runBody (post sampleTransaction) ⟨w, [], []⟩

/-- It has been posted. -/
def postedOnce : Calls BillingStmt BillingStmt.Answer StmtErr World Write StoreErr (List Report) :=
  (Calls.start sampleLedger).committed (billingEngine postgresColumns) 0
    [⟨sampleTransaction, 1, false⟩] (samplePost sampleLedger).2

/-- And posted again. -/
def postedTwice : Calls BillingStmt BillingStmt.Answer StmtErr World Write StoreErr (List Report) :=
  postedOnce.committed (billingEngine postgresColumns) 1
    [⟨sampleTransaction, 1, true⟩] (samplePost postedOnce.pool.data).2

theorem postedTwice_reachable :
    Relation.ReflTransGen (CallStep (billingEngine postgresColumns)
      (fun _ => post sampleTransaction) (triggersPass postgresColumns) fun _ _ _ => True)
      (.start sampleLedger) postedTwice := by
  refine Relation.ReflTransGen.trans (b := postedOnce) ?_ ?_
  · apply CallStep.alone (fun _ _ _ => trivial) (fun _ => rfl)
    · show (samplePost sampleLedger).1 = _
      decide +kernel
    · show triggersPass _ (samplePost sampleLedger).2.data (samplePost sampleLedger).2.writes
      decide +kernel
  · apply CallStep.alone (fun _ _ _ => trivial) (fun _ => rfl)
    · show (samplePost postedOnce.pool.data).1 = _
      decide +kernel
    · show triggersPass _ (samplePost postedOnce.pool.data).2.data
        (samplePost postedOnce.pool.data).2.writes
      decide +kernel

/-- Posted twice, it is there once. -/
theorem money_conserved_sample :
    postedTwice.finished.map Finished.result =
        [[⟨sampleTransaction, 1, false⟩], [⟨sampleTransaction, 1, true⟩]] ∧
      entriesOf postedTwice.pool.data.db.postings 1 = sampleTransaction.postings ∧
      trialBalance postedTwice.pool.data.db = 0 := by
  have hbuilt : ∀ t, t = sampleTransaction → Built t := by
    rintro t rfl
    exact ⟨"k", 1000, "five units", [⟨1, 2, 5⟩], by decide +kernel⟩
  have hall := money_conserved postgresColumns hbuilt (fun _ => caller_post rfl) rfl rfl
    postedTwice_reachable
  exact ⟨rfl, by decide +kernel, hall.2.2.2⟩

end Conservation

end LedgerLine.Billing
