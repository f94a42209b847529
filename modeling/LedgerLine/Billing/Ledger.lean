import Mathlib.Data.List.Basic
import Mathlib.Algebra.Ring.Int.Defs

/-!
# Amounts and transactions of the ledger

Follows `billing/ledger/amount.go` and `billing/ledger/ledger.go`.  An amount is an int64
count of micro-units; sums are computed with wrap-around and then checked.  A transaction
is built from transfers, each of which becomes a debit and a credit of the same size.

Main facts:
* `toInt_of_add`: a sum that passes the check is exact;
* `newTransaction_eq_ok_iff`: what `NewTransaction` accepts, and the postings it builds;
* `newTransaction_balances`: the transaction balances, and no sum on the way overflows.
-/

namespace LedgerLine.Billing

/-- Instants, in nanoseconds since the zero value of `time.Time`. -/
abbrev Time := Int

/-- `ledger.Amount`: a count of micro-units, positive for a debit. -/
abbrev Amount := Int64

/-- `ledger.AccountID`; zero is an account that was not set. -/
abbrev AccountID := Int

/-- `ledger.AccountKind`. -/
inductive AccountKind
  | asset
  | liability
  | revenue
  | expense
  | equity
deriving DecidableEq, Repr

/-- The errors of the ledger package. -/
inductive LedgerErr
  /-- `ErrOverflow`: the sum does not fit. -/
  | overflow (a b : Amount)
  /-- `ErrOverflow`: the most negative amount has no counterpart. -/
  | negOverflow (a : Amount)
  /-- `ErrUnbalanced`: the postings do not sum to zero. -/
  | unbalanced (total : Amount)
  /-- `ErrInvalidTransfer`: no idempotency key. -/
  | keyRequired
  /-- `ErrInvalidTransfer`: `occurred_at` is the zero time. -/
  | occurredAtRequired
  /-- `ErrInvalidTransfer`: transfer `i` has an amount that is not positive. -/
  | notPositive (i : Nat) (amount : Amount)
  /-- `ErrInvalidTransfer`: transfer `i` debits and credits one account. -/
  | sameAccount (i : Nat) (account : AccountID)
  /-- `ErrInvalidTransfer`: transfer `i` has an unset account. -/
  | unsetAccount (i : Nat)
  /-- `ErrNoTransfers`. -/
  | noTransfers
  /-- An account needs a name. -/
  | nameRequired
  /-- The account exists with another kind. -/
  | otherKind (name : String) (existing wanted : AccountKind)
deriving DecidableEq, Repr

/-- A computation that succeeds has succeeded in both of its parts. -/
theorem ok_of_bind {ε α β : Type} {x : Except ε α} {f : α → Except ε β} {b : β}
    (h : (x >>= f) = .ok b) : ∃ a, x = .ok a ∧ f a = .ok b := by
  cases x with
  | error e => cases h
  | ok a => exact ⟨a, rfl, h⟩

theorem bind_eq_ok_iff {ε α β : Type} {x : Except ε α} {f : α → Except ε β} {b : β} :
    (x >>= f) = .ok b ↔ ∃ a, x = .ok a ∧ f a = .ok b := by
  constructor
  · exact ok_of_bind
  · rintro ⟨a, rfl, h⟩
    exact h

/-- The integers an int64 can hold. -/
def FitsInt64 (n : Int) : Prop :=
  Int64.minValue.toInt ≤ n ∧ n ≤ Int64.maxValue.toInt

instance (n : Int) : Decidable (FitsInt64 n) :=
  inferInstanceAs (Decidable (_ ∧ _))

theorem fitsInt64_iff {n : Int} : FitsInt64 n ↔ ∃ a : Int64, a.toInt = n := by
  constructor
  · rintro ⟨hlow, hhigh⟩
    refine ⟨Int64.ofInt n, Int64.toInt_ofInt_of_le ?_ ?_⟩
    · exact hlow
    · exact Int.lt_of_le_of_lt hhigh (by decide)
  · rintro ⟨a, rfl⟩
    exact ⟨a.minValue_le_toInt, a.toInt_le⟩

namespace Amount

/-- `Amount.Add`: the sum, unless adding moved it in the wrong direction. -/
def add (a b : Amount) : Except LedgerErr Amount :=
  let sum := a + b
  if (b > 0 ∧ sum < a) ∨ (b < 0 ∧ sum > a) then
    .error (.overflow a b)
  else
    .ok sum

/-- `Amount.Neg`. -/
def neg (a : Amount) : Except LedgerErr Amount :=
  if a = Int64.minValue then .error (.negOverflow a) else .ok (-a)

variable {a : Amount}

/-- The test catches every sum that wrapped around. -/
theorem toInt_of_add {b c : Amount} (h : add a b = .ok c) : c.toInt = a.toInt + b.toInt := by
  simp only [add] at h
  split at h
  · cases h
  · rename_i hdir
    cases h
    have hsum := Int64.toInt_add a b
    have := Int64.toInt_lt a
    have := Int64.le_toInt a
    have := Int64.toInt_lt b
    have := Int64.le_toInt b
    simp only [gt_iff_lt, Int64.lt_iff_toInt_lt, Int64.toInt_zero] at hdir
    simp only [Int.bmod_def] at hsum
    omega

/-- And no other. -/
theorem add_eq_ok_iff {b c : Amount} : add a b = .ok c ↔ c.toInt = a.toInt + b.toInt := by
  constructor
  · exact toInt_of_add
  · intro h
    have hsum : (a + b).toInt = a.toInt + b.toInt := by
      rw [Int64.toInt_add, ← h, Int64.toInt_bmod]
    have hc : a + b = c := Int64.toInt_inj.1 (hsum.trans h.symm)
    rw [add]
    simp only [gt_iff_lt, Int64.lt_iff_toInt_lt, Int64.toInt_zero, hsum]
    rw [if_neg (by omega), hc]

/-- Negating a positive amount is exact. -/
theorem toInt_neg_of_pos (h : 0 < a.toInt) : (-a).toInt = - a.toInt := by
  have hneg := Int64.toInt_neg a
  have := Int64.toInt_lt a
  simp only [Int.bmod_def] at hneg
  omega

end Amount

/-- `ledger.Transfer`: one amount from one account to another. -/
structure Transfer where
  debit : AccountID
  credit : AccountID
  amount : Amount
deriving DecidableEq, Repr

/-- `ledger.Posting`: one side of a transfer. -/
structure Posting where
  account : AccountID
  amount : Amount
deriving DecidableEq, Repr

/-- `ledger.Transaction`. -/
structure Transaction where
  idempotencyKey : String
  occurredAt : Time
  description : String
  postings : List Posting
deriving DecidableEq, Repr

/-- The loop of `Transaction.Balance`. -/
def balanceFrom (total : Amount) : List Posting → Except LedgerErr Amount
  | [] => .ok total
  | p :: ps => do
      let next ← Amount.add total p.amount
      balanceFrom next ps

/-- `Transaction.Balance`. -/
def Transaction.balance (t : Transaction) : Except LedgerErr Amount :=
  balanceFrom 0 t.postings

/-- The loop of `NewTransaction`: the postings of the transfers, from transfer `i` on. -/
def postingsFrom : Nat → List Transfer → Except LedgerErr (List Posting)
  | _, [] => .ok []
  | i, t :: ts =>
      if t.amount ≤ 0 then
        .error (.notPositive i t.amount)
      else if t.debit = t.credit then
        .error (.sameAccount i t.debit)
      else if t.debit = 0 ∨ t.credit = 0 then
        .error (.unsetAccount i)
      else do
        let credit ← Amount.neg t.amount
        let rest ← postingsFrom (i + 1) ts
        .ok (⟨t.debit, t.amount⟩ :: ⟨t.credit, credit⟩ :: rest)

/-- `NewTransaction`. -/
def newTransaction (idempotencyKey : String) (occurredAt : Time) (description : String)
    (transfers : List Transfer) : Except LedgerErr Transaction :=
  if idempotencyKey = "" then
    .error .keyRequired
  else if transfers = [] then
    .error .noTransfers
  else if occurredAt = 0 then
    .error .occurredAtRequired
  else do
    let postings ← postingsFrom 0 transfers
    let tx : Transaction := ⟨idempotencyKey, occurredAt, description, postings⟩
    let total ← tx.balance
    if total ≠ 0 then
      .error (.unbalanced total)
    else
      .ok tx

/-- The two postings of a transfer. -/
def Transfer.postings (t : Transfer) : List Posting :=
  [⟨t.debit, t.amount⟩, ⟨t.credit, -t.amount⟩]

/-- What `NewTransaction` checks of a transfer. -/
structure Transfer.Valid (t : Transfer) : Prop where
  positive : 0 < t.amount.toInt
  distinct : t.debit ≠ t.credit

/-- And what else the loop asks for: both accounts are set. -/
structure Transfer.Accepted (t : Transfer) : Prop extends Transfer.Valid t where
  debit_set : t.debit ≠ 0
  credit_set : t.credit ≠ 0

variable {ts : List Transfer} {i : Nat}

/-- The loop takes the transfers that it accepts, and each becomes a debit and a credit. -/
theorem postingsFrom_eq_ok_iff {ps : List Posting} :
    postingsFrom i ts = .ok ps ↔ (∀ t ∈ ts, t.Accepted) ∧ ps = ts.flatMap Transfer.postings := by
  induction ts generalizing i ps with
  | nil =>
      constructor
      · intro h
        cases h
        exact ⟨List.forall_mem_nil _, rfl⟩
      · rintro ⟨-, rfl⟩
        rfl
  | cons t ts ih =>
      rw [postingsFrom, List.forall_mem_cons, List.flatMap_cons]
      split
      · rename_i hpos
        rw [Int64.le_iff_toInt_le, Int64.toInt_zero] at hpos
        refine iff_of_false (by intro h; cases h) fun h => ?_
        have := h.1.1.positive
        omega
      rename_i hpos
      rw [Int64.le_iff_toInt_le, Int64.toInt_zero, Int.not_le] at hpos
      split
      · rename_i hsame
        exact iff_of_false (by intro h; cases h) fun h => h.1.1.distinct hsame
      rename_i hne
      split
      · rename_i hunset
        refine iff_of_false (by intro h; cases h) fun h => ?_
        rcases hunset with hunset | hunset
        · exact h.1.1.debit_set hunset
        · exact h.1.1.credit_set hunset
      rename_i hset
      rw [not_or] at hset
      have hneg : Amount.neg t.amount = .ok (-t.amount) := by
        rw [Amount.neg, if_neg]
        intro hmin
        rw [hmin] at hpos
        exact absurd hpos (by decide)
      rw [hneg]
      change (postingsFrom (i + 1) ts >>= _) = _ ↔ _
      constructor
      · intro h
        obtain ⟨rest, hrest, h⟩ := ok_of_bind h
        cases h
        obtain ⟨hts, rfl⟩ := ih.1 hrest
        exact ⟨⟨⟨⟨hpos, hne⟩, hset.1, hset.2⟩, hts⟩, rfl⟩
      · rintro ⟨⟨-, hts⟩, rfl⟩
        exact bind_eq_ok_iff.2 ⟨_, ih.2 ⟨hts, rfl⟩, rfl⟩

/-- Transfers that pass the loop are valid, and become a debit and a credit each. -/
theorem postingsFrom_eq {ps : List Posting} (h : postingsFrom i ts = .ok ps) :
    ps = ts.flatMap Transfer.postings ∧ ∀ t ∈ ts, t.Valid := by
  obtain ⟨haccepted, hps⟩ := postingsFrom_eq_ok_iff.1 h
  exact ⟨hps, fun t ht => (haccepted t ht).toValid⟩

/-- The errors of the loop are about the transfer it has come to. -/
theorem error_of_postingsFrom {e : LedgerErr} (h : postingsFrom i ts = .error e) :
    (∃ j a, e = .notPositive j a) ∨ (∃ j a, e = .sameAccount j a) ∨ ∃ j, e = .unsetAccount j := by
  induction ts generalizing i with
  | nil => cases h
  | cons t ts ih =>
      rw [postingsFrom] at h
      split at h
      · cases h
        exact .inl ⟨_, _, rfl⟩
      rename_i hpos
      split at h
      · cases h
        exact .inr (.inl ⟨_, _, rfl⟩)
      split at h
      · cases h
        exact .inr (.inr ⟨_, rfl⟩)
      cases hneg : Amount.neg t.amount with
      | error e' =>
          -- only the most negative amount has no counterpart
          rw [Amount.neg] at hneg
          split at hneg
          · rename_i hmin
            rw [hmin] at hpos
            exact absurd (by decide) hpos
          · cases hneg
      | ok credit =>
          rw [hneg] at h
          cases hrest : postingsFrom (i + 1) ts with
          | error e' =>
              rw [hrest] at h
              cases h
              exact ih hrest
          | ok rest =>
              rw [hrest] at h
              cases h

/-- The running sum over the postings of transfers is zero after each transfer, and the amount
of one transfer in between. -/
theorem balanceFrom_postings (h : ∀ t ∈ ts, t.Valid) :
    balanceFrom 0 (ts.flatMap Transfer.postings) = .ok 0 := by
  induction ts with
  | nil => rfl
  | cons t ts ih =>
      rw [List.forall_mem_cons] at h
      have hdebit : Amount.add 0 t.amount = .ok t.amount := by
        rw [Amount.add_eq_ok_iff, Int64.toInt_zero, Int.zero_add]
      have hcredit : Amount.add t.amount (-t.amount) = .ok 0 := by
        rw [Amount.add_eq_ok_iff, Amount.toInt_neg_of_pos h.1.positive, Int64.toInt_zero]
        omega
      rw [List.flatMap_cons, Transfer.postings, List.cons_append, List.cons_append,
        List.nil_append, balanceFrom, hdebit]
      change balanceFrom t.amount (_ :: _) = _
      rw [balanceFrom, hcredit]
      exact ih h.2

/-- The check of the balance never fails: `NewTransaction` is its own checks and the loop. -/
theorem newTransaction_eq (key : String) (occurredAt : Time) (description : String)
    (ts : List Transfer) :
    newTransaction key occurredAt description ts =
      if key = "" then .error .keyRequired
      else if ts = [] then .error .noTransfers
      else if occurredAt = 0 then .error .occurredAtRequired
      else (postingsFrom 0 ts).map fun ps => ⟨key, occurredAt, description, ps⟩ := by
  rw [newTransaction]
  split
  · rfl
  split
  · rfl
  split
  · rfl
  cases hps : postingsFrom 0 ts with
  | error e => rfl
  | ok ps =>
      obtain ⟨rfl, hvalid⟩ := postingsFrom_eq hps
      have hbalance : Transaction.balance
          ⟨key, occurredAt, description, ts.flatMap Transfer.postings⟩ = .ok 0 :=
        balanceFrom_postings hvalid
      change (Transaction.balance _ >>= _) = _
      rw [hbalance]
      rfl

/-- What `NewTransaction` accepts, and what it makes of it. -/
theorem newTransaction_eq_ok_iff {key description : String} {occurredAt : Time} {tx : Transaction} :
    newTransaction key occurredAt description ts = .ok tx ↔
      (key ≠ "" ∧ occurredAt ≠ 0 ∧ ts ≠ [] ∧ ∀ t ∈ ts, t.Accepted) ∧
        tx = ⟨key, occurredAt, description, ts.flatMap Transfer.postings⟩ := by
  rw [newTransaction_eq]
  split
  · rename_i hkey
    exact iff_of_false (by intro h; cases h) fun h => h.1.1 hkey
  rename_i hkey
  split
  · rename_i hnil
    exact iff_of_false (by intro h; cases h) fun h => h.1.2.2.1 hnil
  rename_i hnil
  split
  · rename_i hzero
    exact iff_of_false (by intro h; cases h) fun h => h.1.2.1 hzero
  rename_i hzero
  constructor
  · intro h
    cases hps : postingsFrom 0 ts with
    | error e =>
        rw [hps] at h
        cases h
    | ok ps =>
        rw [hps] at h
        cases h
        obtain ⟨haccepted, rfl⟩ := postingsFrom_eq_ok_iff.1 hps
        exact ⟨⟨hkey, hzero, hnil, haccepted⟩, rfl⟩
  · rintro ⟨⟨-, -, -, haccepted⟩, rfl⟩
    rw [postingsFrom_eq_ok_iff.2 ⟨haccepted, rfl⟩]
    rfl

/-- A transaction that `NewTransaction` returns: its key, and the postings of valid
transfers. -/
theorem postings_of_newTransaction {key description : String} {occurredAt : Time} {tx : Transaction}
    (h : newTransaction key occurredAt description ts = .ok tx) :
    tx.idempotencyKey = key ∧ tx.postings = ts.flatMap Transfer.postings ∧
      ∀ t ∈ ts, t.Valid := by
  obtain ⟨⟨-, -, -, haccepted⟩, rfl⟩ := newTransaction_eq_ok_iff.1 h
  exact ⟨rfl, rfl, fun t ht => (haccepted t ht).toValid⟩

/-- The exact sum of the postings to an account. -/
def postedTo (account : AccountID) (ps : List Posting) : Int :=
  ((ps.filter fun p => p.account = account).map fun p => p.amount.toInt).sum

/-- What the transfers debit to an account. -/
def debited (account : AccountID) (ts : List Transfer) : Int :=
  ((ts.filter fun t => t.debit = account).map fun t => t.amount.toInt).sum

/-- What the transfers credit to an account. -/
def credited (account : AccountID) (ts : List Transfer) : Int :=
  ((ts.filter fun t => t.credit = account).map fun t => t.amount.toInt).sum

/-- The postings to an account are what it is debited less what it is credited. -/
theorem postedTo_postings (h : ∀ t ∈ ts, t.Valid) (account : AccountID) :
    postedTo account (ts.flatMap Transfer.postings) =
      debited account ts - credited account ts := by
  induction ts with
  | nil => rfl
  | cons t ts ih =>
      rw [List.forall_mem_cons] at h
      have hneg := Amount.toInt_neg_of_pos h.1.positive
      have hih := ih h.2
      rw [postedTo, debited, credited] at hih ⊢
      rw [List.flatMap_cons, List.filter_append, List.map_append, List.sum_append, hih]
      by_cases hdebit : t.debit = account
      · have hcredit : t.credit ≠ account := fun heq => h.1.distinct (hdebit.trans heq.symm)
        simp [Transfer.postings, hdebit, hcredit]
        omega
      · by_cases hcredit : t.credit = account
        · simp [Transfer.postings, hdebit, hcredit, hneg]
          omega
        · simp [Transfer.postings, hdebit, hcredit]

/-- A transaction can be built exactly from usable transfers, whatever their number and size;
it balances, and each account gets its debits less its credits. -/
theorem newTransaction_balances (key : String) (occurredAt : Time) (description : String)
    (ts : List Transfer) :
    ((∃ tx, newTransaction key occurredAt description ts = .ok tx) ↔
      key ≠ "" ∧ occurredAt ≠ 0 ∧ ts ≠ [] ∧ ∀ t ∈ ts,
        0 < t.amount.toInt ∧ t.debit ≠ t.credit ∧ t.debit ≠ 0 ∧ t.credit ≠ 0) ∧
    (∀ a b, newTransaction key occurredAt description ts ≠ .error (.overflow a b)) ∧
    (∀ a, newTransaction key occurredAt description ts ≠ .error (.negOverflow a)) ∧
    (∀ total, newTransaction key occurredAt description ts ≠ .error (.unbalanced total)) ∧
    ∀ tx, newTransaction key occurredAt description ts = .ok tx →
      tx.balance = .ok 0 ∧ tx.postings.length = 2 * ts.length ∧
        ∀ account, postedTo account tx.postings = debited account ts - credited account ts := by
  have hnever : ∀ e, newTransaction key occurredAt description ts = .error e →
      (∀ a b, e ≠ .overflow a b) ∧ (∀ a, e ≠ .negOverflow a) ∧ ∀ total, e ≠ .unbalanced total := by
    intro e h
    rw [newTransaction_eq] at h
    split at h
    · cases h
      simp
    split at h
    · cases h
      simp
    split at h
    · cases h
      simp
    cases hps : postingsFrom 0 ts with
    | ok ps =>
        rw [hps] at h
        cases h
    | error e' =>
        rw [hps] at h
        cases h
        rcases error_of_postingsFrom hps with ⟨j, a, rfl⟩ | ⟨j, a, rfl⟩ | ⟨j, rfl⟩
        · simp
        · simp
        · simp
  refine ⟨?_, fun a b h => (hnever _ h).1 a b rfl, fun a h => (hnever _ h).2.1 a rfl,
    fun total h => (hnever _ h).2.2 total rfl, ?_⟩
  · constructor
    · rintro ⟨tx, h⟩
      obtain ⟨⟨hkey, hat, hnil, haccepted⟩, -⟩ := newTransaction_eq_ok_iff.1 h
      refine ⟨hkey, hat, hnil, fun t ht => ?_⟩
      have haccept := haccepted t ht
      exact ⟨haccept.positive, haccept.distinct, haccept.debit_set, haccept.credit_set⟩
    · rintro ⟨hkey, hat, hnil, hts⟩
      refine ⟨_, newTransaction_eq_ok_iff.2 ⟨⟨hkey, hat, hnil, fun t ht => ?_⟩, rfl⟩⟩
      obtain ⟨hpos, hne, hdebit, hcredit⟩ := hts t ht
      exact ⟨⟨hpos, hne⟩, hdebit, hcredit⟩
  · intro tx h
    obtain ⟨-, hpostings, hvalid⟩ := postings_of_newTransaction h
    rw [Transaction.balance, hpostings]
    refine ⟨balanceFrom_postings hvalid, ?_, postedTo_postings hvalid⟩
    rw [List.length_flatMap]
    simp [Transfer.postings, Nat.mul_comm]

end LedgerLine.Billing
