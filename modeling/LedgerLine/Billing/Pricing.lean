import LedgerLine.Billing.Quantity
import Mathlib.Data.List.AList
import Mathlib.Data.List.Sort
import Mathlib.Data.String.Basic
import Mathlib.Algebra.BigOperators.Group.List.Basic

/-!
# Pricing

Follows `billing/pricing/pricing.go`: `Rate` sums the usage of each meter and prices the
sum under the plan.  The Go map of totals is an association list without repeated keys;
its order is lost again when the meters are sorted.

Main facts:
* `rate_spec`: the line items of a successful `Rate` are one for each meter that has usage,
  with exactly the sum of that meter's usage;
* `rate_same_totals`: nothing else of the usage matters, neither its order nor its pieces.
-/

namespace LedgerLine.Billing

/-- `pricing.Model`; a name the package does not know stays representable. -/
inductive Model
  | flat
  | graduated
  | volume
  | other (name : String)
deriving DecidableEq, Repr

/-- `pricing.Tier`; a tier without `upTo` is unbounded. -/
structure Tier where
  upTo : Option Quantity
  unitPrice : Amount
  flatFee : Amount
deriving DecidableEq, Repr

/-- `pricing.Price`. -/
structure Price where
  meter : String
  model : Model
  unitPrice : Amount
  tiers : List Tier
deriving DecidableEq, Repr

/-- `pricing.Plan`. -/
structure Plan where
  name : String
  prices : List Price
deriving DecidableEq, Repr

/-- `pricing.Registry`: the names of the registered meters. -/
structure Registry where
  meters : List String
deriving DecidableEq, Repr

/-- `Registry.Known`. -/
def Registry.known (r : Registry) (name : String) : Bool :=
  r.meters.contains name

/-- `pricing.Usage`. -/
structure Usage where
  meter : String
  quantity : Quantity
deriving DecidableEq, Repr

/-- `pricing.LineItem`. -/
structure LineItem where
  meter : String
  quantity : Quantity
  amount : Amount
deriving DecidableEq, Repr

/-- Why a price cannot be applied. -/
inductive PriceErr
  /-- `ErrInvalidPrice`: unknown model. -/
  | unknownModel (name : String)
  /-- `ErrInvalidPrice`: no tiers. -/
  | noTiers
  /-- `ErrInvalidPrice`: an unbounded tier that is not the last. -/
  | unboundedNotLast (i : Nat)
  /-- `ErrInvalidPrice`: the last tier is bounded. -/
  | lastBounded (upTo : Quantity)
  /-- `ErrInvalidPrice`: a bound does not exceed the previous one. -/
  | notIncreasing (i : Nat) (upTo previous : Quantity)
  /-- `ErrInvalidPrice`: the quantity exceeds every tier. -/
  | exceeded (quantity : Quantity)
  /-- `ledger.ErrOverflow`: the product does not fit in an amount. -/
  | product (quantity : Quantity) (unitPrice : Amount)
  /-- A sum of amounts overflowed. -/
  | amount (e : LedgerErr)
deriving DecidableEq, Repr

/-- Why usage cannot be rated. -/
inductive RateErr
  /-- `ErrUnknownMeter`. -/
  | unknownMeter (meter : String)
  /-- A meter has negative usage. -/
  | negativeUsage (meter : String)
  /-- The total of a meter overflowed. -/
  | total (meter : String) (e : QuantityErr)
  /-- `ErrNoPrice`. -/
  | noPrice (meter plan : String)
  | price (meter : String) (e : PriceErr)
deriving DecidableEq, Repr

/-- `multiply`: the exact product, rounded half away from zero to the ledger's scale. -/
def multiply (quantity : Quantity) (unitPrice : Amount) : Except PriceErr Amount :=
  if quantity = 0 ∨ unitPrice = 0 then
    .ok 0
  else
    let product := quantity.toInt * unitPrice.toInt
    let quotient := product.tdiv quantityFactor.toInt
    let remainder := product.tmod quantityFactor.toInt
    let doubled := 2 * remainder.natAbs
    let rounded :=
      if quantityFactor.toInt ≤ doubled then
        (if product < 0 then quotient - 1 else quotient + 1)
      else
        quotient
    if Int64.minValue.toInt ≤ rounded ∧ rounded ≤ Int64.maxValue.toInt then
      .ok (Int64.ofInt rounded)
    else
      .error (.product quantity unitPrice)

/-- The loop of `validateTiers`, from tier `i` on. -/
def validateFrom (i : Nat) (previous : Quantity) : List Tier → Except PriceErr Unit
  | [] => .ok ()
  | tier :: rest =>
      match tier.upTo with
      | none =>
          if rest ≠ [] then .error (.unboundedNotLast i) else validateFrom (i + 1) previous rest
      | some upTo =>
          if rest = [] then
            .error (.lastBounded upTo)
          else if upTo ≤ previous then
            .error (.notIncreasing i upTo previous)
          else
            validateFrom (i + 1) upTo rest

/-- `validateTiers`. -/
def validateTiers (tiers : List Tier) : Except PriceErr Unit :=
  if tiers = [] then .error .noTiers else validateFrom 0 0 tiers

/-- `Amount.Add` where the error is passed on by the pricing package. -/
def addAmount (a b : Amount) : Except PriceErr Amount :=
  (Amount.add a b).mapError .amount

/-- The loop of `applyGraduated`. -/
def graduatedFrom (quantity : Quantity) (total : Amount) (consumed : Quantity) :
    List Tier → Except PriceErr Amount
  | [] => .ok total
  | tier :: rest =>
      if quantity ≤ consumed then
        .ok total
      else
        let portion :=
          match tier.upTo with
          | none => quantity - consumed
          | some upTo => (if quantity < upTo then quantity else upTo) - consumed
        if portion ≤ 0 then
          graduatedFrom quantity total consumed rest
        else do
          let amount ← multiply portion tier.unitPrice
          let next ← addAmount total amount
          let next ← addAmount next tier.flatFee
          graduatedFrom quantity next (consumed + portion) rest

/-- `applyGraduated`. -/
def applyGraduated (tiers : List Tier) (quantity : Quantity) : Except PriceErr Amount := do
  validateTiers tiers
  graduatedFrom quantity 0 0 tiers

/-- The loop of `applyVolume`. -/
def volumeFrom (quantity : Quantity) : List Tier → Except PriceErr Amount
  | [] => .error (.exceeded quantity)
  | tier :: rest =>
      if tier.upTo.all (fun upTo => quantity ≤ upTo) then do
        let amount ← multiply quantity tier.unitPrice
        addAmount amount tier.flatFee
      else
        volumeFrom quantity rest

/-- `applyVolume`. -/
def applyVolume (tiers : List Tier) (quantity : Quantity) : Except PriceErr Amount := do
  validateTiers tiers
  if quantity = 0 then .ok 0 else volumeFrom quantity tiers

/-- `applyPrice`. -/
def applyPrice (price : Price) (quantity : Quantity) : Except PriceErr Amount :=
  match price.model with
  | .flat => multiply quantity price.unitPrice
  | .graduated => applyGraduated price.tiers quantity
  | .volume => applyVolume price.tiers quantity
  | .other name => .error (.unknownModel name)

/-- `priceFor`. -/
def priceFor (plan : Plan) (meter : String) : Option Price :=
  plan.prices.find? (fun p => p.meter = meter)

/-- The Go map from meters to totals. -/
abbrev Totals := AList (fun _ : String => Quantity)

/-- Reading the map; a missing key reads as zero. -/
def Totals.get (totals : Totals) (meter : String) : Quantity :=
  (totals.lookup meter).getD 0

/-- The first loop of `Rate`. -/
def totalsFrom (registry : Registry) (totals : Totals) : List Usage → Except RateErr Totals
  | [] => .ok totals
  | u :: us =>
      if ¬ registry.known u.meter then
        .error (.unknownMeter u.meter)
      else if u.quantity < 0 then
        .error (.negativeUsage u.meter)
      else do
        let sum ← (Quantity.add (Totals.get totals u.meter) u.quantity).mapError
          (.total u.meter)
        totalsFrom registry (totals.insert u.meter sum) us

/-- The second loop of `Rate`. -/
def itemsFrom (plan : Plan) (totals : Totals) : List String → Except RateErr (List LineItem)
  | [] => .ok []
  | meter :: meters =>
      match priceFor plan meter with
      | none => .error (.noPrice meter plan.name)
      | some price => do
          let amount ← (applyPrice price (Totals.get totals meter)).mapError (.price meter)
          let rest ← itemsFrom plan totals meters
          .ok (⟨meter, Totals.get totals meter, amount⟩ :: rest)

/-- `Rate`. -/
def rate (usages : List Usage) (plan : Plan) (registry : Registry) :
    Except RateErr (List LineItem) := do
  let totals ← totalsFrom registry ∅ usages
  itemsFrom plan totals (totals.keys.insertionSort (· ≤ ·))

/-- The usage of one meter, summed exactly. -/
def meterUsage (usages : List Usage) (meter : String) : Int :=
  ((usages.filter (fun u => u.meter = meter)).map (fun u => u.quantity.toInt)).sum

@[simp] theorem meterUsage_nil (meter : String) : meterUsage [] meter = 0 :=
  rfl

theorem meterUsage_cons (u : Usage) (us : List Usage) (meter : String) :
    meterUsage (u :: us) meter =
      (if u.meter = meter then u.quantity.toInt else 0) + meterUsage us meter := by
  by_cases h : u.meter = meter <;> simp [meterUsage, h]

/-- What `Rate` promises about its line items. -/
structure Rated (usages : List Usage) (items : List LineItem) : Prop where
  /-- One line for a meter. -/
  nodup : (items.map LineItem.meter).Nodup
  /-- The meters are those with usage. -/
  meters : ∀ m, m ∈ items.map LineItem.meter ↔ m ∈ usages.map Usage.meter
  /-- A line has its meter's usage. -/
  quantity : ∀ i ∈ items, i.quantity.toInt = meterUsage usages i.meter
  /-- Which is not negative. -/
  nonneg : ∀ i ∈ items, 0 ≤ i.quantity.toInt

theorem mapError_eq_ok_iff {ε ε' α : Type} {x : Except ε α} {f : ε → ε'} {a : α} :
    x.mapError f = .ok a ↔ x = .ok a := by
  cases x <;> simp [Except.mapError]

/-- Quantities are added as amounts are. -/
theorem Quantity.add_eq_ok_iff {q other sum : Quantity} :
    Quantity.add q other = .ok sum ↔ sum.toInt = q.toInt + other.toInt := by
  rw [← Amount.add_eq_ok_iff]
  simp only [Quantity.add, Amount.add]
  split <;> simp

theorem get_insert (totals : Totals) (meter other : String) (q : Quantity) :
    Totals.get (totals.insert meter q) other =
      if meter = other then q else Totals.get totals other := by
  by_cases h : meter = other
  · subst h
    rw [if_pos rfl, Totals.get, AList.lookup_insert]
    rfl
  · rw [if_neg h, Totals.get, AList.lookup_insert_ne (Ne.symm h)]
    rfl

variable {totals' totals : Totals} {us : List Usage} {registry : Registry} {items : List LineItem}
  {plan : Plan}

/-- The first loop adds every usage to its meter's total. -/
theorem totalsFrom_spec (h : totalsFrom registry totals us = .ok totals') :
    (∀ m, (totals'.get m).toInt = (totals.get m).toInt + meterUsage us m) ∧
      (∀ m, m ∈ totals' ↔ m ∈ totals ∨ m ∈ us.map Usage.meter) ∧
      ((∀ m, 0 ≤ (totals.get m).toInt) → ∀ m, 0 ≤ (totals'.get m).toInt) := by
  induction us generalizing totals with
  | nil =>
      cases h
      simp [meterUsage]
  | cons u us ih =>
      rw [totalsFrom] at h
      split at h
      · cases h
      split at h
      · cases h
      rename_i hneg
      rw [Int64.lt_iff_toInt_lt, Int64.toInt_zero] at hneg
      obtain ⟨sum, hsum, h⟩ := ok_of_bind h
      have hadd := Quantity.add_eq_ok_iff.1 (mapError_eq_ok_iff.1 hsum)
      obtain ⟨hvalue, hmem, hnonneg⟩ := ih h
      refine ⟨?_, ?_, ?_⟩
      · intro m
        rw [hvalue m, get_insert, meterUsage_cons]
        by_cases hm : u.meter = m
        · subst hm
          rw [if_pos rfl, if_pos rfl]
          omega
        · rw [if_neg hm, if_neg hm]
          omega
      · intro m
        rw [hmem m, AList.mem_insert, List.map_cons, List.mem_cons]
        tauto
      · intro hall
        apply hnonneg
        intro m
        have := hall u.meter
        have := hall m
        rw [get_insert]
        split <;> omega

/-- The second loop prices the totals of its meters, one line each. -/
theorem itemsFrom_spec {meters : List String} (h : itemsFrom plan totals meters = .ok items) :
    items.map LineItem.meter = meters ∧ ∀ i ∈ items, i.quantity = totals.get i.meter := by
  induction meters generalizing items with
  | nil =>
      cases h
      simp
  | cons meter meters ih =>
      rw [itemsFrom] at h
      split at h
      · cases h
      · obtain ⟨amount, _, h⟩ := ok_of_bind h
        obtain ⟨rest, hrest, h⟩ := ok_of_bind h
        cases h
        obtain ⟨hmeters, hquantity⟩ := ih hrest
        constructor
        · rw [List.map_cons, hmeters]
        · rw [List.forall_mem_cons]
          exact ⟨rfl, hquantity⟩

theorem rate_spec {usages : List Usage} (h : rate usages plan registry = .ok items) :
    Rated usages items := by
  obtain ⟨totals, htotals, hitems⟩ := ok_of_bind h
  obtain ⟨hvalue, hmem, hnonneg⟩ := totalsFrom_spec htotals
  obtain ⟨hmeters, hquantity⟩ := itemsFrom_spec hitems
  have hperm := List.perm_insertionSort (· ≤ ·) totals.keys
  have hzero : ∀ m, (Totals.get ∅ m).toInt = 0 := fun m => by
    rw [Totals.get, AList.lookup_empty]
    rfl
  constructor
  · rw [hmeters]
    exact hperm.nodup_iff.2 totals.keys_nodup
  · intro m
    rw [hmeters, hperm.mem_iff, ← AList.mem_keys, hmem m]
    simp
  · intro i hi
    rw [hquantity i hi, hvalue, hzero]
    omega
  · intro i hi
    rw [hquantity i hi]
    exact hnonneg (fun m => (hzero m).ge) _

/-! ### Only the totals matter -/

theorem meterUsage_nonneg (h : ∀ u ∈ us, 0 ≤ u.quantity) (m : String) : 0 ≤ meterUsage us m := by
  induction us with
  | nil => exact Int.le_refl 0
  | cons u us ih =>
      rw [List.forall_mem_cons, Int64.le_iff_toInt_le, Int64.toInt_zero] at h
      have := ih h.2
      rw [meterUsage_cons]
      split <;> omega

/-- The first loop succeeds if the meters are known and their totals fit; that the sums on the
way fit follows, since no usage is negative. -/
theorem totalsFrom_ok_iff {registry : Registry} {totals : Totals} {us : List Usage}
    (htotals : ∀ m, 0 ≤ (totals.get m).toInt) (hus : ∀ u ∈ us, 0 ≤ u.quantity) :
    (∃ totals', totalsFrom registry totals us = .ok totals') ↔
      (∀ m ∈ us.map Usage.meter, registry.known m) ∧
        ∀ m, FitsInt64 ((totals.get m).toInt + meterUsage us m) := by
  constructor
  · rintro ⟨totals', h⟩
    refine ⟨?_, fun m => fitsInt64_iff.2 ⟨totals'.get m, (totalsFrom_spec h).1 m⟩⟩
    clear htotals hus
    induction us generalizing totals with
    | nil => simp
    | cons u us ih =>
        rw [totalsFrom] at h
        split at h
        · cases h
        rename_i hknown
        split at h
        · cases h
        obtain ⟨sum, -, h⟩ := ok_of_bind h
        rw [List.map_cons, List.forall_mem_cons]
        exact ⟨not_not.1 hknown, ih h⟩
  · rintro ⟨hknown, hfits⟩
    induction us generalizing totals with
    | nil => exact ⟨totals, rfl⟩
    | cons u us ih =>
        rw [List.map_cons, List.forall_mem_cons] at hknown
        rw [List.forall_mem_cons, Int64.le_iff_toInt_le, Int64.toInt_zero] at hus
        have hrest := meterUsage_nonneg hus.2 u.meter
        have htotal := hfits u.meter
        rw [meterUsage_cons, if_pos rfl] at htotal
        have hbase := htotals u.meter
        obtain ⟨sum, hsum⟩ : ∃ sum : Quantity,
            sum.toInt = (totals.get u.meter).toInt + u.quantity.toInt := by
          rw [← fitsInt64_iff]
          have hmin : Int64.minValue.toInt ≤ 0 := by decide
          exact ⟨by omega, by have := htotal.2; omega⟩
        have hget : ∀ m, (Totals.get (totals.insert u.meter sum) m).toInt =
            (totals.get m).toInt + if u.meter = m then u.quantity.toInt else 0 := by
          intro m
          rw [get_insert]
          by_cases hm : u.meter = m
          · subst hm
            rw [if_pos rfl, if_pos rfl, hsum]
          · rw [if_neg hm, if_neg hm, Int.add_zero]
        obtain ⟨totals', htotals'⟩ : ∃ totals',
            totalsFrom registry (totals.insert u.meter sum) us = .ok totals' := by
          apply ih _ hus.2 hknown.2
          · intro m
            have := hfits m
            rw [meterUsage_cons] at this
            rw [hget m, Int.add_assoc]
            exact this
          · intro m
            have := htotals m
            rw [hget m]
            split <;> omega
        refine ⟨totals', ?_⟩
        have hnonneg : ¬ u.quantity < 0 := by
          rw [Int64.lt_iff_toInt_lt, Int64.toInt_zero]
          omega
        rw [totalsFrom, if_neg (not_not.2 hknown.1), if_neg hnonneg,
          Quantity.add_eq_ok_iff.2 hsum]
        exact htotals'

theorem itemsFrom_congr (plan : Plan) {totals totals' : Totals}
    (h : ∀ m, totals.get m = totals'.get m) (meters : List String) :
    itemsFrom plan totals meters = itemsFrom plan totals' meters := by
  induction meters with
  | nil => rfl
  | cons meter meters ih =>
      rw [itemsFrom, itemsFrom, h meter, ih]

/-- Two maps with the same keys give the same sorted list. -/
theorem sortedKeys_congr (h : ∀ m, m ∈ totals ↔ m ∈ totals') :
    totals.keys.insertionSort (· ≤ ·) = totals'.keys.insertionSort (· ≤ ·) := by
  have hperm : totals.keys.Perm totals'.keys := by
    rw [List.perm_ext_iff_of_nodup totals.keys_nodup totals'.keys_nodup]
    exact h
  apply List.Perm.eq_of_sortedLE
  · exact List.sortedLE_insertionSort
  · exact List.sortedLE_insertionSort
  · exact (List.perm_insertionSort _ _).trans (hperm.trans (List.perm_insertionSort _ _).symm)

/-- The keys come out strictly increasing: sorted, and none twice. -/
theorem sortedKeys_lt (totals : Totals) : (totals.keys.insertionSort (· ≤ ·)).Pairwise (· < ·) := by
  have hsorted : (totals.keys.insertionSort (· ≤ ·)).SortedLE := List.sortedLE_insertionSort
  have hnodup : (totals.keys.insertionSort (· ≤ ·)).Nodup :=
    (List.perm_insertionSort _ _).nodup_iff.2 totals.keys_nodup
  exact (hsorted.pairwise.and hnodup).imp fun h => lt_of_le_of_ne h.1 h.2

/-- Usage with the same totals is rated the same, in whatever order and pieces it comes. -/
theorem rate_ok_of_totals {usages usages' : List Usage}
    (hmeters : ∀ m, m ∈ usages.map Usage.meter ↔ m ∈ usages'.map Usage.meter)
    (hnonneg : ∀ u ∈ usages, 0 ≤ u.quantity) (hnonneg' : ∀ u ∈ usages', 0 ≤ u.quantity)
    (htotal : ∀ m, meterUsage usages m = meterUsage usages' m)
    (h : rate usages plan registry = .ok items) : rate usages' plan registry = .ok items := by
  have hempty : ∀ m, 0 ≤ (Totals.get ∅ m).toInt := by
    intro m
    rw [Totals.get, AList.lookup_empty]
    exact Int.le_refl 0
  obtain ⟨totals, htotals, hitems⟩ := ok_of_bind h
  obtain ⟨totals', htotals'⟩ : ∃ totals', totalsFrom registry ∅ usages' = .ok totals' := by
    obtain ⟨hknown, hfits⟩ := (totalsFrom_ok_iff hempty hnonneg).1 ⟨totals, htotals⟩
    rw [totalsFrom_ok_iff hempty hnonneg']
    refine ⟨fun m hm => hknown m ((hmeters m).2 hm), fun m => ?_⟩
    rw [← htotal m]
    exact hfits m
  obtain ⟨hvalue, hmem, -⟩ := totalsFrom_spec htotals
  obtain ⟨hvalue', hmem', -⟩ := totalsFrom_spec htotals'
  have hget : ∀ m, totals.get m = totals'.get m := by
    intro m
    rw [← Int64.toInt_inj, hvalue m, hvalue' m, htotal m]
  have hkeys : ∀ m, m ∈ totals ↔ m ∈ totals' := by
    intro m
    rw [hmem m, hmem' m, hmeters m]
  rw [rate, htotals']
  rw [itemsFrom_congr plan hget, sortedKeys_congr hkeys] at hitems
  exact hitems

/-- `Rate` depends on the usage only through the total of each meter. -/
theorem rate_same_totals (plan : Plan) (registry : Registry) {usages usages' : List Usage}
    (hmeters : ∀ m, m ∈ usages.map Usage.meter ↔ m ∈ usages'.map Usage.meter)
    (hnonneg : ∀ u ∈ usages, 0 ≤ u.quantity) (hnonneg' : ∀ u ∈ usages', 0 ≤ u.quantity)
    (htotal : ∀ m, meterUsage usages m = meterUsage usages' m) :
    (∀ items, rate usages plan registry = .ok items ↔ rate usages' plan registry = .ok items) ∧
      ∀ items, rate usages plan registry = .ok items →
        (items.map LineItem.meter).Pairwise (· < ·) ∧
        (∀ m, m ∈ items.map LineItem.meter ↔ m ∈ usages.map Usage.meter) ∧
        ∀ i ∈ items, i.quantity.toInt = meterUsage usages i.meter := by
  refine ⟨fun items => ⟨?_, ?_⟩, fun items h => ⟨?_, ?_, ?_⟩⟩
  · exact rate_ok_of_totals hmeters hnonneg hnonneg' htotal
  · exact rate_ok_of_totals (fun m => (hmeters m).symm) hnonneg' hnonneg (fun m => (htotal m).symm)
  · obtain ⟨totals, -, hitems⟩ := ok_of_bind h
    rw [(itemsFrom_spec hitems).1]
    exact sortedKeys_lt totals
  · exact (rate_spec h).meters
  · exact (rate_spec h).quantity

/-- A plan with two meters. -/
def twoMeterPlan : Plan :=
  ⟨"p", [⟨"calls", .flat, 3, []⟩, ⟨"bytes", .flat, 5, []⟩]⟩

/-- Usage of both. -/
def wholeUsage : List Usage :=
  [⟨"calls", 4000000000⟩, ⟨"bytes", 2000000000⟩]

/-- The same, split and shuffled. -/
def splitUsage : List Usage :=
  [⟨"bytes", 500000000⟩, ⟨"calls", 4000000000⟩, ⟨"bytes", 1500000000⟩]

theorem rate_split_shuffled :
    rate wholeUsage twoMeterPlan ⟨["calls", "bytes"]⟩ =
        .ok [⟨"bytes", 2000000000, 10⟩, ⟨"calls", 4000000000, 12⟩] ∧
      ∀ items, rate wholeUsage twoMeterPlan ⟨["calls", "bytes"]⟩ = .ok items ↔
        rate splitUsage twoMeterPlan ⟨["calls", "bytes"]⟩ = .ok items := by
  refine ⟨by decide +kernel, (rate_same_totals twoMeterPlan _ ?_ ?_ ?_ ?_).1⟩
  · intro m
    simp only [wholeUsage, splitUsage, List.map_cons, List.map_nil, List.mem_cons,
      List.not_mem_nil]
    tauto
  · decide +kernel
  · decide +kernel
  · intro m
    simp only [wholeUsage, splitUsage, meterUsage_cons, meterUsage_nil]
    split_ifs <;> decide +kernel

end LedgerLine.Billing
