import LedgerLine.Billing.Pricing
import LedgerLine.Lib.Rounding
import Mathlib.Algebra.Order.BigOperators.Group.List
import Mathlib.Data.Rat.Floor

/-!
# What a quantity costs

The purpose of `billing/pricing/pricing.go`, stated apart from its loops: a price splits a
quantity into parts, each charged by one tier, and the charge is the sum over the parts of
the rounded product and the tier's flat fee.  The functions of the package compute that sum,
with every step checked to fit in an int64 (`applyPrice_spec`).

A graduated charge is monotone in the quantity (`applyGraduated_mono`).  It is not the exact
charge rounded once: each part rounds its own product, and the remainders that these roundings
drop or fill up can add up (`rounded_once_iff`, `rounded_twice`).
-/

namespace LedgerLine.Billing

/-! ### The charge of a price -/

/-- The product of a quantity in nano-units and a unit price, in micro-units. -/
def exactProduct (quantity unitPrice : Int) : ℚ :=
  ((quantity * unitPrice : Int) : ℚ) / (quantityFactor.toInt : ℚ)

/-- The product in whole micro-units. -/
def roundedProduct (quantity unitPrice : Int) : Int :=
  roundAway (exactProduct quantity unitPrice)

/-- A part of a quantity, and what it is charged with. -/
structure Part where
  portion : Int
  unitPrice : Int
  flatFee : Int
deriving DecidableEq, Repr

namespace Part

/-- The charge of a part, its product rounded. -/
def charge (part : Part) : Int :=
  roundedProduct part.portion part.unitPrice + part.flatFee

/-- The charge of a part, not rounded. -/
def exact (part : Part) : ℚ :=
  exactProduct part.portion part.unitPrice + part.flatFee

/-- The product before it is brought to whole micro-units. -/
def product (part : Part) : Int :=
  part.portion * part.unitPrice

/-- What division by the factor of a quantity leaves of the product. -/
def remainder (part : Part) : Int :=
  part.product % quantityFactor.toInt

/-- More than half a micro-unit is left, or just half of one and the product is not negative. -/
def roundsUp (part : Part) : Bool :=
  quantityFactor.toInt < 2 * part.remainder ∨
    quantityFactor.toInt = 2 * part.remainder ∧ 0 ≤ part.product

end Part

/-- A part that is the portion `portion` of a quantity, in the given tier. -/
def Tier.part (tier : Tier) (portion : Int) : Part :=
  ⟨portion, tier.unitPrice.toInt, tier.flatFee.toInt⟩

/-- Each tier with its lower bound: the upper bound of the tier before it. -/
def withLower (lower : Int) : List Tier → List (Int × Tier)
  | [] => []
  | tier :: rest => (lower, tier) :: withLower (tier.upTo.elim lower Int64.toInt) rest

/-- The portion of a quantity that lies in a tier above `lower`. -/
def Tier.portion (tier : Tier) (lower quantity : Int) : Int :=
  tier.upTo.elim quantity (fun upTo => min quantity upTo.toInt) - lower

/-- The parts of a quantity above `lower`: one for each tier that it reaches into. -/
def graduatedParts (lower : Int) (tiers : List Tier) (quantity : Int) : List Part :=
  ((withLower lower tiers).filter (fun t => t.1 < quantity)).map
    (fun t => t.2.part (t.2.portion t.1 quantity))

/-- The whole quantity, in the first tier that it does not exceed. -/
def volumeParts (tiers : List Tier) (quantity : Int) : List Part :=
  if quantity = 0 then
    []
  else
    ((tiers.find? (fun t => t.upTo.all (fun upTo => quantity ≤ upTo.toInt))).map
      (fun t => t.part quantity)).toList

/-- The parts into which a price splits a quantity. -/
def Price.parts (price : Price) (quantity : Int) : List Part :=
  match price.model with
  | .flat => [⟨quantity, price.unitPrice.toInt, 0⟩]
  | .graduated => graduatedParts 0 price.tiers quantity
  | .volume => volumeParts price.tiers quantity
  | .other _ => []

/-- The charge of a list of parts. -/
def chargeOf (parts : List Part) : Int :=
  (parts.map Part.charge).sum

/-- The rounded products and the running sums of a list of parts, from `total` on. -/
def sumsFrom (total : Int) : List Part → List Int
  | [] => []
  | part :: rest =>
      roundedProduct part.portion part.unitPrice ::
        (total + roundedProduct part.portion part.unitPrice) ::
        (total + part.charge) :: sumsFrom (total + part.charge) rest

/-- Tiers with strictly increasing bounds above `lower`, and a single unbounded tier at the
end. -/
def TiersFrom (lower : Quantity) (tiers : List Tier) : Prop :=
  ∃ (bounded : List Tier) (last : Tier) (bounds : List Quantity),
    tiers = bounded ++ [last] ∧ last.upTo = none ∧ bounded.map Tier.upTo = bounds.map some ∧
      (lower :: bounds).Pairwise (· < ·)

/-- A price of a known model, with proper tiers where the model has tiers. -/
def Price.WellFormed (price : Price) : Prop :=
  match price.model with
  | .flat => True
  | .graduated => TiersFrom 0 price.tiers
  | .volume => TiersFrom 0 price.tiers
  | .other _ => False

/-! ### Single steps -/

variable {amount total : Amount} {part : Part} {tier : Tier} {rest tiers : List Tier}
  {lower q consumed : Quantity}

/-- `multiply` gives the product rounded once, if it fits. -/
theorem multiply_eq_ok_iff {quantity : Quantity} {unitPrice : Amount} :
    multiply quantity unitPrice = .ok amount ↔
      amount.toInt = roundedProduct quantity.toInt unitPrice.toInt := by
  have hfactor : 0 < quantityFactor.toInt := by decide
  rw [multiply]
  split
  · rename_i hzero
    have hproduct : quantity.toInt * unitPrice.toInt = 0 := by
      rcases hzero with rfl | rfl
      · exact Int.zero_mul _
      · exact Int.mul_zero _
    have hrounded : roundedProduct quantity.toInt unitPrice.toInt = 0 := by
      rw [roundedProduct, exactProduct, hproduct, Int.cast_zero, zero_div, roundAway_zero]
    rw [hrounded, Except.ok.injEq, ← Int64.toInt_inj, Int64.toInt_zero, eq_comm]
  · have hrounded := roundAway_div (K := ℚ) (quantity.toInt * unitPrice.toInt) hfactor
    simp only [← hrounded, roundedProduct, exactProduct]
    split
    · rename_i hfits
      obtain ⟨a, ha⟩ := fitsInt64_iff.1 hfits
      rw [← ha, Int64.ofInt_toInt, Except.ok.injEq, Int64.toInt_inj, eq_comm]
    · rename_i hfits
      refine ⟨nofun, fun h => ?_⟩
      exact absurd (fitsInt64_iff.2 ⟨amount, h⟩) hfits

theorem addAmount_eq_ok_iff {a b c : Amount} :
    addAmount a b = .ok c ↔ c.toInt = a.toInt + b.toInt := by
  rw [addAmount, mapError_eq_ok_iff, Amount.add_eq_ok_iff]

/-- A part is charged if its product and the sums with it fit. -/
theorem charge_part_iff {portion : Quantity} {f : Amount → Except PriceErr Amount}
    (hpart : part = tier.part portion.toInt) :
    (do
        let product ← multiply portion tier.unitPrice
        let next ← addAmount total product
        let next ← addAmount next tier.flatFee
        f next) = .ok amount ↔
      FitsInt64 (roundedProduct part.portion part.unitPrice) ∧
        FitsInt64 (total.toInt + roundedProduct part.portion part.unitPrice) ∧
        ∃ next : Amount, next.toInt = total.toInt + part.charge ∧ f next = .ok amount := by
  subst hpart
  simp only [bind_eq_ok_iff, multiply_eq_ok_iff, addAmount_eq_ok_iff, fitsInt64_iff, Part.charge,
    Tier.part]
  constructor
  · rintro ⟨product, hproduct, sum, hsum, next, hnext, hf⟩
    rw [hproduct] at hsum
    rw [hsum, Int.add_assoc] at hnext
    exact ⟨⟨product, hproduct⟩, ⟨sum, hsum⟩, next, hnext, hf⟩
  · rintro ⟨⟨product, hproduct⟩, ⟨sum, hsum⟩, next, hnext, hf⟩
    refine ⟨product, hproduct, sum, ?_, next, ?_, hf⟩
    · rw [hsum, hproduct]
    · rw [hnext, hsum, Int.add_assoc]

/-! ### Proper tiers -/

theorem not_tiersFrom_nil (lower : Quantity) : ¬ TiersFrom lower [] := by
  rintro ⟨bounded, last, bounds, htiers, -⟩
  exact absurd htiers.symm (List.append_ne_nil_of_right_ne_nil _ (List.cons_ne_nil _ _))

theorem tiersFrom_cons_none (h : tier.upTo = none) :
    TiersFrom lower (tier :: rest) ↔ rest = [] := by
  constructor
  · rintro ⟨bounded, last, bounds, htiers, -, hbounds, -⟩
    cases bounded with
    | nil =>
        exact (List.cons.inj htiers).2
    | cons b bounded =>
        obtain ⟨rfl, -⟩ := List.cons.inj htiers
        cases bounds with
        | nil => cases hbounds
        | cons bound bounds =>
            exact absurd (h.symm.trans (List.cons.inj hbounds).1) (Option.some_ne_none _).symm
  · rintro rfl
    exact ⟨[], tier, [], rfl, h, rfl, List.pairwise_singleton _ _⟩

theorem tiersFrom_cons_some {upTo : Quantity} (h : tier.upTo = some upTo) :
    TiersFrom lower (tier :: rest) ↔ lower < upTo ∧ TiersFrom upTo rest := by
  constructor
  · rintro ⟨bounded, last, bounds, htiers, hlast, hbounds, hsorted⟩
    cases bounded with
    | nil =>
        obtain ⟨rfl, -⟩ := List.cons.inj htiers
        exact absurd (h.symm.trans hlast) (Option.some_ne_none _)
    | cons b bounded =>
        obtain ⟨rfl, hrest⟩ := List.cons.inj htiers
        cases bounds with
        | nil => cases hbounds
        | cons bound bounds =>
            obtain ⟨hbound, htail⟩ := List.cons.inj hbounds
            obtain rfl : upTo = bound := Option.some.inj (h.symm.trans hbound)
            rw [List.pairwise_cons] at hsorted
            exact ⟨hsorted.1 upTo List.mem_cons_self,
              bounded, last, bounds, hrest, hlast, htail, hsorted.2⟩
  · rintro ⟨hlower, bounded, last, bounds, rfl, hlast, hbounds, hsorted⟩
    refine ⟨tier :: bounded, last, upTo :: bounds, rfl, hlast, ?_, ?_⟩
    · rw [List.map_cons, List.map_cons, h, hbounds]
    · rw [List.pairwise_cons]
      refine ⟨?_, hsorted⟩
      rw [List.forall_mem_cons]
      refine ⟨hlower, fun bound hbound => ?_⟩
      exact Int64.lt_trans hlower ((List.pairwise_cons.1 hsorted).1 bound hbound)

theorem validateFrom_eq_ok_iff {i : Nat} {previous : Quantity} (hne : tiers ≠ []) :
    validateFrom i previous tiers = .ok () ↔ TiersFrom previous tiers := by
  induction tiers generalizing i previous with
  | nil => exact absurd rfl hne
  | cons tier rest ih =>
      cases hupTo : tier.upTo with
      | none =>
          rw [tiersFrom_cons_none hupTo, validateFrom, hupTo]
          by_cases hrest : rest = []
          · simp [hrest, validateFrom]
          · simp [hrest]
      | some upTo =>
          rw [tiersFrom_cons_some hupTo, validateFrom, hupTo]
          by_cases hrest : rest = []
          · simp [hrest, not_tiersFrom_nil]
          · by_cases hle : upTo ≤ previous
            · simp [hrest, hle]
            · simp [hrest, hle, ih hrest, Int64.not_le.1 hle]

/-- `validateTiers` accepts the lists of strictly increasing positive bounds that a single
unbounded tier ends. -/
theorem validateTiers_eq_ok_iff : validateTiers tiers = .ok () ↔ TiersFrom 0 tiers := by
  rw [validateTiers]
  split
  · rename_i hempty
    simp [hempty, not_tiersFrom_nil]
  · rename_i hne
    exact validateFrom_eq_ok_iff hne

/-! ### The graduated model -/

theorem graduatedParts_cons {lower q : Int} (h : lower < q) :
    graduatedParts lower (tier :: rest) q =
      tier.part (tier.portion lower q) ::
        graduatedParts (tier.upTo.elim lower Int64.toInt) rest q := by
  simp [graduatedParts, withLower, h]

/-- Tiers above the quantity have no part of it. -/
theorem graduatedParts_above {q : Int} (h : TiersFrom lower tiers) (hq : q ≤ lower.toInt) :
    graduatedParts lower.toInt tiers q = [] := by
  induction tiers generalizing lower with
  | nil => rfl
  | cons tier rest ih =>
      have hhead : ¬ lower.toInt < q := by omega
      cases hupTo : tier.upTo with
      | none =>
          rw [(tiersFrom_cons_none hupTo).1 h]
          simp [graduatedParts, withLower, hhead]
      | some upTo =>
          obtain ⟨hlt, hrest⟩ := (tiersFrom_cons_some hupTo).1 h
          rw [Int64.lt_iff_toInt_lt] at hlt
          have htail := ih hrest (by omega)
          simp only [graduatedParts, List.map_eq_nil_iff] at htail ⊢
          simp [withLower, hupTo, hhead, htail]

/-- A difference of quantities does not wrap around. -/
theorem Quantity.toInt_sub {a b : Quantity} (hb : 0 ≤ b.toInt) (hab : b.toInt ≤ a.toInt) :
    (a - b).toInt = a.toInt - b.toInt := by
  have := Int64.toInt_lt a
  rw [Int64.toInt_sub]
  apply Int.bmod_eq_of_le <;> omega

/-- How far a quantity is consumed by the end of a tier. -/
def Tier.reach (tier : Tier) (q : Quantity) : Quantity :=
  tier.upTo.elim q (fun upTo => if q < upTo then q else upTo)

theorem Tier.toInt_reach (tier : Tier) (q : Quantity) :
    (tier.reach q).toInt = tier.upTo.elim q.toInt (fun upTo => min q.toInt upTo.toInt) := by
  rw [Tier.reach]
  cases tier.upTo with
  | none => rfl
  | some upTo =>
      simp only [Option.elim_some, Int64.lt_iff_toInt_lt]
      split <;> omega

theorem graduatedFrom_cons (hmore : ¬ q ≤ consumed) :
    graduatedFrom q total consumed (tier :: rest) =
      if tier.reach q - consumed ≤ 0 then
        graduatedFrom q total consumed rest
      else (do
        let amount ← multiply (tier.reach q - consumed) tier.unitPrice
        let next ← addAmount total amount
        let next ← addAmount next tier.flatFee
        graduatedFrom q next (consumed + (tier.reach q - consumed)) rest) := by
  rw [graduatedFrom, if_neg hmore, Tier.reach]
  cases tier.upTo <;> rfl

/-- One round of the loop charges one part. -/
theorem graduatedFrom_cons_eq_ok_iff (hconsumed : 0 ≤ consumed.toInt)
    (hq : consumed.toInt < q.toInt) (hreach : consumed.toInt < (tier.reach q).toInt)
    (hpart : part = tier.part (tier.portion consumed.toInt q.toInt)) :
    graduatedFrom q total consumed (tier :: rest) = .ok amount ↔
      FitsInt64 (roundedProduct part.portion part.unitPrice) ∧
        FitsInt64 (total.toInt + roundedProduct part.portion part.unitPrice) ∧
        ∃ next : Amount, next.toInt = total.toInt + part.charge ∧
          graduatedFrom q next (tier.reach q) rest = .ok amount := by
  have hportion : (tier.reach q - consumed).toInt = tier.portion consumed.toInt q.toInt := by
    rw [Quantity.toInt_sub hconsumed hreach.le, Tier.toInt_reach, Tier.portion]
  have hmore : ¬ q ≤ consumed := by
    rw [Int64.le_iff_toInt_le]
    omega
  have hpositive : ¬ tier.reach q - consumed ≤ 0 := by
    rw [Int64.le_iff_toInt_le, Quantity.toInt_sub hconsumed hreach.le, Int64.toInt_zero]
    omega
  have hnext : consumed + (tier.reach q - consumed) = tier.reach q := by
    rw [Int64.add_comm, Int64.sub_add_cancel]
  rw [graduatedFrom_cons hmore, if_neg hpositive, hnext]
  exact charge_part_iff (by rw [hpart, hportion])

/-- The loop stops where nothing is left. -/
theorem graduatedFrom_consumed (q : Quantity) (total : Amount) (tiers : List Tier) :
    graduatedFrom q total q tiers = .ok total := by
  cases tiers with
  | nil => rfl
  | cons tier rest =>
      rw [graduatedFrom, if_pos (Int64.le_refl q)]

theorem forall_sumsFrom_cons {total : Int} {rest : List Part} {P : Int → Prop} :
    (∀ n ∈ sumsFrom total (part :: rest), P n) ↔
      P (roundedProduct part.portion part.unitPrice) ∧
        P (total + roundedProduct part.portion part.unitPrice) ∧
        P (total + part.charge) ∧ ∀ n ∈ sumsFrom (total + part.charge) rest, P n := by
  rw [sumsFrom, List.forall_mem_cons, List.forall_mem_cons, List.forall_mem_cons]

theorem chargeOf_cons (part : Part) (rest : List Part) :
    chargeOf (part :: rest) = part.charge + chargeOf rest := by
  rw [chargeOf, List.map_cons, List.sum_cons]
  rfl

theorem forall_sumsFrom_single {P : Int → Prop} :
    (∀ n ∈ sumsFrom 0 [part], P n) ↔
      P (roundedProduct part.portion part.unitPrice) ∧ P part.charge := by
  rw [forall_sumsFrom_cons]
  simp [sumsFrom]

theorem chargeOf_single (part : Part) : chargeOf [part] = part.charge := by
  simp [chargeOf]

/-- The loop, while the quantity reaches beyond what is consumed: its tiers charge the parts
above. -/
theorem graduatedFrom_eq_ok_iff (htiers : TiersFrom consumed tiers) (hconsumed : 0 ≤ consumed.toInt)
    (hq : consumed.toInt < q.toInt) :
    graduatedFrom q total consumed tiers = .ok amount ↔
      (∀ n ∈ sumsFrom total.toInt (graduatedParts consumed.toInt tiers q.toInt),
        FitsInt64 n) ∧
      amount.toInt = total.toInt + chargeOf (graduatedParts consumed.toInt tiers q.toInt) := by
  induction tiers generalizing consumed total with
  | nil =>
      exact absurd htiers (not_tiersFrom_nil _)
  | cons tier rest ih =>
      have hreach : consumed.toInt < (tier.reach q).toInt := by
        rw [Tier.toInt_reach]
        cases hupTo : tier.upTo with
        | none => exact hq
        | some upTo =>
            have := ((tiersFrom_cons_some hupTo).1 htiers).1
            rw [Int64.lt_iff_toInt_lt] at this
            simp only [Option.elim_some]
            omega
      -- the later tiers charge the later parts, from any total
      have hrest : ∀ next : Amount,
          graduatedFrom q next (tier.reach q) rest = .ok amount ↔
            (∀ n ∈ sumsFrom next.toInt
              (graduatedParts (tier.upTo.elim consumed.toInt Int64.toInt) rest q.toInt),
              FitsInt64 n) ∧
            amount.toInt = next.toInt + chargeOf
              (graduatedParts (tier.upTo.elim consumed.toInt Int64.toInt) rest q.toInt) := by
        intro next
        cases hupTo : tier.upTo with
        | none =>
            have hnil := (tiersFrom_cons_none hupTo).1 htiers
            rw [Tier.reach, hupTo, Option.elim_none, graduatedFrom_consumed, hnil]
            simp [graduatedParts, withLower, sumsFrom, chargeOf, Int64.toInt_inj, eq_comm]
        | some upTo =>
            obtain ⟨hlt, htail⟩ := (tiersFrom_cons_some hupTo).1 htiers
            rw [Int64.lt_iff_toInt_lt] at hlt
            rw [Option.elim_some]
            by_cases hbeyond : upTo.toInt < q.toInt
            · have hupTo' : tier.reach q = upTo := by
                rw [← Int64.toInt_inj, Tier.toInt_reach, hupTo, Option.elim_some]
                omega
              rw [hupTo']
              exact ih htail (by omega) hbeyond
            · have hall : tier.reach q = q := by
                rw [← Int64.toInt_inj, Tier.toInt_reach, hupTo, Option.elim_some]
                omega
              rw [hall, graduatedFrom_consumed, graduatedParts_above htail (by omega)]
              simp [sumsFrom, chargeOf, Int64.toInt_inj, eq_comm]
      rw [graduatedFrom_cons_eq_ok_iff hconsumed hq hreach rfl, graduatedParts_cons hq,
        forall_sumsFrom_cons, chargeOf_cons]
      constructor
      · rintro ⟨hproduct, hsum, next, hnext, hafter⟩
        obtain ⟨hfits, hamount⟩ := (hrest next).1 hafter
        rw [hnext] at hfits hamount
        exact ⟨⟨hproduct, hsum, fitsInt64_iff.2 ⟨next, hnext⟩, hfits⟩, by omega⟩
      · rintro ⟨⟨hproduct, hsum, htotal, hfits⟩, hamount⟩
        obtain ⟨next, hnext⟩ := fitsInt64_iff.1 htotal
        rw [← hnext] at hfits
        exact ⟨hproduct, hsum, next, hnext, (hrest next).2 ⟨hfits, by omega⟩⟩

/-- Sums that fit lead to a charge that fits. -/
theorem fits_chargeOf {total : Int} {parts : List Part} (htotal : FitsInt64 total)
    (h : ∀ n ∈ sumsFrom total parts, FitsInt64 n) : FitsInt64 (total + chargeOf parts) := by
  induction parts generalizing total with
  | nil =>
      rw [chargeOf, List.map_nil, List.sum_nil, Int.add_zero]
      exact htotal
  | cons part rest ih =>
      obtain ⟨-, -, hnext, hrest⟩ := forall_sumsFrom_cons.1 h
      rw [chargeOf_cons, ← Int.add_assoc]
      exact ih hnext hrest

/-- Both tiered models validate their tiers first. -/
theorem validated_eq_ok_iff {x : Except PriceErr Amount} :
    (do
        validateTiers tiers
        x) = .ok amount ↔ TiersFrom 0 tiers ∧ x = .ok amount := by
  rw [bind_eq_ok_iff, ← validateTiers_eq_ok_iff]
  exact ⟨fun ⟨_, h⟩ => h, fun h => ⟨(), h⟩⟩

theorem applyGraduated_eq_ok_iff (hq : 0 ≤ q.toInt) :
    applyGraduated tiers q = .ok amount ↔
      TiersFrom 0 tiers ∧
        (∀ n ∈ sumsFrom 0 (graduatedParts 0 tiers q.toInt), FitsInt64 n) ∧
        amount.toInt = chargeOf (graduatedParts 0 tiers q.toInt) := by
  rw [applyGraduated, validated_eq_ok_iff]
  apply and_congr_right
  intro htiers
  by_cases hzero : q = 0
  · subst hzero
    have hnone := graduatedParts_above (q := 0) htiers (Int.le_refl 0)
    rw [Int64.toInt_zero] at hnone ⊢
    rw [graduatedFrom_consumed, hnone]
    simp [sumsFrom, chargeOf, ← Int64.toInt_inj, eq_comm]
  · have hpos : (0 : Quantity).toInt < q.toInt := by
      rw [← Int64.toInt_inj, Int64.toInt_zero] at hzero
      rw [Int64.toInt_zero]
      omega
    rw [graduatedFrom_eq_ok_iff htiers (Int.le_refl 0) hpos, Int64.toInt_zero, Int.zero_add]

/-! ### The volume model -/

/-- The loop charges the first tier that the quantity does not exceed. -/
theorem volumeFrom_eq_ok_iff :
    volumeFrom q tiers = .ok amount ↔
      ∃ tier, tiers.find? (fun t => t.upTo.all (fun upTo => q.toInt ≤ upTo.toInt)) = some tier ∧
        FitsInt64 (roundedProduct q.toInt tier.unitPrice.toInt) ∧
        amount.toInt = (tier.part q.toInt).charge := by
  induction tiers with
  | nil => simp [volumeFrom]
  | cons tier rest ih =>
      simp only [volumeFrom, List.find?_cons, Int64.le_iff_toInt_le]
      split
      · rename_i hin
        rw [hin, bind_eq_ok_iff]
        simp only [Option.some.injEq, exists_eq_left', multiply_eq_ok_iff, addAmount_eq_ok_iff,
          fitsInt64_iff, Part.charge, Tier.part]
        constructor
        · rintro ⟨product, hproduct, hamount⟩
          exact ⟨⟨product, hproduct⟩, by rw [hamount, hproduct]⟩
        · rintro ⟨⟨product, hproduct⟩, hamount⟩
          exact ⟨product, hproduct, by rw [hamount, hproduct]⟩
      · rename_i hout
        rw [Bool.not_eq_true] at hout
        rw [hout, ih]

/-- The last of proper tiers takes what the others do not. -/
theorem exists_tier_of_tiersFrom (h : TiersFrom lower tiers) (q : Int) :
    ∃ tier, tiers.find? (fun t => t.upTo.all (fun upTo => q ≤ upTo.toInt)) = some tier := by
  obtain ⟨bounded, last, -, rfl, hlast, -⟩ := h
  rw [← Option.isSome_iff_exists, List.find?_isSome]
  exact ⟨last, List.mem_append_right _ List.mem_cons_self, by rw [hlast]; rfl⟩

theorem applyVolume_eq_ok_iff :
    applyVolume tiers q = .ok amount ↔
      TiersFrom 0 tiers ∧ (∀ n ∈ sumsFrom 0 (volumeParts tiers q.toInt), FitsInt64 n) ∧
        amount.toInt = chargeOf (volumeParts tiers q.toInt) := by
  rw [applyVolume, validated_eq_ok_iff]
  apply and_congr_right
  intro htiers
  by_cases hzero : q = 0
  · subst hzero
    simp [volumeParts, sumsFrom, chargeOf, ← Int64.toInt_inj, eq_comm]
  · have hne : q.toInt ≠ 0 := by
      rw [← Int64.toInt_inj, Int64.toInt_zero] at hzero
      exact hzero
    obtain ⟨tier, htier⟩ := exists_tier_of_tiersFrom htiers q.toInt
    rw [if_neg hzero, volumeFrom_eq_ok_iff, volumeParts, if_neg hne, htier]
    simp only [Option.some.injEq, exists_eq_left', Option.map_some, Option.toList_some,
      forall_sumsFrom_single, chargeOf_single]
    constructor
    · rintro ⟨hproduct, hamount⟩
      exact ⟨⟨hproduct, fitsInt64_iff.2 ⟨amount, hamount⟩⟩, hamount⟩
    · rintro ⟨⟨hproduct, -⟩, hamount⟩
      exact ⟨hproduct, hamount⟩

/-! ### Every model -/

/-- What `applyPrice` returns, for a quantity that is not negative. -/
theorem applyPrice_iff {price : Price} (hq : 0 ≤ q.toInt) :
    applyPrice price q = .ok amount ↔
      price.WellFormed ∧ (∀ n ∈ sumsFrom 0 (price.parts q.toInt), FitsInt64 n) ∧
        amount.toInt = chargeOf (price.parts q.toInt) := by
  rw [applyPrice, Price.WellFormed, Price.parts]
  cases price.model with
  | flat =>
      rw [multiply_eq_ok_iff]
      simp only [true_and, forall_sumsFrom_single, chargeOf_single, Part.charge, Int.add_zero,
        and_self, iff_and_self]
      exact fun h => fitsInt64_iff.2 ⟨amount, h⟩
  | graduated =>
      exact applyGraduated_eq_ok_iff hq
  | volume =>
      exact applyVolume_eq_ok_iff
  | other name => simp

/-- Where the tiers of `withLower` lie. -/
theorem mem_withLower (h : TiersFrom lower tiers) {t : Int × Tier}
    (ht : t ∈ withLower lower.toInt tiers) :
    t.2 ∈ tiers ∧ ∀ upTo, t.2.upTo = some upTo → t.1 < upTo.toInt := by
  induction tiers generalizing lower with
  | nil => cases ht
  | cons tier rest ih =>
      cases hupTo : tier.upTo with
      | none =>
          rw [(tiersFrom_cons_none hupTo).1 h] at ht ⊢
          obtain rfl := List.mem_singleton.1 ht
          refine ⟨List.mem_cons_self, fun upTo h' => ?_⟩
          exact absurd (h'.symm.trans hupTo) (Option.some_ne_none _)
      | some upTo =>
          obtain ⟨hlt, hrest⟩ := (tiersFrom_cons_some hupTo).1 h
          rw [withLower, hupTo, Option.elim_some, List.mem_cons] at ht
          rcases ht with rfl | ht
          · refine ⟨List.mem_cons_self, fun upTo' h' => ?_⟩
            obtain rfl := Option.some.inj (h'.symm.trans hupTo)
            exact Int64.lt_iff_toInt_lt.1 hlt
          · obtain ⟨hmem, hbound⟩ := ih hrest ht
            exact ⟨List.mem_cons_of_mem _ hmem, hbound⟩

/-- A tier takes a positive portion of a quantity that reaches into it. -/
theorem Tier.portion_pos {lower q : Int} (hq : lower < q)
    (hupTo : ∀ upTo, tier.upTo = some upTo → lower < upTo.toInt) : 0 < tier.portion lower q := by
  rw [Tier.portion]
  cases h : tier.upTo with
  | none =>
      rw [Option.elim_none]
      omega
  | some upTo =>
      have := hupTo upTo h
      rw [Option.elim_some]
      omega

/-- The portions make up the quantity. -/
theorem sum_portions {q : Int} (h : TiersFrom lower tiers) (hq : lower.toInt ≤ q) :
    ((graduatedParts lower.toInt tiers q).map Part.portion).sum = q - lower.toInt := by
  induction tiers generalizing lower with
  | nil =>
      exact absurd h (not_tiersFrom_nil _)
  | cons tier rest ih =>
      rcases hq.lt_or_eq with hlt | heq
      · rw [graduatedParts_cons hlt, List.map_cons, List.sum_cons]
        cases hupTo : tier.upTo with
        | none =>
            rw [(tiersFrom_cons_none hupTo).1 h]
            simp [graduatedParts, withLower, Tier.part, Tier.portion, hupTo]
        | some upTo =>
            obtain ⟨hbound, hrest⟩ := (tiersFrom_cons_some hupTo).1 h
            simp only [Tier.part, Tier.portion, hupTo, Option.elim_some]
            rcases le_or_gt upTo.toInt q with hle | hgt
            · rw [ih hrest hle]
              omega
            · rw [graduatedParts_above hrest hgt.le, List.map_nil, List.sum_nil]
              omega
      · rw [graduatedParts_above h heq.ge, List.map_nil, List.sum_nil]
        omega

/-- `applyPrice` computes the charge of its model, or fails because the price is not well
formed or a product or a running sum does not fit. -/
theorem applyPrice_spec (price : Price) (q : Quantity) (hq : 0 ≤ q) :
    (∀ amount, applyPrice price q = .ok amount →
      amount.toInt = chargeOf (price.parts q.toInt)) ∧
    ((∃ e, applyPrice price q = .error e) ↔
      ¬ (price.WellFormed ∧ ∀ n ∈ sumsFrom 0 (price.parts q.toInt), FitsInt64 n)) ∧
    (price.model = .graduated → price.WellFormed →
      (∀ part ∈ price.parts q.toInt, 0 < part.portion) ∧
        ((price.parts q.toInt).map Part.portion).sum = q.toInt) := by
  rw [Int64.le_iff_toInt_le, Int64.toInt_zero] at hq
  refine ⟨?_, ⟨?_, ?_⟩, ?_⟩
  · intro amount h
    exact ((applyPrice_iff hq).1 h).2.2
  · rintro ⟨e, he⟩ ⟨hwell, hfits⟩
    have htotal := fits_chargeOf (by decide) hfits
    rw [Int.zero_add, fitsInt64_iff] at htotal
    obtain ⟨amount, hamount⟩ := htotal
    have hok := (applyPrice_iff hq).2 ⟨hwell, hfits, hamount⟩
    rw [he] at hok
    cases hok
  · intro hnot
    cases h : applyPrice price q with
    | error e => exact ⟨e, rfl⟩
    | ok amount =>
        obtain ⟨hwell, hfits, -⟩ := (applyPrice_iff hq).1 h
        exact absurd ⟨hwell, hfits⟩ hnot
  · intro hmodel hwell
    rw [Price.WellFormed, hmodel] at hwell
    simp only [Price.parts, hmodel]
    constructor
    · refine List.forall_mem_map.2 fun t ht => ?_
      rw [List.mem_filter, decide_eq_true_eq] at ht
      exact Tier.portion_pos ht.2 (mem_withLower hwell ht.1).2
    · have := sum_portions hwell (q := q.toInt) hq
      rw [Int64.toInt_zero, Int.sub_zero] at this
      exact this

/-- Two tiers: ten for each of the first unit and a fee of five, then two each. -/
def twoTierPrice : Price :=
  ⟨"calls", .graduated, 0, [⟨some 1000000000, 10, 5⟩, ⟨none, 2, 0⟩]⟩

theorem applyPrice_twoTier :
    applyPrice twoTierPrice 3000000000 = .ok 19 ∧
      (19 : Amount).toInt = chargeOf (twoTierPrice.parts 3000000000) :=
  ⟨by decide +kernel,
    (applyPrice_spec twoTierPrice 3000000000 (by decide)).1 19 (by decide +kernel)⟩

/-! ### More usage costs more -/

theorem roundedProduct_mono {unitPrice portion portion' : Int} (hprice : 0 ≤ unitPrice)
    (h : portion ≤ portion') :
    roundedProduct portion unitPrice ≤ roundedProduct portion' unitPrice := by
  apply roundAway_mono
  have hfactor : (0 : ℚ) ≤ (quantityFactor.toInt : ℚ) := by
    exact_mod_cast (by decide : (0 : Int) ≤ quantityFactor.toInt)
  apply div_le_div_of_nonneg_right _ hfactor
  exact_mod_cast Int.mul_le_mul_of_nonneg_right h hprice

theorem roundedProduct_nonneg {unitPrice portion : Int} (hprice : 0 ≤ unitPrice)
    (h : 0 ≤ portion) : 0 ≤ roundedProduct portion unitPrice := by
  have hzero : roundedProduct 0 unitPrice = 0 := by
    rw [roundedProduct, exactProduct, Int.zero_mul, Int.cast_zero, zero_div, roundAway_zero]
  rw [← hzero]
  exact roundedProduct_mono hprice h

/-- A part that adds to the charge at each of its steps. -/
structure Part.Nonneg (part : Part) : Prop where
  product : 0 ≤ roundedProduct part.portion part.unitPrice
  fee : 0 ≤ part.flatFee

/-- Then every running sum is below the charge. -/
theorem sumsFrom_bounds {total : Int} {parts : List Part} (htotal : 0 ≤ total)
    (hparts : ∀ part ∈ parts, part.Nonneg) :
    total ≤ total + chargeOf parts ∧
      ∀ n ∈ sumsFrom total parts, 0 ≤ n ∧ n ≤ total + chargeOf parts := by
  induction parts generalizing total with
  | nil => simp [chargeOf, sumsFrom]
  | cons part rest ih =>
      rw [List.forall_mem_cons] at hparts
      obtain ⟨⟨hproduct, hfee⟩, hrest⟩ := hparts
      have hcharge : part.charge = roundedProduct part.portion part.unitPrice + part.flatFee := rfl
      have hnext : 0 ≤ total + part.charge := by omega
      obtain ⟨hle, hsums⟩ := ih hnext hrest
      rw [chargeOf_cons, forall_sumsFrom_cons, ← Int.add_assoc]
      exact ⟨by omega, ⟨by omega, by omega⟩, ⟨by omega, by omega⟩, ⟨by omega, hle⟩, hsums⟩

/-- What a tier adds to the charge of a quantity. -/
def tierCharge (q : Int) (t : Int × Tier) : Int :=
  if t.1 < q then (t.2.part (t.2.portion t.1 q)).charge else 0

theorem chargeOf_graduatedParts (lower : Int) (tiers : List Tier) (q : Int) :
    chargeOf (graduatedParts lower tiers q) =
      ((withLower lower tiers).map (tierCharge q)).sum := by
  rw [graduatedParts]
  induction withLower lower tiers with
  | nil => rfl
  | cons t rest ih =>
      rw [List.map_cons, List.sum_cons, ← ih, tierCharge]
      by_cases ht : t.1 < q
      · rw [List.filter_cons_of_pos (by simpa using ht), List.map_cons, chargeOf_cons, if_pos ht]
      · rw [List.filter_cons_of_neg (by simpa using ht), if_neg ht, Int.zero_add]

section Nonneg

variable {tiers : List Tier} (htiers : TiersFrom 0 tiers)
  (hprices : ∀ tier ∈ tiers, 0 ≤ tier.unitPrice ∧ 0 ≤ tier.flatFee)

include htiers hprices

theorem graduatedParts_nonneg {q : Int} : ∀ part ∈ graduatedParts 0 tiers q, part.Nonneg := by
  refine List.forall_mem_map.2 fun t ht => ?_
  rw [List.mem_filter, decide_eq_true_eq] at ht
  obtain ⟨hmem, hbound⟩ := mem_withLower htiers ht.1
  obtain ⟨hprice, hfee⟩ := hprices t.2 hmem
  rw [Int64.le_iff_toInt_le, Int64.toInt_zero] at hprice hfee
  exact ⟨roundedProduct_nonneg hprice (Tier.portion_pos ht.2 hbound).le, hfee⟩

theorem tierCharge_mono {q₁ q₂ : Int} (h : q₁ ≤ q₂) {t : Int × Tier}
    (ht : t ∈ withLower 0 tiers) : tierCharge q₁ t ≤ tierCharge q₂ t := by
  obtain ⟨hmem, hbound⟩ := mem_withLower htiers ht
  obtain ⟨hprice, hfee⟩ := hprices t.2 hmem
  rw [Int64.le_iff_toInt_le, Int64.toInt_zero] at hprice hfee
  rw [tierCharge, tierCharge]
  by_cases h₁ : t.1 < q₁
  · -- the quantity reaches into the tier, and further for `q₂`
    rw [if_pos h₁, if_pos (by omega)]
    have hportion : t.2.portion t.1 q₁ ≤ t.2.portion t.1 q₂ := by
      rw [Tier.portion, Tier.portion]
      cases t.2.upTo with
      | none =>
          exact Int.sub_le_sub_right h _
      | some upTo =>
          simp only [Option.elim_some]
          omega
    exact Int.add_le_add_right (roundedProduct_mono hprice hportion) _
  · rw [if_neg h₁]
    by_cases h₂ : t.1 < q₂
    · rw [if_pos h₂]
      exact Int.add_nonneg (roundedProduct_nonneg hprice (Tier.portion_pos h₂ hbound).le) hfee
    · rw [if_neg h₂]

theorem chargeOf_graduated_mono {q₁ q₂ : Int} (h : q₁ ≤ q₂) :
    chargeOf (graduatedParts 0 tiers q₁) ≤ chargeOf (graduatedParts 0 tiers q₂) := by
  rw [chargeOf_graduatedParts, chargeOf_graduatedParts]
  apply List.sum_le_sum
  intro t ht
  exact tierCharge_mono htiers hprices h ht

end Nonneg

/-- Under graduated pricing more usage never costs less, and a quantity can be priced if a
larger one can. -/
theorem applyGraduated_mono {tiers : List Tier} (hvalid : validateTiers tiers = .ok ())
    (hprices : ∀ tier ∈ tiers, 0 ≤ tier.unitPrice ∧ 0 ≤ tier.flatFee) {q₁ q₂ : Quantity}
    (hq₁ : 0 ≤ q₁) (hq : q₁ ≤ q₂) {amount₂ : Amount} (h₂ : applyGraduated tiers q₂ = .ok amount₂) :
    ∃ amount₁, applyGraduated tiers q₁ = .ok amount₁ ∧ amount₁ ≤ amount₂ := by
  rw [validateTiers_eq_ok_iff] at hvalid
  rw [Int64.le_iff_toInt_le] at hq hq₁
  rw [Int64.toInt_zero] at hq₁
  obtain ⟨-, -, hamount₂⟩ := (applyGraduated_eq_ok_iff (hq₁.trans hq)).1 h₂
  have hmono := chargeOf_graduated_mono hvalid hprices hq
  obtain ⟨hcharge, hsums⟩ := sumsFrom_bounds (Int.le_refl 0)
    (graduatedParts_nonneg hvalid hprices (q := q₁.toInt))
  rw [Int.zero_add] at hcharge hsums
  -- every sum for `q₁` is between zero and the amount for `q₂`
  have hfits : ∀ n, 0 ≤ n ∧ n ≤ chargeOf (graduatedParts 0 tiers q₁.toInt) → FitsInt64 n := by
    rintro n ⟨hlow, hhigh⟩
    have := amount₂.toInt_le
    exact ⟨Int.le_trans (by decide) hlow, by omega⟩
  obtain ⟨amount₁, hamount₁⟩ := fitsInt64_iff.1 (hfits _ ⟨hcharge, Int.le_refl _⟩)
  refine ⟨amount₁, ?_, ?_⟩
  · rw [applyGraduated_eq_ok_iff hq₁]
    exact ⟨hvalid, fun n hn => hfits n (hsums n hn), hamount₁⟩
  · rw [Int64.le_iff_toInt_le]
    omega

theorem applyGraduated_mono_twoTier :
    ∃ amount, applyGraduated twoTierPrice.tiers 1000000000 = .ok amount ∧ amount ≤ 19 :=
  applyGraduated_mono (by decide +kernel) (by decide +kernel) (by decide) (by decide)
    (by decide +kernel : applyGraduated twoTierPrice.tiers 3000000000 = .ok 19)

/-! ### Rounding once -/

/-- The charge of a list of parts, not rounded. -/
def exactChargeOf (parts : List Part) : ℚ :=
  (parts.map Part.exact).sum

/-- The exact charge, in fractions of a micro-unit. -/
def exactUnits (parts : List Part) : Int :=
  (parts.map fun part => part.product + quantityFactor.toInt * part.flatFee).sum

/-- What the remainders leave when a whole micro-unit is taken for each product rounded up. -/
def leftOver (parts : List Part) : Int :=
  (parts.map Part.remainder).sum - quantityFactor.toInt * parts.countP Part.roundsUp

/-- The remainders, less a whole for each product rounded up, come to half a micro-unit at most,
and to just half of one only on the side towards zero. -/
def RemaindersCancel (parts : List Part) : Prop :=
  if exactUnits parts < 0 then
    -quantityFactor.toInt < 2 * leftOver parts ∧ 2 * leftOver parts ≤ quantityFactor.toInt
  else
    -quantityFactor.toInt ≤ 2 * leftOver parts ∧ 2 * leftOver parts < quantityFactor.toInt

instance (parts : List Part) : Decidable (RemaindersCancel parts) :=
  inferInstanceAs (Decidable (ite _ _ _))

theorem exactChargeOf_eq (parts : List Part) :
    exactChargeOf parts = (exactUnits parts : ℚ) / (quantityFactor.toInt : ℚ) := by
  have hfactor : (quantityFactor.toInt : ℚ) ≠ 0 := by decide +kernel
  induction parts with
  | nil =>
      simp [exactChargeOf, exactUnits]
  | cons part parts ih =>
      simp only [exactChargeOf, exactUnits, List.map_cons, List.sum_cons] at ih ⊢
      rw [ih, Part.exact, exactProduct, Part.product]
      push_cast
      field_simp

theorem roundedProduct_eq (part : Part) :
    roundedProduct part.portion part.unitPrice =
      part.product / quantityFactor.toInt + if part.roundsUp then 1 else 0 := by
  rw [roundedProduct, exactProduct, roundAway_div_emod _ (by decide), Part.roundsUp]
  simp only [decide_eq_true_eq]
  rfl

/-- What the charge leaves of the exact charge is what the remainders leave. -/
theorem exactUnits_sub (parts : List Part) :
    exactUnits parts - quantityFactor.toInt * chargeOf parts = leftOver parts := by
  induction parts with
  | nil => rfl
  | cons part parts ih =>
      have hdiv := Int.mul_ediv_add_emod part.product quantityFactor.toInt
      simp only [exactUnits, chargeOf, leftOver, List.map_cons, List.sum_cons, List.countP_cons,
        Part.charge, roundedProduct_eq, Part.remainder] at ih ⊢
      push_cast
      split_ifs <;> linarith

/-- The amount is the exact charge rounded once exactly if the remainders of the parts cancel. -/
theorem rounded_once_iff {price : Price} {q : Quantity} {amount : Amount} (hq : 0 ≤ q)
    (h : applyPrice price q = .ok amount) :
    (amount.toInt = roundAway (exactChargeOf (price.parts q.toInt)) ∧
        |exactChargeOf (price.parts q.toInt) - (amount.toInt : ℚ)| ≤ 1 / 2) ↔
      RemaindersCancel (price.parts q.toInt) := by
  rw [Int64.le_iff_toInt_le, Int64.toInt_zero] at hq
  obtain ⟨-, -, hamount⟩ := (applyPrice_iff hq).1 h
  have hround : amount.toInt = roundAway (exactChargeOf (price.parts q.toInt)) ↔
      RemaindersCancel (price.parts q.toInt) := by
    rw [eq_comm, exactChargeOf_eq, roundAway_div_eq_iff (by decide), hamount, exactUnits_sub,
      RemaindersCancel]
  rw [← hround, and_iff_left_iff_imp]
  intro heq
  rw [heq]
  exact abs_sub_roundAway_le _

/-- Two tiers of the same price with a bound at three tenths of a unit. -/
def unevenPrice : Price :=
  ⟨"calls", .graduated, 0, [⟨some 300000000, 1, 0⟩, ⟨none, 1, 0⟩]⟩

/-- One unit at a price of one costs one: three tenths are rounded down, and seven tenths up. -/
theorem rounded_once_uneven :
    (unevenPrice.parts 1000000000).map Part.remainder = [300000000, 700000000] ∧
      (unevenPrice.parts 1000000000).map Part.roundsUp = [false, true] ∧
      (1 : Amount).toInt = roundAway (exactChargeOf (unevenPrice.parts 1000000000)) ∧
      |exactChargeOf (unevenPrice.parts 1000000000) - ((1 : Amount).toInt : ℚ)| ≤ 1 / 2 :=
  ⟨by decide +kernel, by decide +kernel, (rounded_once_iff (by decide)
    (by decide +kernel : applyPrice unevenPrice 1000000000 = .ok 1)).2 (by decide +kernel)⟩

/-- Two tiers of the same price with a bound at half a unit. -/
def halvedPrice : Price :=
  ⟨"calls", .graduated, 0, [⟨some 500000000, 1, 0⟩, ⟨none, 1, 0⟩]⟩

/-- One unit at a price of one costs two: each half is rounded up. -/
theorem rounded_twice :
    applyPrice halvedPrice 1000000000 = .ok 2 ∧
      exactChargeOf (halvedPrice.parts 1000000000) = 1 ∧
      roundAway (exactChargeOf (halvedPrice.parts 1000000000)) ≠ 2 ∧
      ¬ |exactChargeOf (halvedPrice.parts 1000000000) - 2| ≤ 1 / 2 := by
  decide +kernel

end LedgerLine.Billing
