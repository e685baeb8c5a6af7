import DistributedMarket.Lifecycle
import DistributedMarket.Units

/-!
The spending limit of a market buy.

Such an order carries the cents reserved for it, and each of its fills is
clamped to what is left of them. The clamp floors the exact quotient twice
and the charge is rounded to the nearest cent, so what has to be shown is
that no rounding takes a charge over the budget of its fill
(`charge_le_budget`); the limit over a whole run is then an induction.
-/

namespace DistributedMarket

open Lib

/-- A fill, in USD cents, at a price in ticks. -/
structure Fill where
  quantity : ℤ
  price : ℤ
  deriving DecidableEq, Repr

/-- What a market buy is charged for a fill. -/
def Fill.charge (fill : Fill) : Except PyErr ℤ := notionalCad fill.quantity fill.price .BUY

/-- Fills that keep to the order's remaining quantity and to the clamp, each
with the budget the charges before it have left. -/
inductive Clamped (lotSize : ℤ) : ℤ → ℤ → List Fill → Prop
  | nil {remaining budget : ℤ} : Clamped lotSize remaining budget []
  | cons {remaining budget : ℤ} {fill : Fill} {fills : List Fill}
      (hprice : 0 < fill.price) (hpos : 0 < fill.quantity) (hfits : fill.quantity ≤ remaining)
      (hclamp : ∀ most, affordableQuantity budget fill.price lotSize = .ok most →
        fill.quantity ≤ most)
      (hrest : ∀ cost, fill.charge = .ok cost →
        Clamped lotSize (remaining - fill.quantity) (budget - cost) fills) :
      Clamped lotSize remaining budget (fill :: fills)

/-- A fill within the clamp is charged no more than its budget. -/
theorem charge_le_budget {lotSize budget : ℤ} {fill : Fill} (hlot : 0 < lotSize)
    (hprice : 0 < fill.price) (hpos : 0 < fill.quantity)
    (hclamp : ∀ most, affordableQuantity budget fill.price lotSize = .ok most →
      fill.quantity ≤ most) :
    ∃ cost, fill.charge = .ok cost ∧ cost ≤ budget := by
  have hmost := hclamp _ (affordableQuantity_eq_ok hprice hlot)
  have hfloor : fill.quantity ≤ budget * priceScale / fill.price := by
    have hmod := Int.emod_nonneg (budget * priceScale / fill.price) hlot.ne'
    omega
  have hcost : fill.quantity * fill.price ≤ budget * priceScale :=
    (Int.le_ediv_iff_mul_le hprice).mp hfloor
  refine ⟨_, notionalCad_eq_ok hpos.le hprice.le .BUY, ?_⟩
  exact Nearest.nearest_le_of_le _ priceScale_pos hcost

/-- A fill within the remaining quantity succeeds. -/
theorem Order.fill_of_le_remaining {o : Order} {quantity : ℤ} (hpos : 0 < quantity)
    (hfits : quantity ≤ o.remaining) :
    ∃ o', o.fill quantity = .ok o' ∧ o'.remaining = o.remaining - quantity := by
  have hguard : o.Guard (.fill quantity) := ⟨hpos, hfits⟩
  refine ⟨_, apply_of_guard hguard, ?_⟩
  simp only [Order.remaining, after]
  omega

/-- The run lemma: from any order and any budget that is not negative. -/
theorem Clamped.spending {lotSize remaining budget : ℤ} {fills : List Fill} (hlot : 0 < lotSize)
    (h : Clamped lotSize remaining budget fills) (hbudget : 0 ≤ budget) :
    ∀ o : Order, o.remaining = remaining →
      ∃ o' charges, fills.foldlM (fun o fill => o.fill fill.quantity) o = .ok o' ∧
        fills.mapM Fill.charge = .ok charges ∧
        ∀ k, 0 ≤ budget - (charges.take k).sum := by
  induction h with
  | nil =>
      intro o _
      exact ⟨o, [], rfl, rfl, by simpa using hbudget⟩
  | cons hprice hpos hfits hclamp hrest ih =>
      rintro o rfl
      obtain ⟨cost, hcharge, hle⟩ := charge_le_budget hlot hprice hpos hclamp
      obtain ⟨u, hfill, hremaining⟩ := Order.fill_of_le_remaining hpos hfits
      obtain ⟨o', charges, hfills, hcharges, hspent⟩ :=
        ih cost hcharge (sub_nonneg.mpr hle) u hremaining
      refine ⟨o', cost :: charges, ?_, ?_, ?_⟩
      · rw [List.foldlM_cons, hfill]
        exact hfills
      · rw [List.mapM_cons, hcharge, hcharges]
        rfl
      · intro k
        cases k with
        | zero => simpa using hbudget
        | succ k =>
            have hk := hspent k
            rw [List.take_succ_cons, List.sum_cons]
            omega

/-- A market buy with `reserved` cents locked for it. -/
structure Order.MarketBuy (o : Order) (reserved : ℤ) : Prop where
  orderType : o.orderType = .MARKET
  side : o.side = .BUY
  reservedCad : o.reservedCad = some reserved
  reserved_nonneg : 0 ≤ reserved

/-- **The clamp is a hard spending limit.** Every fill succeeds, the budget
is never negative on the way, and the charges together keep within the
reservation. -/
theorem spending_within_reservation {o : Order} {lotSize reserved : ℤ} {fills : List Fill}
    (hbuy : o.MarketBuy reserved) (hlot : 0 < lotSize)
    (hfills : Clamped lotSize o.remaining reserved fills) :
    ∃ o' charges, fills.foldlM (fun o fill => o.fill fill.quantity) o = .ok o' ∧
      fills.mapM Fill.charge = .ok charges ∧
      (∀ k, 0 ≤ reserved - (charges.take k).sum) ∧ charges.sum ≤ reserved := by
  obtain ⟨o', charges, hrun, hcharges, hspent⟩ :=
    hfills.spending hlot hbuy.reserved_nonneg o rfl
  refine ⟨o', charges, hrun, hcharges, hspent, ?_⟩
  have hall := hspent charges.length
  rw [List.take_length] at hall
  omega

/-- `marketBuy` with six hundred dollars behind it. -/
def reservedBuy : Order where
  toOrderFields := { Order.marketBuy.toOrderFields with reservedCad := some 60000 }
  admitted := rfl

theorem clamped_two_fills :
    Clamped 100 reservedBuy.remaining 60000 [⟨40000, 137520⟩, ⟨4900, 100000⟩] := by
  apply Clamped.cons (by decide) (by decide) (by decide)
  · rintro most hmost
    cases hmost
    decide
  · rintro cost hcost
    cases hcost
    apply Clamped.cons (by decide) (by decide) (by decide)
    · rintro most hmost
      cases hmost
      decide
    · intro cost hcost
      exact Clamped.nil

theorem spending_of_two_fills :
    ∃ o' charges, [⟨40000, 137520⟩, ⟨4900, 100000⟩].foldlM
        (fun (o : Order) (fill : Fill) => o.fill fill.quantity) reservedBuy = .ok o' ∧
      [⟨40000, 137520⟩, ⟨4900, 100000⟩].mapM Fill.charge = .ok charges ∧
      (∀ k, 0 ≤ 60000 - (charges.take k).sum) ∧ charges.sum ≤ 60000 :=
  spending_within_reservation ⟨rfl, rfl, rfl, by decide⟩ (by decide) clamped_two_fills

end DistributedMarket
