import DistributedMarket.Spending

/-!
What a fill costs.

The charge of a fill is its exact cost rounded to the nearest cent, with the
tie against the taker: `Nearest.nearest` at the price scale. What follows
are the rounding laws in the terms of the taker: which cents a fill can be
charged, that a better price is never dearer, and how far a quantity that is
filled in pieces can drift from the same quantity filled at once.
-/

namespace DistributedMarket

open Lib

section

variable {quantity price : ℤ}

theorem notionalCad_raises_iff {takerSide : Side} :
    RaisesValueError (notionalCad quantity price takerSide) ↔ quantity < 0 ∨ price < 0 := by
  refine ⟨?_, ?_⟩
  · rintro ⟨message, hraise⟩
    by_contra hnonneg
    push Not at hnonneg
    rw [notionalCad_eq_ok hnonneg.1 hnonneg.2] at hraise
    contradiction
  · intro hneg
    exact ⟨_, if_pos hneg⟩

/-- More of it, at a higher price, costs no less. -/
theorem notionalCad_mono (takerSide : Side) {quantity' price' : ℤ} (hquantity : 0 ≤ quantity)
    (hquantity' : quantity ≤ quantity') (hprice : 0 ≤ price) (hprice' : price ≤ price') :
    ∃ cost cost', notionalCad quantity price takerSide = .ok cost ∧
      notionalCad quantity' price' takerSide = .ok cost' ∧ cost ≤ cost' := by
  refine ⟨_, _, notionalCad_eq_ok hquantity hprice takerSide,
    notionalCad_eq_ok (hquantity.trans hquantity') (hprice.trans hprice') takerSide, ?_⟩
  apply Nearest.nearest_mono _ priceScale_pos
  exact mul_le_mul hquantity' hprice' hprice (hquantity.trans hquantity')

end

/-- **The charge is the nearest cent, with ties against the taker.** It is
raised on exactly the negative arguments; otherwise the buyer pays the
rounding of the exact cost with ties up, the seller gets the one with ties
down, and the two differ in the ties alone. -/
theorem notionalCad_nearest (quantity price : ℤ) :
    (∀ takerSide, RaisesValueError (notionalCad quantity price takerSide) ↔
      quantity < 0 ∨ price < 0) ∧
    (¬ (quantity < 0 ∨ price < 0) → ∃ bought sold,
      notionalCad quantity price .BUY = .ok bought ∧
      notionalCad quantity price .SELL = .ok sold ∧
      bought = ⌊((2 * (quantity * price : ℤ) + priceScale : ℚ) / (2 * priceScale))⌋ ∧
      sold = ⌈((2 * (quantity * price : ℤ) - priceScale : ℚ) / (2 * priceScale))⌉ ∧
      |bought * priceScale - quantity * price| * 2 ≤ priceScale ∧
      |sold * priceScale - quantity * price| * 2 ≤ priceScale ∧
      bought - sold =
        if 2 * (quantity * price) ≡ priceScale [ZMOD 2 * priceScale] then 1 else 0) := by
  refine ⟨fun takerSide => notionalCad_raises_iff, fun hnonneg => ?_⟩
  push Not at hnonneg
  have herror : ∀ up, |Nearest.nearest up priceScale (quantity * price) * priceScale -
      quantity * price| * 2 ≤ priceScale := by
    intro up
    obtain ⟨hlow, hhigh⟩ := Nearest.nearest_error (x := quantity * price) up priceScale_pos
    rw [← abs_two, ← abs_mul, abs_le, mul_comm _ (2 : ℤ)]
    exact ⟨hlow, hhigh⟩
  refine ⟨_, _, notionalCad_eq_ok hnonneg.1 hnonneg.2 .BUY,
    notionalCad_eq_ok hnonneg.1 hnonneg.2 .SELL, ?_, ?_, herror _, herror _, ?_⟩
  · exact Nearest.nearest_up_eq_floor priceScale_pos
  · exact Nearest.nearest_down_eq_ceil priceScale_pos
  · exact Nearest.nearest_up_sub_down priceScale_pos

/-- The tie of the documentation: 138 cents for the buyer, 137 for the
seller. -/
theorem notionalCad_nearest_at_tie :
    ∃ bought sold : ℤ, notionalCad 100 137500 .BUY = .ok bought ∧
      notionalCad 100 137500 .SELL = .ok sold ∧ bought - sold = 1 := by
  obtain ⟨bought, sold, hbought, hsold, -, -, -, -, hdiff⟩ :=
    (notionalCad_nearest 100 137500).2 (by decide)
  exact ⟨bought, sold, hbought, hsold, hdiff.trans (if_pos (by decide))⟩

/-! ### Limit prices -/

namespace Order

variable {o : Order} {limit makerPrice : ℤ}

theorem crosses_buy (hlimit : o.price = some limit) (hside : o.side = .BUY) :
    o.crosses makerPrice = true ↔ makerPrice ≤ limit := by
  simp [crosses, hlimit, hside]

theorem crosses_sell (hlimit : o.price = some limit) (hside : o.side = .SELL) :
    o.crosses makerPrice = true ↔ limit ≤ makerPrice := by
  simp [crosses, hlimit, hside]

/-- A buyer pays no more for a fill than at its limit, a seller gets no
less. -/
theorem charge_of_crosses {quantity : ℤ} (hlimit : o.price = some limit) (hnonneg : 0 ≤ limit)
    (hmaker : 0 ≤ makerPrice) (hcrosses : o.crosses makerPrice = true) (hquantity : 0 ≤ quantity) :
    ∃ charge bound, notionalCad quantity makerPrice o.side = .ok charge ∧
      notionalCad quantity limit o.side = .ok bound ∧
      (o.side = .BUY → charge ≤ bound) ∧ (o.side = .SELL → bound ≤ charge) := by
  cases hside : o.side with
  | BUY =>
      rw [crosses_buy hlimit hside] at hcrosses
      obtain ⟨charge, bound, hcharge, hbound, hle⟩ :=
        notionalCad_mono .BUY hquantity le_rfl hmaker hcrosses
      exact ⟨charge, bound, hcharge, hbound, fun _ => hle, by simp⟩
  | SELL =>
      rw [crosses_sell hlimit hside] at hcrosses
      obtain ⟨bound, charge, hbound, hcharge, hle⟩ :=
        notionalCad_mono .SELL hquantity le_rfl hnonneg hcrosses
      exact ⟨charge, bound, hcharge, hbound, by simp, fun _ => hle⟩

/-- Whether two limit orders on opposite sides trade does not depend on
which of them came first. -/
theorem crosses_symm {t m : Order} {tprice mprice : ℤ} (ht : t.price = some tprice)
    (hm : m.price = some mprice) (hsides : t.side ≠ m.side) :
    t.crosses mprice = m.crosses tprice := by
  rw [Bool.eq_iff_iff]
  cases htside : t.side with
  | BUY =>
      cases hmside : m.side with
      | BUY => exact absurd (htside.trans hmside.symm) hsides
      | SELL => rw [crosses_buy ht htside, crosses_sell hm hmside]
  | SELL =>
      cases hmside : m.side with
      | BUY => rw [crosses_sell ht htside, crosses_buy hm hmside]
      | SELL => exact absurd (htside.trans hmside.symm) hsides

/-- `gtcLimit` with a seller on the other side. -/
def gtcSell : Order where
  toOrderFields := { gtcLimit.toOrderFields with side := .SELL, price := some 137490 }
  admitted := rfl

end Order

/-- **A limit is a limit in money.** The charge is monotone in quantity and
price together, so a fill at a price the order crosses is never worse, in
cents, than one at its limit; and crossing is symmetric between the two
sides. -/
theorem limit_protects_money :
    (∀ (takerSide : Side) (q₁ q₂ p₁ p₂ : ℤ), 0 ≤ q₁ → q₁ ≤ q₂ → 0 ≤ p₁ → p₁ ≤ p₂ →
      ∃ cost₁ cost₂, notionalCad q₁ p₁ takerSide = .ok cost₁ ∧
        notionalCad q₂ p₂ takerSide = .ok cost₂ ∧ cost₁ ≤ cost₂) ∧
    (∀ (o : Order) (limit makerPrice quantity : ℤ), o.orderType = .LIMIT →
      o.price = some limit → 0 ≤ limit → 0 ≤ makerPrice → o.crosses makerPrice = true →
      0 ≤ quantity → ∃ charge bound, notionalCad quantity makerPrice o.side = .ok charge ∧
        notionalCad quantity limit o.side = .ok bound ∧
        (o.side = .BUY → charge ≤ bound) ∧ (o.side = .SELL → bound ≤ charge)) ∧
    (∀ (t m : Order) (tprice mprice : ℤ), t.orderType = .LIMIT → m.orderType = .LIMIT →
      t.price = some tprice → m.price = some mprice → t.side ≠ m.side →
      (t.crosses mprice = true ↔ m.crosses tprice = true)) := by
  refine ⟨?_, ?_, ?_⟩
  · intro takerSide q₁ q₂ p₁ p₂ hq₁ hq₂ hp₁ hp₂
    exact notionalCad_mono takerSide hq₁ hq₂ hp₁ hp₂
  · intro o limit makerPrice quantity _ hlimit hnonneg hmaker hcrosses hquantity
    exact Order.charge_of_crosses hlimit hnonneg hmaker hcrosses hquantity
  · intro t m tprice mprice _ _ ht hm hsides
    rw [Order.crosses_symm ht hm hsides]

/-- A buyer at 137500 ticks meets a seller at 137490. -/
theorem limit_protects_money_of_gtcLimit :
    (∃ cost₁ cost₂, notionalCad 100 137490 .SELL = .ok cost₁ ∧
      notionalCad 200 137500 .SELL = .ok cost₂ ∧ cost₁ ≤ cost₂) ∧
    (∃ charge bound, notionalCad 100 137490 .BUY = .ok charge ∧
      notionalCad 100 137500 .BUY = .ok bound ∧
      (Order.gtcLimit.side = .BUY → charge ≤ bound) ∧
      (Order.gtcLimit.side = .SELL → bound ≤ charge)) ∧
    (Order.gtcLimit.crosses 137490 = true ↔ Order.gtcSell.crosses 137500 = true) :=
  ⟨limit_protects_money.1 .SELL 100 200 137490 137500 (by decide) (by decide) (by decide)
      (by decide),
    limit_protects_money.2.1 Order.gtcLimit 137500 137490 100 rfl rfl (by decide) (by decide)
      rfl (by decide),
    limit_protects_money.2.2 Order.gtcLimit Order.gtcSell 137500 137490 rfl rfl rfl rfl
      (by decide)⟩

/-! ### Fills in pieces -/

/-- What a taker on `takerSide` is charged for each of the fills. -/
def chargesOf (takerSide : Side) (fills : List Fill) : Except PyErr (List ℤ) :=
  fills.mapM fun fill => notionalCad fill.quantity fill.price takerSide

/-- The exact cost of a fill, in hundred-thousandths of a cent. -/
def Fill.cost (fill : Fill) : ℤ := fill.quantity * fill.price

theorem chargesOf_eq_ok (takerSide : Side) {fills : List Fill}
    (h : ∀ fill ∈ fills, 0 ≤ fill.quantity ∧ 0 ≤ fill.price) :
    chargesOf takerSide fills =
      .ok ((fills.map Fill.cost).map (Nearest.nearest (takerSide = .BUY) priceScale)) := by
  induction fills with
  | nil => rfl
  | cons fill fills ih =>
      obtain ⟨hquantity, hprice⟩ := h fill List.mem_cons_self
      have hrest := ih fun fill' hmem => h fill' (List.mem_cons_of_mem _ hmem)
      unfold chargesOf at hrest ⊢
      rw [List.mapM_cons, notionalCad_eq_ok hquantity hprice, hrest]
      rfl

theorem sum_cost_of_price {fills : List Fill} {price : ℤ} (h : ∀ fill ∈ fills, fill.price = price) :
    (fills.map Fill.cost).sum = (fills.map Fill.quantity).sum * price := by
  induction fills with
  | nil => simp
  | cons fill fills ih =>
      have hrest := ih fun fill' hmem => h fill' (List.mem_cons_of_mem _ hmem)
      simp only [List.map_cons, List.sum_cons, hrest, Fill.cost, h fill List.mem_cons_self]
      ring

/-- A cent's worth of half cents: each of the fills is a tie. -/
def halfCent : Fill := ⟨1, 50000⟩

theorem halfCent_sum_charges (takerSide : Side) (k : ℕ) :
    (((List.replicate (k + k) halfCent).map Fill.cost).map
      (Nearest.nearest (takerSide = .BUY) priceScale)).sum =
        if takerSide = .BUY then (k + k : ℤ) else 0 := by
  rw [List.map_replicate, List.map_replicate, List.sum_replicate, nsmul_eq_mul]
  cases takerSide with
  | BUY =>
      rw [show Nearest.nearest (Side.BUY = .BUY) priceScale halfCent.cost = 1 by decide]
      simp
  | SELL =>
      rw [show Nearest.nearest (Side.SELL = .BUY) priceScale halfCent.cost = 0 by decide]
      simp

theorem halfCent_whole (takerSide : Side) (k : ℕ) :
    notionalCad ((List.replicate (k + k) halfCent).map Fill.quantity).sum 50000 takerSide =
      .ok k := by
  have hquantity : ((List.replicate (k + k) halfCent).map Fill.quantity).sum = (k + k : ℤ) := by
    rw [List.map_replicate, List.sum_replicate, nsmul_eq_mul]
    simp [halfCent]
  rw [hquantity, notionalCad_eq_ok (by omega) (by decide)]
  congr 1
  rw [Nearest.nearest_eq_iff priceScale_pos]
  have hexact : (k : ℤ) * priceScale - (k + k) * 50000 = 0 := by
    rw [show priceScale = 100000 from rfl]
    ring
  rw [hexact]
  cases takerSide with
  | BUY => exact Nearest.within_up.mpr ⟨by decide, by decide⟩
  | SELL => exact Nearest.within_down.mpr ⟨by decide, by decide⟩

/-- **Splitting a fill shifts its cost by at most half a cent a piece.** The
charges of any fills are that close to the exact cost; pieces at one price
are that close to the charge of the whole; and ties make the second bound
sharp for every even number of pieces. -/
theorem split_fill_drift (takerSide : Side) :
    (∀ fills : List Fill, (∀ fill ∈ fills, 0 ≤ fill.quantity ∧ 0 ≤ fill.price) →
      ∃ charges, chargesOf takerSide fills = .ok charges ∧
        2 * |priceScale * charges.sum - (fills.map Fill.cost).sum| ≤ fills.length * priceScale ∧
        ∀ price, 0 ≤ price → (∀ fill ∈ fills, fill.price = price) →
          ∃ whole, notionalCad (fills.map Fill.quantity).sum price takerSide = .ok whole ∧
            2 * |charges.sum - whole| ≤ fills.length) ∧
    (∀ n : ℕ, Even n → ∃ (fills : List Fill) (price : ℤ) (charges : List ℤ) (whole : ℤ),
      fills.length = n ∧ (∀ fill ∈ fills, 0 ≤ fill.quantity ∧ 0 ≤ fill.price) ∧
        (∀ fill ∈ fills, fill.price = price) ∧ chargesOf takerSide fills = .ok charges ∧
        notionalCad (fills.map Fill.quantity).sum price takerSide = .ok whole ∧
        2 * |charges.sum - whole| = n) := by
  refine ⟨?_, ?_⟩
  · intro fills hnonneg
    refine ⟨_, chargesOf_eq_ok takerSide hnonneg,
      Nearest.sum_nearest_error _ priceScale_pos (fills.map Fill.cost) |>.trans_eq ?_, ?_⟩
    · rw [List.length_map]
    · intro price hprice hone
      have hquantity : 0 ≤ (fills.map Fill.quantity).sum := by
        apply List.sum_nonneg
        intro quantity hmem
        obtain ⟨fill, hfill, rfl⟩ := List.mem_map.mp hmem
        exact (hnonneg fill hfill).1
      refine ⟨_, notionalCad_eq_ok hquantity hprice takerSide, ?_⟩
      rw [← sum_cost_of_price hone]
      refine (Nearest.sum_nearest_sub_nearest_sum _ priceScale_pos _).trans_eq ?_
      rw [List.length_map]
  · rintro n ⟨k, rfl⟩
    have hfill : ∀ fill ∈ List.replicate (k + k) halfCent, fill = halfCent := fun fill hmem =>
      List.eq_of_mem_replicate hmem
    have hnonneg : ∀ fill ∈ List.replicate (k + k) halfCent,
        0 ≤ fill.quantity ∧ 0 ≤ fill.price := by
      intro fill hmem
      rw [hfill fill hmem]
      decide
    refine ⟨_, 50000, _, _, List.length_replicate, hnonneg, ?_,
      chargesOf_eq_ok takerSide hnonneg, halfCent_whole takerSide k, ?_⟩
    · intro fill hmem
      rw [hfill fill hmem]
      rfl
    · rw [halfCent_sum_charges]
      split
      · rw [add_sub_cancel_right, abs_of_nonneg (by omega)]
        omega
      · rw [zero_sub, abs_neg, abs_of_nonneg (by omega)]
        omega

/-- A tie and a price off the tie, in two pieces; and two pieces of one
tie. -/
theorem split_fill_drift_two_pieces :
    (∃ charges, chargesOf .SELL [⟨100, 137500⟩, ⟨100, 137510⟩] = .ok charges ∧
      2 * |priceScale * charges.sum - 27501000| ≤ 2 * priceScale) ∧
    ∃ (fills : List Fill) (price : ℤ) (charges : List ℤ) (whole : ℤ), fills.length = 2 ∧
      (∀ fill ∈ fills, 0 ≤ fill.quantity ∧ 0 ≤ fill.price) ∧
      (∀ fill ∈ fills, fill.price = price) ∧ chargesOf .SELL fills = .ok charges ∧
      notionalCad (fills.map Fill.quantity).sum price .SELL = .ok whole ∧
      2 * |charges.sum - whole| = (2 : ℕ) := by
  obtain ⟨charges, hcharges, hdrift, -⟩ :=
    (split_fill_drift .SELL).1 [⟨100, 137500⟩, ⟨100, 137510⟩] (by decide)
  exact ⟨⟨charges, hcharges, hdrift⟩, (split_fill_drift .SELL).2 2 (by decide)⟩

end DistributedMarket
