import DistributedMarket.Instruments
import DistributedMarket.Units

/-!
What the smallest legal fill costs.

The validators bound a quantity and a price one at a time, and the charge of
a fill is their product rounded to the nearest cent. Nothing relates the
smallest lot and the smallest tick to half a cent, so a fill that is legal
can round to nothing. Which ones do depends on the exact cost alone, and
whether an instrument admits any on its smallest fill: the least whole-lot
quantity in range at one tick.
-/

namespace DistributedMarket

open Lib

/-- The exact cost does not round to nothing. -/
def Charged (takerSide : Side) (exact : ℤ) : Prop :=
  priceScale < 2 * exact ∨ (2 * exact = priceScale ∧ takerSide = .BUY)

theorem Charged.mono {takerSide : Side} {exact exact' : ℤ} (h : Charged takerSide exact)
    (hle : exact ≤ exact') : Charged takerSide exact' := by
  rcases h with hmore | ⟨htie, hbuy⟩
  · exact Or.inl (by omega)
  · rcases hle.lt_or_eq with hlt | rfl
    · exact Or.inl (by omega)
    · exact Or.inr ⟨htie, hbuy⟩

theorem notionalCad_pos_iff {quantity price cost : ℤ} {takerSide : Side} (hquantity : 0 ≤ quantity)
    (hprice : 0 ≤ price) (hcost : notionalCad quantity price takerSide = .ok cost) :
    0 < cost ↔ Charged takerSide (quantity * price) := by
  rw [notionalCad_eq_ok hquantity hprice] at hcost
  rw [← Except.ok.inj hcost, Nearest.nearest_pos_iff _ priceScale_pos, Charged, decide_eq_true_iff]

namespace Instrument

/-- A fill both validators admit. -/
structure Legal (inst : Instrument) (quantity price : ℤ) : Prop where
  of_quantity : inst.validateQuantity quantity = .ok ()
  of_price : inst.validatePrice price = .ok ()

/-- The least whole-lot quantity that is not below the minimum. -/
def leastQuantity (self : Instrument) : ℤ := -(-self.minQty / self.lotSize) * self.lotSize

variable {inst : Instrument} {quantity price : ℤ}

theorem leastQuantity_le_iff (hlot : 0 < inst.lotSize) (hquantity : inst.lotSize ∣ quantity) :
    inst.leastQuantity ≤ quantity ↔ inst.minQty ≤ quantity := by
  obtain ⟨lots, rfl⟩ := hquantity
  rw [leastQuantity, mul_comm inst.lotSize, mul_le_mul_iff_left₀ hlot, neg_le,
    Int.le_ediv_iff_mul_le hlot, neg_mul, neg_le_neg_iff]

theorem minQty_le_leastQuantity (hlot : 0 < inst.lotSize) : inst.minQty ≤ inst.leastQuantity :=
  (leastQuantity_le_iff hlot (dvd_mul_left _ _)).mp le_rfl

theorem Legal.pos (h : inst.Legal quantity price) : 0 < quantity ∧ 0 < price :=
  ⟨(validateQuantity_eq_ok.mp h.of_quantity).1, (validatePrice_eq_ok.mp h.of_price).1⟩

/-- No legal fill is smaller. -/
theorem Legal.least_le (h : inst.Legal quantity price) (htick : 1 ≤ inst.tickSize)
    (hlot : 1 ≤ inst.lotSize) : inst.leastQuantity * inst.tickSize ≤ quantity * price := by
  obtain ⟨hquantity, -, hlots, hmin, -⟩ := validateQuantity_eq_ok.mp h.of_quantity
  obtain ⟨hprice, -, hticks⟩ := validatePrice_eq_ok.mp h.of_price
  calc
    inst.leastQuantity * inst.tickSize ≤ quantity * inst.tickSize :=
      mul_le_mul_of_nonneg_right ((leastQuantity_le_iff hlot hlots).mpr hmin) (by omega)
    _ ≤ quantity * price := mul_le_mul_of_nonneg_left (Int.le_of_dvd hprice hticks) hquantity.le

/-- The smallest fill is legal if it is in range. -/
theorem legal_least (htick : 1 ≤ inst.tickSize) (hlot : 1 ≤ inst.lotSize) (hmin : 1 ≤ inst.minQty)
    (hmax : inst.leastQuantity ≤ inst.maxQty) : inst.Legal inst.leastQuantity inst.tickSize := by
  have hleast : inst.minQty ≤ inst.leastQuantity := minQty_le_leastQuantity hlot
  refine ⟨validateQuantity_eq_ok.mpr ⟨?_, ?_, dvd_mul_left _ _, hleast, hmax⟩,
    validatePrice_eq_ok.mpr ⟨htick, ?_, dvd_rfl⟩⟩
  · omega
  · omega
  · omega

/-- **A legal fill is charged unless its exact cost rounds to nothing.** The
charge is never negative, and positive just where the exact cost is more than
half a cent, or half a cent with a buyer for taker. All legal fills are
charged where there are none, or where the smallest is. -/
theorem legal_fill_charged (inst : Instrument) (htick : 1 ≤ inst.tickSize)
    (hlot : 1 ≤ inst.lotSize) (hmin : 1 ≤ inst.minQty) (takerSide : Side) :
    (∀ quantity price, inst.Legal quantity price →
      ∃ cost, notionalCad quantity price takerSide = .ok cost ∧ 0 ≤ cost ∧
        (0 < cost ↔ Charged takerSide (quantity * price))) ∧
    ((∀ quantity price cost, inst.Legal quantity price →
        notionalCad quantity price takerSide = .ok cost → 0 < cost) ↔
      inst.maxQty < inst.leastQuantity ∨
        Charged takerSide (inst.leastQuantity * inst.tickSize)) := by
  refine ⟨fun quantity price hlegal => ?_, fun h => ?_, fun h quantity price cost hlegal hcost => ?_⟩
  · obtain ⟨hquantity, hprice⟩ := hlegal.pos
    have hcost := notionalCad_eq_ok hquantity.le hprice.le takerSide
    exact ⟨_, hcost,
      Nearest.nearest_nonneg _ priceScale_pos (mul_nonneg hquantity.le hprice.le),
      notionalCad_pos_iff hquantity.le hprice.le hcost⟩
  · rw [or_iff_not_imp_left, not_lt]
    intro hmax
    have hleast := legal_least htick hlot hmin hmax
    obtain ⟨hquantity, hprice⟩ := hleast.pos
    have hcost := notionalCad_eq_ok hquantity.le hprice.le takerSide
    exact (notionalCad_pos_iff hquantity.le hprice.le hcost).mp (h _ _ _ hleast hcost)
  · obtain ⟨hquantity, hprice⟩ := hlegal.pos
    rw [notionalCad_pos_iff hquantity.le hprice.le hcost]
    rcases h with hnone | hcharged
    · obtain ⟨-, -, hlots, hmin', hmax⟩ := validateQuantity_eq_ok.mp hlegal.of_quantity
      exact absurd (((leastQuantity_le_iff hlot hlots).mpr hmin').trans hmax) hnone.not_ge
    · exact hcharged.mono (hlegal.least_le htick hlot)

/-- The shipped instrument admits fills that are not charged. -/
theorem usdcad_fill_uncharged :
    ¬ ∀ quantity price cost, usdcad.Legal quantity price →
      notionalCad quantity price .BUY = .ok cost → 0 < cost := by
  intro h
  rcases (legal_fill_charged usdcad (by decide) (by decide) (by decide) .BUY).2.mp h with
    hnone | hmore | ⟨htie, -⟩
  · exact absurd hnone (by decide)
  · exact absurd hmore (by decide)
  · exact absurd htie (by decide)

/-- One dollar at one tick changes hands for nothing. -/
theorem usdcad_moves_dollars_for_nothing :
    ¬ ∀ (symbol : String) (raw : Dict) (inst : Instrument) (quantity price : ℤ) (takerSide : Side),
      fromDict symbol raw = .ok inst → 1 ≤ inst.tickSize → 1 ≤ inst.lotSize → 1 ≤ inst.minQty →
      inst.validateQuantity quantity = .ok () → inst.validatePrice price = .ok () →
      ∃ cost, notionalCad quantity price takerSide = .ok cost ∧ 0 < cost := by
  intro h
  obtain ⟨cost, hcost, hpos⟩ := h "USDCAD" usdcadConfig usdcad 100 1 .BUY fromDict_usdcadConfig
    (by decide) (by decide) (by decide) rfl rfl
  have hzero : notionalCad 100 1 .BUY = .ok 0 := rfl
  obtain rfl := Except.ok.inj (hcost.symm.trans hzero)
  contradiction

end Instrument

end DistributedMarket
