import DistributedMarket.Units

/-!
What a reservation can buy.

`affordableQuantity` divides the reservation by the price and rounds down to
a whole lot. Both roundings are floors, so together they pick the greatest
multiple of the lot whose exact cost the reservation covers; nothing is lost
between them. The charge of a fill is rounded to the nearest cent and may
fall below its exact cost, which is how a further lot can be payable that
the clamp leaves out. It is at most one, as soon as a lot costs half a cent.
-/

namespace DistributedMarket

open Lib

section

variable {reservedCad price lotSize quantity : ℤ}

/-- The greatest number of whole lots in `x`. -/
theorem le_wholeLots_iff (x : ℤ) (hlot : 0 < lotSize) (hquantity : lotSize ∣ quantity) :
    quantity ≤ x - x % lotSize ↔ quantity ≤ x := by
  have hmod := Int.emod_nonneg x hlot.ne'
  have hwhole : x / lotSize * lotSize = x - x % lotSize := by
    rw [eq_sub_iff_add_eq]
    exact Int.ediv_mul_add_emod x lotSize
  refine ⟨fun hle => by omega, fun hle => ?_⟩
  obtain ⟨lots, rfl⟩ := hquantity
  rw [mul_comm] at hle ⊢
  have hlots : lots ≤ x / lotSize := (Int.le_ediv_iff_mul_le hlot).mpr hle
  calc
    lots * lotSize ≤ x / lotSize * lotSize := mul_le_mul_of_nonneg_right hlots hlot.le
    _ = x - x % lotSize := hwhole

/-- The clamp is the greatest whole-lot quantity by exact cost. -/
theorem affordableQuantity_spec (reservedCad : ℤ) (hprice : 0 < price) (hlot : 0 < lotSize) :
    ∃ most, affordableQuantity reservedCad price lotSize = .ok most ∧ lotSize ∣ most ∧
      ∀ quantity, lotSize ∣ quantity →
        (quantity ≤ most ↔ quantity * price ≤ reservedCad * priceScale) := by
  refine ⟨_, affordableQuantity_eq_ok hprice hlot, Int.dvd_self_sub_emod, ?_⟩
  intro quantity hquantity
  rw [le_wholeLots_iff _ hlot hquantity, Int.le_ediv_iff_mul_le hprice]

end

/-- **The clamp is exact.** It is a whole number of lots, the greatest whose
exact cost the reservation covers; so it grows with the reservation, falls
with the price and is not negative when the reservation is not. -/
theorem affordableQuantity_greatest {lotSize : ℤ} (hlot : 0 < lotSize) :
    (∀ reservedCad price : ℤ, 0 < price →
      ∃ most, affordableQuantity reservedCad price lotSize = .ok most ∧ lotSize ∣ most ∧
        (∀ quantity, lotSize ∣ quantity →
          (quantity ≤ most ↔ quantity * price ≤ reservedCad * priceScale)) ∧
        (0 ≤ reservedCad → 0 ≤ most)) ∧
    (∀ reservedCad reservedCad' price most most' : ℤ, 0 < price → reservedCad ≤ reservedCad' →
      affordableQuantity reservedCad price lotSize = .ok most →
      affordableQuantity reservedCad' price lotSize = .ok most' → most ≤ most') ∧
    (∀ reservedCad price price' most most' : ℤ, 0 ≤ reservedCad → 0 < price → price ≤ price' →
      affordableQuantity reservedCad price lotSize = .ok most →
      affordableQuantity reservedCad price' lotSize = .ok most' → most' ≤ most) := by
  refine ⟨?_, ?_, ?_⟩
  · intro reservedCad price hprice
    obtain ⟨most, hmost, hlots, hgreatest⟩ := affordableQuantity_spec reservedCad hprice hlot
    refine ⟨most, hmost, hlots, hgreatest, fun hreserved => ?_⟩
    rw [hgreatest 0 (dvd_zero _), zero_mul]
    exact mul_nonneg hreserved priceScale_pos.le
  · intro reservedCad reservedCad' price most most' hprice hle hmost hmost'
    obtain ⟨_, heq, hlots, hgreatest⟩ := affordableQuantity_spec reservedCad hprice hlot
    obtain rfl := Except.ok.inj (hmost.symm.trans heq)
    obtain ⟨_, heq', -, hgreatest'⟩ := affordableQuantity_spec reservedCad' hprice hlot
    obtain rfl := Except.ok.inj (hmost'.symm.trans heq')
    rw [hgreatest' most hlots]
    calc
      most * price ≤ reservedCad * priceScale := (hgreatest most hlots).mp le_rfl
      _ ≤ reservedCad' * priceScale := mul_le_mul_of_nonneg_right hle priceScale_pos.le
  · intro reservedCad price price' most most' hreserved hprice hle hmost hmost'
    obtain ⟨_, heq, hlots, hgreatest⟩ := affordableQuantity_spec reservedCad hprice hlot
    obtain rfl := Except.ok.inj (hmost.symm.trans heq)
    obtain ⟨_, heq', hlots', hgreatest'⟩ :=
      affordableQuantity_spec reservedCad (hprice.trans_le hle) hlot
    obtain rfl := Except.ok.inj (hmost'.symm.trans heq')
    have hnonneg : 0 ≤ most' := by
      rw [hgreatest' 0 (dvd_zero _), zero_mul]
      exact mul_nonneg hreserved priceScale_pos.le
    rw [hgreatest most' hlots']
    calc
      most' * price ≤ most' * price' := mul_le_mul_of_nonneg_left hle hnonneg
      _ ≤ reservedCad * priceScale := (hgreatest' most' hlots').mp le_rfl

/-- A test of the repository, and a reservation that buys nothing. -/
theorem affordableQuantity_greatest_lot :
    (∃ most, affordableQuantity 10000000 137520 100 = .ok most ∧ (100 : ℤ) ∣ most ∧
      (∀ quantity : ℤ, 100 ∣ quantity →
        (quantity ≤ most ↔ quantity * 137520 ≤ 10000000 * priceScale)) ∧
      ((0 : ℤ) ≤ 10000000 → 0 ≤ most)) ∧ (-7300 : ℤ) ≤ 7271600 :=
  have h := @affordableQuantity_greatest 100 (by decide)
  ⟨h.1 10000000 137520 (by decide),
    h.2.1 (-10000) 10000000 137520 (-7300) 7271600 (by decide) (by decide) rfl rfl⟩

/-- A lot beyond the clamp costs more than the reservation. -/
theorem next_lot_exceeds {reservedCad price lotSize most : ℤ} (hlot : 0 < lotSize)
    (hlots : lotSize ∣ most)
    (hgreatest : ∀ quantity, lotSize ∣ quantity →
      (quantity ≤ most ↔ quantity * price ≤ reservedCad * priceScale)) :
    reservedCad * priceScale < (most + lotSize) * price := by
  by_contra hcovered
  have hle := (hgreatest (most + lotSize) (dvd_add hlots dvd_rfl)).mpr (not_lt.mp hcovered)
  omega

/-- A payable charge is at most half a cent below the exact cost. -/
theorem cost_of_payable {reservedCad price quantity cost : ℤ} (hprice : 0 ≤ price)
    (hquantity : 0 ≤ quantity) (hcost : notionalCad quantity price .BUY = .ok cost)
    (hpayable : cost ≤ reservedCad) :
    2 * (quantity * price) < 2 * (reservedCad * priceScale) + priceScale := by
  rw [notionalCad_eq_ok hquantity hprice] at hcost
  obtain rfl := Except.ok.inj hcost
  have herror := (Nearest.within_up.mp
    (Nearest.nearest_within (Side.BUY = .BUY) (quantity * price) priceScale_pos)).1
  have hcovered := mul_le_mul_of_nonneg_right hpayable priceScale_pos.le
  linarith

/-- **The clamp leaves at most one payable lot unbought.** A whole-lot
quantity whose charge the reservation covers goes beyond the clamp and a
further lot by less than half a cent's worth; so not at all, once a lot is
worth half a cent. -/
theorem clamp_leaves_one_lot {reservedCad price lotSize quantity cost : ℤ}
    (hprice : 0 < price) (hlot : 0 < lotSize) (hquantity : 0 ≤ quantity)
    (hlots : lotSize ∣ quantity)
    (hcost : notionalCad quantity price .BUY = .ok cost) (hpayable : cost ≤ reservedCad) :
    ∃ most, affordableQuantity reservedCad price lotSize = .ok most ∧
      2 * (quantity - most - lotSize) * price < priceScale ∧
      (priceScale ≤ 2 * lotSize * price → quantity ≤ most + lotSize) ∧
      (lotSize = 100 → 500 ≤ price → quantity ≤ most + lotSize) := by
  obtain ⟨most, hmost, hlots', hgreatest⟩ := affordableQuantity_spec reservedCad hprice hlot
  have hnext := next_lot_exceeds hlot hlots' hgreatest
  have hcovered := cost_of_payable hprice.le hquantity hcost hpayable
  have hgap : 2 * (quantity - most - lotSize) * price < priceScale := by linarith
  have hone : priceScale ≤ 2 * lotSize * price → quantity ≤ most + lotSize := by
    intro hworth
    by_contra hbeyond
    -- Both are multiples of the lot, so the excess is a lot or more.
    have hexcess : lotSize ≤ quantity - most - lotSize := by
      apply Int.le_of_dvd (by omega)
      exact dvd_sub (dvd_sub hlots hlots') dvd_rfl
    have := mul_le_mul_of_nonneg_right hexcess hprice.le
    linarith
  refine ⟨most, hmost, hgap, hone, fun hshipped hticks => hone ?_⟩
  rw [hshipped, show priceScale = 2 * 100 * 500 from rfl]
  linarith

/-- One cent covers the charge of two lots at 749 ticks, and the exact cost
of one. -/
theorem clamp_leaves_one_lot_at_749 :
    ∃ most, affordableQuantity 1 749 100 = .ok most ∧
      2 * ((200 : ℤ) - most - 100) * 749 < priceScale ∧
      (priceScale ≤ 2 * 100 * 749 → (200 : ℤ) ≤ most + 100) ∧
      ((100 : ℤ) = 100 → (500 : ℤ) ≤ 749 → (200 : ℤ) ≤ most + 100) :=
  @clamp_leaves_one_lot 1 749 100 200 1 (by decide) (by decide) (by decide) (by decide) rfl
    (by decide)

end DistributedMarket
