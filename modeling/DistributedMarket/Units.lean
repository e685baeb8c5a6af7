import DistributedMarket.Enums
import DistributedMarket.Lib.DecimalFormat
import DistributedMarket.Lib.Nearest

/-!
Money, prices, and the arithmetic that moves between them.

Quantities are in cents and prices in ticks, both integers. `notionalCad`
turns a fill into CAD cents, `affordableQuantity` clamps a market buy to
what its reservation can pay for, and `parseQuantity` and `parsePrice` read
the decimal strings of the wire that `formatQuantity` and `formatPrice`
write. Floor division and remainder are those of Python.
-/

namespace DistributedMarket

open Lib

def priceScale : ℤ := 10 ^ 5

def cents : ℤ := 100

def quantityDecimals : ℕ := 2

def priceDecimals : ℕ := 5

/-- CAD cents owed for a fill of `quantity` USD cents at `price` ticks, to
the nearest cent, with the tie against the taker. -/
def notionalCad (quantity price : ℤ) (takerSide : Side) : Except PyErr ℤ :=
  if quantity < 0 ∨ price < 0 then
    .error (.ValueError ["quantity and price must be non-negative, got quantity=",
      .quoted (.int quantity), " price=", .quoted (.int price)])
  else
    let whole := Int.fdiv (quantity * price) priceScale
    let remainder := Int.fmod (quantity * price) priceScale
    if remainder * 2 > priceScale then .ok (whole + 1)
    else if remainder * 2 = priceScale ∧ takerSide = .BUY then .ok (whole + 1)
    else .ok whole

/-- The whole-lot quantity that `reservedCad` cents can buy at `price`. -/
def affordableQuantity (reservedCad price lotSize : ℤ) : Except PyErr ℤ :=
  if price ≤ 0 then .error (.ValueError ["price must be positive, got ", price])
  else if lotSize ≤ 0 then .error (.ValueError ["lot_size must be positive, got ", lotSize])
  else
    let quantity := Int.fdiv (reservedCad * priceScale) price
    .ok (quantity - Int.fmod quantity lotSize)

/-- The context arithmetic on decimals runs in unless the program sets
another, which this one does not. -/
def defaultContext : Decimal.Context where
  prec := 28
  emax := 999999
  emin := -999999
  prec_pos := by decide
  emin_le_emax := by decide

def parseDecimal (text : String) (scale : ℤ) (places : ℕ) (what : String) : Except PyErr ℤ :=
  match Decimal.Number.ofText text with
  | .error .InvalidOperation =>
      .error (.ValueError [what, " is not a decimal number: ", .quoted (.str text)])
  | .error signal => .error (.decimal signal)
  | .ok (.infinity _) | .ok (.nan ..) =>
      .error (.ValueError [what, " must be finite: ", .quoted (.str text)])
  | .ok (.finite value) =>
      match defaultContext.mul value (.ofInt scale) with
      | .error signal => .error (.decimal signal)
      | .ok scaled =>
          if !scaled.eqv scaled.toIntegralValue then
            .error (.ValueError [what, " has more than ", (places : ℤ), " decimal places: ",
              .quoted (.str text)])
          else .ok scaled.toInt

def parseQuantity (text : String) : Except PyErr ℤ :=
  parseDecimal text cents quantityDecimals "quantity"

def parsePrice (text : String) : Except PyErr ℤ :=
  parseDecimal text priceScale priceDecimals "price"

def formatDecimal (n scale : ℤ) (places : ℕ) : Except PyErr String :=
  match defaultContext.div (.ofInt n) (.ofInt scale) with
  | .error signal => .error (.decimal signal)
  | .ok value => .ok (value.toFixed places)

def formatQuantity (n : ℤ) : Except PyErr String := formatDecimal n cents quantityDecimals

def formatPrice (ticks : ℤ) : Except PyErr String := formatDecimal ticks priceScale priceDecimals

theorem priceScale_pos : 0 < priceScale := by decide

theorem notionalCad_eq_ok {quantity price : ℤ} (hq : 0 ≤ quantity) (hp : 0 ≤ price)
    (takerSide : Side) :
    notionalCad quantity price takerSide =
      .ok (Nearest.nearest (takerSide = .BUY) priceScale (quantity * price)) := by
  have hscale : (0 : ℤ) ≤ priceScale := priceScale_pos.le
  simp only [notionalCad, Nearest.nearest, Int.fdiv_eq_ediv_of_nonneg _ hscale,
    Int.fmod_eq_emod_of_nonneg _ hscale, not_lt.mpr hq, not_lt.mpr hp, or_self, if_false,
    decide_eq_true_eq, gt_iff_lt, mul_comm _ (2 : ℤ)]
  split <;> split <;> grind

theorem affordableQuantity_eq_ok {reservedCad price lotSize : ℤ} (hp : 0 < price)
    (hlot : 0 < lotSize) :
    affordableQuantity reservedCad price lotSize =
      .ok (reservedCad * priceScale / price - reservedCad * priceScale / price % lotSize) := by
  simp only [affordableQuantity, not_le.mpr hp, not_le.mpr hlot, if_false,
    Int.fdiv_eq_ediv_of_nonneg _ hp.le, Int.fmod_eq_emod_of_nonneg _ hlot.le]

example : notionalCad 100 137500 .BUY = .ok 138 := rfl
example : affordableQuantity 10000000 137520 100 = .ok 7271600 := rfl
example : formatPrice (-7) = .ok "-0.00007" := rfl

end DistributedMarket
