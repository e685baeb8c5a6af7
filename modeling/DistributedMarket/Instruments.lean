import DistributedMarket.Json
import DistributedMarket.Lib.IntText
import Mathlib.Data.Rat.Floor
import Mathlib.Tactic.Linarith

/-!
Instrument configuration and the validation it drives.

An instrument is loaded from a JSON object by converting each of its limits
with `int`, which truncates a number with a fraction, takes a boolean for 0
or 1 and raises one of three exceptions on what it cannot convert; only a
missing key is turned into a load error. The validators divide by the limits
they find and show them in the messages of their errors, which the
interpreter refuses to write if an integer has too many digits.
-/

namespace DistributedMarket

open Lib

/-! ### Errors -/

/-- The taxonomy every service answers with. -/
inductive ErrorCode
  | VALIDATION_ERROR | UNKNOWN_SYMBOL | PRICE_OUT_OF_BAND | UNAUTHENTICATED | NOT_ORDER_OWNER
  | ORDER_NOT_FOUND | DUPLICATE_CLIENT_ORDER_ID | ORDER_NOT_CANCELLABLE | INSUFFICIENT_FUNDS
  | ENGINE_UNAVAILABLE
  deriving DecidableEq, Repr

structure MarketError where
  code : ErrorCode
  message : Message
  details : Dict

/-- What loading an instrument, or validating against one, can raise. -/
inductive Raised
  | py (err : PyErr)
  | TypeError (value : Json)
  | OverflowError (value : Json)
  | ZeroDivisionError (dividend : ℤ)
  | MarketError (err : MarketError)

/-! ### Conversions -/

/-- Towards zero. -/
def truncate (q : ℚ) : ℤ := if 0 ≤ q then ⌊q⌋ else ⌈q⌉

/-- `int(value)`. -/
def Json.toInt : Json → Except Raised ℤ
  | .bool b => .ok b.toNat
  | .int n => .ok n
  | .float (.finite q) => .ok (truncate q)
  | .float (.infinity negative) => .error (.OverflowError (.float (.infinity negative)))
  | .float .nan => .error (.py (.ValueError ["cannot convert float NaN to integer"]))
  | .str text =>
      match IntText.readInt text with
      | .ok n => .ok n
      | .error .literal =>
          .error (.py (.ValueError ["invalid literal for int() with base 10: ",
            .quoted (.str text)]))
      | .error (.digits count) =>
          .error (.py (.ValueError ["Exceeds the limit (", (IntText.maxStrDigits : ℤ),
            " digits) for integer string conversion: value has ", (count : ℤ),
            " digits; use sys.set_int_max_str_digits() to increase the limit"]))
  | value => .error (.TypeError value)

mutual

/-- No integer in the value has too many digits to be written. -/
def Json.printable : Json → Bool
  | .int n => IntText.Printable n
  | .list items => Json.printableItems items
  | .dict entries => Json.printableEntries entries
  | _ => true

def Json.printableItems : List Json → Bool
  | [] => true
  | v :: items => v.printable && Json.printableItems items

def Json.printableEntries : List (String × Json) → Bool
  | [] => true
  | (_, v) :: entries => v.printable && Json.printableEntries entries

end

def Piece.printable : Piece → Bool
  | .text _ => true
  | .shown v | .quoted v => v.printable

def tooManyDigits : Raised :=
  .py (.ValueError ["Exceeds the limit (", (IntText.maxStrDigits : ℤ),
    " digits) for integer string conversion; use sys.set_int_max_str_digits() to increase",
    " the limit"])

/-- `str(value)`. -/
def Json.toStr (v : Json) : Except Raised Piece :=
  if v.printable then .ok (.shown v) else .error tooManyDigits

/-- The value of an f-string. -/
def Message.format (message : Message) : Except Raised Message :=
  if message.all Piece.printable then .ok message else .error tooManyDigits

/-- `dividend % divisor`. -/
def modulo (dividend divisor : ℤ) : Except Raised ℤ :=
  if divisor = 0 then .error (.ZeroDivisionError dividend) else .ok (Int.fmod dividend divisor)

/-! ### Instruments -/

/-- The tradable's rules. `base` and `quote` are the texts `str` makes of
the values in the configuration. -/
structure Instrument where
  symbol : String
  base : Piece
  quote : Piece
  tickSize : ℤ
  lotSize : ℤ
  minQty : ℤ
  maxQty : ℤ
  priceBandPct : ℤ
  marketBuyMaxNotional : ℤ

/-- `raw[key]`. -/
def Dict.field (raw : Dict) (key : String) : Except Raised Json := (raw.item key).mapError .py

/-- `str(raw[key])`. -/
def Dict.strField (raw : Dict) (key : String) : Except Raised Piece := raw.field key >>= Json.toStr

/-- `int(raw[key])`. -/
def Dict.intField (raw : Dict) (key : String) : Except Raised ℤ := raw.field key >>= Json.toInt

def raiseValidationError (message : Message) (details : Dict) : Except Raised Unit := do
  let text ← message.format
  .error (.MarketError ⟨.VALIDATION_ERROR, text, details⟩)

namespace Instrument

/-- The call of the class in the body of the `try`. -/
def construct (symbol : String) (raw : Dict) : Except Raised Instrument := do
  let base ← raw.strField "base"
  let quote ← raw.strField "quote"
  let tickSize ← raw.intField "tick_size"
  let lotSize ← raw.intField "lot_size"
  let minQty ← raw.intField "min_qty"
  let maxQty ← raw.intField "max_qty"
  let priceBandPct ← raw.intField "price_band_pct"
  let marketBuyMaxNotional ← raw.intField "market_buy_max_notional"
  pure
    { symbol, base, quote, tickSize, lotSize, minQty, maxQty, priceBandPct,
      marketBuyMaxNotional }

def fromDict (symbol : String) (raw : Dict) : Except Raised Instrument :=
  match construct symbol raw with
  | .error (.py (.KeyError key)) =>
      .error (.py (.ValueError ["instrument ", symbol, ": missing field ", .quoted (.str key)]))
  | result => result

/-- What the two validators have in common: the value is positive and a
multiple of its step. -/
def validateMultiple (what stepName stepKey : String) (value step : ℤ) : Except Raised Unit :=
  if value ≤ 0 then raiseValidationError [what, " must be positive: ", value] []
  else do
    if (← modulo value step) ≠ 0 then
      raiseValidationError [what, " must be a multiple of the ", stepName, " ", step]
        [(what, .int value), (stepKey, .int step)]
    else .ok ()

/-- Raise `MarketError` unless the quantity is a legal size. -/
def validateQuantity (self : Instrument) (quantity : ℤ) : Except Raised Unit := do
  validateMultiple "quantity" "lot size" "lot_size" quantity self.lotSize
  if quantity < self.minQty ∨ self.maxQty < quantity then
    raiseValidationError ["quantity must be between ", self.minQty, " and ", self.maxQty]
      [("quantity", .int quantity), ("min_qty", .int self.minQty), ("max_qty", .int self.maxQty)]
  else .ok ()

/-- Raise `MarketError` unless the price is positive and on the tick grid. -/
def validatePrice (self : Instrument) (price : ℤ) : Except Raised Unit :=
  validateMultiple "price" "tick size" "tick_size" price self.tickSize

end Instrument

/-- The configuration that is shipped. -/
def usdcadConfig : Dict :=
  [("base", .str "USD"),
    ("quote", .str "CAD"),
    ("tick_size", .int 1),
    ("lot_size", .int 100),
    ("min_qty", .int 100),
    ("max_qty", .int 100000000),
    ("price_band_pct", .int 10),
    ("market_buy_max_notional", .int 10000000)]

def usdcad : Instrument where
  symbol := "USDCAD"
  base := .shown (.str "USD")
  quote := .shown (.str "CAD")
  tickSize := 1
  lotSize := 100
  minQty := 100
  maxQty := 100000000
  priceBandPct := 10
  marketBuyMaxNotional := 10000000

theorem fromDict_usdcadConfig : Instrument.fromDict "USDCAD" usdcadConfig = .ok usdcad := rfl

/-! ### Truncation -/

theorem truncate_intCast (n : ℤ) : truncate n = n := by
  unfold truncate
  split <;> simp

theorem truncate_pos_iff {q : ℚ} : 0 < truncate q ↔ 1 ≤ q := by
  unfold truncate
  split
  · rw [Int.lt_iff_add_one_le, zero_add, Int.le_floor, Int.cast_one]
  · rename_i hneg
    have hceil : ⌈q⌉ ≤ 0 := Int.ceil_le.mpr (by simpa using (not_le.mp hneg).le)
    refine ⟨fun hpos => ?_, fun hone => ?_⟩
    · omega
    · exact absurd (zero_le_one.trans hone) hneg

theorem truncate_neg (q : ℚ) : truncate (-q) = -truncate q := by
  unfold truncate
  rcases lt_trichotomy q 0 with hneg | rfl | hpos
  · rw [if_pos (by linarith), if_neg (not_le.mpr hneg), Int.floor_neg]
  · simp
  · rw [if_neg (by linarith), if_pos hpos.le, Int.ceil_neg]

/-- What is left of a number is not zero if it was a whole one at least. -/
theorem truncate_ne_zero_iff {q : ℚ} : truncate q ≠ 0 ↔ 1 ≤ |q| := by
  have hneg : truncate q < 0 ↔ 1 ≤ -q := by
    rw [← truncate_pos_iff, truncate_neg, neg_pos]
  rw [le_abs, ← truncate_pos_iff, ← hneg]
  omega

/-! ### What the validators accept -/

theorem modulo_eq_ok {dividend divisor remainder : ℤ} :
    modulo dividend divisor = .ok remainder ↔
      divisor ≠ 0 ∧ Int.fmod dividend divisor = remainder := by
  unfold modulo
  split <;> simp_all

/-- The call returned, or raised a `MarketError` for a value that is not
valid. -/
def Validates (result : Except Raised Unit) : Prop :=
  result = .ok () ∨ ∃ err, result = .error (.MarketError err) ∧ err.code = .VALIDATION_ERROR

theorem validates_ok : Validates (.ok ()) := Or.inl rfl

theorem validates_bind {x : Except Raised Unit} {f : Unit → Except Raised Unit} :
    Validates (x >>= f) ↔ Validates x ∧ (x = .ok () → Validates (f ())) := by
  cases x with
  | ok => simp [Validates, Bind.bind, Except.bind]
  | error err => simp [Validates, Bind.bind, Except.bind]

theorem raiseValidationError_ne_ok {message : Message} {details : Dict} :
    raiseValidationError message details ≠ .ok () := by
  unfold raiseValidationError
  rw [Ne, bind_eq_ok]
  rintro ⟨text, -, herr⟩
  contradiction

/-- An error whose message cannot be written is not the one that is
raised. -/
theorem validates_raiseValidationError {message : Message} {details : Dict} :
    Validates (raiseValidationError message details) ↔ message.all Piece.printable = true := by
  unfold raiseValidationError Message.format
  split
  · rename_i hprintable
    exact iff_of_true (Or.inr ⟨_, rfl, rfl⟩) hprintable
  · rename_i hlong
    refine iff_of_false ?_ hlong
    rintro (hok | ⟨err, herr, -⟩)
    · contradiction
    · cases Except.error.inj herr

namespace Instrument

section Multiple

variable {what stepName stepKey : String} {value step : ℤ}

theorem validateMultiple_eq_ok :
    validateMultiple what stepName stepKey value step = .ok () ↔
      0 < value ∧ step ≠ 0 ∧ step ∣ value := by
  unfold validateMultiple
  split
  · rename_i hneg
    simp [not_lt.mpr hneg, raiseValidationError_ne_ok]
  · rename_i hpos
    simp only [bind_eq_ok, modulo_eq_ok]
    rw [Int.dvd_iff_fmod_eq_zero]
    refine ⟨?_, ?_⟩
    · rintro ⟨remainder, ⟨hstep, rfl⟩, hcheck⟩
      split at hcheck
      · exact absurd hcheck raiseValidationError_ne_ok
      · rename_i hzero
        exact ⟨not_le.mp hpos, hstep, not_not.mp hzero⟩
    · rintro ⟨-, hstep, hzero⟩
      exact ⟨0, ⟨hstep, hzero⟩, rfl⟩

theorem validateMultiple_divides_by_zero (hpos : 0 < value) :
    validateMultiple what stepName stepKey value 0 = .error (.ZeroDivisionError value) := by
  unfold validateMultiple
  rw [if_neg (not_le.mpr hpos)]
  rfl

/-- What the first two checks need in order not to raise anything else: a
step that is not zero, and a message that can be written. -/
theorem validates_validateMultiple :
    Validates (validateMultiple what stepName stepKey value step) ↔
      (value ≤ 0 → IntText.Printable value) ∧
        (0 < value → step ≠ 0 ∧ (¬ step ∣ value → IntText.Printable step)) := by
  rcases le_or_gt value 0 with hneg | hpos
  · unfold validateMultiple
    rw [if_pos hneg, validates_raiseValidationError]
    simp [Piece.printable, Json.printable, hneg, not_lt.mpr hneg]
  · simp only [not_le.mpr hpos, false_imp_iff, true_and, hpos, true_imp_iff]
    rcases eq_or_ne step 0 with rfl | hstep
    · rw [validateMultiple_divides_by_zero hpos]
      simp [Validates]
    · unfold validateMultiple
      rw [if_neg (not_le.mpr hpos), modulo, if_neg hstep]
      show Validates (if Int.fmod value step ≠ 0 then _ else _) ↔ _
      rw [Int.dvd_iff_fmod_eq_zero]
      split
      · rename_i hrem
        rw [validates_raiseValidationError]
        simp [Piece.printable, Json.printable, hstep, hrem]
      · rename_i hzero
        exact iff_of_true validates_ok ⟨hstep, fun hrem => absurd hrem hzero⟩

end Multiple

variable {self : Instrument} {quantity price : ℤ}

theorem validatePrice_eq_ok :
    self.validatePrice price = .ok () ↔ 0 < price ∧ self.tickSize ≠ 0 ∧ self.tickSize ∣ price :=
  validateMultiple_eq_ok

theorem validateQuantity_eq_ok :
    self.validateQuantity quantity = .ok () ↔
      0 < quantity ∧ self.lotSize ≠ 0 ∧ self.lotSize ∣ quantity ∧
        self.minQty ≤ quantity ∧ quantity ≤ self.maxQty := by
  unfold validateQuantity
  rw [bind_eq_ok]
  refine ⟨?_, ?_⟩
  · rintro ⟨⟨⟩, hmultiple, hcheck⟩
    obtain ⟨hpos, hlot, hdvd⟩ := validateMultiple_eq_ok.mp hmultiple
    split at hcheck
    · exact absurd hcheck raiseValidationError_ne_ok
    · rename_i hrange
      rw [not_or, not_lt, not_lt] at hrange
      exact ⟨hpos, hlot, hdvd, hrange⟩
  · rintro ⟨hpos, hlot, hdvd, hmin, hmax⟩
    refine ⟨(), validateMultiple_eq_ok.mpr ⟨hpos, hlot, hdvd⟩, if_neg ?_⟩
    rw [not_or, not_lt, not_lt]
    exact ⟨hmin, hmax⟩

/-- Whichever check refuses the quantity or the price, its message can be
written. -/
structure MessagesPrintable (inst : Instrument) (quantity price : ℤ) : Prop where
  of_quantity : quantity ≤ 0 → IntText.Printable quantity
  of_price : price ≤ 0 → IntText.Printable price
  of_lotSize : 0 < quantity → ¬ inst.lotSize ∣ quantity → IntText.Printable inst.lotSize
  of_tickSize : 0 < price → ¬ inst.tickSize ∣ price → IntText.Printable inst.tickSize
  of_range : 0 < quantity → inst.lotSize ∣ quantity →
    quantity < inst.minQty ∨ inst.maxQty < quantity →
      IntText.Printable inst.minQty ∧ IntText.Printable inst.maxQty

theorem validates_validatePrice :
    Validates (self.validatePrice price) ↔
      (price ≤ 0 → IntText.Printable price) ∧
        (0 < price → self.tickSize ≠ 0 ∧
          (¬ self.tickSize ∣ price → IntText.Printable self.tickSize)) :=
  validates_validateMultiple

theorem validates_validateQuantity (hlot : self.lotSize ≠ 0) :
    Validates (self.validateQuantity quantity) ↔
      (quantity ≤ 0 → IntText.Printable quantity) ∧
        (0 < quantity → ¬ self.lotSize ∣ quantity → IntText.Printable self.lotSize) ∧
        (0 < quantity → self.lotSize ∣ quantity →
          quantity < self.minQty ∨ self.maxQty < quantity →
            IntText.Printable self.minQty ∧ IntText.Printable self.maxQty) := by
  have hrange : Validates
      (if quantity < self.minQty ∨ self.maxQty < quantity then
        raiseValidationError ["quantity must be between ", self.minQty, " and ", self.maxQty]
          [("quantity", .int quantity), ("min_qty", .int self.minQty), ("max_qty", .int self.maxQty)]
      else .ok ()) ↔ (quantity < self.minQty ∨ self.maxQty < quantity →
        IntText.Printable self.minQty ∧ IntText.Printable self.maxQty) := by
    split
    · rename_i hout
      rw [validates_raiseValidationError]
      simp [Piece.printable, Json.printable, hout]
    · rename_i hin
      exact iff_of_true validates_ok fun hout => absurd hout hin
  unfold validateQuantity
  rw [validates_bind, validates_validateMultiple, validateMultiple_eq_ok, hrange]
  refine ⟨?_, ?_⟩
  · rintro ⟨⟨hneg, hstep⟩, hlimits⟩
    exact ⟨hneg, fun hpos => (hstep hpos).2, fun hpos hdvd => hlimits ⟨hpos, hlot, hdvd⟩⟩
  · rintro ⟨hneg, hstep, hlimits⟩
    exact ⟨⟨hneg, fun hpos => ⟨hlot, hstep hpos⟩⟩, fun hok => hlimits hok.1 hok.2.2⟩

end Instrument

end DistributedMarket
