import Mathlib.Algebra.Order.Field.Rat
import Mathlib.Algebra.Order.Round
import Mathlib.Data.Nat.Log
import Mathlib.Tactic.Linarith
import Mathlib.Tactic.Ring

/-!
Finite decimal numbers and the arithmetic of a rounding context, as the
`decimal` module of Python's standard library documents them.

A finite number is a triple: a sign, a coefficient and an exponent of ten.
It denotes the rational `toRat`, and different triples may denote the same
one. An operation computes its result exactly and hands it to `fix`, which
makes it fit the context: at most `prec` digits, no digit below `etiny`,
rounded half to even, and `Overflow` when the exponent has no room. That
is the only place where digits are lost.

Which decimal place a number keeps depends on where its first digit
stands; `quantum` is the exponent of that last kept place. The results of
this file are stated with it. A number that is a multiple of its quantum
passes through `fix` unchanged (`fix_exact`); any other is moved by at most
half a quantum, to a multiple of it (`fix_near`, `fix_multiple`); and an
even multiple that close is where it lands (`fix_even`).
-/

namespace Lib.Decimal

/-- The trapped signals of the default context that arithmetic on finite
numbers can raise, and the one the constructor raises. -/
inductive Signal | InvalidOperation | DivisionByZero | Overflow
  deriving DecidableEq, Repr

/-- Sign, coefficient and exponent: `(-1)^negative * coeff * 10^exp`. -/
structure Finite where
  negative : Bool
  coeff : ℕ
  exp : ℤ
  deriving DecidableEq, Repr

/-- A decimal: the finite numbers, the infinities and the NaNs. -/
inductive Number
  | finite (value : Finite)
  | infinity (negative : Bool)
  | nan (negative signaling : Bool) (payload : ℕ)
  deriving DecidableEq, Repr

/-- Precision and exponent range of arithmetic. Rounding is half to even,
`Overflow` is trapped, and the signals that report lost digits are not. -/
structure Context where
  prec : ℕ
  emax : ℤ
  emin : ℤ
  prec_pos : 0 < prec
  emin_le_emax : emin ≤ emax

/-- The exponent of the lowest digit a subnormal number can have. -/
def Context.etiny (ctx : Context) : ℤ := ctx.emin - ctx.prec + 1

/-- The largest exponent of a number with all `prec` digits. -/
def Context.etop (ctx : Context) : ℤ := ctx.emax - ctx.prec + 1

/-- The number of decimal digits, one for zero. -/
def numDigits (n : ℕ) : ℕ := Nat.log 10 n + 1

/-- `n / unit` rounded to the nearest integer, ties to the even one. -/
def halfEven (n unit : ℕ) : ℕ :=
  if unit < 2 * (n % unit) ∨ (2 * (n % unit) = unit ∧ n / unit % 2 = 1) then
    n / unit + 1
  else n / unit

namespace Finite

/-- The integer `n` as a decimal. -/
def ofInt (n : ℤ) : Finite := ⟨decide (n < 0), n.natAbs, 0⟩

/-- The coefficient with its sign. -/
def signed (d : Finite) : ℤ := if d.negative then -d.coeff else d.coeff

/-- The number the triple denotes. -/
def toRat (d : Finite) : ℚ := d.signed * 10 ^ d.exp

/-- Comparison for equality: the two coefficients brought to one exponent. -/
def eqv (a b : Finite) : Bool :=
  a.signed * 10 ^ (a.exp - min a.exp b.exp).toNat ==
    b.signed * 10 ^ (b.exp - min a.exp b.exp).toNat

/-- The number rounded half to even at the place of exponent `e`, which is
above its own. -/
def rescale (d : Finite) (e : ℤ) : Finite :=
  ⟨d.negative, halfEven d.coeff (10 ^ (e - d.exp).toNat), e⟩

/-- `to_integral_value`: round to an integer, half to even, whatever the
number of digits. -/
def toIntegralValue (d : Finite) : Finite :=
  if 0 ≤ d.exp then d else d.rescale 0

/-- `int(d)`: the digits after the point are dropped. -/
def toInt (d : Finite) : ℤ :=
  let magnitude : ℕ :=
    if 0 ≤ d.exp then d.coeff * 10 ^ d.exp.toNat else d.coeff / 10 ^ (-d.exp).toNat
  if d.negative then -magnitude else magnitude

/-- The exact product, before the context sees it. -/
def mulExact (a b : Finite) : Finite :=
  ⟨a.negative ^^ b.negative, a.coeff * b.coeff, a.exp + b.exp⟩

end Finite

/-- Make an exact result fit the context. -/
def Context.fix (ctx : Context) (d : Finite) : Except Signal Finite :=
  if d.coeff = 0 then
    .ok { d with exp := min (max d.exp ctx.etiny) ctx.emax }
  else if ctx.etop < numDigits d.coeff + d.exp - ctx.prec then
    .error .Overflow
  else
    let expMin := max (numDigits d.coeff + d.exp - ctx.prec) ctx.etiny
    if d.exp < expMin then
      let rounded := d.rescale expMin
      -- Rounding 99…9 up gives one digit too many; the last one is a zero.
      if ctx.prec < numDigits rounded.coeff then
        if ctx.etop < expMin + 1 then .error .Overflow
        else .ok ⟨d.negative, rounded.coeff / 10, expMin + 1⟩
      else .ok rounded
    else .ok d

/-- `a * b` in the context. -/
def Context.mul (ctx : Context) (a b : Finite) : Except Signal Finite :=
  ctx.fix (a.mulExact b)

/-- The exponent of the last place the context keeps of `d`. -/
def Context.quantum (ctx : Context) (d : Finite) : ℤ :=
  max (numDigits d.coeff + d.exp - ctx.prec) ctx.etiny

/-! ### Digits and rounding of natural numbers -/

theorem lt_pow_numDigits (n : ℕ) : n < 10 ^ numDigits n :=
  Nat.lt_pow_succ_log_self (by decide) n

theorem numDigits_le {n p : ℕ} (hp : p ≠ 0) (h : n < 10 ^ p) : numDigits n ≤ p :=
  Nat.log_lt_of_lt_pow' hp h

theorem pow_le_of_lt_numDigits {n p : ℕ} (hp : p ≠ 0) (h : p < numDigits n) : 10 ^ p ≤ n := by
  by_contra hlt
  exact absurd (numDigits_le hp (not_le.mp hlt)) (not_le.mpr h)

theorem halfEven_le (n unit : ℕ) : halfEven n unit ≤ n / unit + 1 := by
  unfold halfEven
  split <;> omega

section HalfEven

variable {n unit : ℕ}

/-- What is rounded, as a quotient and a remainder. -/
theorem exists_halfEven_eq (n : ℕ) (hunit : 0 < unit) :
    ∃ q r, r < unit ∧ n = q * unit + r ∧
      halfEven n unit = if unit < 2 * r ∨ 2 * r = unit ∧ q % 2 = 1 then q + 1 else q :=
  ⟨n / unit, n % unit, Nat.mod_lt _ hunit, (Nat.div_add_mod' n unit).symm, rfl⟩

/-- The rounded quotient is within half a unit. -/
theorem halfEven_near (hunit : 0 < unit) :
    2 * |(n : ℤ) - halfEven n unit * unit| ≤ unit := by
  obtain ⟨q, r, hmod, rfl, hround⟩ := exists_halfEven_eq n hunit
  rw [hround]
  split
  · rename_i hup
    have hdist : ((q * unit + r : ℕ) : ℤ) - (q + 1 : ℕ) * unit = -((unit : ℤ) - r) := by
      push_cast
      ring
    rw [hdist, abs_neg, abs_of_nonneg (by omega)]
    omega
  · rename_i hdown
    have hdist : ((q * unit + r : ℕ) : ℤ) - q * unit = r := by
      push_cast
      ring
    rw [hdist, abs_of_nonneg (by omega)]
    omega

/-- An integer within half a unit of the quotient is what it rounds to,
if it is even or nearer than that. -/
theorem halfEven_unique (hunit : 0 < unit) {m : ℤ}
    (hnear : 2 * |(n : ℤ) - m * unit| ≤ unit)
    (heven : Even m ∨ 2 * |(n : ℤ) - m * unit| < unit) : (halfEven n unit : ℤ) = m := by
  obtain ⟨q, r, hmod, rfl, hrounded⟩ := exists_halfEven_eq n hunit
  rw [hrounded]
  have hdist : ((q * unit + r : ℕ) : ℤ) - m * unit = (q - m) * unit + r := by
    push_cast
    ring
  rw [hdist] at hnear heven
  -- The candidates are the quotient and its successor: anything else is
  -- more than half a unit away.
  have hcases : (q : ℤ) - m = 0 ∨ (q : ℤ) - m = -1 := by
    have habs := abs_le.mp (show |((q : ℤ) - m) * unit + r| ≤ unit / 2 by omega)
    have hlow : -2 < (q : ℤ) - m := by
      by_contra hle
      have : ((q : ℤ) - m) * unit ≤ -2 * unit :=
        mul_le_mul_of_nonneg_right (not_lt.mp hle) (by omega)
      omega
    have hhigh : (q : ℤ) - m < 1 := by
      by_contra hge
      have : 1 * (unit : ℤ) ≤ ((q : ℤ) - m) * unit :=
        mul_le_mul_of_nonneg_right (not_lt.mp hge) (by omega)
      omega
    omega
  rcases hcases with h0 | h1
  · obtain rfl : m = q := by omega
    rw [h0, zero_mul, zero_add, abs_of_nonneg (by omega)] at hnear heven
    have hround : ¬ (unit < 2 * r ∨ 2 * r = unit ∧ q % 2 = 1) := by
      rintro (hup | ⟨htie, hodd⟩)
      · omega
      · rcases heven with ⟨j, hj⟩ | hstrict <;> omega
    rw [if_neg hround]
  · obtain rfl : m = q + 1 := by omega
    rw [h1, show (-1 : ℤ) * unit + r = -(unit - r) by ring, abs_neg,
      abs_of_nonneg (by omega)] at hnear heven
    have hround : unit < 2 * r ∨ 2 * r = unit ∧ q % 2 = 1 := by
      rcases heven with ⟨j, hj⟩ | hstrict <;> omega
    rw [if_pos hround]
    push_cast
    ring

theorem halfEven_mul (hunit : 0 < unit) (m : ℕ) : halfEven (m * unit) unit = m := by
  have hexact : ((m * unit : ℕ) : ℤ) - (m : ℤ) * unit = 0 := by
    push_cast
    ring
  have h := halfEven_unique (n := m * unit) hunit (m := m)
    (by rw [hexact]; simp) (Or.inr (by rw [hexact]; simpa using hunit))
  exact_mod_cast h

end HalfEven

/-! ### The numbers the triples denote -/

namespace Finite

theorem signed_mulExact (a b : Finite) : (a.mulExact b).signed = a.signed * b.signed := by
  obtain ⟨s, c, e⟩ := a
  obtain ⟨s', c', e'⟩ := b
  cases s <;> cases s' <;> simp [signed, mulExact]

theorem toRat_mulExact (a b : Finite) : (a.mulExact b).toRat = a.toRat * b.toRat := by
  have hpow : (10 : ℚ) ^ (a.exp + b.exp) = 10 ^ a.exp * 10 ^ b.exp :=
    zpow_add₀ (by norm_num) _ _
  simp only [toRat, signed_mulExact]
  rw [show (a.mulExact b).exp = a.exp + b.exp from rfl, hpow]
  push_cast
  ring

@[simp] theorem signed_ofInt (n : ℤ) : (ofInt n).signed = n := by
  by_cases h : n < 0
  · simp [signed, ofInt, h, abs_of_neg h]
  · simp [signed, ofInt, h, abs_of_nonneg (not_lt.mp h)]

@[simp] theorem toRat_ofInt (n : ℤ) : (ofInt n).toRat = n := by
  rw [toRat, signed_ofInt]
  simp [ofInt]

theorem signed_eq_zero {d : Finite} : d.signed = 0 ↔ d.coeff = 0 := by
  unfold signed
  split <;> simp

/-- A triple rewritten at a lower exponent. -/
theorem toRat_eq_shift {d : Finite} {e : ℤ} (h : e ≤ d.exp) :
    d.toRat = (d.signed * 10 ^ (d.exp - e).toNat : ℤ) * 10 ^ e := by
  have hpow : (10 : ℚ) ^ d.exp = 10 ^ (d.exp - e).toNat * 10 ^ e := by
    rw [← zpow_natCast, ← zpow_add₀ (by norm_num), Int.toNat_of_nonneg (by omega)]
    congr 1
    omega
  rw [toRat, hpow]
  push_cast
  ring

/-- Zeros appended to the coefficient and taken from the exponent. -/
theorem toRat_pad (s : Bool) (c n : ℕ) (e : ℤ) :
    (⟨s, c * 10 ^ n, e - n⟩ : Finite).toRat = (⟨s, c, e⟩ : Finite).toRat := by
  have hpow : (10 : ℚ) ^ e = 10 ^ n * 10 ^ (e - n) := by
    rw [← zpow_natCast, ← zpow_add₀ (by norm_num), add_sub_cancel]
  have hsigned : (⟨s, c * 10 ^ n, e - n⟩ : Finite).signed = (⟨s, c, e⟩ : Finite).signed * 10 ^ n := by
    cases s <;> simp [signed]
  rw [toRat, toRat, hsigned, hpow]
  push_cast
  ring

/-- Two triples that agree after padding denote the same number. -/
theorem toRat_eq_of_pad (n n' : ℕ) {s : Bool} {c c' : ℕ} {e e' : ℤ}
    (hcoeff : c * 10 ^ n = c' * 10 ^ n') (hexp : e - n = e' - n') :
    (⟨s, c, e⟩ : Finite).toRat = (⟨s, c', e'⟩ : Finite).toRat := by
  rw [← toRat_pad s c n e, ← toRat_pad s c' n' e', hcoeff, hexp]

theorem eqv_iff {a b : Finite} : a.eqv b = true ↔ a.toRat = b.toRat := by
  have hpos : (10 : ℚ) ^ min a.exp b.exp ≠ 0 := zpow_ne_zero _ (by norm_num)
  rw [eqv, beq_iff_eq, toRat_eq_shift (min_le_left a.exp b.exp),
    toRat_eq_shift (min_le_right a.exp b.exp), mul_left_inj' hpos, Int.cast_inj]

theorem toRat_of_coeff_eq_zero {d : Finite} (h : d.coeff = 0) : d.toRat = 0 := by
  rw [toRat, signed_eq_zero.mpr h]
  simp

/-! ### Rounding at a place -/

theorem pow_eq_unit_mul {d : Finite} {e : ℤ} (h : d.exp ≤ e) :
    (10 : ℚ) ^ e = ((10 ^ (e - d.exp).toNat : ℕ) : ℤ) * 10 ^ d.exp := by
  push_cast
  rw [← zpow_natCast, ← zpow_add₀ (by norm_num), Int.toNat_of_nonneg (by omega)]
  congr 1
  omega

/-- A multiple of the place seen from the exponent of `d`: how far `d` is
from it is a matter of integers. -/
theorem dist_eq {d : Finite} {e : ℤ} (h : d.exp ≤ e) (m : ℤ) :
    |d.toRat - m * 10 ^ e| =
      (|d.signed - m * (10 ^ (e - d.exp).toNat : ℕ)| : ℤ) * 10 ^ d.exp := by
  have hpos : (0 : ℚ) < 10 ^ d.exp := zpow_pos (by norm_num) _
  rw [toRat, pow_eq_unit_mul h, ← mul_assoc, ← sub_mul, abs_mul, abs_of_pos hpos]
  push_cast
  rfl

/-- The sign taken out of a distance. -/
theorem abs_signed_sub (d : Finite) (m : ℤ) :
    |d.signed - m| = |(d.coeff : ℤ) - if d.negative then -m else m| := by
  unfold signed
  split
  · rw [← abs_neg]
    congr 1
    ring
  · rfl

theorem signed_rescale (d : Finite) (e : ℤ) :
    (d.rescale e).signed =
      if d.negative then -(halfEven d.coeff (10 ^ (e - d.exp).toNat) : ℤ)
      else halfEven d.coeff (10 ^ (e - d.exp).toNat) := rfl

theorem rescale_near {d : Finite} {e : ℤ} (h : d.exp ≤ e) :
    2 * |d.toRat - (d.rescale e).toRat| ≤ 10 ^ e := by
  have hunit : 0 < 10 ^ (e - d.exp).toNat := by positivity
  have hnear := halfEven_near (n := d.coeff) hunit
  have hint : 2 * |d.signed - (d.rescale e).signed * (10 ^ (e - d.exp).toNat : ℕ)| ≤
      (10 ^ (e - d.exp).toNat : ℕ) := by
    rw [abs_signed_sub, signed_rescale]
    split
    · simpa using hnear
    · simpa using hnear
  have hpos : (0 : ℚ) < 10 ^ d.exp := zpow_pos (by norm_num) _
  rw [show (d.rescale e).toRat = (d.rescale e).signed * 10 ^ e from rfl, dist_eq h,
    pow_eq_unit_mul h, ← mul_assoc]
  refine mul_le_mul_of_nonneg_right ?_ hpos.le
  exact_mod_cast hint

/-- An even multiple of the place within half a unit of `d`, or any multiple
nearer than that, is what `d` rounds to. -/
theorem rescale_unique {d : Finite} {e : ℤ} (h : d.exp ≤ e) {m : ℤ}
    (hnear : 2 * |d.toRat - m * 10 ^ e| ≤ 10 ^ e)
    (heven : Even m ∨ 2 * |d.toRat - m * 10 ^ e| < 10 ^ e) :
    (d.rescale e).toRat = m * 10 ^ e := by
  have hunit : 0 < 10 ^ (e - d.exp).toNat := by positivity
  have hpos : (0 : ℚ) < 10 ^ d.exp := zpow_pos (by norm_num) _
  rw [dist_eq h, pow_eq_unit_mul h, ← mul_assoc, mul_le_mul_iff_left₀ hpos] at hnear
  rw [dist_eq h, pow_eq_unit_mul h, ← mul_assoc, mul_lt_mul_iff_left₀ hpos] at heven
  have hnear' : 2 * |d.signed - m * (10 ^ (e - d.exp).toNat : ℕ)| ≤
      (10 ^ (e - d.exp).toNat : ℕ) := by exact_mod_cast hnear
  have heven' : Even m ∨ 2 * |d.signed - m * (10 ^ (e - d.exp).toNat : ℕ)| <
      (10 ^ (e - d.exp).toNat : ℕ) := heven.imp_right fun hlt => by exact_mod_cast hlt
  have hround : (d.rescale e).signed = m := by
    rw [signed_rescale]
    rw [abs_signed_sub] at hnear' heven'
    split
    · rename_i hneg
      rw [if_pos hneg, ← neg_mul] at hnear' heven'
      rw [halfEven_unique hunit hnear' (heven'.imp_left Even.neg), neg_neg]
    · rename_i hneg
      rw [if_neg hneg] at hnear' heven'
      exact halfEven_unique hunit hnear' heven'
  rw [toRat, hround]
  rfl

/-- A multiple of the place is not moved. -/
theorem rescale_exact {d : Finite} {e : ℤ} (h : d.exp ≤ e) {m : ℤ}
    (hm : d.toRat = m * 10 ^ e) : (d.rescale e).toRat = d.toRat := by
  have hpos : (0 : ℚ) < 10 ^ e := zpow_pos (by norm_num) _
  rw [hm]
  refine rescale_unique h ?_ (Or.inr ?_) <;> rw [hm, sub_self, abs_zero, mul_zero]
  · exact hpos.le
  · exact hpos

/-! ### Integral values -/

/-- `d == d.to_integral_value()` holds exactly of the integers. -/
theorem toRat_toIntegralValue_eq_iff {d : Finite} :
    d.toIntegralValue.toRat = d.toRat ↔ ∃ n : ℤ, d.toRat = n := by
  unfold toIntegralValue
  by_cases h : 0 ≤ d.exp
  · rw [if_pos h]
    refine ⟨fun _ => ⟨d.signed * 10 ^ (d.exp - 0).toNat, ?_⟩, fun _ => rfl⟩
    simpa using toRat_eq_shift h
  · rw [if_neg h]
    refine ⟨?_, ?_⟩
    · intro heq
      exact ⟨(d.rescale 0).signed, by rw [← heq]; simp [toRat, rescale]⟩
    · rintro ⟨n, hn⟩
      exact rescale_exact (m := n) (by omega) (by simpa using hn)

/-- The magnitude `int` computes, with its sign put back. -/
theorem toInt_eq_signed (d : Finite) :
    d.toInt = if 0 ≤ d.exp then d.signed * 10 ^ d.exp.toNat
      else if d.negative then -(d.coeff / 10 ^ (-d.exp).toNat : ℤ)
      else (d.coeff / 10 ^ (-d.exp).toNat : ℤ) := by
  by_cases hexp : 0 ≤ d.exp <;> cases hneg : d.negative <;>
    simp [toInt, signed, hexp, hneg]

/-- `int(d)` of an integer is that integer. -/
theorem toInt_eq {d : Finite} {n : ℤ} (h : d.toRat = n) : d.toInt = n := by
  rw [toInt_eq_signed]
  by_cases hexp : 0 ≤ d.exp
  · rw [if_pos hexp]
    have hpow : (10 : ℚ) ^ d.exp = 10 ^ d.exp.toNat := by
      rw [← zpow_natCast, Int.toNat_of_nonneg hexp]
    rw [toRat, hpow] at h
    exact_mod_cast h
  · rw [if_neg hexp]
    have hpow : (10 : ℚ) ^ d.exp * 10 ^ (-d.exp).toNat = 1 := by
      rw [← zpow_natCast, ← zpow_add₀ (by norm_num), Int.toNat_of_nonneg (by omega)]
      simp
    have hsigned : d.signed = n * 10 ^ (-d.exp).toNat := by
      have hq : (d.signed : ℚ) = n * 10 ^ (-d.exp).toNat := by
        rw [← h, toRat, mul_assoc, hpow, mul_one]
      exact_mod_cast hq
    have hunit : (10 : ℤ) ^ (-d.exp).toNat ≠ 0 := by positivity
    unfold signed at hsigned
    split
    · rename_i hneg
      rw [if_pos hneg] at hsigned
      rw [show (d.coeff : ℤ) = -n * 10 ^ (-d.exp).toNat by rw [neg_mul]; omega,
        Int.mul_ediv_cancel _ hunit, neg_neg]
    · rename_i hneg
      rw [if_neg hneg] at hsigned
      rw [hsigned, Int.mul_ediv_cancel _ hunit]

end Finite

/-! ### Fitting a context -/

variable {ctx : Context} {d r : Finite}

theorem Context.etiny_le_etop (ctx : Context) : ctx.etiny ≤ ctx.etop := by
  have := ctx.emin_le_emax
  unfold Context.etiny Context.etop
  omega

/-- Above the quantum there are at most `prec` digits. -/
theorem coeff_lt_of_lt_quantum (h : d.exp < ctx.quantum d) :
    d.coeff < 10 ^ (ctx.quantum d - d.exp).toNat * 10 ^ ctx.prec := by
  rw [← pow_add]
  refine (lt_pow_numDigits d.coeff).trans_le (Nat.pow_le_pow_right (by decide) ?_)
  have hquantum : (numDigits d.coeff : ℤ) + d.exp - ctx.prec ≤ ctx.quantum d :=
    le_max_left _ _
  omega

/-- Rounding at the quantum leaves at most `prec` digits, or the power of
ten just above them. -/
theorem rescale_quantum_le (h : d.exp < ctx.quantum d) :
    (d.rescale (ctx.quantum d)).coeff ≤ 10 ^ ctx.prec := by
  have hdiv := Nat.div_lt_of_lt_mul (coeff_lt_of_lt_quantum h)
  have hle := halfEven_le d.coeff (10 ^ (ctx.quantum d - d.exp).toNat)
  exact hle.trans hdiv

/-- A multiple of the quantum has its zeros dropped, and no digit added. -/
theorem coeff_rescale_lt (h : d.exp < ctx.quantum d) {m : ℤ}
    (hm : d.toRat = m * 10 ^ ctx.quantum d) :
    (d.rescale (ctx.quantum d)).coeff < 10 ^ ctx.prec := by
  have hpos : (0 : ℚ) < 10 ^ d.exp := zpow_pos (by norm_num) _
  have hdist := Finite.dist_eq h.le m
  rw [hm, sub_self, abs_zero, eq_comm, mul_eq_zero_iff_right hpos.ne', Int.cast_eq_zero,
    abs_eq_zero] at hdist
  have hcoeff : d.coeff = m.natAbs * 10 ^ (ctx.quantum d - d.exp).toNat := by
    have habs := congrArg Int.natAbs (sub_eq_zero.mp hdist)
    rw [Int.natAbs_mul, Int.natAbs_natCast] at habs
    rw [← habs]
    unfold Finite.signed
    split <;> simp
  have hlt := coeff_lt_of_lt_quantum h
  rw [show (d.rescale (ctx.quantum d)).coeff =
      halfEven d.coeff (10 ^ (ctx.quantum d - d.exp).toNat) from rfl, hcoeff,
    halfEven_mul (by positivity)]
  rw [hcoeff, mul_comm] at hlt
  exact Nat.lt_of_mul_lt_mul_left hlt

/-- A digit too many means that nines were rounded up to a power of ten. -/
theorem coeff_carry (h : d.exp < ctx.quantum d)
    (hlong : ctx.prec < numDigits (d.rescale (ctx.quantum d)).coeff) :
    (d.rescale (ctx.quantum d)).coeff = 10 ^ ctx.prec :=
  le_antisymm (rescale_quantum_le h) (pow_le_of_lt_numDigits ctx.prec_pos.ne' hlong)

/-- The digit too many that rounding up can produce is a zero. -/
theorem toRat_carry {s : Bool} {c : ℕ} {e : ℤ} (hc : c = 10 ^ ctx.prec) :
    (⟨s, c / 10, e + 1⟩ : Finite).toRat = (⟨s, c, e⟩ : Finite).toRat := by
  have hten : c / 10 * 10 = c := by
    refine Nat.div_mul_cancel ?_
    rw [hc]
    exact dvd_pow_self 10 ctx.prec_pos.ne'
  exact Finite.toRat_eq_of_pad 1 0 (by simpa using hten) (by push_cast; ring)

/-- What can become of a number in `fix`: zero stays zero, a number is left
alone or rounded at its quantum, and overflows if its first digit stands
above the top place, before the rounding or because of it. -/
inductive Fitting (ctx : Context) (d : Finite) : Except Signal Finite → Prop
  | zero (hd : d.coeff = 0) :
      Fitting ctx d (.ok { d with exp := min (max d.exp ctx.etiny) ctx.emax })
  | above (hd : d.coeff ≠ 0) (htop : ctx.etop < ctx.quantum d) :
      Fitting ctx d (.error .Overflow)
  | exact (hd : d.coeff ≠ 0) (hroom : ctx.quantum d ≤ ctx.etop) (hhigh : ctx.quantum d ≤ d.exp) :
      Fitting ctx d (.ok d)
  | rounded (hd : d.coeff ≠ 0) (hroom : ctx.quantum d ≤ ctx.etop) (hlow : d.exp < ctx.quantum d)
      (hshort : numDigits (d.rescale (ctx.quantum d)).coeff ≤ ctx.prec) :
      Fitting ctx d (.ok (d.rescale (ctx.quantum d)))
  | carried (hd : d.coeff ≠ 0) (htop : ctx.quantum d < ctx.etop) (hlow : d.exp < ctx.quantum d)
      (hcarry : (d.rescale (ctx.quantum d)).coeff = 10 ^ ctx.prec) :
      Fitting ctx d
        (.ok ⟨d.negative, (d.rescale (ctx.quantum d)).coeff / 10, ctx.quantum d + 1⟩)
  | carriedAbove (hd : d.coeff ≠ 0) (htop : ctx.quantum d = ctx.etop)
      (hlow : d.exp < ctx.quantum d)
      (hcarry : (d.rescale (ctx.quantum d)).coeff = 10 ^ ctx.prec) :
      Fitting ctx d (.error .Overflow)

theorem fitting (ctx : Context) (d : Finite) : Fitting ctx d (ctx.fix d) := by
  unfold Context.fix
  split
  · exact .zero ‹_›
  rename_i hd
  split
  · rename_i htop
    exact .above hd (htop.trans_le (le_max_left _ _))
  rename_i hfirst
  have hroom : ctx.quantum d ≤ ctx.etop := max_le (not_lt.mp hfirst) ctx.etiny_le_etop
  dsimp only
  rw [← Context.quantum]
  split
  · rename_i hlow
    split
    · rename_i hlong
      have hcarry := coeff_carry hlow hlong
      split
      · exact .carriedAbove hd (by omega) hlow hcarry
      · exact .carried hd (by omega) hlow hcarry
    · rename_i hshort
      exact .rounded hd hroom hlow (not_lt.mp hshort)
  · rename_i hhigh
    exact .exact hd hroom (not_lt.mp hhigh)

theorem fitting_of_fix {result : Except Signal Finite} (h : ctx.fix d = result) :
    Fitting ctx d result := h ▸ fitting ctx d

/-- What `fix` does to a non-zero number with room for its exponent: it is
left alone or rounded at its quantum. -/
theorem fix_eq_ok (hd : d.coeff ≠ 0) (h : ctx.fix d = .ok r) :
    ctx.quantum d ≤ ctx.etop ∧
      ((ctx.quantum d ≤ d.exp ∧ r = d) ∨
        (d.exp < ctx.quantum d ∧ r.toRat = (d.rescale (ctx.quantum d)).toRat)) := by
  cases fitting_of_fix h with
  | zero hzero => exact absurd hzero hd
  | exact _ hroom hhigh => exact ⟨hroom, Or.inl ⟨hhigh, rfl⟩⟩
  | rounded _ hroom hlow _ => exact ⟨hroom, Or.inr ⟨hlow, rfl⟩⟩
  | carried _ htop hlow hcarry => exact ⟨htop.le, Or.inr ⟨hlow, toRat_carry hcarry⟩⟩

/-! ### What a rounded operation guarantees -/

/-- A fitted number is a multiple of the quantum. -/
theorem fix_multiple (hd : d.coeff ≠ 0) (h : ctx.fix d = .ok r) :
    ∃ m : ℤ, r.toRat = m * 10 ^ ctx.quantum d := by
  rcases (fix_eq_ok hd h).2 with ⟨hhigh, rfl⟩ | ⟨-, hr⟩
  · exact ⟨_, Finite.toRat_eq_shift hhigh⟩
  · exact ⟨(d.rescale (ctx.quantum d)).signed, hr⟩

/-- Fitting moves a number by at most half a quantum. -/
theorem fix_near (hd : d.coeff ≠ 0) (h : ctx.fix d = .ok r) :
    2 * |d.toRat - r.toRat| ≤ 10 ^ ctx.quantum d := by
  rcases (fix_eq_ok hd h).2 with ⟨-, rfl⟩ | ⟨hlow, hr⟩
  · rw [sub_self, abs_zero, mul_zero]
    exact (zpow_pos (by norm_num) _).le
  · rw [hr]
    exact Finite.rescale_near hlow.le

/-- An even multiple of the quantum within half a quantum is the result. -/
theorem fix_even (hd : d.coeff ≠ 0) (h : ctx.fix d = .ok r) {m : ℤ} (hm : Even m)
    (hnear : 2 * |d.toRat - m * 10 ^ ctx.quantum d| ≤ 10 ^ ctx.quantum d) :
    r.toRat = m * 10 ^ ctx.quantum d := by
  rcases (fix_eq_ok hd h).2 with ⟨hhigh, rfl⟩ | ⟨hlow, hr⟩
  · -- Two multiples half a quantum apart are one.
    have hpos : (0 : ℚ) < 10 ^ ctx.quantum r := zpow_pos (by norm_num) _
    rw [Finite.toRat_eq_shift hhigh, ← sub_mul, abs_mul, abs_of_pos hpos] at hnear
    rw [Finite.toRat_eq_shift hhigh]
    generalize r.signed * 10 ^ (r.exp - ctx.quantum r).toNat = j at hnear ⊢
    have hlt : |((j - m : ℤ) : ℚ)| < 1 := by
      push_cast
      by_contra hge
      have := mul_le_mul_of_nonneg_right (not_lt.mp hge) hpos.le
      linarith
    have hzero : j - m = 0 := Int.abs_lt_one_iff.mp (by exact_mod_cast hlt)
    rw [show j = m by omega]
  · rw [hr]
    exact Finite.rescale_unique hlow.le hnear (Or.inl hm)

/-- Below the top exponent nothing overflows. -/
theorem fix_isOk_of_quantum_lt (h : ctx.quantum d < ctx.etop) : ∃ r, ctx.fix d = .ok r := by
  cases hfix : ctx.fix d with
  | ok r => exact ⟨r, rfl⟩
  | error signal =>
      cases fitting_of_fix hfix with
      | above _ htop => exact absurd htop (not_lt.mpr h.le)
      | carriedAbove _ htop => exact absurd htop h.ne

/-- A multiple of the quantum fits as it is. -/
theorem fix_exact (hd : d.coeff ≠ 0) (hroom : ctx.quantum d ≤ ctx.etop) {m : ℤ}
    (hm : d.toRat = m * 10 ^ ctx.quantum d) : ∃ r, ctx.fix d = .ok r ∧ r.toRat = d.toRat := by
  cases hfix : ctx.fix d with
  | ok r =>
      refine ⟨r, rfl, ?_⟩
      rcases (fix_eq_ok hd hfix).2 with ⟨-, rfl⟩ | ⟨hlow, hr⟩
      · rfl
      · rw [hr, Finite.rescale_exact hlow.le hm]
  | error signal =>
      cases fitting_of_fix hfix with
      | above _ htop => exact absurd htop (not_lt.mpr hroom)
      | carriedAbove _ _ hlow hcarry =>
          have hshort := coeff_rescale_lt hlow hm
          exact absurd hcarry hshort.ne

/-- Zero stays zero. -/
theorem fix_zero (hd : d.coeff = 0) : ∃ r, ctx.fix d = .ok r ∧ r.toRat = d.toRat := by
  refine ⟨_, if_pos hd, ?_⟩
  rw [Finite.toRat_of_coeff_eq_zero (d := d) hd]
  exact Finite.toRat_of_coeff_eq_zero hd

/-! ### When rounding cannot be mistaken for an integer

A caller that rounds first and asks afterwards whether the result is an
integer gets the answer for the rounded number. `KeepsIntegers` says of the
exact number when that is the answer for it too. -/

/-- The exact `d` has room for its exponent, and either has no digit below
its quantum or is more than half a quantum away from every integer. -/
def Context.KeepsIntegers (ctx : Context) (d : Finite) : Prop :=
  d.coeff = 0 ∨
    (ctx.quantum d ≤ ctx.etop ∧
      ((∃ m : ℤ, d.toRat = m * 10 ^ ctx.quantum d) ∨
        ∀ n : ℤ, 10 ^ ctx.quantum d < 2 * |d.toRat - n|))

/-- A number with no more digits than the context keeps is safe. -/
theorem Context.keepsIntegers_of_quantum_le (hroom : ctx.quantum d ≤ ctx.etop)
    (hshort : ctx.quantum d ≤ d.exp) : ctx.KeepsIntegers d :=
  Or.inr ⟨hroom, Or.inl ⟨_, Finite.toRat_eq_shift hshort⟩⟩

/-- Multiples of a place at or above the units are integers. -/
theorem exists_int_of_multiple {q : ℤ} (hq : 0 ≤ q) (m : ℤ) : ∃ n : ℤ, (m : ℚ) * 10 ^ q = n := by
  refine ⟨m * 10 ^ q.toNat, ?_⟩
  rw [← Int.toNat_of_nonneg hq, zpow_natCast, Int.toNat_natCast]
  push_cast
  rfl

/-- Integers are even multiples of a place below the units. -/
theorem exists_even_multiple {q : ℤ} (hq : q < 0) (n : ℤ) :
    ∃ m : ℤ, Even m ∧ (n : ℚ) = m * 10 ^ q := by
  have hten : Even ((10 : ℤ) ^ (-q).toNat) :=
    Int.even_pow.mpr ⟨by decide, by omega⟩
  refine ⟨n * 10 ^ (-q).toNat, hten.mul_left n, ?_⟩
  have hpow : (10 : ℚ) ^ (-q).toNat * 10 ^ q = 1 := by
    rw [← zpow_natCast, ← zpow_add₀ (by norm_num), Int.toNat_of_nonneg (by omega)]
    simp
  push_cast
  rw [mul_assoc, hpow, mul_one]

/-- A number more than half a quantum from every integer has its quantum
below the point. -/
theorem quantum_neg_of_far (hfar : ∀ n : ℤ, 10 ^ ctx.quantum d < 2 * |d.toRat - n|) :
    ctx.quantum d < 0 := by
  by_contra hnonneg
  have hq : 0 ≤ ctx.quantum d := not_lt.mp hnonneg
  by_cases hlow : d.exp < ctx.quantum d
  · obtain ⟨n, hn⟩ := exists_int_of_multiple hq (d.rescale (ctx.quantum d)).signed
    have hnear := Finite.rescale_near hlow.le
    rw [show (d.rescale (ctx.quantum d)).toRat = n from hn] at hnear
    exact absurd hnear (not_le.mpr (hfar n))
  · obtain ⟨n, hn⟩ := exists_int_of_multiple (hq.trans (not_lt.mp hlow)) d.signed
    have hself := hfar n
    rw [show d.toRat = n from hn, sub_self, abs_zero, mul_zero] at hself
    exact absurd hself (not_lt.mpr (zpow_pos (by norm_num) _).le)

/-- The integers a fitted number is equal to are those the exact number is
equal to, precisely under `KeepsIntegers`. -/
theorem fix_integers_iff (htop : 0 ≤ ctx.etop) :
    (∃ r, ctx.fix d = .ok r ∧ ∀ n : ℤ, r.toRat = n ↔ d.toRat = n) ↔ ctx.KeepsIntegers d := by
  by_cases hd : d.coeff = 0
  · obtain ⟨r, hr, hrat⟩ : ∃ r, ctx.fix d = .ok r ∧ r.toRat = d.toRat := fix_zero hd
    exact ⟨fun _ => Or.inl hd, fun _ => ⟨r, hr, fun n => by rw [hrat]⟩⟩
  refine ⟨?_, ?_⟩
  · rintro ⟨r, hr, hiff⟩
    refine Or.inr ⟨(fix_eq_ok hd hr).1, ?_⟩
    by_contra hneither
    push Not at hneither
    obtain ⟨hmoved, n, hn⟩ := hneither
    rcases le_or_gt 0 (ctx.quantum d) with hq | hq
    · -- Rounded above the units, the result is an integer, but not `d`.
      obtain ⟨m, hm⟩ := fix_multiple hd hr
      obtain ⟨k, hk⟩ := exists_int_of_multiple hq m
      exact hmoved m (((hiff k).mp (hm.trans hk)).trans hk.symm)
    · -- Rounded below the units, the result is the integer `n` nearby.
      obtain ⟨m, hm, hnm⟩ := exists_even_multiple hq n
      rw [hnm] at hn
      have hrn : r.toRat = n := (fix_even hd hr hm hn).trans hnm.symm
      exact hmoved m (((hiff n).mp hrn).trans hnm)
  · rintro (hzero | ⟨hroom, ⟨m, hm⟩ | hfar⟩)
    · exact absurd hzero hd
    · obtain ⟨r, hr, hrat⟩ := fix_exact hd hroom hm
      exact ⟨r, hr, fun n => by rw [hrat]⟩
    · have hneg := quantum_neg_of_far hfar
      obtain ⟨r, hr⟩ := fix_isOk_of_quantum_lt (hneg.trans_le htop)
      have hnear := fix_near hd hr
      refine ⟨r, hr, fun n => ⟨fun hrn => ?_, fun hdn => ?_⟩⟩
      · rw [hrn] at hnear
        exact absurd hnear (not_le.mpr (hfar n))
      · have hself := hfar n
        rw [hdn, sub_self, abs_zero, mul_zero] at hself
        exact absurd hself (not_lt.mpr (zpow_pos (by norm_num) _).le)

end Lib.Decimal
