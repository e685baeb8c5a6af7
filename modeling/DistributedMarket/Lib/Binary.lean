import Mathlib.Algebra.Order.Archimedean.Basic
import Mathlib.Algebra.Ring.Int.Parity
import Mathlib.Data.Int.Log
import Mathlib.Data.Rat.Floor
import Mathlib.Tactic.FieldSimp
import Mathlib.Tactic.Linarith
import Mathlib.Tactic.Positivity
import Mathlib.Tactic.Ring

/-!
Rounding to a fixed number of binary digits.

A rational between `2 ^ e` and `2 ^ (e + 1)` is rounded to a multiple of
`2 ^ (e + 1 - p)`, so to `p` digits, with ties to the even multiple. The
exponent is not bounded: this is binary floating point for numbers that
neither overflow nor are subnormal, and what is said here of a whole
expression is to be used for such numbers.

Three facts are enough for a program that computes with such numbers. The
rounding is monotone (`round_mono`); its error is half a unit of the binade
at most (`abs_sub_round_le`); and a number that has `p` digits itself is what
everything nearer than half a unit is rounded to (`round_eq_of_near`).
-/

namespace Lib.Binary

/-! ### To an integer -/

/-- `n` is nearest to `x`, and even where there are two nearest. -/
def Rounds (x : ℚ) (n : ℤ) : Prop := |x - n| < 1 / 2 ∨ |x - n| = 1 / 2 ∧ Even n

/-- `x` to the nearest integer, a tie to the even one. -/
def nearestEven (x : ℚ) : ℤ :=
  if Int.fract x < 1 / 2 ∨ Int.fract x = 1 / 2 ∧ Even ⌊x⌋ then ⌊x⌋ else ⌊x⌋ + 1

section

variable {x y : ℚ} {n m : ℤ}

theorem rounds_nearestEven (x : ℚ) : Rounds x (nearestEven x) := by
  have hfloor : x = ⌊x⌋ + Int.fract x := (Int.floor_add_fract x).symm
  have hlow := Int.fract_nonneg x
  have hhigh := Int.fract_lt_one x
  unfold nearestEven
  split
  · next h =>
      have habs : |x - ⌊x⌋| = Int.fract x := by
        rw [Int.self_sub_floor, abs_of_nonneg hlow]
      rw [Rounds, habs]
      exact h
  · next h =>
      have habs : |x - (⌊x⌋ + 1 : ℤ)| = 1 - Int.fract x := by
        rw [abs_of_nonpos] <;> push_cast <;> linarith
      rw [not_or, not_and] at h
      rw [Rounds, habs]
      rcases lt_or_eq_of_le (not_lt.mp h.1) with hgt | heq
      · exact Or.inl (by linarith)
      · exact Or.inr ⟨by linarith, Int.even_add_one.mpr (h.2 heq.symm)⟩

theorem Rounds.abs_sub_le (h : Rounds x n) : |x - n| ≤ 1 / 2 := by
  rcases h with hlt | ⟨heq, -⟩
  · exact hlt.le
  · exact heq.le

/-- Of two neighbours only one is even. -/
theorem Rounds.le_of_le (hx : Rounds x n) (hy : Rounds y m) (hle : x ≤ y) : n ≤ m := by
  by_contra hlt
  have hstep : (m : ℚ) + 1 ≤ n := by exact_mod_cast not_le.mp hlt
  have hx' := abs_le.mp hx.abs_sub_le
  have hy' := abs_le.mp hy.abs_sub_le
  -- Both are in the middle between `m` and `n`.
  have hnm : n = m + 1 := by
    have : (n : ℚ) = m + 1 := by linarith
    exact_mod_cast this
  have hxn : |x - n| = 1 / 2 := by
    rw [abs_of_nonpos] <;> linarith
  have hym : |y - m| = 1 / 2 := by
    rw [abs_of_nonneg] <;> linarith
  have hn : Even n := (hx.resolve_left hxn.not_lt).2
  have hm : Even m := (hy.resolve_left hym.not_lt).2
  rw [hnm, Int.even_add_one] at hn
  exact hn hm

theorem Rounds.unique (hn : Rounds x n) (hm : Rounds x m) : n = m :=
  le_antisymm (hn.le_of_le hm le_rfl) (hm.le_of_le hn le_rfl)

theorem nearestEven_mono (hle : x ≤ y) : nearestEven x ≤ nearestEven y :=
  (rounds_nearestEven x).le_of_le (rounds_nearestEven y) hle

theorem nearestEven_eq_of_near (h : |x - n| < 1 / 2) : nearestEven x = n :=
  (rounds_nearestEven x).unique (Or.inl h)

@[simp] theorem nearestEven_intCast (n : ℤ) : nearestEven n = n :=
  nearestEven_eq_of_near (by norm_num)

@[simp] theorem nearestEven_neg (x : ℚ) : nearestEven (-x) = -nearestEven x := by
  refine (rounds_nearestEven (-x)).unique ?_
  have habs : |-x - ((-nearestEven x : ℤ) : ℚ)| = |x - nearestEven x| := by
    rw [← abs_neg]
    congr 1
    push_cast
    ring
  rw [Rounds, habs, even_neg]
  exact rounds_nearestEven x

end

/-! ### To `p` binary digits -/

/-- The distance of the numbers with `p` digits around `x`. -/
def ulp (p : ℕ) (x : ℚ) : ℚ := 2 ^ (Int.log 2 |x| + 1 - p)

/-- `x` to `p` binary digits. -/
def round (p : ℕ) (x : ℚ) : ℚ := nearestEven (x / ulp p x) * ulp p x

section

variable {p : ℕ} {x y : ℚ} {e : ℤ}

theorem ulp_pos (p : ℕ) (x : ℚ) : 0 < ulp p x := zpow_pos (by norm_num) _

theorem ulp_eq (hlow : 2 ^ e ≤ |x|) (hhigh : |x| < 2 ^ (e + 1)) : ulp p x = 2 ^ (e + 1 - p) := by
  have hpos : 0 < |x| := lt_of_lt_of_le (zpow_pos (by norm_num) e) hlow
  have hge : e ≤ Int.log 2 |x| := (Int.zpow_le_iff_le_log (by decide) hpos).mp (by simpa using hlow)
  have hlt : Int.log 2 |x| < e + 1 :=
    (Int.lt_zpow_iff_log_lt (by decide) hpos).mp (by simpa using hhigh)
  rw [ulp, show Int.log 2 |x| = e by omega]

theorem abs_sub_round_le (p : ℕ) (x : ℚ) : |x - round p x| ≤ ulp p x / 2 := by
  have hpos := ulp_pos p x
  have hnear := (rounds_nearestEven (x / ulp p x)).abs_sub_le
  have hscale : x - round p x = (x / ulp p x - nearestEven (x / ulp p x)) * ulp p x := by
    rw [round, sub_mul, div_mul_cancel₀ _ hpos.ne']
  rw [hscale, abs_mul, abs_of_pos hpos]
  calc |x / ulp p x - nearestEven (x / ulp p x)| * ulp p x ≤ 1 / 2 * ulp p x :=
        mul_le_mul_of_nonneg_right hnear hpos.le
    _ = ulp p x / 2 := by ring

/-- Within a binade the multiples of its unit are fixed points, and catch
what is nearer to them than half a unit. -/
theorem round_eq_of_near {n : ℤ} (h : |x - n * ulp p x| < ulp p x / 2) :
    round p x = n * ulp p x := by
  have hpos := ulp_pos p x
  have hnear : |x / ulp p x - n| < 1 / 2 := by
    have hscale : x / ulp p x - n = (x - n * ulp p x) / ulp p x := by
      field_simp
    rw [hscale, abs_div, abs_of_pos hpos, div_lt_iff₀ hpos]
    linarith
  rw [round, nearestEven_eq_of_near hnear]

@[simp] theorem round_zero (p : ℕ) : round p 0 = 0 := by
  have hzero : nearestEven 0 = 0 := by simpa using nearestEven_intCast 0
  rw [round, zero_div, hzero, Int.cast_zero, zero_mul]

theorem round_neg (p : ℕ) (x : ℚ) : round p (-x) = -round p x := by
  have hulp : ulp p (-x) = ulp p x := by rw [ulp, ulp, abs_neg]
  rw [round, round, hulp, neg_div, nearestEven_neg]
  push_cast
  ring

theorem round_nonneg (p : ℕ) (h : 0 ≤ x) : 0 ≤ round p x := by
  have hpos := ulp_pos p x
  have hzero : 0 ≤ nearestEven (x / ulp p x) := by
    have hmono := nearestEven_mono (div_nonneg h hpos.le)
    rwa [show nearestEven 0 = 0 by simpa using nearestEven_intCast 0] at hmono
  exact mul_nonneg (by exact_mod_cast hzero) hpos.le

/-- A positive number lies in a binade. -/
theorem exists_binade (h : 0 < x) : ∃ e : ℤ, 2 ^ e ≤ x ∧ x < 2 ^ (e + 1) :=
  ⟨Int.log 2 x, by simpa using Int.zpow_log_le_self (by decide : 1 < 2) h,
    by simpa using Int.lt_zpow_succ_log_self (by decide : 1 < 2) x⟩

theorem ulp_eq_of_pos (hlow : 2 ^ e ≤ x) (hhigh : x < 2 ^ (e + 1)) : ulp p x = 2 ^ (e + 1 - p) := by
  have hpos : 0 < x := lt_of_lt_of_le (zpow_pos (by norm_num) e) hlow
  rw [← abs_of_pos hpos] at hlow hhigh
  exact ulp_eq hlow hhigh

/-- Both ends of a binade are multiples of its unit. -/
theorem zpow_eq_mul_ulp (k : ℕ) : (2 : ℚ) ^ (e + k) = ((2 ^ k : ℤ) : ℚ) * 2 ^ e := by
  push_cast
  rw [zpow_add₀ (by norm_num), zpow_natCast]
  ring

theorem round_le_zpow (hlow : 2 ^ e ≤ x) (hhigh : x < 2 ^ (e + 1)) : round p x ≤ 2 ^ (e + 1) := by
  have hulp := ulp_eq_of_pos (p := p) hlow hhigh
  have hpos := ulp_pos p x
  have htop : (2 : ℚ) ^ (e + 1) = ((2 ^ p : ℤ) : ℚ) * ulp p x := by
    rw [hulp, ← zpow_eq_mul_ulp]
    congr 1
    ring
  have hle : x / ulp p x ≤ ((2 ^ p : ℤ) : ℚ) := by
    rw [div_le_iff₀ hpos, ← htop]
    exact hhigh.le
  have hround := nearestEven_mono hle
  rw [nearestEven_intCast] at hround
  rw [round, htop]
  exact mul_le_mul_of_nonneg_right (by exact_mod_cast hround) hpos.le

theorem zpow_le_round (hp : 0 < p) (hlow : 2 ^ e ≤ x) (hhigh : x < 2 ^ (e + 1)) :
    2 ^ e ≤ round p x := by
  have hulp := ulp_eq_of_pos (p := p) hlow hhigh
  have hpos := ulp_pos p x
  have hbottom : (2 : ℚ) ^ e = ((2 ^ (p - 1) : ℤ) : ℚ) * ulp p x := by
    rw [hulp, ← zpow_eq_mul_ulp]
    congr 1
    omega
  have hle : ((2 ^ (p - 1) : ℤ) : ℚ) ≤ x / ulp p x := by
    rw [le_div_iff₀ hpos, ← hbottom]
    exact hlow
  have hround := nearestEven_mono hle
  rw [nearestEven_intCast] at hround
  rw [round, hbottom]
  exact mul_le_mul_of_nonneg_right (by exact_mod_cast hround) hpos.le

theorem round_le_round_of_pos (hp : 0 < p) (hx : 0 < x) (hle : x ≤ y) : round p x ≤ round p y := by
  obtain ⟨e, hlow, hhigh⟩ := exists_binade hx
  obtain ⟨f, hlow', hhigh'⟩ := exists_binade (hx.trans_le hle)
  have hef : e < f + 1 := (zpow_lt_zpow_iff_right₀ (by norm_num : (1 : ℚ) < 2)).mp
    (hlow.trans_lt (hle.trans_lt hhigh'))
  rcases lt_or_eq_of_le (Int.lt_add_one_iff.mp hef) with hlt | rfl
  · calc round p x ≤ 2 ^ (e + 1) := round_le_zpow hlow hhigh
      _ ≤ 2 ^ f := zpow_le_zpow_right₀ (by norm_num) (by omega)
      _ ≤ round p y := zpow_le_round hp hlow' hhigh'
  · -- In one binade the units agree.
    have hulp : ulp p x = ulp p y := by
      rw [ulp_eq_of_pos hlow hhigh, ulp_eq_of_pos hlow' hhigh']
    have hpos := ulp_pos p y
    rw [round, round, hulp]
    refine mul_le_mul_of_nonneg_right ?_ hpos.le
    exact_mod_cast nearestEven_mono (div_le_div_of_nonneg_right hle hpos.le)

/-- **Rounding is monotone.** -/
theorem round_mono (hp : 0 < p) : Monotone (round p) := by
  intro x y hle
  rcases lt_or_ge 0 x with hx | hx
  · exact round_le_round_of_pos hp hx hle
  · have hx' : round p x ≤ 0 := by
      have hneg := round_nonneg p (neg_nonneg.mpr hx)
      rw [round_neg] at hneg
      linarith
    rcases le_or_gt 0 y with hy | hy
    · exact hx'.trans (round_nonneg p hy)
    · have hneg := round_le_round_of_pos hp (neg_pos.mpr hy) (neg_le_neg hle)
      rw [round_neg, round_neg] at hneg
      linarith

end

end Lib.Binary
