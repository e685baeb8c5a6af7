import Mathlib.Algebra.Order.Floor.Ring
import Mathlib.Algebra.Order.Group.Unbundled.Int
import Mathlib.Algebra.Order.BigOperators.Group.List
import Mathlib.Data.Int.ModEq
import Mathlib.Data.Rat.Floor
import Mathlib.Tactic.Linarith
import Mathlib.Tactic.Ring

/-!
Rounding a quotient of integers to the nearest integer, with the tie sent
up or down by the caller.

The function is computed the way programs do it, from a floor quotient and
a doubled remainder. Everything else follows from one fact about the error
`nearest up unit x * unit - x`: doubled, it lies between `-unit` and
`unit`, and the end that is reached is the one ties are sent to. That
interval is `Within`, and `nearest` is the only integer whose error lies in
it (`nearest_eq_iff`). Monotonicity, the closed forms with `⌊·⌋` and `⌈·⌉`
and the error of a sum of roundings are read off it.
-/

namespace Lib.Nearest

/-- `x / unit` to the nearest integer; a tie goes up if `up` says so. -/
def nearest (up : Bool) (unit x : ℤ) : ℤ :=
  if unit < 2 * (x % unit) ∨ (2 * (x % unit) = unit ∧ up) then x / unit + 1 else x / unit

/-- The errors of rounding: half a unit at most, and half a unit exactly
only towards the side ties are sent to. -/
def Within (up : Bool) (unit error : ℤ) : Prop :=
  if up then -unit < 2 * error ∧ 2 * error ≤ unit else -unit ≤ 2 * error ∧ 2 * error < unit

section

variable {up : Bool} {unit unit' x y n error error' : ℤ}

@[simp] theorem within_up : Within true unit error ↔ -unit < 2 * error ∧ 2 * error ≤ unit :=
  Iff.rfl

@[simp] theorem within_down : Within false unit error ↔ -unit ≤ 2 * error ∧ 2 * error < unit :=
  Iff.rfl

theorem Within.bounds (h : Within up unit error) : -unit ≤ 2 * error ∧ 2 * error ≤ unit := by
  cases up with
  | true => exact ⟨(within_up.mp h).1.le, (within_up.mp h).2⟩
  | false => exact ⟨(within_down.mp h).1, (within_down.mp h).2.le⟩

/-- The difference of two errors reaches neither end. -/
theorem Within.sub_lt (h : Within up unit error) (h' : Within up unit' error') :
    2 * (error - error') < unit + unit' := by
  cases up with
  | true =>
      rw [within_up] at h h'
      omega
  | false =>
      rw [within_down] at h h'
      omega

theorem Within.add (h : Within up unit error) (h' : Within up unit' error') :
    Within up (unit + unit') (error + error') := by
  cases up with
  | true =>
      rw [within_up] at h h' ⊢
      omega
  | false =>
      rw [within_down] at h h' ⊢
      omega

/-- The two candidates and what decides between them. -/
theorem nearest_within (up : Bool) (x : ℤ) (hunit : 0 < unit) :
    Within up unit (nearest up unit x * unit - x) := by
  have hdiv : x / unit * unit + x % unit = x := Int.ediv_mul_add_emod x unit
  have hlow := Int.emod_nonneg x hunit.ne'
  have hhigh := Int.emod_lt_of_pos x hunit
  have hnext : (x / unit + 1) * unit = x / unit * unit + unit := by ring
  unfold nearest
  cases up with
  | true =>
      rw [within_up]
      split
      · rename_i hround
        rw [hnext]
        omega
      · rename_i hround
        simp only [and_true, not_or, not_lt] at hround
        omega
  | false =>
      rw [within_down]
      split
      · rename_i hround
        simp only [Bool.false_eq_true, and_false, or_false] at hround
        rw [hnext]
        omega
      · rename_i hround
        simp only [Bool.false_eq_true, and_false, or_false, not_lt] at hround
        omega

/-- The nearest integer is the only one whose error is one of rounding. -/
theorem nearest_eq_iff (hunit : 0 < unit) :
    nearest up unit x = n ↔ Within up unit (n * unit - x) := by
  refine ⟨?_, ?_⟩
  · rintro rfl
    exact nearest_within up x hunit
  · intro hn
    have hself := nearest_within up x hunit
    have hlow : (n - nearest up unit x) * unit < 1 * unit := by
      have hsub := hn.sub_lt hself
      rw [sub_mul, one_mul]
      omega
    have hhigh : (nearest up unit x - n) * unit < 1 * unit := by
      have hsub := hself.sub_lt hn
      rw [sub_mul, one_mul]
      omega
    have hle := lt_of_mul_lt_mul_right hlow hunit.le
    have hge := lt_of_mul_lt_mul_right hhigh hunit.le
    omega

theorem nearest_error (up : Bool) (hunit : 0 < unit) :
    -unit ≤ 2 * (nearest up unit x * unit - x) ∧ 2 * (nearest up unit x * unit - x) ≤ unit :=
  (nearest_within up x hunit).bounds

theorem nearest_nonneg (up : Bool) (hunit : 0 < unit) (h : 0 ≤ x) : 0 ≤ nearest up unit x := by
  have herror := (nearest_error (x := x) up hunit).1
  have hlt : -1 * unit < nearest up unit x * unit := by omega
  exact Int.lt_iff_add_one_le.mp (lt_of_mul_lt_mul_right hlt hunit.le)

/-- What does not round away: more than half a unit, or half a unit if ties
go up. -/
theorem nearest_pos_iff (up : Bool) (hunit : 0 < unit) :
    0 < nearest up unit x ↔ unit < 2 * x ∨ (2 * x = unit ∧ up) := by
  have hwithin := nearest_within up x hunit
  have hpos : 0 < nearest up unit x → unit ≤ nearest up unit x * unit := fun hn =>
    le_mul_of_one_le_left hunit.le hn
  have hnonpos : nearest up unit x ≤ 0 → nearest up unit x * unit ≤ 0 := fun hn =>
    mul_nonpos_of_nonpos_of_nonneg hn hunit.le
  cases up with
  | true =>
      rw [within_up] at hwithin
      simp only [and_true]
      omega
  | false =>
      rw [within_down] at hwithin
      simp only [Bool.false_eq_true, and_false, or_false]
      omega

/-- What costs at most `n` units rounds to at most `n`. -/
theorem nearest_le_of_le (up : Bool) (hunit : 0 < unit) (h : x ≤ n * unit) :
    nearest up unit x ≤ n := by
  have herror := (nearest_error (x := x) up hunit).2
  have hlt : nearest up unit x * unit < (n + 1) * unit := by
    rw [add_mul, one_mul]
    omega
  exact Int.lt_add_one_iff.mp (lt_of_mul_lt_mul_right hlt hunit.le)

theorem nearest_mono (up : Bool) (hunit : 0 < unit) (h : x ≤ y) :
    nearest up unit x ≤ nearest up unit y := by
  have hsub := (nearest_within up x hunit).sub_lt (nearest_within up y hunit)
  have hlt : nearest up unit x * unit < (nearest up unit y + 1) * unit := by
    rw [add_mul, one_mul]
    omega
  exact Int.lt_add_one_iff.mp (lt_of_mul_lt_mul_right hlt hunit.le)

/-! ### Closed forms -/

theorem nearest_up_eq_floor (hunit : 0 < unit) :
    nearest true unit x = ⌊((2 * x + unit : ℚ) / (2 * unit))⌋ := by
  have hpos : (0 : ℚ) < 2 * unit := by exact_mod_cast (by omega : 0 < 2 * unit)
  rw [eq_comm, Int.floor_eq_iff, le_div_iff₀ hpos, div_lt_iff₀ hpos]
  obtain ⟨hlow, hhigh⟩ := within_up.mp (nearest_within true x hunit)
  refine ⟨?_, ?_⟩
  · have hle : nearest true unit x * (2 * unit) ≤ 2 * x + unit := by linarith
    exact_mod_cast hle
  · have hlt : 2 * x + unit < (nearest true unit x + 1) * (2 * unit) := by linarith
    exact_mod_cast hlt

theorem nearest_down_eq_ceil (hunit : 0 < unit) :
    nearest false unit x = ⌈((2 * x - unit : ℚ) / (2 * unit))⌉ := by
  have hpos : (0 : ℚ) < 2 * unit := by exact_mod_cast (by omega : 0 < 2 * unit)
  rw [eq_comm, Int.ceil_eq_iff, lt_div_iff₀ hpos, div_le_iff₀ hpos]
  obtain ⟨hlow, hhigh⟩ := within_down.mp (nearest_within false x hunit)
  refine ⟨?_, ?_⟩
  · have hlt : (nearest false unit x - 1) * (2 * unit) < 2 * x - unit := by linarith
    exact_mod_cast hlt
  · have hle : 2 * x - unit ≤ nearest false unit x * (2 * unit) := by linarith
    exact_mod_cast hle

/-- The tie is all the two roundings differ in. -/
theorem nearest_up_sub_down (hunit : 0 < unit) :
    nearest true unit x - nearest false unit x = if 2 * x ≡ unit [ZMOD 2 * unit] then 1 else 0 := by
  split
  · rename_i htie
    obtain ⟨k, hk⟩ := htie.dvd
    have hx : unit - 2 * x = 2 * (k * unit) := by rw [hk]; ring
    have hup : nearest true unit x = -k + 1 := by
      rw [nearest_eq_iff hunit, within_up, add_mul, one_mul, neg_mul]
      omega
    have hdown : nearest false unit x = -k := by
      rw [nearest_eq_iff hunit, within_down, neg_mul]
      omega
    omega
  · rename_i hclear
    have hup := within_up.mp (nearest_within true x hunit)
    have hdown : nearest false unit x = nearest true unit x := by
      rw [nearest_eq_iff hunit, within_down]
      refine ⟨hup.1.le, lt_of_le_of_ne hup.2 fun htie => hclear ?_⟩
      refine Int.modEq_iff_dvd.mpr ⟨1 - nearest true unit x, ?_⟩
      linarith
    omega

/-! ### Sums of roundings -/

/-- The errors of a list add up to an error of as many units. -/
theorem sum_nearest_within (up : Bool) (hunit : 0 < unit) (x : ℤ) (xs : List ℤ) :
    Within up ((x :: xs).length * unit)
      (unit * ((x :: xs).map (nearest up unit)).sum - (x :: xs).sum) := by
  induction xs generalizing x with
  | nil => simpa [mul_comm] using nearest_within up x hunit
  | cons y xs ih =>
      have hhead := nearest_within up x hunit
      have hsum := hhead.add (ih y)
      have hunits : ((x :: y :: xs).length : ℤ) * unit = unit + (y :: xs).length * unit := by
        rw [List.length_cons]
        push_cast
        ring
      rw [hunits, List.map_cons, List.sum_cons, List.sum_cons (a := x)]
      convert hsum using 1
      ring

/-- Rounding each of a list moves the sum by at most half a unit for each. -/
theorem sum_nearest_error (up : Bool) (hunit : 0 < unit) (xs : List ℤ) :
    2 * |unit * (xs.map (nearest up unit)).sum - xs.sum| ≤ xs.length * unit := by
  cases xs with
  | nil => simp
  | cons x xs =>
      obtain ⟨hlow, hhigh⟩ := (sum_nearest_within up hunit x xs).bounds
      rw [← abs_two, ← abs_mul, abs_le]
      exact ⟨hlow, hhigh⟩

/-- Rounding the parts and rounding the whole differ by at most half for
each part. That the ends are half open is what makes it `length` and not
one more. -/
theorem sum_nearest_sub_nearest_sum (up : Bool) (hunit : 0 < unit) (xs : List ℤ) :
    2 * |(xs.map (nearest up unit)).sum - nearest up unit xs.sum| ≤ xs.length := by
  cases xs with
  | nil =>
      have hzero : nearest up unit 0 = 0 := by
        rw [nearest_eq_iff hunit]
        cases up <;> simp [hunit, hunit.le]
      simp [hzero]
  | cons x xs =>
      have hparts := sum_nearest_within up hunit x xs
      have hwhole := nearest_within up (x :: xs).sum hunit
      have hhigh := hparts.sub_lt hwhole
      have hlow := hwhole.sub_lt hparts
      generalize ((x :: xs).map (nearest up unit)).sum = parts at hhigh hlow ⊢
      generalize nearest up unit (x :: xs).sum = whole at hhigh hlow ⊢
      generalize ((x :: xs).length : ℤ) = length at hhigh hlow ⊢
      have hup : 2 * (parts - whole) * unit < (length + 1) * unit := by linarith
      have hdown : 2 * (whole - parts) * unit < (length + 1) * unit := by linarith
      have hle := lt_of_mul_lt_mul_right hup hunit.le
      have hge := lt_of_mul_lt_mul_right hdown hunit.le
      rw [← abs_two, ← abs_mul, abs_le]
      omega

end

end Lib.Nearest
