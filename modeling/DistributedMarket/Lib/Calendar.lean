import Mathlib.Algebra.Order.Group.Nat
import Mathlib.Order.Lattice.Nat

/-!
Days of the proleptic Gregorian calendar.

`ymd2ord` numbers the days, the first of January of the year 1 being day 1.
The numbering adds up what comes before: the days before the year, before
the month and before the day. Each of these sums leaves room for what can
follow it, so numbers are in the order of dates (`ymd2ord_lt_iff`). The
argument is the same at every place and stands first (`lt_iff_of_room`).
-/

namespace Lib.Calendar

/-! ### Mixed radix -/

/-- A leading part takes the room of all that can follow it. -/
theorem lt_iff_of_room {α : Type*} [LinearOrder α] {b r : α → ℕ} {x y : α} {i j : ℕ}
    (hxy : x < y → b x + r x ≤ b y) (hyx : y < x → b y + r y ≤ b x) (hi : i < r x)
    (hj : j < r y) : b x + i < b y + j ↔ x < y ∨ x = y ∧ i < j := by
  rcases lt_trichotomy x y with hlt | rfl | hgt
  · have := hxy hlt
    simp only [hlt, true_or, iff_true]
    omega
  · simp
  · have := hyx hgt
    simp only [hgt.not_gt, hgt.ne', false_and, or_false, iff_false]
    omega

/-- The same where every leading part takes as much. -/
theorem mul_add_lt_iff {radix x y i j : ℕ} (hi : i < radix) (hj : j < radix) :
    x * radix + i < y * radix + j ↔ x < y ∨ x = y ∧ i < j := by
  have hroom : ∀ x y, x < y → x * radix + radix ≤ y * radix := by
    intro x y hlt
    rw [← Nat.succ_mul]
    exact Nat.mul_le_mul_right radix hlt
  exact lt_iff_of_room (b := (· * radix)) (r := fun _ => radix) (hroom x y) (hroom y x) hi hj

/-! ### Years, months, days -/

def isLeap (year : ℕ) : Bool := year % 4 = 0 ∧ (year % 100 ≠ 0 ∨ year % 400 = 0)

def daysBeforeYear (year : ℕ) : ℕ :=
  let y := year - 1
  y * 365 + y / 4 - y / 100 + y / 400

def daysInYear (year : ℕ) : ℕ := if isLeap year then 366 else 365

def monthLength (leap : Bool) (month : ℕ) : ℕ :=
  if month = 2 ∧ leap then 29
  else [31, 28, 31, 30, 31, 30, 31, 31, 30, 31, 30, 31].getD (month - 1) 0

def daysInMonth (year month : ℕ) : ℕ := monthLength (isLeap year) month

/-- The days of the year before a month. -/
def monthStart (leap : Bool) (month : ℕ) : ℕ :=
  [0, 31, 59, 90, 120, 151, 181, 212, 243, 273, 304, 334].getD (month - 1) 0 +
    if 2 < month ∧ leap then 1 else 0

def daysBeforeMonth (year month : ℕ) : ℕ := monthStart (isLeap year) month

def ymd2ord (year month day : ℕ) : ℕ := daysBeforeYear year + daysBeforeMonth year month + day

example : ymd2ord 1970 1 1 = 719163 := by decide

/-- A day that exists. -/
structure Valid (year month day : ℕ) : Prop where
  year_pos : 1 ≤ year
  month_range : 1 ≤ month ∧ month ≤ 12
  day_range : 1 ≤ day ∧ day ≤ daysInMonth year month

section

variable {y m d y' m' d' : ℕ}

theorem daysBeforeYear_succ (hy : 1 ≤ y) :
    daysBeforeYear (y + 1) = daysBeforeYear y + daysInYear y := by
  obtain ⟨k, rfl⟩ := Nat.exists_eq_add_of_le' hy
  have hleap : isLeap (k + 1) = true ↔ 4 ∣ k + 1 ∧ (¬ 100 ∣ k + 1 ∨ 400 ∣ k + 1) := by
    simp [isLeap, Nat.dvd_iff_mod_eq_zero]
  have hcentury : 100 ∣ k + 1 → 4 ∣ k + 1 := Nat.dvd_trans (by decide)
  have hfourth : 400 ∣ k + 1 → 100 ∣ k + 1 := Nat.dvd_trans (by decide)
  have hdiv : k / 100 ≤ k / 4 := Nat.div_le_div_left (by decide) (by decide)
  unfold daysBeforeYear daysInYear
  simp only [Nat.add_sub_cancel, Nat.succ_div, hleap]
  -- A year is one more in each of the three counts it is a multiple for.
  by_cases h4 : 4 ∣ k + 1
  · by_cases h100 : 100 ∣ k + 1
    · by_cases h400 : 400 ∣ k + 1
      · rw [if_pos h4, if_pos h100, if_pos h400, if_pos ⟨h4, Or.inr h400⟩]
        omega
      · rw [if_pos h4, if_pos h100, if_neg h400, if_neg fun h => h.2.elim (· h100) h400]
        omega
    · rw [if_pos h4, if_neg h100, if_neg (mt hfourth h100), if_pos ⟨h4, Or.inl h100⟩]
      omega
  · have h100 := mt hcentury h4
    rw [if_neg h4, if_neg h100, if_neg (mt hfourth h100), if_neg fun h => h4 h.1]
    omega

theorem daysBeforeYear_room (hy : 1 ≤ y) (hlt : y < y') :
    daysBeforeYear y + daysInYear y ≤ daysBeforeYear y' := by
  induction y', hlt using Nat.le_induction with
  | base => exact (daysBeforeYear_succ hy).ge
  | succ y' hle ih =>
      have hy' : 1 ≤ y' := by omega
      rw [daysBeforeYear_succ hy']
      omega

theorem monthStart_room (leap : Bool) (i j : Fin 12) : i < j →
    monthStart leap (i + 1) + monthLength leap (i + 1) ≤ monthStart leap (j + 1) := by
  revert leap i j
  decide

theorem monthStart_add_le (leap : Bool) (i : Fin 12) :
    monthStart leap (i + 1) + monthLength leap (i + 1) ≤ if leap then 366 else 365 := by
  revert leap i
  decide

theorem monthLength_le (leap : Bool) (i : Fin 12) : monthLength leap (i + 1) ≤ 31 := by
  revert leap i
  decide

theorem daysBeforeMonth_room (hm : 1 ≤ m) (hm' : m' ≤ 12) (hlt : m < m') :
    daysBeforeMonth y m + daysInMonth y m ≤ daysBeforeMonth y m' := by
  have hroom := monthStart_room (isLeap y) ⟨m - 1, by omega⟩ ⟨m' - 1, by omega⟩
    (Fin.mk_lt_mk.mpr (by omega))
  simp only [Nat.sub_add_cancel hm, Nat.sub_add_cancel (hm.trans hlt.le)] at hroom
  exact hroom

theorem Valid.day_le (h : Valid y m d) : d ≤ 31 := by
  obtain ⟨hm, hm'⟩ := h.month_range
  have hlength := monthLength_le (isLeap y) ⟨m - 1, by omega⟩
  simp only [Nat.sub_add_cancel hm] at hlength
  exact h.day_range.2.trans hlength

/-- The day of the year, from 0. -/
theorem Valid.dayOfYear_lt (h : Valid y m d) :
    daysBeforeMonth y m + (d - 1) < daysInYear y := by
  obtain ⟨hm, hm'⟩ := h.month_range
  have hsum := monthStart_add_le (isLeap y) ⟨m - 1, by omega⟩
  simp only [Nat.sub_add_cancel hm] at hsum
  have hday := h.day_range
  have hmonth : daysBeforeMonth y m + daysInMonth y m ≤ daysInYear y := hsum
  omega

theorem Valid.ymd2ord_eq (h : Valid y m d) :
    ymd2ord y m d = daysBeforeYear y + (daysBeforeMonth y m + (d - 1)) + 1 := by
  have := h.day_range
  rw [ymd2ord]
  omega

/-- No year is longer than 366 days. -/
theorem Valid.ymd2ord_le (h : Valid y m d) : ymd2ord y m d ≤ 366 * y := by
  have hyear := h.year_pos
  have hday := h.dayOfYear_lt
  have hlength : daysInYear y ≤ 366 := by
    unfold daysInYear
    split <;> omega
  rw [h.ymd2ord_eq]
  simp only [daysBeforeYear]
  omega

theorem Valid.dayOfYear_lt_iff (h : Valid y m d) (h' : Valid y m' d') :
    daysBeforeMonth y m + (d - 1) < daysBeforeMonth y m' + (d' - 1) ↔
      m < m' ∨ m = m' ∧ d < d' := by
  have hday := h.day_range
  have hday' := h'.day_range
  rw [lt_iff_of_room (r := daysInMonth y) (daysBeforeMonth_room h.month_range.1 h'.month_range.2)
    (daysBeforeMonth_room h'.month_range.1 h.month_range.2) (by omega) (by omega)]
  omega

/-- **Days are numbered in the order of dates.** -/
theorem ymd2ord_lt_iff (h : Valid y m d) (h' : Valid y' m' d') :
    ymd2ord y m d < ymd2ord y' m' d' ↔
      y < y' ∨ y = y' ∧ (m < m' ∨ m = m' ∧ d < d') := by
  rw [h.ymd2ord_eq, h'.ymd2ord_eq, Nat.add_lt_add_iff_right,
    lt_iff_of_room (daysBeforeYear_room h.year_pos) (daysBeforeYear_room h'.year_pos) h.dayOfYear_lt
      h'.dayOfYear_lt]
  refine or_congr Iff.rfl (and_congr_right ?_)
  rintro rfl
  exact h.dayOfYear_lt_iff h'

theorem ymd2ord_eq_iff (h : Valid y m d) (h' : Valid y' m' d') :
    ymd2ord y m d = ymd2ord y' m' d' ↔ y = y' ∧ m = m' ∧ d = d' := by
  refine ⟨fun heq => ?_, fun ⟨hy, hm, hd⟩ => by rw [hy, hm, hd]⟩
  have hlt := (ymd2ord_lt_iff h h').not.mp heq.not_lt
  have hgt := (ymd2ord_lt_iff h' h).not.mp heq.not_gt
  omega

end

end Lib.Calendar
