import DistributedMarket.Lib.Decimal

/-!
Which numbers a context has room for.

Rounding to a context depends on where the first digit of a number stands,
and that is a matter of its value, not of the triple that represents it
(`abs_toRat_lt`, `digits_le_of_abs_lt`). Two consequences are used of it. A
number with at most `prec` digits above a place in range passes through
`fix` unchanged (`fix_of_digits`). And `fix` raises exactly on what rounds
beyond the largest number of the context, which is what lies half a unit of
its last place above it or further (`fix_isOk_iff`).
-/

namespace Lib.Decimal

variable {ctx : Context} {d r : Finite}

/-! ### Digits and magnitude -/

theorem abs_toRat (d : Finite) : |d.toRat| = d.coeff * 10 ^ d.exp := by
  have hpos : (0 : ℚ) < 10 ^ d.exp := zpow_pos (by norm_num) _
  rw [Finite.toRat, abs_mul, abs_of_pos hpos]
  unfold Finite.signed
  split <;> simp

theorem abs_toRat_lt (d : Finite) : |d.toRat| < 10 ^ (numDigits d.coeff + d.exp) := by
  have hpos : (0 : ℚ) < 10 ^ d.exp := zpow_pos (by norm_num) _
  rw [abs_toRat, zpow_add₀ (by norm_num), zpow_natCast]
  exact mul_lt_mul_of_pos_right (by exact_mod_cast lt_pow_numDigits d.coeff) hpos

theorem le_abs_toRat (hd : d.coeff ≠ 0) :
    (10 : ℚ) ^ (numDigits d.coeff + d.exp - 1) ≤ |d.toRat| := by
  have hpos : (0 : ℚ) < 10 ^ d.exp := zpow_pos (by norm_num) _
  have hfirst : 10 ^ (numDigits d.coeff - 1) ≤ d.coeff := Nat.pow_log_le_self 10 hd
  have hsplit : (numDigits d.coeff : ℤ) + d.exp - 1 = (numDigits d.coeff - 1 : ℕ) + d.exp := by
    have : 0 < numDigits d.coeff := Nat.succ_pos _
    omega
  rw [abs_toRat, hsplit, zpow_add₀ (by norm_num), zpow_natCast]
  exact mul_le_mul_of_nonneg_right (by exact_mod_cast hfirst) hpos.le

/-- The first digit of a number below a power of ten stands below it. -/
theorem digits_le_of_abs_lt {k : ℤ} (hd : d.coeff ≠ 0) (h : |d.toRat| < 10 ^ k) :
    numDigits d.coeff + d.exp ≤ k := by
  have hlt := (zpow_lt_zpow_iff_right₀ (by norm_num : (1 : ℚ) < 10)).mp
    ((le_abs_toRat hd).trans_lt h)
  omega

/-! ### What passes unchanged -/

theorem fix_negative (h : ctx.fix d = .ok r) : r.negative = d.negative := by
  cases fitting_of_fix h <;> rfl

/-- At most `prec` digits, in a place the context has. -/
theorem fix_of_digits {m e : ℤ} (hvalue : d.toRat = m * 10 ^ e) (hm : |m| < 10 ^ ctx.prec)
    (hlow : ctx.etiny ≤ e) (hhigh : e ≤ ctx.etop) :
    ∃ r, ctx.fix d = .ok r ∧ r.toRat = d.toRat := by
  by_cases hd : d.coeff = 0
  · exact fix_zero hd
  · have hpos : (0 : ℚ) < 10 ^ e := zpow_pos (by norm_num) _
    have habs : |d.toRat| < 10 ^ (ctx.prec + e) := by
      rw [hvalue, abs_mul, abs_of_pos hpos, zpow_add₀ (by norm_num), zpow_natCast]
      exact mul_lt_mul_of_pos_right (by exact_mod_cast hm) hpos
    have hquantum : ctx.quantum d ≤ e := by
      have := digits_le_of_abs_lt hd habs
      exact max_le (by omega) hlow
    refine fix_exact hd (hquantum.trans hhigh) (m := m * 10 ^ (e - ctx.quantum d).toNat) ?_
    rw [hvalue]
    push_cast
    rw [mul_assoc, ← zpow_natCast, ← zpow_add₀ (by norm_num), Int.toNat_of_nonneg (by omega),
      sub_add_cancel]

/-! ### What overflows -/

/-- A fitted number has at most `prec` digits, none above the top place. -/
theorem fix_digits (hd : d.coeff ≠ 0) (h : ctx.fix d = .ok r) :
    numDigits r.coeff ≤ ctx.prec ∧ (numDigits r.coeff : ℤ) + r.exp ≤ ctx.prec + ctx.etop := by
  have hfirst : (numDigits d.coeff : ℤ) + d.exp - ctx.prec ≤ ctx.quantum d := le_max_left _ _
  cases fitting_of_fix h with
  | zero hzero => exact absurd hzero hd
  | exact _ hroom hhigh => exact ⟨by omega, by omega⟩
  | rounded _ hroom _ hshort =>
      refine ⟨hshort, ?_⟩
      show (_ : ℤ) + ctx.quantum d ≤ _
      omega
  | carried _ htop _ hcarry =>
      have hshort : numDigits ((d.rescale (ctx.quantum d)).coeff / 10) ≤ ctx.prec := by
        apply numDigits_le ctx.prec_pos.ne'
        rw [hcarry]
        exact Nat.div_lt_self (by positivity) (by decide)
      refine ⟨hshort, ?_⟩
      show (numDigits ((d.rescale (ctx.quantum d)).coeff / 10) : ℤ) + (ctx.quantum d + 1) ≤ _
      omega

/-- The largest number of the context is `10 ^ prec - 1` in its top place. -/
theorem abs_toRat_le_max (hdigits : numDigits d.coeff ≤ ctx.prec)
    (htop : (numDigits d.coeff : ℤ) + d.exp ≤ ctx.prec + ctx.etop) :
    |d.toRat| ≤ (10 ^ ctx.prec - 1) * 10 ^ ctx.etop := by
  -- Seen from the lower of its own place and the top one, `d` is an integer
  -- of at most `prec` digits.
  have hplace : ((10 : ℚ) ^ min d.exp ctx.etop) ≤ 10 ^ ctx.etop :=
    zpow_le_zpow_right₀ (by norm_num) (min_le_right _ _)
  have hpos : (0 : ℚ) < 10 ^ min d.exp ctx.etop := zpow_pos (by norm_num) _
  have hvalue := abs_toRat d
  rw [show d.exp = (d.exp - min d.exp ctx.etop).toNat + min d.exp ctx.etop by omega,
    zpow_add₀ (by norm_num), zpow_natCast, ← mul_assoc] at hvalue
  have hlt : |d.toRat| < 10 ^ ctx.prec * 10 ^ min d.exp ctx.etop := by
    refine (abs_toRat_lt d).trans_le ?_
    rw [← zpow_natCast, ← zpow_add₀ (by norm_num)]
    exact zpow_le_zpow_right₀ (by norm_num) (by omega)
  rw [hvalue, mul_lt_mul_iff_left₀ hpos] at hlt
  have hle : (d.coeff * 10 ^ (d.exp - min d.exp ctx.etop).toNat : ℚ) ≤ 10 ^ ctx.prec - 1 := by
    have hnat : d.coeff * 10 ^ (d.exp - min d.exp ctx.etop).toNat + 1 ≤ 10 ^ ctx.prec := by
      exact_mod_cast hlt
    rw [le_sub_iff_add_le]
    exact_mod_cast hnat
  have hnonneg : (0 : ℚ) ≤ 10 ^ ctx.prec - 1 :=
    sub_nonneg.mpr (one_le_pow₀ (by norm_num))
  rw [hvalue]
  exact mul_le_mul hle hplace hpos.le hnonneg

/-- Half a unit above the largest number is a tie, and the even neighbour is
the one out of range. -/
theorem fix_ne_ok_of_tie (htie : 2 * |d.toRat| = (2 * 10 ^ ctx.prec - 1) * 10 ^ ctx.etop)
    (hquantum : ctx.quantum d = ctx.etop) (hd : d.coeff ≠ 0) : ctx.fix d ≠ .ok r := by
  intro h
  have hpos : (0 : ℚ) < 10 ^ ctx.etop := zpow_pos (by norm_num) _
  have heven : Even ((10 : ℤ) ^ ctx.prec) :=
    Int.even_pow.mpr ⟨by decide, ctx.prec_pos.ne'⟩
  have hmax := abs_toRat_le_max (fix_digits hd h).1 (fix_digits hd h).2
  have hfar : |r.toRat| = 10 ^ ctx.prec * 10 ^ ctx.etop := by
    rcases abs_cases d.toRat with ⟨habs, -⟩ | ⟨habs, -⟩
    · rw [fix_even hd h heven (by
        rw [hquantum, abs_sub_comm, abs_of_nonneg] <;> push_cast <;> linarith), hquantum]
      push_cast
      rw [abs_of_pos (by positivity)]
    · rw [fix_even hd h heven.neg (by
        rw [hquantum, abs_of_nonneg] <;> push_cast <;> linarith), hquantum]
      push_cast
      rw [neg_mul, abs_neg, abs_of_pos (by positivity)]
  rw [hfar] at hmax
  linarith

theorem lt_threshold_of_fix (h : ctx.fix d = .ok r) :
    2 * |d.toRat| < (2 * 10 ^ ctx.prec - 1) * 10 ^ ctx.etop := by
  have hpos : (0 : ℚ) < 10 ^ ctx.etop := zpow_pos (by norm_num) _
  by_cases hd : d.coeff = 0
  · have hone : (1 : ℚ) ≤ 10 ^ ctx.prec := one_le_pow₀ (by norm_num)
    rw [Finite.toRat_of_coeff_eq_zero hd, abs_zero, mul_zero]
    exact mul_pos (by linarith) hpos
  · have hroom := (fix_eq_ok hd h).1
    have hnear := fix_near hd h
    have hmax := abs_toRat_le_max (fix_digits hd h).1 (fix_digits hd h).2
    have hsplit : |d.toRat| ≤ |d.toRat - r.toRat| + |r.toRat| := by
      have := abs_add_le (d.toRat - r.toRat) r.toRat
      rwa [sub_add_cancel] at this
    rcases hroom.lt_or_eq with hlt | heq
    · have hplace : (10 : ℚ) ^ ctx.quantum d < 10 ^ ctx.etop :=
        zpow_lt_zpow_right₀ (by norm_num) hlt
      linarith
    · rw [heq] at hnear
      refine lt_of_le_of_ne (by linarith) fun htie => ?_
      exact fix_ne_ok_of_tie htie heq hd h

theorem threshold_le_of_fix {signal : Signal} (h : ctx.fix d = .error signal) :
    (2 * 10 ^ ctx.prec - 1) * 10 ^ ctx.etop ≤ 2 * |d.toRat| := by
  have hpos : (0 : ℚ) < 10 ^ ctx.etop := zpow_pos (by norm_num) _
  cases fitting_of_fix h with
  | above hd htop =>
      -- The first digit is above the top place.
      have hfirst : ctx.etop < (numDigits d.coeff : ℤ) + d.exp - ctx.prec :=
        (lt_max_iff.mp htop).resolve_right (not_lt.mpr ctx.etiny_le_etop)
      have hbig : (10 : ℚ) ^ (ctx.prec + ctx.etop) ≤ |d.toRat| :=
        (zpow_le_zpow_right₀ (by norm_num) (by omega)).trans (le_abs_toRat hd)
      rw [zpow_add₀ (by norm_num), zpow_natCast] at hbig
      linarith
  | carriedAbove hd htop hlow hcarry =>
      -- Rounding carries into a digit above the top place.
      rw [htop] at hlow hcarry
      have hnear := Finite.rescale_near hlow.le
      have hrounded := abs_toRat (d.rescale ctx.etop)
      rw [hcarry, show (d.rescale ctx.etop).exp = ctx.etop from rfl] at hrounded
      push_cast at hrounded
      have hsplit : |(d.rescale ctx.etop).toRat| ≤
          |d.toRat - (d.rescale ctx.etop).toRat| + |d.toRat| := by
        have := abs_add_le ((d.rescale ctx.etop).toRat - d.toRat) d.toRat
        rwa [sub_add_cancel, abs_sub_comm] at this
      linarith

/-- **The overflow threshold.** Fitting a number raises precisely when it is
half a unit of the top place above the largest number, or more. -/
theorem fix_isOk_iff :
    (∃ r, ctx.fix d = .ok r) ↔ 2 * |d.toRat| < (2 * 10 ^ ctx.prec - 1) * 10 ^ ctx.etop := by
  refine ⟨fun ⟨r, h⟩ => lt_threshold_of_fix h, fun hlt => ?_⟩
  cases h : ctx.fix d with
  | ok r => exact ⟨r, rfl⟩
  | error signal => exact absurd hlt (not_lt.mpr (threshold_le_of_fix h))

end Lib.Decimal
