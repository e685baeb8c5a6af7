import DistributedMarket.Lib.DecimalFormat

/-!
Division by a power of ten is correctly rounded.

The quotient in a context is cut off two digits below the place it will be
rounded at, and if anything was cut off the last digit is nudged away from 0
and 5, so that the rounding meets no tie that is not there. That this makes
one correct rounding of the two is `halfEven_sticky`. What the context keeps
depends on the number alone and not on the triple it is given as
(`fix_congr`). Together they say that dividing by a power of ten is fitting
the exact quotient, however many digits it has (`div_pow_ten_fix`).

For integers the fitted value has a formula, `roundDigits`: the first `p`
digits, rounded half to even.
-/

namespace Lib.Decimal

variable {ctx : Context} {a d d' r : Finite}

/-! ### The sticky digit -/

theorem halfEven_add {q r unit : ℕ} (hr : r < unit) :
    halfEven (q * unit + r) unit =
      if unit < 2 * r ∨ 2 * r = unit ∧ q % 2 = 1 then q + 1 else q := by
  have hdiv : (q * unit + r) / unit = q := by
    rw [mul_comm, Nat.mul_add_div (by omega), Nat.div_eq_of_lt hr, add_zero]
  have hmod : (q * unit + r) % unit = r := by
    rw [mul_comm, Nat.mul_add_mod, Nat.mod_eq_of_lt hr]
  rw [halfEven, hdiv, hmod]

/-- Digits that were cut off and left a trace in the last one kept count
like themselves, if that one is itself rounded away. -/
theorem halfEven_sticky {n cut unit : ℕ} (hunit : 0 < unit) (hten : 10 ∣ unit)
    (hinexact : n % cut ≠ 0) (hcut : 0 < cut) :
    halfEven (if n / cut % 5 = 0 then n / cut + 1 else n / cut) unit = halfEven n (cut * unit) := by
  obtain ⟨half, rfl⟩ := hten
  obtain ⟨q, m, hm, hquot⟩ : ∃ q m, m < 10 * half ∧ n / cut = q * (10 * half) + m :=
    ⟨_, _, Nat.mod_lt _ hunit, (Nat.div_add_mod' _ _).symm⟩
  have hr : n % cut < cut := Nat.mod_lt _ hcut
  have hmod : n / cut % 5 = m % 5 := by
    rw [hquot, show q * (10 * half) + m = 5 * (q * (2 * half)) + m by ring, Nat.mul_add_mod]
  have hn : n = q * (cut * (10 * half)) + (m * cut + n % cut) := by
    calc
      n = n / cut * cut + n % cut := (Nat.div_add_mod' n cut).symm
      _ = q * (cut * (10 * half)) + (m * cut + n % cut) := by
          rw [hquot]
          ring
  generalize n % cut = r at hr hinexact hn
  -- The remainder lies strictly between two multiples of `cut`, so it is on
  -- the same side of the middle as its multiple below.
  have hstep : (m + 1) * cut ≤ 10 * half * cut := Nat.mul_le_mul_right cut hm
  have hlt : m * cut + r < cut * (10 * half) := by
    rw [mul_comm cut]
    linarith
  have hside : (cut * (10 * half) < 2 * (m * cut + r) ∨
      2 * (m * cut + r) = cut * (10 * half) ∧ q % 2 = 1) ↔ 5 * half ≤ m := by
    rcases le_or_gt (5 * half) m with hup | hdown
    · have hle : 5 * half * cut ≤ m * cut := Nat.mul_le_mul_right cut hup
      refine iff_of_true (Or.inl ?_) hup
      have hpos : 0 < r := Nat.pos_of_ne_zero hinexact
      linarith
    · have hle : (m + 1) * cut ≤ 5 * half * cut := Nat.mul_le_mul_right cut hdown
      refine iff_of_false ?_ (not_le.mpr hdown)
      rintro (hgt | ⟨heq, -⟩) <;> linarith
  rw [hmod, hquot]
  conv_rhs => rw [hn, halfEven_add hlt]
  simp only [hside]
  split
  · rw [add_assoc, halfEven_add (by omega)]
    split <;> split <;> omega
  · rw [halfEven_add hm]
    split <;> split <;> omega

/-! ### Fitting depends on the number alone -/

/-- The same failure, or the same number. -/
inductive SameResult : Except Signal Finite → Except Signal Finite → Prop
  | ok {r r' : Finite} (h : r.toRat = r'.toRat) : SameResult (.ok r) (.ok r')
  | error (signal : Signal) : SameResult (.error signal) (.error signal)

theorem error_eq_overflow {signal : Signal} (h : ctx.fix d = .error signal) :
    signal = .Overflow := by
  cases fitting_of_fix h <;> rfl

theorem coeff_ne_zero_iff : d.coeff ≠ 0 ↔ d.toRat ≠ 0 := by
  have hpos : (0 : ℚ) < 10 ^ d.exp := zpow_pos (by norm_num) _
  rw [← abs_pos, abs_toRat, mul_pos_iff_of_pos_right hpos, Nat.cast_pos, Nat.pos_iff_ne_zero]

/-- The first digit stands where it stands. -/
theorem digits_congr (hd : d.coeff ≠ 0) (h : d.toRat = d'.toRat) :
    (numDigits d.coeff : ℤ) + d.exp = numDigits d'.coeff + d'.exp := by
  have hd' : d'.coeff ≠ 0 := by
    rw [coeff_ne_zero_iff, ← h, ← coeff_ne_zero_iff]
    exact hd
  apply le_antisymm
  · exact digits_le_of_abs_lt hd (h ▸ abs_toRat_lt d')
  · exact digits_le_of_abs_lt hd' (h ▸ abs_toRat_lt d)

/-- Two multiples of the place within half a unit of a number are the same
if neither is even, since only one of two neighbours is odd. -/
theorem multiple_unique {x : ℚ} {m m' e : ℤ} (hm : 2 * |x - m * 10 ^ e| ≤ 10 ^ e)
    (hm' : 2 * |x - m' * 10 ^ e| ≤ 10 ^ e) (hodd : ¬ Even m) (hodd' : ¬ Even m') : m = m' := by
  have hpos : (0 : ℚ) < 10 ^ e := zpow_pos (by norm_num) _
  have hdist : |(m - m' : ℚ) * 10 ^ e| ≤ 10 ^ e := by
    have htriangle := abs_sub_le ((m : ℚ) * 10 ^ e) x (m' * 10 ^ e)
    rw [abs_sub_comm _ x] at htriangle
    rw [sub_mul]
    linarith
  rw [abs_mul, abs_of_pos hpos, mul_le_iff_le_one_left hpos] at hdist
  have hnear : |m - m'| ≤ 1 := by exact_mod_cast hdist
  have heven : Even (m - m') := Int.even_sub'.mpr
    (iff_of_true (Int.not_even_iff_odd.mp hodd) (Int.not_even_iff_odd.mp hodd'))
  obtain ⟨k, hk⟩ := heven
  rw [abs_le] at hnear
  omega

theorem fix_congr (h : d.toRat = d'.toRat) : SameResult (ctx.fix d) (ctx.fix d') := by
  by_cases hd : d.coeff = 0
  · have hd' : d'.coeff = 0 := by
      by_contra hne
      rw [← Ne, coeff_ne_zero_iff, ← h, ← coeff_ne_zero_iff] at hne
      exact hne hd
    obtain ⟨r, hr, hrat⟩ := @fix_zero ctx d hd
    obtain ⟨r', hr', hrat'⟩ := @fix_zero ctx d' hd'
    rw [hr, hr']
    exact .ok (by rw [hrat, hrat', h])
  have hd' : d'.coeff ≠ 0 := by
    rw [coeff_ne_zero_iff, ← h, ← coeff_ne_zero_iff]
    exact hd
  have hquantum : ctx.quantum d' = ctx.quantum d := by
    rw [Context.quantum, Context.quantum, digits_congr hd h]
  have hok : (∃ r, ctx.fix d = .ok r) ↔ ∃ r, ctx.fix d' = .ok r := by
    rw [fix_isOk_iff, fix_isOk_iff, h]
  cases hr : ctx.fix d with
  | error signal =>
      cases hr' : ctx.fix d' with
      | ok r' =>
          obtain ⟨r, hr''⟩ := hok.mpr ⟨r', hr'⟩
          rw [hr] at hr''
          contradiction
      | error signal' =>
          rw [error_eq_overflow hr, error_eq_overflow hr']
          exact .error _
  | ok r =>
      obtain ⟨r', hr'⟩ := hok.mp ⟨r, hr⟩
      rw [hr']
      refine .ok ?_
      obtain ⟨m, hm⟩ := fix_multiple hd hr
      obtain ⟨m', hm'⟩ := fix_multiple hd' hr'
      have hnear := fix_near hd hr
      have hnear' := fix_near hd' hr'
      rw [hquantum] at hm' hnear'
      rw [hm] at hnear ⊢
      rw [hm'] at hnear' ⊢
      rw [← h] at hnear'
      by_cases heven : Even m
      · rw [← hm', fix_even hd' hr' heven (by rw [hquantum, ← h]; exact hnear), hquantum]
      by_cases heven' : Even m'
      · rw [← hm, fix_even hd hr heven' hnear']
      · rw [multiple_unique hnear hnear' heven heven']

/-! ### Dividing by a power of ten -/

/-- More digits than the quotient keeps: `j` of them are cut off. -/
theorem quotient_of_long {p j : ℕ} (hlong : numDigits a.coeff = ctx.prec + 2 + j) :
    ctx.quotient a ⟨false, 10 ^ p, 0⟩ =
      if a.coeff % 10 ^ j ≠ 0 then
        ⟨a.negative,
          if a.coeff / 10 ^ j % 5 = 0 then a.coeff / 10 ^ j + 1 else a.coeff / 10 ^ j,
          a.exp - p + j⟩
      else Finite.dropZeros ((p : ℤ) - j).toNat
        ⟨a.negative, a.coeff / 10 ^ j, a.exp - p + j⟩ := by
  have hdigits : numDigits (10 ^ p) = p + 1 := by
    rw [numDigits, Nat.log_pow (by decide)]
  have hshift : (((p + 1 : ℕ) : ℤ) - (ctx.prec + 2 + j : ℕ) + ctx.prec + 1) = p - j := by
    push_cast
    ring
  have hdivisor : 10 ^ p * 10 ^ (-((p : ℤ) - j)).toNat = 10 ^ j * 10 ^ ((p : ℤ) - j).toNat := by
    rw [← pow_add, ← pow_add]
    congr 1
    omega
  have hpos : 0 < 10 ^ ((p : ℤ) - j).toNat := by positivity
  unfold Context.quotient
  dsimp only
  rw [hdigits, hlong, hshift, hdivisor, Nat.mul_div_mul_right _ _ hpos, Nat.mul_mod_mul_right,
    Bool.xor_false, show a.exp - 0 - ((p : ℤ) - j) = a.exp - p + j by ring]
  simp only [ne_eq, mul_eq_zero, hpos.ne', or_false]

/-- Cutting digits off moves no digit that stays. -/
theorem numDigits_div_pow {n j k : ℕ} (hk : k ≠ 0) (hdigits : numDigits n = k + j) :
    numDigits (n / 10 ^ j) = k := by
  rw [numDigits, Nat.log_div_base_pow] at *
  omega

/-- A power of ten is not the successor of a multiple of five. -/
theorem numDigits_succ {n : ℕ} (hn : n ≠ 0) (hfive : n % 5 = 0) :
    numDigits (n + 1) = numDigits n := by
  have hlow : 10 ^ Nat.log 10 n ≤ n := Nat.pow_log_le_self 10 hn
  have hhigh : n < 10 ^ (Nat.log 10 n + 1) := Nat.lt_pow_succ_log_self (by decide) n
  rw [numDigits, numDigits, Nat.log_eq_of_pow_le_of_lt_pow (hlow.trans (Nat.le_succ n))]
  rw [pow_succ] at hhigh ⊢
  omega

/-- The nudged quotient is fitted like the exact one. -/
theorem fix_sticky {c j : ℕ} {s : Bool} {e : ℤ} (hlong : numDigits c = ctx.prec + 2 + j)
    (hinexact : c % 10 ^ j ≠ 0) :
    ctx.fix ⟨s, if c / 10 ^ j % 5 = 0 then c / 10 ^ j + 1 else c / 10 ^ j, e + j⟩ =
      ctx.fix ⟨s, c, e⟩ := by
  have hquot := numDigits_div_pow (by omega) hlong
  have hdigits : numDigits (if c / 10 ^ j % 5 = 0 then c / 10 ^ j + 1 else c / 10 ^ j) =
      ctx.prec + 2 := by
    split
    · rename_i hfive
      rw [numDigits_succ _ hfive, hquot]
      rintro hzero
      rw [hzero] at hquot
      simp [numDigits] at hquot
    · exact hquot
  have hcoeff : c ≠ 0 := by
    rintro rfl
    simp at hinexact
  have hcoeff' : (if c / 10 ^ j % 5 = 0 then c / 10 ^ j + 1 else c / 10 ^ j) ≠ 0 := by
    intro hzero
    rw [hzero] at hdigits
    simp [numDigits] at hdigits
  have hplace : ((ctx.prec + 2 : ℕ) : ℤ) + (e + j) - ctx.prec =
      (ctx.prec + 2 + j : ℕ) + e - ctx.prec := by
    push_cast
    ring
  generalize hexp : max (((ctx.prec + 2 + j : ℕ) : ℤ) + e - ctx.prec) ctx.etiny = place
  have hlow : e + j + 2 ≤ place := by
    have := le_max_left (((ctx.prec + 2 + j : ℕ) : ℤ) + e - ctx.prec) ctx.etiny
    omega
  have hrescale : Finite.rescale
      ⟨s, if c / 10 ^ j % 5 = 0 then c / 10 ^ j + 1 else c / 10 ^ j, e + j⟩ place =
        Finite.rescale ⟨s, c, e⟩ place := by
    have hunit : (place - e).toNat = j + (place - (e + j)).toNat := by omega
    rw [Finite.rescale, Finite.rescale]
    dsimp only
    rw [hunit, pow_add, halfEven_sticky (by positivity) (dvd_pow_self 10 (by omega)) hinexact
      (by positivity)]
  unfold Context.fix
  dsimp only
  rw [if_neg hcoeff, if_neg hcoeff', hdigits, hlong, hplace, hexp, hrescale]
  simp only [show e + j < place by omega, show e < place by omega, if_true]

/-- **Division by a power of ten is correctly rounded**: it fails or succeeds
as fitting the exact quotient does, and gives the same number. -/
theorem div_pow_ten_fix (ctx : Context) (a : Finite) (p : ℕ) :
    SameResult (ctx.div a ⟨false, 10 ^ p, 0⟩) (ctx.fix ⟨a.negative, a.coeff, a.exp - p⟩) := by
  have hvalue : (⟨a.negative, a.coeff, a.exp - p⟩ : Finite).toRat = a.toRat / 10 ^ p := by
    rw [Finite.toRat, zpow_sub₀ (by norm_num), zpow_natCast, ← mul_div_assoc]
    rfl
  unfold Context.div
  rw [if_neg (by positivity : (10 : ℕ) ^ p ≠ 0)]
  split
  · rename_i hzero
    apply fix_congr
    rw [hvalue, Finite.toRat_of_coeff_eq_zero hzero, zero_div]
    exact Finite.toRat_of_coeff_eq_zero rfl
  rcases le_or_gt (numDigits a.coeff) (ctx.prec + 2) with hshort | hlong
  · exact fix_congr ((toRat_quotient_pow_ten hshort).trans hvalue.symm)
  · obtain ⟨j, hj⟩ := Nat.exists_eq_add_of_le hlong.le
    rw [quotient_of_long hj]
    split
    · rename_i hinexact
      rw [show a.exp - p + j = (a.exp - p) + j from rfl, fix_sticky hj hinexact]
      exact fix_congr rfl
    · rename_i hexact
      apply fix_congr
      rw [toRat_dropZeros]
      have hten : a.coeff / 10 ^ j * 10 ^ j = a.coeff :=
        Nat.div_mul_cancel (Nat.dvd_of_mod_eq_zero (not_not.mp hexact))
      exact Finite.toRat_eq_of_pad j 0 (by simpa using hten) (by push_cast; ring)

/-! ### The first digits of an integer -/

/-- `n` rounded to its first `p` digits, half to even. -/
def roundDigits (p : ℕ) (n : ℤ) : ℤ :=
  let unit := 10 ^ (numDigits n.natAbs - p)
  let magnitude : ℕ := halfEven n.natAbs unit * unit
  if n < 0 then -magnitude else magnitude

section RoundDigits

variable {p : ℕ} {n : ℤ}

theorem natAbs_roundDigits (p : ℕ) (n : ℤ) :
    (roundDigits p n).natAbs =
      halfEven n.natAbs (10 ^ (numDigits n.natAbs - p)) * 10 ^ (numDigits n.natAbs - p) := by
  unfold roundDigits
  dsimp only
  split
  · rw [Int.natAbs_neg, Int.natAbs_natCast]
  · rw [Int.natAbs_natCast]

/-- Half a unit of the last digit kept. -/
theorem roundDigits_near (p : ℕ) (n : ℤ) :
    2 * |n - roundDigits p n| ≤ 10 ^ (numDigits n.natAbs - p) := by
  have hnear := @halfEven_near n.natAbs (10 ^ (numDigits n.natAbs - p)) (by positivity)
  unfold roundDigits
  dsimp only
  push_cast at hnear ⊢
  split
  · rename_i hneg
    rw [abs_of_neg hneg] at hnear
    rw [sub_neg_eq_add, ← abs_neg, neg_add, ← sub_eq_add_neg]
    exact hnear
  · rename_i hpos
    rw [abs_of_nonneg (not_lt.mp hpos)] at hnear
    exact hnear

theorem unit_le_abs (hp : 0 < p) (hn : n ≠ 0) : (10 : ℤ) ^ (numDigits n.natAbs - p) ≤ |n| := by
  have hlow : 10 ^ Nat.log 10 n.natAbs ≤ n.natAbs :=
    Nat.pow_log_le_self 10 (Int.natAbs_ne_zero.mpr hn)
  have hmono : 10 ^ (numDigits n.natAbs - p) ≤ 10 ^ Nat.log 10 n.natAbs := by
    refine Nat.pow_le_pow_right (by decide) ?_
    rw [numDigits]
    omega
  rw [Int.abs_eq_natAbs]
  exact_mod_cast hmono.trans hlow

theorem abs_le_two_mul_roundDigits (hp : 0 < p) : |n| ≤ 2 * |roundDigits p n| := by
  by_cases hn : n = 0
  · simp [hn]
  · have hnear := (roundDigits_near p n).trans (unit_le_abs hp hn)
    have htriangle := abs_sub_abs_le_abs_sub n (roundDigits p n)
    omega

theorem dvd_roundDigits (p : ℕ) (n : ℤ) :
    (10 : ℤ) ^ (numDigits n.natAbs - p) ∣ roundDigits p n := by
  rw [← Int.natAbs_dvd_natAbs, Int.natAbs_pow, natAbs_roundDigits]
  exact Nat.dvd_mul_left _ _

/-- Rounding keeps the integers with zeros after their first `p` digits. -/
theorem roundDigits_eq_self_iff :
    roundDigits p n = n ↔ (10 : ℤ) ^ (numDigits n.natAbs - p) ∣ n := by
  refine ⟨fun h => ?_, fun hdvd => ?_⟩
  · have hdvd := dvd_roundDigits p n
    rwa [h] at hdvd
  have hpos : (0 : ℤ) < 10 ^ (numDigits n.natAbs - p) := by positivity
  have hnear := roundDigits_near p n
  obtain ⟨t, ht⟩ := Int.dvd_sub hdvd (dvd_roundDigits p n)
  have hzero : n - roundDigits p n = 0 := by
    apply Int.eq_zero_of_abs_lt_dvd ⟨t, ht⟩
    omega
  omega

/-- What is left has at most `p` digits before its zeros. -/
theorem exists_short_roundDigits (hp : 0 < p) (n : ℤ) :
    ∃ m : ℤ, ∃ k : ℕ, |m| < 10 ^ p ∧ roundDigits p n = m * 10 ^ k := by
  generalize hk : numDigits n.natAbs - p = k
  have hunit : 0 < 10 ^ k := by positivity
  have hle : halfEven n.natAbs (10 ^ k) ≤ 10 ^ p := by
    refine (halfEven_le _ _).trans (Nat.div_lt_of_lt_mul ?_)
    rw [← pow_add]
    exact (lt_pow_numDigits _).trans_le (Nat.pow_le_pow_right (by decide) (by omega))
  have hnatAbs := natAbs_roundDigits p n
  rw [hk] at hnatAbs
  obtain ⟨m, k', hm, hshort⟩ :
      ∃ m k', m < 10 ^ p ∧ (roundDigits p n).natAbs = m * 10 ^ k' := by
    rcases hle.lt_or_eq with hlt | heq
    · exact ⟨_, k, hlt, hnatAbs⟩
    · refine ⟨1, p + k, Nat.one_lt_pow hp.ne' (by decide), ?_⟩
      rw [hnatAbs, heq, one_mul, pow_add]
  have hbound : |(m : ℤ)| < 10 ^ p := by
    rw [Nat.abs_cast]
    exact_mod_cast hm
  rcases Int.natAbs_eq (roundDigits p n) with heq | heq
  · exact ⟨m, k', hbound, by rw [heq, hshort]; push_cast; rfl⟩
  · exact ⟨-m, k', by rwa [abs_neg], by rw [heq, hshort]; push_cast; ring⟩

/-- Fitting an integer in the place `d.exp` keeps its first digits. -/
theorem fix_roundDigits (hlow : ctx.etiny ≤ d.exp) (h : ctx.fix d = .ok r) :
    r.toRat = roundDigits ctx.prec d.signed * 10 ^ d.exp := by
  have hnatAbs : d.signed.natAbs = d.coeff := by
    unfold Finite.signed
    split <;> simp
  by_cases hd : d.coeff = 0
  · obtain ⟨r', hr', hrat⟩ := @fix_zero ctx d hd
    rw [h] at hr'
    cases hr'
    rw [hrat, Finite.toRat_of_coeff_eq_zero hd, Finite.signed_eq_zero.mpr hd]
    simp [roundDigits, numDigits, halfEven]
  have hfirst : (numDigits d.coeff : ℤ) + d.exp - ctx.prec ≤ ctx.quantum d := le_max_left _ _
  rcases (fix_eq_ok hd h).2 with ⟨hhigh, rfl⟩ | ⟨hplace, hr⟩
  · have hself : roundDigits ctx.prec r.signed = r.signed := by
      rw [roundDigits_eq_self_iff, hnatAbs, show numDigits r.coeff - ctx.prec = 0 by omega]
      exact one_dvd _
    rw [hself]
    rfl
  · have hquantum : ctx.quantum d = numDigits d.coeff + d.exp - ctx.prec := by
      rcases max_choice ((numDigits d.coeff : ℤ) + d.exp - ctx.prec) ctx.etiny with hmax | hmax
      · exact hmax
      · exact absurd (hplace.trans_eq hmax) (not_lt.mpr hlow)
    have hsign : d.signed < 0 ↔ d.negative = true := by
      have hcoeff : 0 < d.coeff := Nat.pos_of_ne_zero hd
      cases hneg : d.negative with
      | true => simpa [Finite.signed, hneg] using hcoeff
      | false => simp [Finite.signed, hneg]
    have hunit : (ctx.quantum d - d.exp).toNat = numDigits d.coeff - ctx.prec := by omega
    rw [hr, Finite.toRat, Finite.signed_rescale, roundDigits, hnatAbs, hunit]
    simp only [hsign]
    rw [show (d.rescale (ctx.quantum d)).exp = ctx.quantum d from rfl,
      Finite.pow_eq_unit_mul hplace.le, hunit]
    split
    · push_cast
      ring
    · push_cast
      ring

end RoundDigits

/-- A number with at most `prec` digits before its zeros passes unchanged up
to the top of the range, and overflows beyond it. -/
theorem fix_short {m e : ℤ} (hvalue : d.toRat = m * 10 ^ e) (hm : |m| < 10 ^ ctx.prec)
    (hlow : ctx.etiny ≤ e) :
    (|d.toRat| < 10 ^ (ctx.prec + ctx.etop) → ∃ r, ctx.fix d = .ok r ∧ r.toRat = d.toRat) ∧
      (10 ^ (ctx.prec + ctx.etop) ≤ |d.toRat| → ctx.fix d = .error .Overflow) := by
  have hpos : (0 : ℚ) < 10 ^ ctx.etop := zpow_pos (by norm_num) _
  have htop : (10 : ℚ) ^ (ctx.prec + ctx.etop) = 10 ^ ctx.prec * 10 ^ ctx.etop := by
    rw [zpow_add₀ (by norm_num), zpow_natCast]
  refine ⟨fun hlt => ?_, fun hge => ?_⟩
  · rcases le_or_gt e ctx.etop with hhigh | hhigh
    · exact fix_of_digits hvalue hm hlow hhigh
    · have hvalue' : d.toRat = (m * 10 ^ (e - ctx.etop).toNat : ℤ) * 10 ^ ctx.etop := by
        rw [hvalue]
        push_cast
        rw [mul_assoc, ← zpow_natCast, ← zpow_add₀ (by norm_num),
          Int.toNat_of_nonneg (by omega), sub_add_cancel]
      refine fix_of_digits hvalue' ?_ ctx.etiny_le_etop le_rfl
      rw [hvalue', abs_mul, abs_of_pos hpos, htop, mul_lt_mul_iff_left₀ hpos] at hlt
      exact_mod_cast hlt
  · cases h : ctx.fix d with
    | error signal => rw [error_eq_overflow h]
    | ok r =>
        have hthreshold := fix_isOk_iff.mp ⟨r, h⟩
        rw [htop] at hge
        linarith

end Lib.Decimal
