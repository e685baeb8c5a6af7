import DistributedMarket.Lib.DecimalDivision
import DistributedMarket.WireFormat

/-!
The wire, for integers of any size.

A number with more than 28 digits is formatted as its first 28, rounded half
to even, with zeros after them: the context rounds the quotient by the
scale. The parser reads that text exactly. So what comes back is
`roundDigits 28 n`, whatever the format, as long as it has a place in the
context, and `decimal.Overflow` is raised where it has none. In particular
a number survives the trip just when it has no more than 28 digits before
its zeros (`wire_exact_iff`), and two numbers are written alike just when
they round alike.
-/

namespace DistributedMarket

open Lib.Decimal

section

variable {n : ℤ} {places : ℕ}

/-- The quotient by the scale, before it is fitted. -/
def scaledDown (n : ℤ) (places : ℕ) : Finite := ⟨decide (n < 0), n.natAbs, -places⟩

theorem signed_scaledDown (n : ℤ) (places : ℕ) : (scaledDown n places).signed = n :=
  Finite.signed_ofInt n

theorem ofInt_pow_ten (places : ℕ) :
    Finite.ofInt (10 ^ places : ℕ) = ⟨false, 10 ^ places, 0⟩ := by
  unfold Finite.ofInt
  rw [Int.natAbs_natCast]
  simp

/-- The formatter's division is correctly rounded. -/
theorem div_scale (n : ℤ) (places : ℕ) :
    SameResult (defaultContext.div (.ofInt n) (.ofInt (10 ^ places : ℕ)))
      (defaultContext.fix (scaledDown n places)) := by
  have hsame := div_pow_ten_fix defaultContext (.ofInt n) places
  rw [ofInt_pow_ten]
  simpa [scaledDown, Finite.ofInt] using hsame

/-- The formatter writes what the context keeps of the quotient. -/
theorem formatDecimal_of_fix {r : Finite} (hplaces : places ≤ 28)
    (h : defaultContext.fix (scaledDown n places) = .ok r) :
    formatDecimal n (10 ^ places : ℕ) places =
      .ok (fixedText (decide (n < 0)) (roundDigits 28 n).natAbs places) := by
  have hlow : defaultContext.etiny ≤ (scaledDown n places).exp := by
    rw [show defaultContext.etiny = -1000026 from rfl,
      show (scaledDown n places).exp = -places from rfl]
    omega
  have hrat : r.toRat = roundDigits 28 n * 10 ^ (-places : ℤ) := by
    rw [fix_roundDigits hlow h, signed_scaledDown]
    rfl
  have hsame := div_scale n places
  rw [h] at hsame
  generalize hdiv : defaultContext.div (.ofInt n) (.ofInt (10 ^ places : ℕ)) = result at hsame
  cases hsame with
  | @ok r' _ hvalue =>
      have hnegative : r'.negative = decide (n < 0) := by
        rw [negative_div hdiv, ofInt_pow_ten]
        exact Bool.xor_false _
      have hpos : (0 : ℚ) < 10 ^ (-places : ℤ) := zpow_pos (by norm_num) _
      have habs : |r'.toRat| = (roundDigits 28 n).natAbs * 10 ^ (-places : ℤ) := by
        rw [hvalue, hrat, abs_mul, abs_of_pos hpos, Nat.cast_natAbs, Int.cast_abs]
      unfold formatDecimal
      rw [hdiv]
      dsimp only
      rw [Finite.toFixed, hnegative, coeff_quantize habs]

theorem formatDecimal_of_overflow {signal : Signal}
    (h : defaultContext.fix (scaledDown n places) = .error signal) :
    formatDecimal n (10 ^ places : ℕ) places = .error (.decimal .Overflow) := by
  have hsame := div_scale n places
  rw [h] at hsame
  generalize hdiv : defaultContext.div (.ofInt n) (.ofInt (10 ^ places : ℕ)) = result at hsame
  obtain ⟨⟩ := hsame
  unfold formatDecimal
  rw [hdiv, error_eq_overflow h]

/-- The sign is that of the number that was rounded. -/
theorem signed_roundDigits (p : ℕ) (n e : ℤ) :
    (⟨decide (n < 0), (roundDigits p n).natAbs, e⟩ : Finite).signed = roundDigits p n := by
  rw [Finite.signed, natAbs_roundDigits, roundDigits]
  simp only [decide_eq_true_eq]

theorem abs_cast_lt_pow {z : ℤ} {k : ℕ} : |(z : ℚ)| < 10 ^ k ↔ |z| < 10 ^ k := by
  rw [← Int.cast_abs]
  exact_mod_cast Iff.rfl

/-- The parser reads a rounded number back, or has no place for it. -/
theorem parseDecimal_of_rounded {text what : String}
    (htext : Number.ofText text =
      .ok (.finite ⟨decide (n < 0), (roundDigits 28 n).natAbs, -places⟩)) :
    (|roundDigits 28 n| < 10 ^ 1000000 →
        parseDecimal text (10 ^ places : ℕ) places what = .ok (roundDigits 28 n)) ∧
      (10 ^ 1000000 ≤ |roundDigits 28 n| →
        parseDecimal text (10 ^ places : ℕ) places what = .error (.decimal .Overflow)) := by
  have hproduct : (Finite.mulExact ⟨decide (n < 0), (roundDigits 28 n).natAbs, -places⟩
      (.ofInt (10 ^ places : ℕ))).toRat = roundDigits 28 n := by
    rw [Finite.toRat_mulExact, Finite.toRat, signed_roundDigits, Finite.toRat_ofInt, zpow_neg,
      zpow_natCast]
    push_cast
    rw [inv_mul_cancel_right₀ (by positivity)]
  obtain ⟨m, k, hm, hshort⟩ := exists_short_roundDigits (by decide : 0 < 28) n
  have hvalue : (Finite.mulExact ⟨decide (n < 0), (roundDigits 28 n).natAbs, -places⟩
      (.ofInt (10 ^ places : ℕ))).toRat = m * 10 ^ (k : ℤ) := by
    rw [hproduct, hshort]
    push_cast
    rw [zpow_natCast]
  have hlow : defaultContext.etiny ≤ k := by
    rw [show defaultContext.etiny = -1000026 from rfl]
    omega
  obtain ⟨hok, herror⟩ := @fix_short defaultContext _ m k hvalue hm hlow
  rw [hproduct, show (defaultContext.prec : ℤ) + defaultContext.etop = (1000000 : ℕ) from rfl,
    zpow_natCast, abs_cast_lt_pow] at hok
  rw [hproduct, show (defaultContext.prec : ℤ) + defaultContext.etop = (1000000 : ℕ) from rfl,
    zpow_natCast, ← not_lt, abs_cast_lt_pow, not_lt] at herror
  refine ⟨fun hlt => ?_, fun hge => ?_⟩
  · obtain ⟨r, hr, hrat⟩ := hok hlt
    exact (parseDecimal_eq_ok_iff htext).mpr ⟨r, hr, hrat⟩
  · rw [parseDecimal_of_finite htext, Context.mul, herror hge]

/-- A rounded number in range was itself far from overflowing. -/
theorem fix_scaledDown_isOk (hpos : 0 < places) (hrange : |roundDigits 28 n| < 10 ^ 1000000) :
    ∃ r, defaultContext.fix (scaledDown n places) = .ok r := by
  have hn : |n| ≤ 2 * |roundDigits 28 n| := abs_le_two_mul_roundDigits (by decide)
  have hsplit : (10 : ℚ) ^ 1000000 = 10 ^ defaultContext.prec * 10 ^ defaultContext.etop := by
    rw [show defaultContext.etop = (999972 : ℕ) from rfl, zpow_natCast, ← pow_add]
    rfl
  have htop : (0 : ℚ) < 10 ^ defaultContext.etop := zpow_pos (by norm_num) _
  have hlarge : |(n : ℚ)| < 2 * (10 ^ defaultContext.prec * 10 ^ defaultContext.etop) := by
    have hn' : |(n : ℚ)| ≤ 2 * |(roundDigits 28 n : ℚ)| := by
      rw [← Int.cast_abs, ← Int.cast_abs]
      exact_mod_cast hn
    have hrange' := abs_cast_lt_pow.mpr hrange
    rw [hsplit] at hrange'
    linarith
  have htenth : (10 : ℚ) ^ (-places : ℤ) ≤ 1 / 10 := by
    calc
      (10 : ℚ) ^ (-places : ℤ) ≤ 10 ^ (-1 : ℤ) :=
        zpow_le_zpow_right₀ (by norm_num) (by omega)
      _ = 1 / 10 := by norm_num
  have hpow : (0 : ℚ) < 10 ^ (-places : ℤ) := zpow_pos (by norm_num) _
  have hprec : (1 : ℚ) ≤ 10 ^ defaultContext.prec := one_le_pow₀ (by norm_num)
  rw [fix_isOk_iff, Finite.toRat, signed_scaledDown, abs_mul,
    show (scaledDown n places).exp = -places from rfl, abs_of_pos hpow]
  have hless := mul_le_mul_of_nonneg_left htenth (abs_nonneg (n : ℚ))
  have hmul := mul_le_mul_of_nonneg_right hprec htop.le
  rw [sub_mul, mul_assoc, one_mul]
  rw [one_mul] at hmul
  linarith only [hlarge, hless, hmul, htop]

/-- What becomes of `n` when it is formatted and the text is parsed. -/
theorem format_parse (places : ℕ) (what : String) (n : ℤ) (hpos : 0 < places)
    (hplaces : places ≤ 28) :
    (|roundDigits 28 n| < 10 ^ 1000000 →
        ∃ text, formatDecimal n (10 ^ places : ℕ) places = .ok text ∧
          (∃ whole fraction, FixedForm (decide (n < 0)) (roundDigits 28 n).natAbs places text
            whole fraction) ∧
          parseDecimal text (10 ^ places : ℕ) places what = .ok (roundDigits 28 n)) ∧
      (10 ^ 1000000 ≤ |roundDigits 28 n| →
        formatDecimal n (10 ^ places : ℕ) places = .error (.decimal .Overflow) ∨
          ∃ text, formatDecimal n (10 ^ places : ℕ) places = .ok text ∧
            parseDecimal text (10 ^ places : ℕ) places what = .error (.decimal .Overflow)) := by
  obtain ⟨whole, fraction, hform⟩ :=
    fixedForm_fixedText (decide (n < 0)) (roundDigits 28 n).natAbs hpos
  have hread := @parseDecimal_of_rounded n places _ what (ofText_of_fixedForm hform)
  refine ⟨fun hlt => ?_, fun hge => ?_⟩
  · obtain ⟨r, hr⟩ := fix_scaledDown_isOk hpos hlt
    exact ⟨_, formatDecimal_of_fix hplaces hr, ⟨whole, fraction, hform⟩, hread.1 hlt⟩
  · cases hr : defaultContext.fix (scaledDown n places) with
    | error signal => exact Or.inl (formatDecimal_of_overflow hr)
    | ok r => exact Or.inr ⟨_, formatDecimal_of_fix hplaces hr, hread.2 hge⟩

theorem format_parse_exact_iff (places : ℕ) (what : String) (n : ℤ) (hpos : 0 < places)
    (hplaces : places ≤ 28) :
    (∃ text, formatDecimal n (10 ^ places : ℕ) places = .ok text ∧
        parseDecimal text (10 ^ places : ℕ) places what = .ok n) ↔
      (10 : ℤ) ^ (numDigits n.natAbs - 28) ∣ n ∧ |n| < 10 ^ 1000000 := by
  obtain ⟨hrange, hbeyond⟩ := format_parse places what n hpos hplaces
  rw [← roundDigits_eq_self_iff]
  refine ⟨?_, ?_⟩
  · rintro ⟨text, htext, hparse⟩
    rcases lt_or_ge |roundDigits 28 n| (10 ^ 1000000) with hlt | hge
    · obtain ⟨text', htext', -, hparse'⟩ := hrange hlt
      obtain rfl := Except.ok.inj (htext.symm.trans htext')
      have hsame : roundDigits 28 n = n := Except.ok.inj (hparse'.symm.trans hparse)
      rw [hsame] at hlt
      exact ⟨hsame, hlt⟩
    · rcases hbeyond hge with herror | ⟨text', htext', herror⟩
      · rw [htext] at herror
        contradiction
      · obtain rfl := Except.ok.inj (htext.symm.trans htext')
        rw [hparse] at herror
        contradiction
  · rintro ⟨hsame, hlt⟩
    obtain ⟨text, htext, -, hparse⟩ := hrange (by rw [hsame]; exact hlt)
    rw [hsame] at hparse
    exact ⟨text, htext, hparse⟩

theorem neg_iff_roundDigits_neg : n < 0 ↔ roundDigits 28 n < 0 := by
  have hle : |n| ≤ 2 * |roundDigits 28 n| := abs_le_two_mul_roundDigits (by decide)
  have hsigned := signed_roundDigits 28 n 0
  unfold Finite.signed at hsigned
  dsimp only at hsigned
  by_cases hneg : n < 0
  · simp only [hneg, decide_true, if_true] at hsigned
    have hne : roundDigits 28 n ≠ 0 := by
      intro hzero
      rw [hzero, abs_zero, mul_zero, abs_nonpos_iff] at hle
      exact hneg.ne hle
    exact iff_of_true hneg (by omega)
  · simp only [hneg, decide_false, Bool.false_eq_true, if_false] at hsigned
    refine iff_of_false hneg ?_
    omega

theorem format_eq_iff (places : ℕ) (hpos : 0 < places) (hplaces : places ≤ 28) {m n : ℤ}
    (hm : |roundDigits 28 m| < 10 ^ 1000000) (hn : |roundDigits 28 n| < 10 ^ 1000000) :
    formatDecimal m (10 ^ places : ℕ) places = formatDecimal n (10 ^ places : ℕ) places ↔
      roundDigits 28 m = roundDigits 28 n := by
  obtain ⟨r, hr⟩ := fix_scaledDown_isOk hpos hm
  obtain ⟨r', hr'⟩ := fix_scaledDown_isOk hpos hn
  refine ⟨fun heq => ?_, fun heq => ?_⟩
  · obtain ⟨text, htext, -, hparse⟩ := (format_parse places "" m hpos hplaces).1 hm
    obtain ⟨text', htext', -, hparse'⟩ := (format_parse places "" n hpos hplaces).1 hn
    obtain rfl := Except.ok.inj (htext.symm.trans (heq.trans htext'))
    exact Except.ok.inj (hparse.symm.trans hparse')
  · rw [formatDecimal_of_fix hplaces hr, formatDecimal_of_fix hplaces hr', heq,
      show decide (m < 0) = decide (n < 0) by
        rw [decide_eq_decide, neg_iff_roundDigits_neg, heq, ← neg_iff_roundDigits_neg]]

end

/-- Formatting `n` and parsing the text gives `n'`. -/
def TripGives (n n' : ℤ) : Prop :=
  (∃ text, formatQuantity n = .ok text ∧
    (∃ whole fraction, FixedForm (decide (n < 0)) n'.natAbs 2 text whole fraction) ∧
    parseQuantity text = .ok n') ∧
  ∃ text, formatPrice n = .ok text ∧
    (∃ whole fraction, FixedForm (decide (n < 0)) n'.natAbs 5 text whole fraction) ∧
    parsePrice text = .ok n'

/-- Formatting `n` raises `decimal.Overflow`, or parsing the text does. -/
def TripOverflows (n : ℤ) : Prop :=
  (formatQuantity n = .error (.decimal .Overflow) ∨
    ∃ text, formatQuantity n = .ok text ∧ parseQuantity text = .error (.decimal .Overflow)) ∧
  (formatPrice n = .error (.decimal .Overflow) ∨
    ∃ text, formatPrice n = .ok text ∧ parsePrice text = .error (.decimal .Overflow))

/-- **What comes back over the wire**, for every integer: its first 28 digits,
rounded half to even, or an overflow. -/
theorem wire_rounds (n : ℤ) :
    (|roundDigits 28 n| < 10 ^ 1000000 → TripGives n (roundDigits 28 n)) ∧
      (10 ^ 1000000 ≤ |roundDigits 28 n| → TripOverflows n) := by
  obtain ⟨hquantity, hquantity'⟩ := format_parse 2 "quantity" n (by decide) (by decide)
  obtain ⟨hprice, hprice'⟩ := format_parse 5 "price" n (by decide) (by decide)
  exact ⟨fun hlt => ⟨hquantity hlt, hprice hlt⟩, fun hge => ⟨hquantity' hge, hprice' hge⟩⟩

theorem pow_lt_top {k : ℕ} (h : k < 1000000) : |(10 : ℤ) ^ k| < 10 ^ 1000000 := by
  rw [abs_of_pos (by positivity)]
  exact pow_lt_pow_right₀ (by decide) h

/-- Thirty digits come back as a power of ten. -/
theorem wire_rounds_thirty_digits : TripGives (10 ^ 29 + 1) (10 ^ 29) := by
  have hround : roundDigits 28 (10 ^ 29 + 1) = 10 ^ 29 := rfl
  have htrip := (wire_rounds (10 ^ 29 + 1)).1
  rw [hround] at htrip
  exact htrip (pow_lt_top (by decide))

/-- **Which integers survive the wire**: those of at most 28 digits before
their zeros, up to the top of the context. -/
theorem wire_exact_iff (n : ℤ) :
    ((∃ text, formatQuantity n = .ok text ∧ parseQuantity text = .ok n) ↔
        (10 : ℤ) ^ (numDigits n.natAbs - 28) ∣ n ∧ |n| < 10 ^ 1000000) ∧
      ((∃ text, formatPrice n = .ok text ∧ parsePrice text = .ok n) ↔
        (10 : ℤ) ^ (numDigits n.natAbs - 28) ∣ n ∧ |n| < 10 ^ 1000000) :=
  ⟨format_parse_exact_iff 2 "quantity" n (by decide) (by decide),
    format_parse_exact_iff 5 "price" n (by decide) (by decide)⟩

/-- **Which integers are written alike.** -/
theorem wire_collides_iff {m n : ℤ} (hm : |roundDigits 28 m| < 10 ^ 1000000)
    (hn : |roundDigits 28 n| < 10 ^ 1000000) :
    (formatQuantity m = formatQuantity n ↔ roundDigits 28 m = roundDigits 28 n) ∧
      (formatPrice m = formatPrice n ↔ roundDigits 28 m = roundDigits 28 n) :=
  ⟨format_eq_iff 2 (by decide) (by decide) hm hn, format_eq_iff 5 (by decide) (by decide) hm hn⟩

theorem wire_collides_thirty_digits :
    formatQuantity (10 ^ 29 + 1) = formatQuantity (10 ^ 29) ∧
      formatPrice (10 ^ 29 + 1) = formatPrice (10 ^ 29) := by
  have hround : roundDigits 28 (10 ^ 29 + 1) = 10 ^ 29 := rfl
  have hround' : roundDigits 28 (10 ^ 29) = 10 ^ 29 := rfl
  obtain ⟨hquantity, hprice⟩ := @wire_collides_iff (10 ^ 29 + 1) (10 ^ 29)
    (by rw [hround]; exact pow_lt_top (by decide)) (by rw [hround']; exact pow_lt_top (by decide))
  exact ⟨hquantity.mpr (hround.trans hround'.symm), hprice.mpr (hround.trans hround'.symm)⟩

end DistributedMarket
