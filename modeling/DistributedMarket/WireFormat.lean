import DistributedMarket.Wire

/-!
What the formatters write.

Up to 28 digits a quantity or a price is written as its digits with a point
among them: the division by the scale is exact, and so is the rounding to
the decimals shown. Read back, the digits are scaled up again by a product
that may have more of them than the context keeps; those it drops are
zeros. So parsing undoes formatting, up to the very limit of the context.
-/

namespace DistributedMarket

open Lib.Decimal

section

variable {n : ℤ} {places : ℕ}

/-- Sign and magnitude of an integer, at any exponent. -/
theorem toRat_signMagnitude (n e : ℤ) :
    (⟨decide (n < 0), n.natAbs, e⟩ : Finite).toRat = n * 10 ^ e := by
  rw [Finite.toRat, show (⟨decide (n < 0), n.natAbs, e⟩ : Finite).signed = n from
    Finite.signed_ofInt n]

theorem numDigits_natAbs_le (hn : |n| < 10 ^ 28) : numDigits n.natAbs ≤ defaultContext.prec := by
  apply numDigits_le (by decide)
  have hcast : ((n.natAbs : ℕ) : ℤ) < (10 ^ 28 : ℕ) := by
    rw [Int.natCast_natAbs]
    exact_mod_cast hn
  exact_mod_cast hcast

/-- The formatter writes the digits of `n` with a point before the last
`places`. -/
theorem formatDecimal_eq_ok (hn : |n| < 10 ^ 28) (hplaces : places ≤ 28) :
    formatDecimal n (10 ^ places : ℕ) places =
      .ok (fixedText (decide (n < 0)) n.natAbs places) := by
  have hscale : Finite.ofInt (10 ^ places : ℕ) = ⟨false, 10 ^ places, 0⟩ := by
    unfold Finite.ofInt
    rw [Int.natAbs_natCast]
    simp
  have hlow : defaultContext.etiny ≤ 0 - places := by
    rw [show defaultContext.etiny = -1000026 from rfl]
    omega
  have hhigh : (0 : ℤ) - places ≤ defaultContext.etop := by
    rw [show defaultContext.etop = 999972 from rfl]
    omega
  obtain ⟨r, hr, hrat⟩ :=
    @div_pow_ten defaultContext (.ofInt n) places (numDigits_natAbs_le hn) hlow hhigh
  have hnegative : r.negative = decide (n < 0) := by
    rw [negative_div hr]
    exact Bool.xor_false _
  have habs : |r.toRat| = n.natAbs * 10 ^ (-places : ℤ) := by
    rw [hrat, Finite.toRat_ofInt, abs_div, abs_of_pos (by positivity : (0 : ℚ) < 10 ^ places),
      zpow_neg, zpow_natCast, ← div_eq_mul_inv, Nat.cast_natAbs, Int.cast_abs]
  unfold formatDecimal
  rw [hscale, hr]
  dsimp only
  rw [Finite.toFixed, hnegative, coeff_quantize habs]

/-- Scaling up what was scaled down is exact: the digits the context has no
room for are zeros. -/
theorem parseDecimal_of_signMagnitude {text what : String} (hn : |n| < 10 ^ 28)
    (htext : Number.ofText text = .ok (.finite ⟨decide (n < 0), n.natAbs, -places⟩)) :
    parseDecimal text (10 ^ places : ℕ) places what = .ok n := by
  rw [parseDecimal_eq_ok_iff htext]
  have hvalue : (Finite.mulExact ⟨decide (n < 0), n.natAbs, -places⟩
      (.ofInt (10 ^ places : ℕ))).toRat = n * 10 ^ (0 : ℤ) := by
    rw [Finite.toRat_mulExact, toRat_signMagnitude, Finite.toRat_ofInt, zpow_neg, zpow_natCast]
    push_cast
    rw [inv_mul_cancel_right₀ (by positivity), mul_one]
  obtain ⟨r, hr, hrat⟩ := @fix_of_digits defaultContext _ n 0 hvalue (by exact_mod_cast hn)
    (by decide) (by decide)
  refine ⟨r, hr, ?_⟩
  rw [hrat, hvalue, zpow_zero, mul_one]

/-- Formatting is canonical and parsing undoes it. -/
theorem formatDecimal_parse (places : ℕ) (what : String) (hn : |n| < 10 ^ 28) (hpos : 0 < places)
    (hplaces : places ≤ 28) :
    ∃ text, formatDecimal n (10 ^ places : ℕ) places = .ok text ∧
      (∃ whole fraction, FixedForm (decide (n < 0)) n.natAbs places text whole fraction) ∧
      parseDecimal text (10 ^ places : ℕ) places what = .ok n := by
  obtain ⟨whole, fraction, hform⟩ := fixedForm_fixedText (decide (n < 0)) n.natAbs hpos
  exact ⟨_, formatDecimal_eq_ok hn hplaces, ⟨whole, fraction, hform⟩,
    parseDecimal_of_signMagnitude hn (ofText_of_fixedForm hform)⟩

/-- Numbers that are read back from their texts have texts of their own. -/
theorem injOn_of_parse {format : ℤ → Except PyErr String} (parse : String → Except PyErr ℤ)
    {s : Set ℤ} (hround : ∀ n ∈ s, ∃ text, format n = .ok text ∧ parse text = .ok n) :
    Set.InjOn format s := by
  intro m hm n hn heq
  obtain ⟨text, htext, hparse⟩ := hround m hm
  obtain ⟨text', htext', hparse'⟩ := hround n hn
  obtain rfl := Except.ok.inj (htext.symm.trans (heq.trans htext'))
  exact Except.ok.inj (hparse.symm.trans hparse')

end

/-- **Parsing undoes formatting.** Up to 28 digits the text is canonical,
with exactly two or five decimals and a minus sign for the negative numbers
alone, and is read as the number it was written for; so no two numbers
share a text. -/
theorem parse_format {n : ℤ} (hn : |n| < 10 ^ 28) :
    (∃ text, formatQuantity n = .ok text ∧
      (∃ whole fraction, FixedForm (decide (n < 0)) n.natAbs 2 text whole fraction) ∧
      parseQuantity text = .ok n) ∧
    (∃ text, formatPrice n = .ok text ∧
      (∃ whole fraction, FixedForm (decide (n < 0)) n.natAbs 5 text whole fraction) ∧
      parsePrice text = .ok n) ∧
    ∀ m : ℤ, |m| < 10 ^ 28 →
      (formatQuantity m = formatQuantity n → m = n) ∧ (formatPrice m = formatPrice n → m = n) := by
  have hquantity : ∀ m : ℤ, |m| < 10 ^ 28 → ∃ text, formatQuantity m = .ok text ∧
      (∃ whole fraction, FixedForm (decide (m < 0)) m.natAbs 2 text whole fraction) ∧
      parseQuantity text = .ok m := fun m hm =>
    formatDecimal_parse 2 "quantity" hm (by decide) (by decide)
  have hprice : ∀ m : ℤ, |m| < 10 ^ 28 → ∃ text, formatPrice m = .ok text ∧
      (∃ whole fraction, FixedForm (decide (m < 0)) m.natAbs 5 text whole fraction) ∧
      parsePrice text = .ok m := fun m hm =>
    formatDecimal_parse 5 "price" hm (by decide) (by decide)
  refine ⟨hquantity n hn, hprice n hn, fun m hm => ⟨fun heq => ?_, fun heq => ?_⟩⟩
  · refine injOn_of_parse parseQuantity (s := {k | |k| < 10 ^ 28}) (fun k hk => ?_) hm hn heq
    obtain ⟨text, htext, -, hparse⟩ := hquantity k hk
    exact ⟨text, htext, hparse⟩
  · refine injOn_of_parse parsePrice (s := {k | |k| < 10 ^ 28}) (fun k hk => ?_) hm hn heq
    obtain ⟨text, htext, -, hparse⟩ := hprice k hk
    exact ⟨text, htext, hparse⟩

/-- One tick below zero, and the largest number of 28 digits. -/
theorem parse_format_at_the_limits :
    (∃ text, formatPrice (-1) = .ok text ∧
      (∃ whole fraction, FixedForm true 1 5 text whole fraction) ∧ parsePrice text = .ok (-1)) ∧
    ∃ text, formatQuantity (10 ^ 28 - 1) = .ok text ∧
      (∃ whole fraction, FixedForm false (10 ^ 28 - 1) 2 text whole fraction) ∧
      parseQuantity text = .ok (10 ^ 28 - 1) :=
  ⟨(@parse_format (-1) (by decide)).2.1, (@parse_format (10 ^ 28 - 1) (by decide)).1⟩

end DistributedMarket
