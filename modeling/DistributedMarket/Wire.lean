import DistributedMarket.Lib.DecimalRange
import DistributedMarket.Units

/-!
What the wire parsers accept.

A text that denotes a finite number is scaled to minor units first and
checked for being an integer afterwards. The multiplication is one of the
context, so what is checked is the product rounded to 28 digits. The parser
is exact on a text precisely when that rounding cannot produce an integer
the number is not, and cannot overflow: `ScalesExactly`.
-/

namespace DistributedMarket

open Lib.Decimal

/-- `parse` is right about `text`, which denotes `d`: it returns the number
of minor units when there is one, and otherwise raises a `ValueError`. -/
def ParsesExactly (parse : String → Except PyErr ℤ) (scale : ℤ) (text : String)
    (d : Finite) : Prop :=
  (∀ n : ℤ, parse text = .ok n ↔ d.toRat = n / scale) ∧
    ((∀ n : ℤ, d.toRat ≠ n / scale) → RaisesValueError (parse text))

/-- The digits of `d` scaled to minor units are zero, or have room for
their exponent and either none below the last of the 28 places kept, or are
further than half a unit of that place from every integer. -/
def ScalesExactly (scale : ℤ) (d : Finite) : Prop :=
  defaultContext.KeepsIntegers (d.mulExact (.ofInt scale))

section

variable {text what : String} {d : Finite} {scale : ℤ} {places : ℕ}

/-- What the parser does with a finite number, once it is scaled. -/
theorem parseDecimal_of_finite (h : Number.ofText text = .ok (.finite d)) :
    parseDecimal text scale places what =
      match defaultContext.mul d (.ofInt scale) with
      | .error signal => .error (.decimal signal)
      | .ok scaled =>
          if !scaled.eqv scaled.toIntegralValue then
            .error (.ValueError [what, " has more than ", (places : ℤ), " decimal places: ",
              .quoted (.str text)])
          else .ok scaled.toInt := by
  unfold parseDecimal
  generalize Number.ofText text = parsed at h ⊢
  subst h
  rfl

theorem eqv_toIntegralValue_iff (r : Finite) :
    (!r.eqv r.toIntegralValue) = true ↔ ∀ n : ℤ, r.toRat ≠ n := by
  have hiff := Finite.toRat_toIntegralValue_eq_iff (d := r)
  rw [Bool.not_eq_true', ← Bool.not_eq_true, Finite.eqv_iff, eq_comm, hiff, not_exists]

theorem parseDecimal_eq_ok_iff (h : Number.ofText text = .ok (.finite d)) {n : ℤ} :
    parseDecimal text scale places what = .ok n ↔
      ∃ r, defaultContext.mul d (.ofInt scale) = .ok r ∧ r.toRat = n := by
  rw [parseDecimal_of_finite h]
  cases hmul : defaultContext.mul d (.ofInt scale) with
  | error signal => simp
  | ok r =>
      by_cases hint : ∀ k : ℤ, r.toRat ≠ k
      · simp [(eqv_toIntegralValue_iff r).mpr hint, hint n]
      · rw [← eqv_toIntegralValue_iff r] at hint
        simp only [hint, Bool.false_eq_true, if_false]
        rw [eqv_toIntegralValue_iff r] at hint
        push Not at hint
        obtain ⟨k, hk⟩ := hint
        simp [Finite.toInt_eq hk, hk]

theorem parseDecimal_raises_iff (h : Number.ofText text = .ok (.finite d)) :
    RaisesValueError (parseDecimal text scale places what) ↔
      ∃ r, defaultContext.mul d (.ofInt scale) = .ok r ∧ ∀ n : ℤ, r.toRat ≠ n := by
  rw [parseDecimal_of_finite h]
  cases hmul : defaultContext.mul d (.ofInt scale) with
  | error signal => simp [RaisesValueError]
  | ok r =>
      by_cases hint : ∀ k : ℤ, r.toRat ≠ k
      · simp [(eqv_toIntegralValue_iff r).mpr hint, hint, RaisesValueError]
      · have hfalse := hint
        rw [← eqv_toIntegralValue_iff r] at hfalse
        simp [hfalse, RaisesValueError, hint]

/-- The parser is exact on a finite number if and only if scaling is. -/
theorem parsesExactly_parseDecimal (h : Number.ofText text = .ok (.finite d))
    (hscale : 0 < scale) :
    ParsesExactly (parseDecimal · scale places what) scale text d ↔ ScalesExactly scale d := by
  have htop : 0 ≤ defaultContext.etop := by decide
  have hscaled : ∀ n : ℤ, d.toRat = n / scale ↔ (d.mulExact (.ofInt scale)).toRat = n := by
    intro n
    have hpos : (scale : ℚ) ≠ 0 := by exact_mod_cast hscale.ne'
    rw [Finite.toRat_mulExact, Finite.toRat_ofInt, eq_div_iff hpos]
  unfold ScalesExactly
  rw [← fix_integers_iff htop]
  simp only [ParsesExactly, parseDecimal_eq_ok_iff h, parseDecimal_raises_iff h, hscaled, ne_eq]
  unfold Context.mul
  refine ⟨?_, ?_⟩
  · rintro ⟨hok, hraise⟩
    have hfix : ∃ r, defaultContext.fix (d.mulExact (.ofInt scale)) = .ok r := by
      by_cases hint : ∀ n : ℤ, ¬(d.mulExact (.ofInt scale)).toRat = n
      · obtain ⟨r, hr, -⟩ := hraise hint
        exact ⟨r, hr⟩
      · push Not at hint
        obtain ⟨n, hn⟩ := hint
        obtain ⟨r, hr, -⟩ := (hok n).mpr hn
        exact ⟨r, hr⟩
    obtain ⟨r, hr⟩ := hfix
    refine ⟨r, hr, fun n => ?_⟩
    rw [← hok n]
    simp [hr]
  · rintro ⟨r, hr, hiff⟩
    simp [hr, hiff]

end

/-- **The wire parsers are exact precisely where scaling is.** -/
theorem parse_exact_iff_scalesExactly {text : String} {d : Finite}
    (h : Number.ofText text = .ok (.finite d)) :
    (ParsesExactly parseQuantity cents text d ↔ ScalesExactly cents d) ∧
      (ParsesExactly parsePrice priceScale text d ↔ ScalesExactly priceScale d) :=
  ⟨parsesExactly_parseDecimal h (by decide), parsesExactly_parseDecimal h priceScale_pos⟩

/-- Half a cent is refused by one parser and five hundred ticks by the
other accepted. -/
theorem parse_exact_at_half_cent :
    ParsesExactly parseQuantity cents "0.005" ⟨false, 5, -3⟩ ∧
      ParsesExactly parsePrice priceScale "0.005" ⟨false, 5, -3⟩ := by
  have h := @parse_exact_iff_scalesExactly "0.005" ⟨false, 5, -3⟩ (by decide)
  exact ⟨h.1.mpr (Context.keepsIntegers_of_quantum_le (by decide) (by decide)),
    h.2.mpr (Context.keepsIntegers_of_quantum_le (by decide) (by decide))⟩

/-- Thirty digits are one too many once scaled: the last is rounded away
and what is left is taken for a whole number of cents. -/
theorem parse_rounds_thirty_digits :
    Number.ofText "1.00000000000000000000000000001" =
        .ok (.finite ⟨false, 100000000000000000000000000001, -29⟩) ∧
      parseQuantity "1.00000000000000000000000000001" = .ok 100 ∧
      ¬ ParsesExactly parseQuantity cents "1.00000000000000000000000000001"
        ⟨false, 100000000000000000000000000001, -29⟩ := by
  have hread : Number.ofText "1.00000000000000000000000000001" =
      .ok (.finite ⟨false, 100000000000000000000000000001, -29⟩) := by decide
  have hparse : parseQuantity "1.00000000000000000000000000001" = .ok 100 := by rfl
  refine ⟨hread, hparse, fun hexact => ?_⟩
  have hwrong := (hexact.1 100).mp hparse
  norm_num [Finite.toRat, Finite.signed, cents] at hwrong

/-! ### Which exceptions leave the parsers -/

/-- The call returned an integer or raised a `ValueError`. -/
def FailsAsValueError (result : Except PyErr ℤ) : Prop :=
  (∃ n, result = .ok n) ∨ RaisesValueError result

/-- Scaled to minor units, `d` stays less than half a unit of the last place
above the largest number of the context. -/
def ScalesInRange (scale : ℤ) (d : Finite) : Prop :=
  2 * |d.toRat * scale| <
    (2 * 10 ^ defaultContext.prec - 1) * 10 ^ defaultContext.etop

section

variable {text what : String} {d : Finite} {scale : ℤ} {places : ℕ}

/-- The constructor raises nothing but `InvalidOperation`. -/
theorem ofText_error {signal : Signal} (h : Number.ofText text = .error signal) :
    signal = .InvalidOperation := by
  unfold Number.ofText at h
  dsimp only at h
  split at h
  · contradiction
  · exact (Except.error.inj h).symm

theorem parseDecimal_valueError_of_finite (h : Number.ofText text = .ok (.finite d)) :
    FailsAsValueError (parseDecimal text scale places what) ↔ ScalesInRange scale d := by
  have hmul : (∃ r, defaultContext.mul d (.ofInt scale) = .ok r) ↔ ScalesInRange scale d := by
    unfold Context.mul
    rw [fix_isOk_iff, Finite.toRat_mulExact, Finite.toRat_ofInt]
    rfl
  rw [← hmul]
  unfold FailsAsValueError
  rw [parseDecimal_raises_iff h]
  simp only [parseDecimal_eq_ok_iff h]
  refine ⟨?_, ?_⟩
  · rintro (⟨n, r, hr, -⟩ | ⟨r, hr, -⟩) <;> exact ⟨r, hr⟩
  · rintro ⟨r, hr⟩
    by_cases hint : ∃ n : ℤ, r.toRat = n
    · obtain ⟨n, hn⟩ := hint
      exact Or.inl ⟨n, r, hr, hn⟩
    · exact Or.inr ⟨r, hr, not_exists.mp hint⟩

theorem parseDecimal_raises_of_not_finite (h : ∀ d, Number.ofText text ≠ .ok (.finite d)) :
    RaisesValueError (parseDecimal text scale places what) := by
  unfold parseDecimal
  split
  · exact ⟨_, rfl⟩
  · rename_i hother hread
    exact absurd (ofText_error hread) hother
  · exact ⟨_, rfl⟩
  · exact ⟨_, rfl⟩
  · rename_i value hread
    exact absurd hread (h value)

/-- Everything but a finite number out of range ends as a `ValueError` at
worst. -/
theorem parseDecimal_valueError_iff :
    FailsAsValueError (parseDecimal text scale places what) ↔
      ∀ d, Number.ofText text = .ok (.finite d) → ScalesInRange scale d := by
  by_cases hfinite : ∃ d, Number.ofText text = .ok (.finite d)
  · obtain ⟨d, hd⟩ := hfinite
    simp [parseDecimal_valueError_of_finite hd, hd]
  · push Not at hfinite
    refine ⟨fun _ d hd => absurd hd (hfinite d), fun _ => ?_⟩
    exact Or.inr (parseDecimal_raises_of_not_finite hfinite)

end

/-- **Malformed amounts fail as a `ValueError`, out of range ones do not.**
The only texts on which the parsers raise anything else denote finite
numbers whose scaled value overflows the context. -/
theorem parse_valueError_iff (text : String) :
    (FailsAsValueError (parseQuantity text) ↔
      ∀ d, Number.ofText text = .ok (.finite d) → ScalesInRange cents d) ∧
    (FailsAsValueError (parsePrice text) ↔
      ∀ d, Number.ofText text = .ok (.finite d) → ScalesInRange priceScale d) :=
  ⟨parseDecimal_valueError_iff, parseDecimal_valueError_iff⟩

/-- The constructor builds `1E1000000`; scaling it overflows. -/
theorem parse_overflows :
    Number.ofText "1E1000000" = .ok (.finite ⟨false, 1, 1000000⟩) ∧
      parseQuantity "1E1000000" = .error (.decimal .Overflow) ∧
      ¬ FailsAsValueError (parseQuantity "1E1000000") := by
  have hparse : parseQuantity "1E1000000" = .error (.decimal .Overflow) := by rfl
  refine ⟨by decide, hparse, ?_⟩
  rintro (⟨n, hn⟩ | ⟨message, hmessage⟩)
  · rw [hparse] at hn
    contradiction
  · rw [hparse] at hmessage
    cases Except.error.inj hmessage

end DistributedMarket
