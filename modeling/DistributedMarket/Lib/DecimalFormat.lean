import DistributedMarket.Lib.DecimalRange
import DistributedMarket.Lib.DecimalText
import Mathlib.Data.Bool.AllAny
import Mathlib.Data.List.TakeWhile
import Mathlib.Tactic.IntervalCases

/-!
Division in a context, and fixed-point text.

The quotient is computed to one digit more than the context keeps, brought
as close as it can be to the exponent the operands suggest if it is exact,
and fitted. Formatting with a given number of decimals rounds to that place
and writes the digits with a point among them. An exact quotient with at
most `prec` digits survives the first (`div_of_digits`), a number with no
more decimals than asked for the second (`coeff_quantize`), and what is
written is read as the number it was written for (`ofText_of_fixedForm`).
-/

namespace Lib.Decimal

/-- Zeros at the end dropped, at most `n`. -/
def Finite.dropZeros : ℕ → Finite → Finite
  | 0, d => d
  | n + 1, d =>
      if d.coeff % 10 = 0 then
        dropZeros n { d with coeff := d.coeff / 10, exp := d.exp + 1 }
      else d

/-- `a / b` for non-zero numbers, before the context sees it. -/
def Context.quotient (ctx : Context) (a b : Finite) : Finite :=
  let shift : ℤ := numDigits b.coeff - numDigits a.coeff + ctx.prec + 1
  let dividend := a.coeff * 10 ^ shift.toNat
  let divisor := b.coeff * 10 ^ (-shift).toNat
  let coeff := dividend / divisor
  let negative := a.negative ^^ b.negative
  let exp := a.exp - b.exp - shift
  if dividend % divisor ≠ 0 then
    -- An inexact quotient must not look like a tie when it is rounded.
    ⟨negative, if coeff % 5 = 0 then coeff + 1 else coeff, exp⟩
  else Finite.dropZeros shift.toNat ⟨negative, coeff, exp⟩

/-- `a / b` in the context. -/
def Context.div (ctx : Context) (a b : Finite) : Except Signal Finite :=
  if b.coeff = 0 then
    if a.coeff = 0 then .error .InvalidOperation else .error .DivisionByZero
  else if a.coeff = 0 then ctx.fix ⟨a.negative ^^ b.negative, 0, a.exp - b.exp⟩
  else ctx.fix (ctx.quotient a b)

/-- The number at the place of exponent `e`: padded with zeros, or rounded
half to even. -/
def Finite.quantize (d : Finite) (e : ℤ) : Finite :=
  if e ≤ d.exp then ⟨d.negative, d.coeff * 10 ^ (d.exp - e).toNat, e⟩ else d.rescale e

/-- The digits of `coeff` with a point before the last `places`. -/
def fixedText (negative : Bool) (coeff places : ℕ) : String :=
  let digits := Nat.toDigits 10 coeff
  let (whole, fraction) :=
    if digits.length < places then
      (['0'], List.replicate (places - digits.length) '0' ++ digits)
    else
      let whole := digits.take (digits.length - places)
      (if whole.isEmpty then ['0'] else whole, digits.drop (digits.length - places))
  let point := if fraction.isEmpty then [] else ['.']
  String.ofList ((if negative then ['-'] else []) ++ whole ++ point ++ fraction)

/-- `format(d, ".<places>f")`. -/
def Finite.toFixed (d : Finite) (places : ℕ) : String :=
  fixedText d.negative (d.quantize (-places)).coeff places

/-! ### Exact quotients -/

variable {ctx : Context} {a b d r : Finite}

theorem toRat_dropZeros (n : ℕ) (d : Finite) : (d.dropZeros n).toRat = d.toRat := by
  induction n generalizing d with
  | zero => rfl
  | succ n ih =>
      unfold Finite.dropZeros
      split
      · rename_i hzero
        have hten : d.coeff / 10 * 10 = d.coeff := Nat.div_mul_cancel (Nat.dvd_of_mod_eq_zero hzero)
        rw [ih]
        exact Finite.toRat_eq_of_pad 1 0 (by simpa using hten) (by push_cast; ring)
      · rfl

theorem negative_dropZeros (n : ℕ) (d : Finite) : (d.dropZeros n).negative = d.negative := by
  induction n generalizing d with
  | zero => rfl
  | succ n ih =>
      unfold Finite.dropZeros
      split
      · rw [ih]
      · rfl

theorem negative_div (h : ctx.div a b = .ok r) : r.negative = (a.negative ^^ b.negative) := by
  unfold Context.div at h
  split at h
  · split at h <;> contradiction
  · split at h
    · exact fix_negative h
    · rw [fix_negative h]
      unfold Context.quotient
      dsimp only
      split
      · rfl
      · exact negative_dropZeros _ _

/-- Dividing by a power of ten only moves the point. -/
theorem toRat_quotient_pow_ten {p : ℕ} (hdigits : numDigits a.coeff ≤ ctx.prec + 2) :
    (ctx.quotient a ⟨false, 10 ^ p, 0⟩).toRat = a.toRat / 10 ^ p := by
  have hdivisor : numDigits (10 ^ p) = p + 1 := by
    rw [numDigits, Nat.log_pow (by decide)]
  unfold Context.quotient
  dsimp only
  rw [hdivisor]
  generalize hshift : (((p + 1 : ℕ) : ℤ) - numDigits a.coeff + ctx.prec + 1) = shift
  obtain ⟨k, rfl⟩ : ∃ k : ℕ, shift = p + k := ⟨(shift - p).toNat, by omega⟩
  have hdividend : a.coeff * 10 ^ ((p : ℤ) + k).toNat =
      a.coeff * 10 ^ k * (10 ^ p * 10 ^ (-((p : ℤ) + k)).toNat) := by
    rw [show ((p : ℤ) + k).toNat = p + k by omega, show (-((p : ℤ) + k)).toNat = 0 by omega]
    ring
  rw [hdividend, Nat.mul_mod_left, if_neg (by simp), Nat.mul_div_cancel _ (by positivity),
    toRat_dropZeros, Bool.xor_false]
  have hpow : (10 : ℚ) ^ p * 10 ^ (-p : ℤ) = 1 := by
    rw [← zpow_natCast, ← zpow_add₀ (by norm_num), add_neg_cancel, zpow_zero]
  calc
    (⟨a.negative, a.coeff * 10 ^ k, a.exp - 0 - (p + k)⟩ : Finite).toRat
        = (⟨a.negative, a.coeff, a.exp - p⟩ : Finite).toRat :=
          Finite.toRat_eq_of_pad 0 k (by ring) (by push_cast; ring)
    _ = a.toRat * 10 ^ (-p : ℤ) := by
          rw [Finite.toRat, Finite.toRat, sub_eq_add_neg, zpow_add₀ (by norm_num), ← mul_assoc]
          rfl
    _ = a.toRat / 10 ^ p := by
          rw [eq_div_iff (by positivity), mul_assoc, mul_comm _ ((10 : ℚ) ^ p), hpow, mul_one]

/-- The quotient of a number of at most `prec` digits by a power of ten is
exact. -/
theorem div_pow_ten {p : ℕ} (hdigits : numDigits a.coeff ≤ ctx.prec)
    (hlow : ctx.etiny ≤ a.exp - p) (hhigh : a.exp - p ≤ ctx.etop) :
    ∃ r, ctx.div a ⟨false, 10 ^ p, 0⟩ = .ok r ∧ r.toRat = a.toRat / 10 ^ p := by
  unfold Context.div
  rw [if_neg (by positivity : (10 : ℕ) ^ p ≠ 0)]
  by_cases ha : a.coeff = 0
  · rw [if_pos ha]
    obtain ⟨r, hr, hrat⟩ := @fix_zero ctx ⟨a.negative ^^ false, 0, a.exp - 0⟩ rfl
    refine ⟨r, hr, ?_⟩
    rw [hrat, Finite.toRat_of_coeff_eq_zero ha, Finite.toRat_of_coeff_eq_zero rfl, zero_div]
  · rw [if_neg ha]
    have hvalue := @toRat_quotient_pow_ten ctx a p (hdigits.trans (Nat.le_add_right _ 2))
    have hm : |a.signed| < 10 ^ ctx.prec := by
      have hcoeff : |a.signed| = a.coeff := by
        unfold Finite.signed
        split <;> simp
      have hlt := (lt_pow_numDigits a.coeff).trans_le (Nat.pow_le_pow_right (by decide) hdigits)
      rw [hcoeff]
      exact_mod_cast hlt
    have hplace : a.toRat / 10 ^ p = a.signed * 10 ^ (a.exp - p) := by
      rw [Finite.toRat, zpow_sub₀ (by norm_num), zpow_natCast, mul_div_assoc]
    obtain ⟨r, hr, hrat⟩ := fix_of_digits (hvalue.trans hplace) hm hlow hhigh
    exact ⟨r, hr, hrat.trans hvalue⟩

/-! ### Fixed-point text -/

/-- A number with no digit below the place is written as it is. -/
theorem coeff_quantize {c : ℕ} {e : ℤ} (h : |d.toRat| = c * 10 ^ e) :
    (d.quantize e).coeff = c := by
  have hpos : (0 : ℚ) < 10 ^ e := zpow_pos (by norm_num) _
  rw [abs_toRat] at h
  unfold Finite.quantize
  split
  · rename_i hhigh
    rw [show d.exp = (d.exp - e).toNat + e by omega, zpow_add₀ (by norm_num), zpow_natCast,
      ← mul_assoc, mul_left_inj' hpos.ne'] at h
    have hnat : d.coeff * 10 ^ (d.exp - e).toNat = c := by exact_mod_cast h
    exact hnat
  · rename_i hlow
    have hpos' : (0 : ℚ) < 10 ^ d.exp := zpow_pos (by norm_num) _
    rw [show e = (e - d.exp).toNat + d.exp by omega, zpow_add₀ (by norm_num), zpow_natCast,
      ← mul_assoc, mul_left_inj' hpos'.ne'] at h
    have hnat : d.coeff = c * 10 ^ (e - d.exp).toNat := by exact_mod_cast h
    unfold Finite.rescale
    rw [hnat, halfEven_mul (by positivity)]

/-- An optional minus sign, an integer without superfluous zeros, a point
and `places` decimals, which are the digits of `coeff`. -/
structure FixedForm (negative : Bool) (coeff places : ℕ) (text : String)
    (whole fraction : List Char) : Prop where
  text_eq : text.toList = (if negative then ['-'] else []) ++ whole ++ '.' :: fraction
  digits : ∀ c ∈ whole ++ fraction, c.isDigit = true
  whole_ne_nil : whole ≠ []
  no_leading_zero : whole = ['0'] ∨ whole.head? ≠ some '0'
  length_fraction : fraction.length = places
  value : Nat.ofDigitChars 10 (whole ++ fraction) 0 = coeff

/-- The first digit of a positive number is not a zero. -/
theorem toDigits_head_ne_zero {n : ℕ} (hn : 0 < n) : (Nat.toDigits 10 n).head? ≠ some '0' := by
  induction n using Nat.strong_induction_on with
  | _ n ih =>
      by_cases hlt : n < 10
      · rw [Nat.toDigits_of_lt_base hlt]
        interval_cases n <;> decide
      · rw [Nat.toDigits_of_base_le (by decide) (not_lt.mp hlt),
          List.head?_append_of_ne_nil _ Nat.toDigits_ne_nil]
        exact ih (n / 10) (by omega) (by omega)

theorem isDigit_toDigits {n : ℕ} : ∀ c ∈ Nat.toDigits 10 n, c.isDigit = true := fun _ hc =>
  Nat.isDigit_of_mem_toDigits (by decide) (by decide) hc

/-- Enough digits for the point to stand among them. -/
theorem fixedForm_of_long {negative : Bool} {coeff places : ℕ} (hplaces : 0 < places)
    (hlong : places < (Nat.toDigits 10 coeff).length) :
    FixedForm negative coeff places (fixedText negative coeff places)
      ((Nat.toDigits 10 coeff).take ((Nat.toDigits 10 coeff).length - places))
      ((Nat.toDigits 10 coeff).drop ((Nat.toDigits 10 coeff).length - places)) := by
  have hcoeff : 0 < coeff := by
    by_contra hzero
    obtain rfl : coeff = 0 := by omega
    rw [Nat.toDigits_zero, List.length_singleton] at hlong
    omega
  have hhead := toDigits_head_ne_zero hcoeff
  have hdigits := @isDigit_toDigits coeff
  have hvalue := @Nat.ofDigitChars_ten_toDigits coeff
  unfold fixedText
  generalize Nat.toDigits 10 coeff = digits at hlong hhead hdigits hvalue ⊢
  have hwhole : digits.take (digits.length - places) ≠ [] := by
    rw [ne_eq, List.take_eq_nil_iff]
    rintro (hnil | rfl)
    · omega
    · simp at hlong
  have hfraction : digits.drop (digits.length - places) ≠ [] := by
    rw [ne_eq, List.drop_eq_nil_iff]
    omega
  constructor
  case text_eq =>
    simp [not_lt.mpr hlong.le, hwhole, hfraction]
  case digits => rwa [List.take_append_drop]
  case whole_ne_nil => exact hwhole
  case no_leading_zero =>
    refine Or.inr ?_
    rwa [List.head?_take, if_neg (by omega)]
  case length_fraction =>
    rw [List.length_drop]
    omega
  case value => rwa [List.take_append_drop]

/-- Fewer digits: a zero before the point, and zeros up to the digits. -/
theorem fixedForm_of_short {negative : Bool} {coeff places : ℕ}
    (hshort : (Nat.toDigits 10 coeff).length ≤ places) :
    FixedForm negative coeff places (fixedText negative coeff places) ['0']
      (List.replicate (places - (Nat.toDigits 10 coeff).length) '0' ++ Nat.toDigits 10 coeff) := by
  have hne := @Nat.toDigits_ne_nil coeff 10
  have hdigits := @isDigit_toDigits coeff
  have hvalue := @Nat.ofDigitChars_ten_toDigits coeff
  unfold fixedText
  generalize Nat.toDigits 10 coeff = digits at hshort hne hdigits hvalue ⊢
  constructor
  case text_eq =>
    rcases hshort.lt_or_eq with hlt | heq
    · simp [hlt, hne]
    · simp [heq, hne]
  case digits =>
    simp only [List.mem_append, List.mem_singleton, List.mem_replicate]
    rintro c (rfl | ⟨-, rfl⟩ | hc)
    · rfl
    · rfl
    · exact hdigits c hc
  case whole_ne_nil => simp
  case no_leading_zero => exact Or.inl rfl
  case length_fraction =>
    rw [List.length_append, List.length_replicate]
    omega
  case value =>
    rw [List.singleton_append, ← List.cons_append, ← List.replicate_succ, Nat.ofDigitChars_append,
      Nat.ofDigitChars_replicate_zero, mul_zero, hvalue]

theorem fixedForm_fixedText (negative : Bool) (coeff : ℕ) {places : ℕ} (hplaces : 0 < places) :
    ∃ whole fraction, FixedForm negative coeff places (fixedText negative coeff places)
      whole fraction := by
  rcases lt_or_ge places (Nat.toDigits 10 coeff).length with hlong | hshort
  · exact ⟨_, _, fixedForm_of_long hplaces hlong⟩
  · exact ⟨_, _, fixedForm_of_short hshort⟩

/-! ### Reading it back -/

/-- The characters of fixed-point text. -/
def fixedChars : List Char := "-.0123456789".toList

theorem mem_fixedChars_of_isDigit {c : Char} (h : c.isDigit = true) : c ∈ fixedChars := by
  obtain ⟨hlow, hhigh⟩ : 48 ≤ c.toNat ∧ c.toNat ≤ 57 := by
    simpa [Char.isDigit, UInt32.le_iff_toNat_le] using h
  have hc : c = Char.ofNat c.toNat := (Char.ofNat_toNat c).symm
  generalize c.toNat = n at hlow hhigh hc
  subst hc
  interval_cases n <;> decide

theorem dropWhile_isSpace_of_fixed {cs : List Char} (h : ∀ c ∈ cs, c ∈ fixedChars) :
    cs.dropWhile isSpace = cs := by
  have hspace : ∀ c ∈ fixedChars, ¬ isSpace c = true := List.all_iff_forall_prop.mp (by decide)
  rw [List.dropWhile_eq_self_iff]
  intro hlength
  exact hspace _ (h _ (List.getElem_mem hlength))

theorem mapM_asciiChar_of_fixed {cs : List Char} (h : ∀ c ∈ cs, c ∈ fixedChars) :
    cs.mapM asciiChar = some cs := by
  have hascii : ∀ c ∈ fixedChars, asciiChar c = some c :=
    List.all_iff_forall_prop.mp (by decide)
  induction cs with
  | nil => rfl
  | cons c cs ih =>
      rw [List.mapM_cons, hascii c (h c List.mem_cons_self),
        ih fun c' hc' => h c' (List.mem_cons_of_mem c hc')]
      rfl

/-- Fixed-point text is ASCII already. -/
theorem numericAsAscii_of_fixed {text : String} (h : ∀ c ∈ text.toList, c ∈ fixedChars) :
    numericAsAscii text = some text.toList := by
  have hunderscore : ∀ c ∈ fixedChars, (c != '_') = true :=
    List.all_iff_forall_prop.mp (by decide)
  have hreverse : ∀ c ∈ text.toList.reverse, c ∈ fixedChars := fun c hc =>
    h c (List.mem_reverse.mp hc)
  unfold numericAsAscii strip
  rw [dropWhile_isSpace_of_fixed h, dropWhile_isSpace_of_fixed hreverse, List.reverse_reverse,
    List.filter_eq_self.mpr fun c hc => hunderscore c (h c hc), mapM_asciiChar_of_fixed h]

/-- Text that starts with a digit is none of the special words. -/
theorem readSpecial_of_digit {negative : Bool} {c : Char} {cs : List Char}
    (hc : c.isDigit = true) : readSpecial negative (c :: cs) = none := by
  have hletters : ∀ c ∈ fixedChars, c.toLower ≠ 'i' ∧ c.toLower ≠ 'n' ∧ c.toLower ≠ 's' :=
    List.all_iff_forall_prop.mp (by decide)
  obtain ⟨hi, hn, hs⟩ := hletters c (mem_fixedChars_of_isDigit hc)
  unfold readSpecial
  simp [hi, hn.symm, hs.symm]

theorem readFinite_of_digits {negative : Bool} {whole fraction : List Char}
    (hwhole : whole ≠ []) (hdigits : ∀ c ∈ whole ++ fraction, c.isDigit = true) :
    readFinite negative (whole ++ '.' :: fraction) =
      some ⟨negative, Nat.ofDigitChars 10 (whole ++ fraction) 0, -fraction.length⟩ := by
  have hfront : ∀ c ∈ whole, c.isDigit = true := fun c hc => hdigits c (List.mem_append_left _ hc)
  have hback : ∀ c ∈ fraction, c.isDigit = true := fun c hc =>
    hdigits c (List.mem_append_right _ hc)
  have htake : (whole ++ '.' :: fraction).takeWhile Char.isDigit = whole := by
    rw [List.takeWhile_append_of_pos hfront]
    simp
  have hdrop : (whole ++ '.' :: fraction).dropWhile Char.isDigit = '.' :: fraction := by
    rw [List.dropWhile_append_of_pos hfront]
    simp
  have hfraction : fraction.takeWhile Char.isDigit = fraction :=
    List.takeWhile_eq_self_iff.mpr hback
  have hend : fraction.dropWhile Char.isDigit = [] :=
    List.dropWhile_eq_nil_iff.mpr hback
  unfold readFinite
  simp [htake, hdrop, splitFraction, hfraction, hend, hwhole, readExponent]

theorem FixedForm.mem_fixedChars {negative : Bool} {coeff places : ℕ} {text : String}
    {whole fraction : List Char} (h : FixedForm negative coeff places text whole fraction) :
    ∀ c ∈ text.toList, c ∈ fixedChars := by
  intro c hc
  rw [h.text_eq] at hc
  rcases List.mem_append.mp hc with hfront | hback
  · rcases List.mem_append.mp hfront with hsign | hwhole
    · cases negative with
      | true =>
          obtain rfl := List.mem_singleton.mp hsign
          decide
      | false => contradiction
    · exact mem_fixedChars_of_isDigit (h.digits c (List.mem_append_left _ hwhole))
  · rcases List.mem_cons.mp hback with rfl | hfraction
    · decide
    · exact mem_fixedChars_of_isDigit (h.digits c (List.mem_append_right _ hfraction))

/-- What is written is read as the number it was written for. -/
theorem ofText_of_fixedForm {negative : Bool} {coeff places : ℕ} {text : String}
    {whole fraction : List Char} (h : FixedForm negative coeff places text whole fraction) :
    Number.ofText text = .ok (.finite ⟨negative, coeff, -places⟩) := by
  obtain ⟨c, cs, rfl⟩ := List.exists_cons_of_ne_nil h.whole_ne_nil
  have hc : c.isDigit = true := h.digits c (by simp)
  have hsign : splitSign text.toList = (negative, (c :: cs) ++ '.' :: fraction) := by
    rw [h.text_eq]
    cases negative with
    | true => rfl
    | false => exact splitSign_of_digit hc
  unfold Number.ofText
  rw [numericAsAscii_of_fixed h.mem_fixedChars]
  simp only [Option.bind_eq_bind, Option.bind_some, hsign]
  rw [List.cons_append, readSpecial_of_digit hc, ← List.cons_append,
    readFinite_of_digits h.whole_ne_nil h.digits, h.value, h.length_fraction]
  rfl

end Lib.Decimal
