import DistributedMarket.Lib.Positional
import Mathlib.Data.String.Basic

/-!
Numbers padded with zeros.

`zfill width n` is the decimal text of `n` with zeros in front of it, up to
`width` characters. A number that fits the width is thereby written in
positional notation of that width, so such texts are in the order of their
numbers (`zfill_lt_iff`). A number that does not fit is not cut, so texts
are told apart at any length (`zfill_injective`), but the first number that
does not fit comes before the last one that does (`zfill_overflow`).
-/

namespace Lib.ZeroPadded

/-- Zeros and then the digits of `n`; no zeros where there is no room. -/
def zfill (width n : ℕ) : List Char :=
  List.replicate (width - (Nat.toDigits 10 n).length) '0' ++ Nat.toDigits 10 n

variable {width n m : ℕ}

@[simp] theorem ofDigitChars_zfill : Nat.ofDigitChars 10 (zfill width n) 0 = n := by
  rw [zfill, Nat.ofDigitChars_append, Nat.ofDigitChars_replicate_zero, mul_zero,
    Nat.ofDigitChars_ten_toDigits]

theorem zfill_injective (width : ℕ) : Function.Injective (zfill width) := by
  intro n m h
  rw [← @ofDigitChars_zfill width n, h, ofDigitChars_zfill]

theorem length_toDigits_le (hwidth : 0 < width) (h : n < 10 ^ width) :
    (Nat.toDigits 10 n).length ≤ width :=
  (Nat.length_toDigits_le_iff (by decide) hwidth).mpr h

theorem length_zfill (hwidth : 0 < width) (h : n < 10 ^ width) :
    (zfill width n).length = width := by
  have := length_toDigits_le hwidth h
  rw [zfill, List.length_append, List.length_replicate]
  omega

/-! ### Positional notation -/

/-- The character of a digit. -/
def symbol (digit : Fin 10) : Char := Nat.digitChar digit

theorem symbol_strictMono : StrictMono symbol := by decide

theorem symbol_digit (n : ℕ) : symbol (Positional.digit 10 n) = Nat.digitChar (n % 10) := by
  rw [symbol]
  congr 1

theorem zfill_of_lt (h : n < 10) :
    zfill (width + 1) n = List.replicate width '0' ++ [n.digitChar] := by
  rw [zfill, Nat.toDigits_of_lt_base h]
  rfl

/-- The last digit stands alone. -/
theorem zfill_succ (hwidth : 0 < width) :
    zfill (width + 1) n = zfill width (n / 10) ++ [(n % 10).digitChar] := by
  rcases lt_or_ge n 10 with hlt | hge
  · obtain ⟨width, rfl⟩ := Nat.exists_eq_succ_of_ne_zero hwidth.ne'
    rw [zfill_of_lt hlt, Nat.div_eq_of_lt hlt, Nat.mod_eq_of_lt hlt, zfill_of_lt (by decide),
      List.replicate_succ']
    rfl
  · rw [zfill, zfill, Nat.toDigits_of_base_le (by decide) hge, List.length_append,
      List.length_singleton, Nat.add_sub_add_right, List.append_assoc]

theorem zfill_eq_encode (hwidth : 0 < width) (h : n < 10 ^ width) :
    zfill width n = Positional.encode symbol width n := by
  induction width, hwidth using Nat.le_induction generalizing n with
  | base =>
      have hdigit : n < 10 := by simpa using h
      rw [zfill_of_lt hdigit, Positional.encode, symbol_digit, Nat.mod_eq_of_lt hdigit]
      rfl
  | succ width hwidth ih =>
      rw [zfill_succ hwidth, Positional.encode, symbol_digit, ih]
      · rfl
      · rw [Nat.div_lt_iff_lt_mul (by decide), ← pow_succ]
        exact h

/-- **Padded numbers are in the order of their numbers.** -/
theorem zfill_lt_iff (hwidth : 0 < width) (hn : n < 10 ^ width) (hm : m < 10 ^ width) :
    zfill width n < zfill width m ↔ n < m := by
  rw [zfill_eq_encode hwidth hn, zfill_eq_encode hwidth hm,
    Positional.encode_lt_iff symbol_strictMono ⟨by simp, by exact_mod_cast hn⟩
      ⟨by simp, by exact_mod_cast hm⟩, Nat.cast_lt]

/-- Such a number is compared before what is written after it. -/
theorem zfill_append_lt_iff (hwidth : 0 < width) (hn : n < 10 ^ width) (hm : m < 10 ^ width)
    {xs ys : List Char} :
    zfill width n ++ xs < zfill width m ++ ys ↔ n < m ∨ n = m ∧ xs < ys := by
  rw [Positional.append_lt_append_iff (by rw [length_zfill hwidth hn, length_zfill hwidth hm]),
    zfill_lt_iff hwidth hn hm, (zfill_injective width).eq_iff]

/-! ### One too many -/

theorem toDigits_pow_ten (width : ℕ) :
    Nat.toDigits 10 (10 ^ width) = '1' :: List.replicate width '0' := by
  induction width with
  | zero => rfl
  | succ width ih =>
      have hbase : 10 ≤ 10 ^ (width + 1) := Nat.le_self_pow (by omega) 10
      rw [Nat.toDigits_of_base_le (by decide) hbase, pow_succ, Nat.mul_div_cancel _ (by decide), ih,
        Nat.mul_mod_left, List.replicate_succ']
      rfl

theorem zfill_pow_ten (width : ℕ) : zfill width (10 ^ width) = '1' :: List.replicate width '0' := by
  rw [zfill, toDigits_pow_ten, List.length_cons, List.length_replicate,
    Nat.sub_eq_zero_of_le (Nat.le_succ _)]
  rfl

theorem zfill_pow_ten_sub_one (hwidth : 0 < width) :
    zfill width (10 ^ width - 1) = List.replicate width '9' := by
  induction width, hwidth using Nat.le_induction with
  | base => rfl
  | succ width hwidth ih =>
      have hpos : 0 < 10 ^ width := Nat.pow_pos (by decide)
      have hdiv : (10 ^ (width + 1) - 1) / 10 = 10 ^ width - 1 := by
        rw [pow_succ]
        omega
      have hmod : (10 ^ (width + 1) - 1) % 10 = 9 := by
        rw [pow_succ]
        omega
      rw [zfill_succ hwidth, hdiv, hmod, ih, List.replicate_succ']
      rfl

theorem zfill_overflow (hwidth : 0 < width) :
    zfill width (10 ^ width) < zfill width (10 ^ width - 1) := by
  obtain ⟨width, rfl⟩ := Nat.exists_eq_succ_of_ne_zero hwidth.ne'
  rw [zfill_pow_ten, zfill_pow_ten_sub_one hwidth, List.replicate_succ (a := '9')]
  exact List.cons_lt_cons_iff.mpr (Or.inl (by decide))

end Lib.ZeroPadded
