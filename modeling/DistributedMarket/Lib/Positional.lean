import Mathlib.Data.List.Lex
import Mathlib.Order.Fin.Basic
import Mathlib.Tactic.Ring

/-!
Fixed-width positional notation.

`encode base symbol width value` writes the `width` lowest digits of an
integer, the most significant first, each as a symbol. If the symbols
increase with their digits, the notation is an order embedding of the
integers below `base ^ width` into the lexicographic order
(`encode_lt_iff`), and so is the juxtaposition of two notations of fixed
width (`append_lt_append_iff`): no field can leak into the one before it.
Of any integer the notation keeps the remainder modulo `base ^ width`
(`encode_emod`).
-/

namespace Lib.Positional

section Lex

variable {α : Type*} [LinearOrder α] {xs ys xs' ys' : List α}

/-- Lists with prefixes of one length are compared by the prefixes first. -/
theorem append_lt_append_iff (h : xs.length = ys.length) :
    xs ++ xs' < ys ++ ys' ↔ xs < ys ∨ (xs = ys ∧ xs' < ys') := by
  induction xs generalizing ys with
  | nil =>
      obtain rfl := List.length_eq_zero_iff.mp h.symm
      simp
  | cons x xs ih =>
      cases ys with
      | nil => contradiction
      | cons y ys =>
          have hlength : xs.length = ys.length := Nat.succ.inj h
          simp only [List.cons_append, List.cons_lt_cons_iff, ih hlength, List.cons.injEq]
          tauto

end Lex

section Encode

variable {base : ℕ} [NeZero base]

/-- The last digit of `value`. -/
def digit (base : ℕ) [NeZero base] (value : ℤ) : Fin base :=
  ⟨(value % base).toNat, by
    have hpos : (0 : ℤ) < base := by exact_mod_cast Nat.pos_of_neZero base
    have hlow := Int.emod_nonneg value hpos.ne'
    have hhigh := Int.emod_lt_of_pos value hpos
    omega⟩

theorem digit_val (value : ℤ) : ((digit base value : ℕ) : ℤ) = value % base := by
  have hpos : (0 : ℤ) < base := by exact_mod_cast Nat.pos_of_neZero base
  exact Int.toNat_of_nonneg (Int.emod_nonneg value hpos.ne')

/-- The `width` lowest digits of `value`, the most significant first. -/
def encode {α : Type*} (symbol : Fin base → α) : ℕ → ℤ → List α
  | 0, _ => []
  | width + 1, value => encode symbol width (value / base) ++ [symbol (digit base value)]

variable {α : Type*} {symbol : Fin base → α} {width : ℕ} {v w : ℤ}

@[simp] theorem length_encode (symbol : Fin base → α) (width : ℕ) (value : ℤ) :
    (encode symbol width value).length = width := by
  induction width generalizing value with
  | zero => rfl
  | succ width ih => simp [encode, ih]

theorem mem_encode {a : α} (h : a ∈ encode symbol width v) : ∃ i, a = symbol i := by
  induction width generalizing v with
  | zero => contradiction
  | succ width ih =>
      rcases List.mem_append.mp h with hfront | hlast
      · exact ih hfront
      · exact ⟨_, List.mem_singleton.mp hlast⟩

/-- Without its last digit, a value in range is in range of one place
less. -/
theorem div_range (h : 0 ≤ v ∧ v < base ^ (width + 1)) :
    0 ≤ v / base ∧ v / base < base ^ width := by
  have hpos : (0 : ℤ) < base := by exact_mod_cast Nat.pos_of_neZero base
  refine ⟨Int.ediv_nonneg h.1 hpos.le, Int.ediv_lt_of_lt_mul hpos ?_⟩
  rw [← pow_succ]
  exact h.2

variable (base) in
/-- Values are compared by all digits but the last first. -/
theorem lt_iff_div_lt (v w : ℤ) :
    v < w ↔ v / base < w / base ∨ (v / base = w / base ∧ digit base v < digit base w) := by
  have hpos : (0 : ℤ) < base := by exact_mod_cast Nat.pos_of_neZero base
  have hv : v / base * base + v % base = v := Int.ediv_mul_add_emod v base
  have hw : w / base * base + w % base = w := Int.ediv_mul_add_emod w base
  have hdigit : digit base v < digit base w ↔ v % base < w % base := by
    rw [← digit_val, ← digit_val, Fin.lt_def]
    exact Nat.cast_lt.symm
  rw [hdigit]
  refine ⟨fun hlt => ?_, ?_⟩
  · rcases lt_or_eq_of_le (Int.ediv_le_ediv hpos hlt.le) with hfront | hfront
    · exact Or.inl hfront
    · rw [hfront] at hv
      exact Or.inr ⟨hfront, by omega⟩
  · rintro (hfront | ⟨hfront, hlast⟩)
    · by_contra hge
      exact absurd (Int.ediv_le_ediv hpos (not_lt.mp hge)) (not_le.mpr hfront)
    · rw [hfront] at hv
      omega

theorem encode_inj (hsymbol : Function.Injective symbol) (hv : 0 ≤ v ∧ v < base ^ width)
    (hw : 0 ≤ w ∧ w < base ^ width) : encode symbol width v = encode symbol width w ↔ v = w := by
  refine ⟨fun h => ?_, fun h => by rw [h]⟩
  induction width generalizing v w with
  | zero =>
      rw [pow_zero] at hv hw
      omega
  | succ width ih =>
      have hsplit := List.append_inj h (by simp)
      have hfront := ih (div_range hv) (div_range hw) hsplit.1
      have hlast := hsymbol (List.singleton_inj.mp hsplit.2)
      rw [← Int.ediv_mul_add_emod v base, ← Int.ediv_mul_add_emod w base, hfront,
        ← digit_val, ← digit_val, hlast]

/-- **Increasing symbols make an order embedding.** -/
theorem encode_lt_iff [LinearOrder α] (hsymbol : StrictMono symbol)
    (hv : 0 ≤ v ∧ v < base ^ width) (hw : 0 ≤ w ∧ w < base ^ width) :
    encode symbol width v < encode symbol width w ↔ v < w := by
  induction width generalizing v w with
  | zero =>
      rw [pow_zero] at hv hw
      simp only [encode, List.not_lt_nil, false_iff]
      omega
  | succ width ih =>
      have hv' := div_range hv
      have hw' := div_range hw
      rw [lt_iff_div_lt base, encode, encode, append_lt_append_iff (by simp), ih hv' hw',
        encode_inj hsymbol.injective hv' hw', List.cons_lt_cons_iff]
      simp [hsymbol.lt_iff_lt]

/-! ### Numbers that do not fit -/

theorem encode_add_mul (v k : ℤ) :
    encode symbol width (v + base ^ width * k) = encode symbol width v := by
  have hpos : (0 : ℤ) < base := by exact_mod_cast Nat.pos_of_neZero base
  induction width generalizing v with
  | zero => rfl
  | succ width ih =>
      have hshift : v + base ^ (width + 1) * k = v + base * (base ^ width * k) := by ring
      have hdigit : digit base (v + base * (base ^ width * k)) = digit base v := by
        simp only [digit, Int.add_mul_emod_self_left]
      rw [hshift, encode, encode, hdigit, Int.add_mul_ediv_left _ _ hpos.ne', ih]

theorem encode_emod (v : ℤ) : encode symbol width (v % base ^ width) = encode symbol width v := by
  rw [← encode_add_mul (v % base ^ width) (v / base ^ width), Int.emod_add_mul_ediv]

variable (base width) in
theorem emod_range (v : ℤ) : 0 ≤ v % base ^ width ∧ v % base ^ width < base ^ width := by
  have hpos : (0 : ℤ) < base ^ width := Int.pow_pos (by exact_mod_cast Nat.pos_of_neZero base)
  exact ⟨Int.emod_nonneg v hpos.ne', Int.emod_lt_of_pos v hpos⟩

theorem encode_emod_inj (hsymbol : Function.Injective symbol) :
    encode symbol width v = encode symbol width w ↔ v % base ^ width = w % base ^ width := by
  rw [← encode_emod v, ← encode_emod w]
  exact encode_inj hsymbol (emod_range base width v) (emod_range base width w)

theorem encode_emod_lt_iff [LinearOrder α] (hsymbol : StrictMono symbol) :
    encode symbol width v < encode symbol width w ↔ v % base ^ width < w % base ^ width := by
  rw [← encode_emod v, ← encode_emod w]
  exact encode_lt_iff hsymbol (emod_range base width v) (emod_range base width w)

end Encode

end Lib.Positional
