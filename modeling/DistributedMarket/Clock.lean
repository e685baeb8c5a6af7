import DistributedMarket.Instruments
import DistributedMarket.Lib.Binary

/-!
Milliseconds.

An instant is a number of microseconds from the epoch. `make_ulid` takes its
milliseconds by way of a float: the seconds, rounded to 53 digits, times a
thousand, rounded again, and truncated. Two roundings of half a unit stay
below a microsecond until 2242, so at worst a whole millisecond is taken for
the one before it (`timestampMs_near`).

Whether that happens depends on the binade. Where the milliseconds have a
larger unit than a thousand times the unit of the seconds, the second
rounding repairs what the first one did (`timestampMs_of_sharp`): that is so
in 42 of 43 parts of a binade of seconds, and so from 2004 to 2038.
-/

namespace DistributedMarket.Clock

open Lib

/-- A float: none of the numbers here overflows or is subnormal. -/
def float (x : ℚ) : ℚ := Binary.round 53 x

/-- `moment.timestamp()`, the total microseconds by a million. -/
def timestamp (micros : ℤ) : ℚ := float (micros / 10 ^ 6)

/-- `int(clock.now().timestamp() * 1000)`. -/
def timestampMs (micros : ℤ) : ℤ := truncate (float (timestamp micros * 1000))

/-! ### The clock never runs backwards -/

theorem float_mono : Monotone float := Binary.round_mono (by decide)

theorem truncate_mono {x y : ℚ} (hle : x ≤ y) : truncate x ≤ truncate y := by
  unfold truncate
  split
  · next hx =>
      rw [if_pos (hx.trans hle)]
      exact Int.floor_le_floor hle
  · next hx =>
      have hceil : ⌈x⌉ ≤ 0 := Int.ceil_le.mpr (by simpa using (not_le.mp hx).le)
      split
      · next hy => exact hceil.trans (Int.floor_nonneg.mpr hy)
      · exact Int.ceil_le_ceil hle

theorem timestampMs_mono {micros micros' : ℤ} (hle : micros ≤ micros') :
    timestampMs micros ≤ timestampMs micros' := by
  apply truncate_mono
  apply float_mono
  have hseconds : timestamp micros ≤ timestamp micros' := by
    apply float_mono
    have : (micros : ℚ) ≤ micros' := by exact_mod_cast hle
    linarith
  linarith

theorem timestampMs_neg (micros : ℤ) : timestampMs (-micros) = -timestampMs micros := by
  have hseconds : timestamp (-micros) = -timestamp micros := by
    rw [timestamp, timestamp, Int.cast_neg, neg_div, float, Binary.round_neg]
    rfl
  rw [timestampMs, timestampMs, hseconds, neg_mul, float, Binary.round_neg, truncate_neg]
  rfl

/-! ### The two roundings -/

section

variable {s : ℚ} {e : ℤ}

/-- Half a unit of the binade of `s`. -/
theorem float_near (hlow : 2 ^ e ≤ s) (hhigh : s < 2 ^ (e + 1)) :
    |s - float s| ≤ 2 ^ (e - 53) := by
  have hnear := Binary.abs_sub_round_le 53 s
  have hhalf : Binary.ulp 53 s / 2 = 2 ^ (e - 53) := by
    rw [Binary.ulp_eq_of_pos hlow hhigh, div_eq_iff (by norm_num), ← zpow_add_one₀ (by norm_num)]
    congr 1
    push_cast
    ring
  exact hhalf ▸ hnear

/-- What is nearer to a multiple of the unit than half of it. -/
theorem float_eq_of_near {n : ℤ} (hlow : 2 ^ e ≤ s) (hhigh : s < 2 ^ (e + 1))
    (h : |s - n * 2 ^ (e - 52)| < 2 ^ (e - 53)) : float s = n * 2 ^ (e - 52) := by
  have hulp : Binary.ulp 53 s = 2 ^ (e - 52) := by
    rw [Binary.ulp_eq_of_pos hlow hhigh]
    congr 1
    push_cast
    ring
  have hhalf : (2 : ℚ) ^ (e - 52) / 2 = 2 ^ (e - 53) := by
    rw [div_eq_iff (by norm_num), ← zpow_add_one₀ (by norm_num)]
    congr 1
    ring
  rw [← hulp]
  apply Binary.round_eq_of_near
  rw [hulp, hhalf]
  exact h

theorem float_binade (hlow : 2 ^ e ≤ s) (hhigh : s < 2 ^ (e + 1)) :
    2 ^ e ≤ float s ∧ float s ≤ 2 ^ (e + 1) :=
  ⟨Binary.zpow_le_round (by decide) hlow hhigh, Binary.round_le_zpow hlow hhigh⟩

theorem zpow_add_natCast (e : ℤ) (k : ℕ) : (2 : ℚ) ^ (e + k) = 2 ^ k * 2 ^ e := by
  rw [zpow_add₀ (by norm_num), zpow_natCast, mul_comm]

/-- Milliseconds are off by the errors of both roundings. -/
theorem milliseconds_near (hlow : 2 ^ e ≤ s) (hhigh : s < 2 ^ (e + 1)) :
    |s * 1000 - float (float s * 1000)| ≤ 2024 * 2 ^ (e - 53) := by
  obtain ⟨hlow', hhigh'⟩ := float_binade hlow hhigh
  have hfirst := float_near hlow hhigh
  have hpos : 0 < float s * 1000 := by
    have : (0 : ℚ) < 2 ^ e := zpow_pos (by norm_num) e
    linarith
  obtain ⟨f, hlow'', hhigh''⟩ := Binary.exists_binade hpos
  have hsecond := float_near hlow'' hhigh''
  -- The product is at most ten binades up.
  have hf : f < e + 1 + 10 := by
    apply (zpow_lt_zpow_iff_right₀ (by norm_num : (1 : ℚ) < 2)).mp
    have hten : (2 : ℚ) ^ (e + 1 + 10) = 1024 * 2 ^ (e + 1) := by
      have := zpow_add_natCast (e + 1) 10
      norm_num at this ⊢
      exact this
    have : (0 : ℚ) < 2 ^ (e + 1) := zpow_pos (by norm_num) _
    linarith
  have hunit : (2 : ℚ) ^ (f - 53) ≤ 1024 * 2 ^ (e - 53) := by
    calc (2 : ℚ) ^ (f - 53) ≤ 2 ^ (e - 53 + (10 : ℕ)) :=
          zpow_le_zpow_right₀ (by norm_num) (by push_cast; omega)
      _ = 1024 * 2 ^ (e - 53) := by
          rw [zpow_add_natCast]
          norm_num
  rw [abs_le] at hfirst hsecond ⊢
  exact ⟨by linarith, by linarith⟩

end

/-! ### Milliseconds -/

section

variable {micros : ℤ}

/-- The seconds of an instant that is not the epoch lie in a binade. -/
theorem seconds_binade (hpos : 0 < micros) (hlt : micros < 2 ^ 33 * 10 ^ 6) :
    ∃ e : ℤ, e ≤ 32 ∧ (2 : ℚ) ^ e ≤ micros / 10 ^ 6 ∧ (micros : ℚ) / 10 ^ 6 < 2 ^ (e + 1) := by
  have hpos' : (0 : ℚ) < micros / 10 ^ 6 := by
    have : (0 : ℚ) < micros := by exact_mod_cast hpos
    positivity
  obtain ⟨e, hlow, hhigh⟩ := Binary.exists_binade hpos'
  refine ⟨e, ?_, hlow, hhigh⟩
  have htop : (micros : ℚ) / 10 ^ 6 < 2 ^ (33 : ℤ) := by
    rw [div_lt_iff₀ (by norm_num)]
    norm_num
    have : (micros : ℚ) < ((2 ^ 33 * 10 ^ 6 : ℤ) : ℚ) := by exact_mod_cast hlt
    norm_num at this
    exact this
  have he := (zpow_lt_zpow_iff_right₀ (by norm_num : (1 : ℚ) < 2)).mp (hlow.trans_lt htop)
  omega

theorem unit_le {e : ℤ} (he : e ≤ 32) : (2 : ℚ) ^ (e - 53) ≤ 1 / 2 ^ 21 := by
  calc (2 : ℚ) ^ (e - 53) ≤ 2 ^ (-21 : ℤ) := zpow_le_zpow_right₀ (by norm_num) (by omega)
    _ = 1 / 2 ^ 21 := by norm_num

/-- Until 2242 the error stays below a microsecond. -/
theorem milliseconds_error (hpos : 0 < micros) (hlt : micros < 2 ^ 33 * 10 ^ 6) :
    |(micros : ℚ) / 1000 - float (timestamp micros * 1000)| < 1 / 1000 := by
  obtain ⟨e, he, hlow, hhigh⟩ := seconds_binade hpos hlt
  have hnear := milliseconds_near hlow hhigh
  have hunit := unit_le he
  rw [show (micros : ℚ) / 10 ^ 6 * 1000 = micros / 1000 by ring] at hnear
  calc |(micros : ℚ) / 1000 - float (timestamp micros * 1000)| ≤ 2024 * 2 ^ (e - 53) := hnear
    _ ≤ 2024 * (1 / 2 ^ 21) := by linarith
    _ < 1 / 1000 := by norm_num

theorem timestampMs_eq_floor (hnonneg : 0 ≤ micros) :
    timestampMs micros = ⌊float (timestamp micros * 1000)⌋ := by
  have hseconds : 0 ≤ timestamp micros := by
    apply Binary.round_nonneg
    have : (0 : ℚ) ≤ micros := by exact_mod_cast hnonneg
    positivity
  exact if_pos (Binary.round_nonneg 53 (by linarith))

/-- The whole milliseconds and the microseconds over. -/
theorem micros_split (micros : ℤ) :
    (micros : ℚ) / 1000 = (micros / 1000 : ℤ) + (micros % 1000 : ℤ) / 1000 := by
  have hsplit : (micros : ℚ) = 1000 * (micros / 1000 : ℤ) + (micros % 1000 : ℤ) := by
    exact_mod_cast (Int.mul_ediv_add_emod micros 1000).symm
  rw [hsplit]
  ring

/-- From 1970 until 2242 milliseconds are right, but that a whole one may be
taken for the one before it. -/
theorem timestampMs_near (hnonneg : 0 ≤ micros) (hlt : micros < 2 ^ 33 * 10 ^ 6) :
    timestampMs micros = micros / 1000 ∨
      timestampMs micros = micros / 1000 - 1 ∧ micros % 1000 = 0 := by
  rcases hnonneg.eq_or_lt with rfl | hpos
  · exact Or.inl (by simp [timestampMs, timestamp, float, truncate])
  · have herror := abs_lt.mp (milliseconds_error hpos hlt)
    rw [timestampMs_eq_floor hnonneg]
    have hsplit := micros_split micros
    have hlow : 0 ≤ micros % 1000 := Int.emod_nonneg _ (by decide)
    have hhigh : micros % 1000 ≤ 999 := by
      have := Int.emod_lt_of_pos micros (by decide : (0 : ℤ) < 1000)
      omega
    have hhigh' : ((micros % 1000 : ℤ) : ℚ) ≤ 999 := by exact_mod_cast hhigh
    rcases hlow.eq_or_lt with hzero | hover
    · rw [← hzero] at hsplit
      push_cast at hsplit
      by_cases hbelow : float (timestamp micros * 1000) < (micros / 1000 : ℤ)
      · refine Or.inr ⟨?_, hzero.symm⟩
        rw [Int.floor_eq_iff]
        push_cast
        exact ⟨by linarith, by linarith⟩
      · left
        rw [Int.floor_eq_iff]
        exact ⟨not_lt.mp hbelow, by linarith⟩
    · left
      have hone : (1 : ℚ) ≤ (micros % 1000 : ℤ) := by exact_mod_cast hover
      rw [Int.floor_eq_iff]
      exact ⟨by linarith, by linarith⟩

/-- The milliseconds are past a power of two, and their seconds are in the
binade that ends before a thousand times its end. -/
def Sharp (micros : ℤ) : Prop :=
  ∃ k : ℕ, k ≤ 42 ∧ 2 ^ k < micros / 1000 ∧ 512 * micros < 10 ^ 6 * 2 ^ k

/-- The whole milliseconds of a sharp instant survive the second rounding. -/
theorem float_timestamp_of_sharp {k : ℕ} {ms : ℤ} (hk : k ≤ 42) (hlow : 2 ^ k < ms)
    (hhigh : 512 * ms < 1000 * 2 ^ k) : float ((float (ms / 1000)) * 1000) = ms := by
  have hlow' : (2 : ℚ) ^ k + 1 ≤ ms := by exact_mod_cast hlow
  have hhigh' : 512 * (ms : ℚ) < 1000 * 2 ^ k := by exact_mod_cast hhigh
  have hpower : (0 : ℚ) < 2 ^ k := by positivity
  -- The binade of the seconds, its unit, and the unit ten binades up.
  have hbottom : (2 : ℚ) ^ (k - 10 : ℤ) = 2 ^ k / 1024 := by
    rw [zpow_sub₀ (by norm_num), zpow_natCast]
    norm_num
  have htop : (2 : ℚ) ^ (k - 10 + 1 : ℤ) = 2 ^ k / 512 := by
    rw [show (k - 10 + 1 : ℤ) = k - 9 by ring, zpow_sub₀ (by norm_num), zpow_natCast]
    norm_num
  have hunit : (2 : ℚ) ^ (k - 10 - 53 : ℤ) = 2 ^ k / 2 ^ 63 := by
    rw [show (k - 10 - 53 : ℤ) = k - 63 by ring, zpow_sub₀ (by norm_num), zpow_natCast]
    norm_num
  have hseconds : (2 : ℚ) ^ (k - 10 : ℤ) ≤ ms / 1000 ∧ (ms : ℚ) / 1000 < 2 ^ (k - 10 + 1 : ℤ) := by
    rw [hbottom, htop]
    exact ⟨by linarith, by linarith⟩
  have hfirst := abs_le.mp (float_near hseconds.1 hseconds.2)
  have hle := (float_binade hseconds.1 hseconds.2).2
  rw [hunit] at hfirst
  rw [htop] at hle
  have hsmall : 1000 * ((2 : ℚ) ^ k / 2 ^ 63) < 1 := by
    have : (2 : ℚ) ^ k ≤ 2 ^ 42 := pow_le_pow_right₀ (by norm_num) hk
    linarith
  have hmultiple : (ms : ℚ) = ((ms * 2 ^ (52 - k) : ℤ) : ℚ) * 2 ^ (k - 52 : ℤ) := by
    have hpow : (2 : ℚ) ^ (52 - k) * 2 ^ (k - 52 : ℤ) = 1 := by
      rw [← zpow_natCast, ← zpow_add₀ (by norm_num),
        show ((52 - k : ℕ) : ℤ) + (k - 52) = 0 by omega, zpow_zero]
    push_cast
    rw [mul_assoc, hpow, mul_one]
  have hhalf : (2 : ℚ) ^ (k - 53 : ℤ) = 2 ^ k / 2 ^ 53 := by
    rw [zpow_sub₀ (by norm_num), zpow_natCast]
    norm_num
  have hbinade : (2 : ℚ) ^ (k : ℤ) ≤ float (ms / 1000) * 1000 ∧
      float (ms / 1000) * 1000 < 2 ^ (k + 1 : ℤ) := by
    rw [zpow_add_one₀ (by norm_num), zpow_natCast]
    exact ⟨by linarith, by linarith⟩
  rw [float_eq_of_near (n := ms * 2 ^ (52 - k)) hbinade.1 hbinade.2, ← hmultiple]
  rw [← hmultiple, hhalf, abs_lt]
  exact ⟨by linarith, by linarith⟩

/-- Until 2242 the milliseconds of a sharp instant are right. -/
theorem timestampMs_of_sharp (h : Sharp micros) : timestampMs micros = micros / 1000 := by
  obtain ⟨k, hk, hlow, hhigh⟩ := h
  have hpower : (2 : ℤ) ^ k ≤ 2 ^ 42 := pow_le_pow_right₀ (by norm_num) hk
  have hpos : (0 : ℤ) < 2 ^ k := by positivity
  have hnonneg : 0 ≤ micros := by omega
  have hlt : micros < 2 ^ 33 * 10 ^ 6 := by omega
  rcases timestampMs_near hnonneg hlt with hright | ⟨-, hwhole⟩
  · exact hright
  · have hsplit : micros = micros / 1000 * 1000 := by omega
    have hseconds : (micros : ℚ) / 10 ^ 6 = (micros / 1000 : ℤ) / 1000 := by
      conv_lhs => rw [hsplit]
      push_cast
      ring
    rw [timestampMs, timestamp, hseconds, float_timestamp_of_sharp hk hlow (by omega),
      truncate_intCast]

end

/-- The seconds are a power of two, and the milliseconds have few digits. -/
theorem timestampMs_pow : timestampMs (2 ^ 38 * 10 ^ 6) = 2 ^ 38 * 1000 := by
  have hseconds : float (((2 ^ 38 * 10 ^ 6 : ℤ) : ℚ) / 10 ^ 6) = 2 ^ 38 := by
    rw [float_eq_of_near (e := 38) (n := 2 ^ 52)]
    · norm_num
    · norm_num
    · norm_num
    · norm_num [abs_lt]
  have hproduct : float (2 ^ 38 * 1000) = ((2 ^ 38 * 1000 : ℤ) : ℚ) := by
    rw [float_eq_of_near (e := 47) (n := 1000 * 2 ^ 43)]
    · norm_num
    · norm_num
    · norm_num
    · norm_num [abs_lt]
  rw [timestampMs, timestamp, hseconds, hproduct, truncate_intCast]

/-- No clock between the years 1 and 9999 is further from the epoch. -/
theorem abs_timestampMs_le {micros : ℤ} (h : |micros| ≤ 2 ^ 38 * 10 ^ 6) :
    |timestampMs micros| ≤ 2 ^ 38 * 1000 := by
  obtain ⟨hlow, hhigh⟩ := abs_le.mp h
  have hleft := timestampMs_mono hlow
  have hright := timestampMs_mono hhigh
  rw [timestampMs_neg, timestampMs_pow] at hleft
  rw [timestampMs_pow] at hright
  exact abs_le.mpr ⟨hleft, hright⟩

/-- From November 2004 to January 2038. -/
theorem sharp_until_2038 {micros : ℤ} (hlow : 2 ^ 40 < micros / 1000)
    (hhigh : micros < 2 ^ 31 * 10 ^ 6) : Sharp micros :=
  ⟨40, by decide, hlow, by omega⟩

/-- **The milliseconds of an id.** They never run backwards; from 1970 until
2242 they are the milliseconds of the instant, or one less where the instant
is a whole millisecond; and they are right in a sharp instant. -/
theorem timestampMs_spec :
    (∀ micros micros', micros ≤ micros' → timestampMs micros ≤ timestampMs micros') ∧
      (∀ micros, 0 ≤ micros → micros < 2 ^ 33 * 10 ^ 6 →
        timestampMs micros = micros / 1000 ∨
          timestampMs micros = micros / 1000 - 1 ∧ micros % 1000 = 0) ∧
      ∀ micros, Sharp micros → timestampMs micros = micros / 1000 :=
  ⟨fun _ _ => timestampMs_mono, fun _ => timestampMs_near, fun _ => timestampMs_of_sharp⟩

/-- In 2026. -/
theorem timestampMs_spec_in_2026 :
    timestampMs 1767225600123456 ≤ timestampMs 1767225600123457 ∧
      (timestampMs 1767225600123456 = 1767225600123456 / 1000 ∨
        timestampMs 1767225600123456 = 1767225600123456 / 1000 - 1 ∧
          (1767225600123456 : ℤ) % 1000 = 0) ∧
      timestampMs 1767225600123456 = 1767225600123456 / 1000 :=
  ⟨timestampMs_spec.1 _ _ (by decide), timestampMs_spec.2.1 _ (by decide) (by decide),
    timestampMs_spec.2.2 _ (sharp_until_2038 (by decide) (by decide))⟩

/-- At 2038-01-19T03:14:08.002 the millisecond is taken for the one before. -/
theorem timestampMs_in_2038 : timestampMs 2147483648002000 = 2147483648001 := by
  have hseconds : float (2147483648002000 / 10 ^ 6) = 4503599627374690 / 2 ^ 21 := by
    rw [float_eq_of_near (e := 31) (n := 4503599627374690)]
    · norm_num
    · norm_num
    · norm_num
    · norm_num [abs_lt]
  have hproduct : float (4503599627374690 / 2 ^ 21 * 1000) = 8796093022216191 / 2 ^ 12 := by
    rw [float_eq_of_near (e := 40) (n := 8796093022216191)]
    · norm_num
    · norm_num
    · norm_num
    · norm_num [abs_lt]
  rw [timestampMs, timestamp]
  push_cast
  rw [hseconds, hproduct, truncate, if_pos (by norm_num), Int.floor_eq_iff]
  norm_num

end DistributedMarket.Clock
