import DistributedMarket.InstrumentLoading
import Mathlib.Data.List.Chain
import Mathlib.Tactic.Ring

/-!
The price band, a guard against mistyped prices.

`within_price_band` compares products and never divides, so the band is
exact: around a reference it is the ticks no further away than the margin
rounded down (`withinPriceBand_iff`). The margin has the sign of the
percentage, which the loader does not check, and where it is small the band
is the reference alone. The band says nothing about a sequence of prices
but what it says of each step: prices that are each in the band of the one
before drift no faster than the percentage compounds (`band_drift`), and
some drift as fast (`exists_fastest_drift`).
-/

namespace DistributedMarket.Instrument

/-- Is `price` inside ±`price_band_pct` of the reference? Without a
reference there is nothing to measure against. -/
def withinPriceBand (self : Instrument) (price : ℤ) : Option ℤ → Bool
  | none => true
  | some reference =>
      let margin := reference * self.priceBandPct
      |price - reference| * 100 ≤ margin

variable {self : Instrument} {price reference : ℤ}

/-- How many ticks the band reaches in either direction. -/
def bandReach (self : Instrument) (reference : ℤ) : ℤ := reference * self.priceBandPct / 100

theorem withinPriceBand_iff :
    self.withinPriceBand price (some reference) ↔
      reference - self.bandReach reference ≤ price ∧
        price ≤ reference + self.bandReach reference := by
  rw [withinPriceBand, decide_eq_true_iff, ← Int.le_ediv_iff_mul_le (by norm_num : (0 : ℤ) < 100),
    abs_le]
  simp only [bandReach]
  omega

/-- The band by products, as the source has it. -/
theorem withinPriceBand_iff_mul :
    self.withinPriceBand price (some reference) ↔
      (100 - self.priceBandPct) * reference ≤ 100 * price ∧
        100 * price ≤ (100 + self.priceBandPct) * reference := by
  have habs : |price - reference| * 100 ≤ reference * self.priceBandPct ↔
      |(price - reference) * 100| ≤ reference * self.priceBandPct := by
    rw [abs_mul, abs_of_pos (by norm_num : (0 : ℤ) < 100)]
  rw [withinPriceBand, decide_eq_true_iff, habs, abs_le]
  constructor
  · rintro ⟨hlow, hhigh⟩
    constructor <;> linarith
  · rintro ⟨hlow, hhigh⟩
    constructor <;> linarith

theorem bandReach_nonneg_iff : 0 ≤ self.bandReach reference ↔ 0 ≤ reference * self.priceBandPct :=
  Int.ediv_nonneg_iff_of_pos (by norm_num)

theorem one_le_bandReach_iff :
    1 ≤ self.bandReach reference ↔ 100 ≤ reference * self.priceBandPct := by
  rw [bandReach, Int.le_ediv_iff_mul_le (by norm_num), one_mul]

theorem band_empty_iff (self : Instrument) (reference : ℤ) :
    (∀ price, ¬ self.withinPriceBand price (some reference)) ↔
      reference * self.priceBandPct < 0 := by
  simp only [withinPriceBand_iff]
  rw [← not_le, ← bandReach_nonneg_iff]
  refine ⟨fun h hreach => ?_, fun hneg price => ?_⟩
  · exact h reference (by omega)
  · omega

theorem band_single_iff (self : Instrument) (reference : ℤ) :
    (∀ price, self.withinPriceBand price (some reference) ↔ price = reference) ↔
      0 ≤ reference * self.priceBandPct ∧ reference * self.priceBandPct < 100 := by
  simp only [withinPriceBand_iff]
  rw [← bandReach_nonneg_iff, ← not_le, ← one_le_bandReach_iff]
  refine ⟨fun h => ⟨?_, fun hreach => ?_⟩, fun hreach price => ?_⟩
  · have hself := (h reference).mpr rfl
    omega
  · have hnext := (h (reference + 1)).mp (by omega)
    omega
  · omega

theorem band_moves_iff (self : Instrument) (reference : ℤ) :
    100 ≤ reference * self.priceBandPct ↔
      self.withinPriceBand (reference - 1) (some reference) ∧
        self.withinPriceBand (reference + 1) (some reference) := by
  rw [withinPriceBand_iff, withinPriceBand_iff, ← one_le_bandReach_iff]
  omega

/-- **The band around a reference.** It is empty where the margin is
negative, the reference alone where the margin is less than a tick, and
otherwise lets the price move either way. -/
theorem band_spec (self : Instrument) (reference : ℤ) :
    ((∀ price, ¬ self.withinPriceBand price (some reference)) ↔
        reference * self.priceBandPct < 0) ∧
      ((∀ price, self.withinPriceBand price (some reference) ↔ price = reference) ↔
        0 ≤ reference * self.priceBandPct ∧ reference * self.priceBandPct < 100) ∧
      (100 ≤ reference * self.priceBandPct ↔
        self.withinPriceBand (reference - 1) (some reference) ∧
          self.withinPriceBand (reference + 1) (some reference)) :=
  ⟨band_empty_iff self reference, band_single_iff self reference, band_moves_iff self reference⟩

/-- **A loaded band halts the venue** at every positive reference just when
its percentage was configured as minus one or less. -/
theorem loaded_band_halts_iff {symbol : String} {raw : Dict} {inst : Instrument}
    (h : fromDict symbol raw = .ok inst) {reference : ℤ} (hpos : 0 < reference) :
    (∀ price, ¬ inst.withinPriceBand price (some reference)) ↔
      ∃ q, (raw.get "price_band_pct").Counts q ∧ q ≤ -1 := by
  obtain ⟨-, -, -, -, ⟨q, hq, hpct : truncate q = inst.priceBandPct⟩, -⟩ :=
    forall_mem_limits.mp (fromDict_eq_ok.mp h).limits
  have hneg : truncate q < 0 ↔ q ≤ -1 := by
    rw [← neg_neg q, truncate_neg, neg_lt_zero, truncate_pos_iff, neg_le_neg_iff]
  rw [band_empty_iff, ← hpct, hq.exists_and_iff, ← hneg]
  refine ⟨fun hmul => ?_, fun hpct => mul_neg_of_pos_of_neg hpos hpct⟩
  by_contra hnonneg
  exact absurd (mul_nonneg hpos.le (not_lt.mp hnonneg)) (not_le.mpr hmul)

/-- The shipped configuration with the percentage negated. -/
def negatedConfig : Dict :=
  usdcadConfig.map fun (key, v) => (key, if key = "price_band_pct" then .int (-10) else v)

/-- The shipped percentage lets the venue trade, and its opposite does not. -/
theorem usdcad_band_halts_negated :
    (¬ ∀ price, ¬ usdcad.withinPriceBand price (some 137500)) ∧
      ∃ inst, fromDict "USDCAD" negatedConfig = .ok inst ∧
        ∀ price, ¬ inst.withinPriceBand price (some 137500) := by
  constructor
  · rw [loaded_band_halts_iff fromDict_usdcadConfig (by norm_num)]
    rintro ⟨q, hq, hneg⟩
    have hten : q = (10 : ℤ) := hq.unique (.written (.int 10))
    norm_num [hten] at hneg
  · have hload : fromDict "USDCAD" negatedConfig = .ok { usdcad with priceBandPct := -10 } := rfl
    refine ⟨_, hload, (loaded_band_halts_iff hload (by norm_num)).mpr ⟨(-10 : ℤ), ?_, ?_⟩⟩
    · exact .written (.int (-10))
    · norm_num

/-! ### Sequences of prices -/

/-- Prices that are each in the band of the one before. -/
def Banded (self : Instrument) (prices : List ℤ) : Prop :=
  prices.IsChain fun reference price => self.withinPriceBand price (some reference)

theorem band_drift (hlow : -100 ≤ self.priceBandPct) (hhigh : self.priceBandPct ≤ 100)
    {first : ℤ} {prices : List ℤ} (h : self.Banded (first :: prices)) :
    (100 - self.priceBandPct) ^ prices.length * first ≤
        100 ^ prices.length * prices.getLastD first ∧
      100 ^ prices.length * prices.getLastD first ≤
        (100 + self.priceBandPct) ^ prices.length * first := by
  induction prices generalizing first with
  | nil => simp
  | cons next prices ih =>
      obtain ⟨hnext, hrest⟩ := List.isChain_cons_cons.mp h
      obtain ⟨hdown, hup⟩ := withinPriceBand_iff_mul.mp hnext
      obtain ⟨hdown', hup'⟩ := ih hrest
      rw [List.getLastD_cons, List.length_cons]
      have hfall : 0 ≤ (100 - self.priceBandPct) ^ prices.length := pow_nonneg (by omega) _
      have hrise : 0 ≤ (100 + self.priceBandPct) ^ prices.length := pow_nonneg (by omega) _
      constructor
      · calc
          (100 - self.priceBandPct) ^ (prices.length + 1) * first =
              (100 - self.priceBandPct) ^ prices.length *
                ((100 - self.priceBandPct) * first) := by ring
          _ ≤ (100 - self.priceBandPct) ^ prices.length * (100 * next) :=
              mul_le_mul_of_nonneg_left hdown hfall
          _ = 100 * ((100 - self.priceBandPct) ^ prices.length * next) := by ring
          _ ≤ 100 * (100 ^ prices.length * prices.getLastD next) := by omega
          _ = 100 ^ (prices.length + 1) * prices.getLastD next := by ring
      · calc
          100 ^ (prices.length + 1) * prices.getLastD next =
              100 * (100 ^ prices.length * prices.getLastD next) := by ring
          _ ≤ 100 * ((100 + self.priceBandPct) ^ prices.length * next) := by omega
          _ = (100 + self.priceBandPct) ^ prices.length * (100 * next) := by ring
          _ ≤ (100 + self.priceBandPct) ^ prices.length *
              ((100 + self.priceBandPct) * first) := mul_le_mul_of_nonneg_left hup hrise
          _ = (100 + self.priceBandPct) ^ (prices.length + 1) * first := by ring

/-- Every rate the band allows can be kept up. -/
theorem exists_drift (self : Instrument) {rate : ℤ} (hrate : 0 ≤ rate)
    (hlow : 100 - self.priceBandPct ≤ rate) (hhigh : rate ≤ 100 + self.priceBandPct) (n : ℕ)
    {scale : ℤ} (hscale : 0 ≤ scale) :
    ∃ prices : List ℤ, prices.length = n ∧ self.Banded (100 ^ n * scale :: prices) ∧
      prices.getLastD (100 ^ n * scale) = rate ^ n * scale := by
  induction n generalizing scale with
  | zero => exact ⟨[], rfl, List.isChain_singleton _, by simp⟩
  | succ n ih =>
      obtain ⟨prices, hlength, hbanded, hlast⟩ := ih (mul_nonneg hrate hscale)
      have hpos : (0 : ℤ) ≤ 100 ^ (n + 1) * scale := mul_nonneg (by positivity) hscale
      have hprice : 100 * (100 ^ n * (rate * scale)) = rate * (100 ^ (n + 1) * scale) := by ring
      refine ⟨100 ^ n * (rate * scale) :: prices, by rw [List.length_cons, hlength], ?_, ?_⟩
      · refine List.isChain_cons_cons.mpr ⟨withinPriceBand_iff_mul.mpr ?_, hbanded⟩
        rw [hprice]
        exact ⟨mul_le_mul_of_nonneg_right hlow hpos, mul_le_mul_of_nonneg_right hhigh hpos⟩
      · rw [List.getLastD_cons, hlast]
        ring

/-- **The drift compounds.** A percentage bounds what `n` prices in a row can
do by its compound over `n` steps, and in both directions some do as much. -/
theorem drift_compounds (hnonneg : 0 ≤ self.priceBandPct) (hhigh : self.priceBandPct ≤ 100) :
    (∀ (first : ℤ) (prices : List ℤ), self.Banded (first :: prices) →
      (100 - self.priceBandPct) ^ prices.length * first ≤
          100 ^ prices.length * prices.getLastD first ∧
        100 ^ prices.length * prices.getLastD first ≤
          (100 + self.priceBandPct) ^ prices.length * first) ∧
      ∀ n, (∃ prices : List ℤ, prices.length = n ∧ self.Banded (100 ^ n :: prices) ∧
          prices.getLastD (100 ^ n) = (100 + self.priceBandPct) ^ n) ∧
        ∃ prices : List ℤ, prices.length = n ∧ self.Banded (100 ^ n :: prices) ∧
          prices.getLastD (100 ^ n) = (100 - self.priceBandPct) ^ n := by
  refine ⟨fun first prices h => band_drift (by omega) hhigh h, fun n => ⟨?_, ?_⟩⟩
  · simpa using @exists_drift self (100 + self.priceBandPct) (by omega) (by omega) le_rfl n 1
      zero_le_one
  · simpa using @exists_drift self (100 - self.priceBandPct) (by omega) le_rfl (by omega) n 1
      zero_le_one

/-- Ten percent twice are twenty-one. -/
theorem usdcad_drift_compounds :
    ∃ prices : List ℤ, prices.length = 2 ∧ usdcad.Banded (10000 :: prices) ∧
      prices.getLastD 10000 = 12100 :=
  ((@drift_compounds usdcad (by decide) (by decide)).2 2).1

end DistributedMarket.Instrument
