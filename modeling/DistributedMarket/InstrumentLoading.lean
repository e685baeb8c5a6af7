import DistributedMarket.Instruments
import DistributedMarket.Units

/-!
Which configurations load, and which of the instruments are sound.

`Json.Writes` says which number a value of the configuration writes, and
`Json.Counts` which number `int` takes it for; the second also knows the two
booleans. Conversion truncates that number (`Json.toInt_eq_ok_iff`), so an
instrument is faithful to its configuration where no limit has a fraction,
and its validators divide by zero where the lot or the tick is less than one.
The conversions happen in the order of the fields, and the first that fails
decides which exception leaves the loader: `Refuses` walks the keys as the
loader does.
-/

namespace DistributedMarket

open Lib

/-! ### What a value writes -/

/-- The value writes the number `q`. -/
inductive Json.Writes : Json → ℚ → Prop
  | int (n : ℤ) : Writes (.int n) n
  | float (q : ℚ) : Writes (.float (.finite q)) q
  | str {text : String} {n : ℤ} (h : IntText.Spells text n) : Writes (.str text) n

/-- The number `int` truncates: the one the value writes, or 0 or 1 for a
boolean. -/
inductive Json.Counts : Json → ℚ → Prop
  | written {v : Json} {q : ℚ} (h : v.Writes q) : Counts v q
  | bool (b : Bool) : Counts (.bool b) b.toNat

/-- A text that spells no integer, or a NaN. -/
inductive Json.Malformed : Json → Prop
  | nan : Malformed (.float .nan)
  | str {text : String} (h : ∀ n, ¬ IntText.Spells text n) : Malformed (.str text)

theorem Json.Counts.unique {v : Json} {p q : ℚ} (hp : v.Counts p) (hq : v.Counts q) : p = q := by
  cases hp with
  | bool b =>
      cases hq with
      | bool => rfl
      | written h => cases h
  | written hp =>
      cases hp with
      | int n =>
          obtain ⟨hq⟩ := hq
          cases hq
          rfl
      | float q =>
          obtain ⟨hq⟩ := hq
          cases hq
          rfl
      | str hm =>
          obtain ⟨hq⟩ := hq
          cases hq with
          | str hn => rw [hm.unique hn]

theorem Json.Counts.exists_and_iff {v : Json} {q : ℚ} (hq : v.Counts q) {p : ℚ → Prop} :
    (∃ r, v.Counts r ∧ p r) ↔ p q := by
  refine ⟨?_, fun h => ⟨q, hq, h⟩⟩
  rintro ⟨r, hr, h⟩
  rwa [hq.unique hr]

/-- Conversion truncates the number the value counts for. -/
theorem Json.toInt_eq_ok_iff {v : Json} {n : ℤ} :
    v.toInt = .ok n ↔ ∃ q, v.Counts q ∧ truncate q = n := by
  refine ⟨fun h => ?_, ?_⟩
  · unfold Json.toInt at h
    split at h
    · rename_i b
      exact ⟨_, .bool b, (truncate_intCast b.toNat).trans (Except.ok.inj h)⟩
    · rename_i m
      exact ⟨_, .written (.int m), (truncate_intCast m).trans (Except.ok.inj h)⟩
    · rename_i q
      exact ⟨q, .written (.float q), Except.ok.inj h⟩
    · contradiction
    · contradiction
    · rename_i text
      split at h
      · rename_i m hread
        have hspells := IntText.readInt_eq_ok_iff.mp hread
        exact ⟨_, .written (.str hspells), (truncate_intCast m).trans (Except.ok.inj h)⟩
      · contradiction
      · contradiction
    · contradiction
  · rintro ⟨q, hcounts, rfl⟩
    cases hcounts with
    | bool b => cases b <;> rfl
    | written h =>
        cases h with
        | int n => simp [Json.toInt, truncate_intCast]
        | float q => rfl
        | str h => simp [Json.toInt, IntText.readInt_eq_ok_iff.mpr h, truncate_intCast]

/-! ### Which exception leaves the loader -/

/-- A missing key, which the loader translates, or a `ValueError`. -/
def Raised.IsLoadError : Raised → Prop
  | .py (.KeyError _) | .py (.ValueError _) => True
  | _ => False

/-- The call failed in a way that is a load error in the end. -/
def Refused {α : Type} (result : Except Raised α) : Prop :=
  ∃ err, result = .error err ∧ err.IsLoadError

theorem refused_bind {α β : Type} {x : Except Raised α} {f : α → Except Raised β} :
    Refused (x >>= f) ↔ Refused x ∨ ∃ a, x = .ok a ∧ Refused (f a) := by
  cases x with
  | error err => simp [Refused, Bind.bind, Except.bind]
  | ok a => simp [Refused, Bind.bind, Except.bind]

theorem not_refused_pure {α : Type} (a : α) : ¬ Refused (pure a : Except Raised α) := by
  rintro ⟨err, herr, -⟩
  contradiction

theorem Json.refused_toInt_iff {v : Json} : Refused v.toInt ↔ v.Malformed := by
  refine ⟨?_, ?_⟩
  · rintro ⟨err, herr, hload⟩
    unfold Json.toInt at herr
    split at herr
    · contradiction
    · contradiction
    · contradiction
    · cases herr
      contradiction
    · exact .nan
    · rename_i text
      refine .str fun n hspells => ?_
      rw [IntText.readInt_eq_ok_iff.mpr hspells] at herr
      contradiction
    · cases herr
      contradiction
  · intro h
    cases h with
    | nan => exact ⟨_, rfl, trivial⟩
    | @str text hnone =>
        unfold Json.toInt
        dsimp only
        split
        · rename_i n hread
          exact absurd (IntText.readInt_eq_ok_iff.mp hread) (hnone n)
        · exact ⟨_, rfl, trivial⟩
        · exact ⟨_, rfl, trivial⟩

theorem Json.toStr_eq_ok {v : Json} {text : Piece} :
    v.toStr = .ok text ↔ v.printable = true ∧ text = .shown v := by
  unfold Json.toStr
  split
  · rename_i hprintable
    simp [hprintable, @eq_comm _ text]
  · rename_i hlong
    simp [hlong]

theorem Json.refused_toStr_iff {v : Json} : Refused v.toStr ↔ v.printable = false := by
  unfold Json.toStr
  split
  · rename_i hprintable
    simp [hprintable, Refused]
  · rename_i hlong
    exact iff_of_true ⟨_, rfl, trivial⟩ (eq_false_of_ne_true hlong)

section Field

variable {raw : Dict} {key : String}

theorem Dict.field_eq_ok {v : Json} : raw.field key = .ok v ↔ raw.lookup key = some v := by
  rw [← Dict.item_eq_ok]
  unfold Dict.field
  cases raw.item key <;> simp [Except.mapError]

theorem Dict.refused_field_iff : Refused (raw.field key) ↔ raw.lookup key = none := by
  unfold Dict.field Dict.item
  cases raw.lookup key with
  | none => simp [Refused, Except.mapError, Raised.IsLoadError]
  | some v => simp [Refused, Except.mapError]

theorem Dict.strField_eq_ok {text : Piece} :
    raw.strField key = .ok text ↔
      ∃ v, raw.lookup key = some v ∧ v.printable = true ∧ text = .shown v := by
  unfold Dict.strField
  rw [bind_eq_ok]
  simp only [Dict.field_eq_ok, Json.toStr_eq_ok]

/-- A step that needs the text, after one that refuses if there is none. -/
theorem Dict.refused_strField_or {p : Prop} :
    (Refused (raw.strField key) ∨ (∃ text, raw.strField key = .ok text) ∧ p) ↔
      raw.lookup key = none ∨ (raw.get key).printable = false ∨ p := by
  unfold Dict.strField
  simp only [refused_bind, bind_eq_ok, Dict.refused_field_iff, Dict.field_eq_ok,
    Json.refused_toStr_iff, Json.toStr_eq_ok]
  cases hv : raw.lookup key with
  | none => simp
  | some v =>
      rw [Dict.get_of_lookup hv]
      cases hprintable : v.printable with
      | false => simp [hprintable]
      | true => simp [hprintable]

/-- A key that is not there has what `None` has, where that is nothing. -/
theorem Dict.exists_lookup_and_iff {p : Json → Prop} (hnull : ¬ p .null) :
    (∃ v, raw.lookup key = some v ∧ p v) ↔ p (raw.get key) := by
  unfold Dict.get
  cases raw.lookup key with
  | none => simp [hnull]
  | some v => simp

theorem Dict.intField_eq_ok {n : ℤ} :
    raw.intField key = .ok n ↔ ∃ q, (raw.get key).Counts q ∧ truncate q = n := by
  unfold Dict.intField
  rw [bind_eq_ok, ← Json.toInt_eq_ok_iff]
  simp only [Dict.field_eq_ok]
  exact Dict.exists_lookup_and_iff (p := fun v => v.toInt = .ok n) (by rintro ⟨⟩)

theorem Dict.refused_intField_iff :
    Refused (raw.intField key) ↔ raw.lookup key = none ∨ (raw.get key).Malformed := by
  unfold Dict.intField
  rw [refused_bind, Dict.refused_field_iff]
  simp only [Dict.field_eq_ok, Json.refused_toInt_iff]
  exact or_congr_right (Dict.exists_lookup_and_iff (by rintro ⟨⟩))

theorem Dict.exists_intField_eq_ok :
    (∃ n, raw.intField key = .ok n) ↔ ∃ q, (raw.get key).Counts q := by
  simp only [Dict.intField_eq_ok]
  exact ⟨fun ⟨_, q, h, _⟩ => ⟨q, h⟩, fun ⟨q, h⟩ => ⟨_, q, h, rfl⟩⟩

end Field

/-- The keys of the limits, in the order the loader converts them. -/
def limitKeys : List String :=
  ["tick_size", "lot_size", "min_qty", "max_qty", "price_band_pct", "market_buy_max_notional"]

/-- Converting these limits in turn ends in a load error: one is missing or
malformed, and those before it are converted. -/
def RefusesLimits (raw : Dict) : List String → Prop
  | [] => False
  | key :: keys =>
      raw.lookup key = none ∨ (raw.get key).Malformed ∨
        ((∃ q, (raw.get key).Counts q) ∧ RefusesLimits raw keys)

/-- Loading ends in a load error. -/
def Refuses (raw : Dict) : Prop :=
  raw.lookup "base" = none ∨ (raw.get "base").printable = false ∨
    raw.lookup "quote" = none ∨ (raw.get "quote").printable = false ∨
      RefusesLimits raw limitKeys

namespace Instrument

/-- The limits of an instrument, by the keys they are loaded from. -/
def limits (self : Instrument) : List (String × ℤ) :=
  [("tick_size", self.tickSize),
    ("lot_size", self.lotSize),
    ("min_qty", self.minQty),
    ("max_qty", self.maxQty),
    ("price_band_pct", self.priceBandPct),
    ("market_buy_max_notional", self.marketBuyMaxNotional)]

theorem forall_mem_limits {self : Instrument} {p : String × ℤ → Prop} :
    (∀ limit ∈ self.limits, p limit) ↔
      p ("tick_size", self.tickSize) ∧ p ("lot_size", self.lotSize) ∧
        p ("min_qty", self.minQty) ∧ p ("max_qty", self.maxQty) ∧
        p ("price_band_pct", self.priceBandPct) ∧
        p ("market_buy_max_notional", self.marketBuyMaxNotional) := by
  simp [limits]

/-- What an instrument has from its configuration. -/
structure LoadedFrom (symbol : String) (raw : Dict) (inst : Instrument) : Prop where
  symbol_eq : inst.symbol = symbol
  base : ∃ v, raw.lookup "base" = some v ∧ v.printable = true ∧ inst.base = .shown v
  quote : ∃ v, raw.lookup "quote" = some v ∧ v.printable = true ∧ inst.quote = .shown v
  limits : ∀ limit ∈ inst.limits, ∃ q, (raw.get limit.1).Counts q ∧ truncate q = limit.2

theorem construct_eq_ok {symbol : String} {raw : Dict} {inst : Instrument} :
    construct symbol raw = .ok inst ↔ LoadedFrom symbol raw inst := by
  simp only [construct, bind_eq_ok, Dict.strField_eq_ok, Dict.intField_eq_ok]
  refine ⟨?_, fun h => ?_⟩
  · rintro ⟨base, hbase, quote, hquote, tickSize, htickSize, lotSize, hlotSize, minQty, hminQty,
      maxQty, hmaxQty, priceBandPct, hpriceBandPct, notional, hnotional, hinst⟩
    cases hinst
    refine ⟨rfl, hbase, hquote, forall_mem_limits.mpr ?_⟩
    exact ⟨htickSize, hlotSize, hminQty, hmaxQty, hpriceBandPct, hnotional⟩
  · obtain ⟨rfl, hbase, hquote, hlimits⟩ := h
    obtain ⟨htickSize, hlotSize, hminQty, hmaxQty, hpriceBandPct, hnotional⟩ :=
      forall_mem_limits.mp hlimits
    exact ⟨_, hbase, _, hquote, _, htickSize, _, hlotSize, _, hminQty, _, hmaxQty,
      _, hpriceBandPct, _, hnotional, rfl⟩

theorem refused_construct_iff {symbol : String} {raw : Dict} :
    Refused (construct symbol raw) ↔ Refuses raw := by
  simp only [construct, refused_bind, exists_and_right, Dict.refused_strField_or,
    Dict.refused_intField_iff, Dict.exists_intField_eq_ok, not_refused_pure, and_false,
    exists_false, or_false, or_assoc]
  simp only [Refuses, RefusesLimits, limitKeys, and_false, or_false]

/-- Each limit is the number its configuration writes. -/
def Faithful (self : Instrument) (raw : Dict) : Prop :=
  ∀ limit ∈ self.limits, (raw.get limit.1).Writes limit.2

theorem keys_limits (self : Instrument) : self.limits.map Prod.fst = limitKeys := rfl

end Instrument

/-- Every field is there and can be converted, and every limit is written as
an integer. -/
structure WritesIntegers (raw : Dict) : Prop where
  base : ∃ v, raw.lookup "base" = some v ∧ v.printable = true
  quote : ∃ v, raw.lookup "quote" = some v ∧ v.printable = true
  limits : ∀ key ∈ limitKeys, ∃ n : ℤ, (raw.get key).Writes n

/-- The call raised a `ValueError`. -/
def FailsAsLoadError (result : Except Raised Instrument) : Prop :=
  ∃ message, result = .error (.py (.ValueError message))

namespace Instrument

variable {symbol : String} {raw : Dict} {inst : Instrument}

/-- The loader translates what its body refuses and passes on the rest. -/
theorem failsAsLoadError_iff : FailsAsLoadError (fromDict symbol raw) ↔ Refuses raw := by
  rw [← @refused_construct_iff symbol]
  unfold fromDict
  cases hconstruct : construct symbol raw with
  | ok inst => simp [FailsAsLoadError, Refused]
  | error err =>
      simp only [Refused, Except.error.injEq, exists_eq_left']
      rcases err with (_ | _ | _ | _) | _ | _ | _ | _ <;>
        simp [FailsAsLoadError, Raised.IsLoadError]

theorem fromDict_eq_ok : fromDict symbol raw = .ok inst ↔ LoadedFrom symbol raw inst := by
  rw [← construct_eq_ok]
  unfold fromDict
  split
  · rename_i key hmissing
    simp [hmissing]
  · rfl

/-- An integer that is written is converted to itself. -/
theorem LoadedFrom.limit_eq (h : LoadedFrom symbol raw inst) {limit : String × ℤ}
    (hlimit : limit ∈ inst.limits) {n : ℤ} (hn : (raw.get limit.1).Writes n) : limit.2 = n := by
  obtain ⟨q, hq, htruncate⟩ := h.limits limit hlimit
  rw [← htruncate, hq.unique (.written hn), truncate_intCast]

theorem exists_loadedFrom (symbol : String) (h : WritesIntegers raw) :
    ∃ inst, LoadedFrom symbol raw inst := by
  obtain ⟨base, hbase⟩ := h.base
  obtain ⟨quote, hquote⟩ := h.quote
  have hlimits := h.limits
  simp only [limitKeys, List.forall_mem_cons] at hlimits
  obtain ⟨⟨tickSize, htickSize⟩, ⟨lotSize, hlotSize⟩, ⟨minQty, hminQty⟩, ⟨maxQty, hmaxQty⟩,
    ⟨priceBandPct, hpriceBandPct⟩, ⟨notional, hnotional⟩, -⟩ := hlimits
  refine ⟨⟨symbol, .shown base, .shown quote, tickSize, lotSize, minQty, maxQty, priceBandPct,
    notional⟩, rfl, ⟨base, hbase.1, hbase.2, rfl⟩, ⟨quote, hquote.1, hquote.2, rfl⟩,
    forall_mem_limits.mpr ?_⟩
  have hcounts : ∀ {key : String} {n : ℤ}, (raw.get key).Writes n →
      ∃ q, (raw.get key).Counts q ∧ truncate q = n := fun hn =>
    ⟨_, .written hn, truncate_intCast _⟩
  exact ⟨hcounts htickSize, hcounts hlotSize, hcounts hminQty, hcounts hmaxQty,
    hcounts hpriceBandPct, hcounts hnotional⟩

/-- The shipped configuration with another lot size. -/
def lotConfig (lotSize : Json) : Dict :=
  usdcadConfig.map fun (key, v) => (key, if key = "lot_size" then lotSize else v)

theorem fromDict_lotConfig {v : Json} {n : ℤ} (h : v.toInt = .ok n) :
    fromDict "USDCAD" (lotConfig v) = .ok { usdcad with lotSize := n } := by
  rw [fromDict_eq_ok]
  refine ⟨rfl, ⟨_, rfl, rfl, rfl⟩, ⟨_, rfl, rfl, rfl⟩, forall_mem_limits.mpr ?_⟩
  simp only [← Json.toInt_eq_ok_iff]
  exact ⟨rfl, h, rfl, rfl, rfl, rfl⟩

/-- **Where loading is faithful or fails as a load error**: the first field
that is not converted ends in a load error, or every limit is written as an
integer. -/
theorem fromDict_faithful_iff (symbol : String) (raw : Dict) :
    (FailsAsLoadError (fromDict symbol raw) ∨
      ∃ inst, fromDict symbol raw = .ok inst ∧ inst.Faithful raw) ↔
      Refuses raw ∨ WritesIntegers raw := by
  rw [failsAsLoadError_iff]
  refine or_congr_right ⟨?_, fun h => ?_⟩
  · rintro ⟨inst, hinst, hfaithful⟩
    obtain ⟨-, ⟨base, hbase, hbase', -⟩, ⟨quote, hquote, hquote', -⟩, -⟩ := fromDict_eq_ok.mp hinst
    refine ⟨⟨base, hbase, hbase'⟩, ⟨quote, hquote, hquote'⟩, fun key hkey => ?_⟩
    rw [← inst.keys_limits] at hkey
    obtain ⟨limit, hlimit, rfl⟩ := List.mem_map.mp hkey
    exact ⟨limit.2, hfaithful limit hlimit⟩
  · obtain ⟨inst, hinst⟩ := exists_loadedFrom symbol h
    refine ⟨inst, fromDict_eq_ok.mpr hinst, fun limit hlimit => ?_⟩
    have hkey : limit.1 ∈ limitKeys := by
      rw [← inst.keys_limits]
      exact List.mem_map_of_mem hlimit
    obtain ⟨n, hn⟩ := h.limits limit.1 hkey
    rw [hinst.limit_eq hlimit hn]
    exact hn

/-- A lot size of 100.5 is loaded as 100. -/
theorem fromDict_not_faithful :
    ¬ (FailsAsLoadError (fromDict "USDCAD" (lotConfig (.float (.finite (201 / 2))))) ∨
      ∃ inst, fromDict "USDCAD" (lotConfig (.float (.finite (201 / 2)))) = .ok inst ∧
        inst.Faithful (lotConfig (.float (.finite (201 / 2))))) := by
  have htruncate : truncate (201 / 2) = 100 := by
    rw [truncate, if_pos (by norm_num), Int.floor_eq_iff]
    norm_num
  rw [fromDict_lotConfig (v := .float (.finite (201 / 2))) (n := 100) (by rw [Json.toInt, htruncate])]
  rintro (⟨message, herr⟩ | ⟨inst, hinst, hfaithful⟩)
  · contradiction
  · cases hinst
    have hwrites : Json.Writes (.float (.finite (201 / 2))) ((100 : ℤ) : ℚ) :=
      (forall_mem_limits.mp hfaithful).2.1
    have hnumber := Json.Counts.unique (.written hwrites) (.written (.float _))
    norm_num at hnumber

/-! ### When the validators are safe -/

/-- The validators return or raise a `MarketError` for a value that is not
valid, and the clamp of a market buy raises nothing at a positive price. -/
structure NeverFaults (inst : Instrument) (quantity price : ℤ) : Prop where
  of_quantity : Validates (inst.validateQuantity quantity)
  of_price : Validates (inst.validatePrice price)
  of_affordable : ∀ reservedCad limit, 0 < limit →
    ∃ n, affordableQuantity reservedCad limit inst.lotSize = .ok n

theorem affordableQuantity_never_raises_iff {lotSize : ℤ} :
    (∀ reservedCad price, 0 < price → ∃ n, affordableQuantity reservedCad price lotSize = .ok n) ↔
      0 < lotSize := by
  refine ⟨fun h => ?_, fun hlot reservedCad price hprice => ?_⟩
  · obtain ⟨n, hn⟩ := h 0 1 one_pos
    by_contra hlot
    rw [affordableQuantity, if_neg (by decide), if_pos (not_lt.mp hlot)] at hn
    contradiction
  · exact ⟨_, affordableQuantity_eq_ok hprice hlot⟩

theorem neverFaults_iff {quantity price : ℤ} :
    inst.NeverFaults quantity price ↔
      0 < inst.lotSize ∧ (0 < price → inst.tickSize ≠ 0) ∧
        inst.MessagesPrintable quantity price := by
  refine ⟨fun ⟨hquantity, hprice, haffordable⟩ => ?_, fun ⟨hlot, htick, hprint⟩ => ?_⟩
  · have hlot := affordableQuantity_never_raises_iff.mp haffordable
    obtain ⟨hneg, hstep, hrange⟩ := (validates_validateQuantity hlot.ne').mp hquantity
    obtain ⟨hneg', hstep'⟩ := validates_validatePrice.mp hprice
    exact ⟨hlot, fun hpos => (hstep' hpos).1, hneg, hneg', hstep, fun hpos => (hstep' hpos).2,
      hrange⟩
  · refine ⟨(validates_validateQuantity hlot.ne').mpr ?_, validates_validatePrice.mpr ?_,
      affordableQuantity_never_raises_iff.mpr hlot⟩
    · exact ⟨hprint.of_quantity, hprint.of_lotSize, hprint.of_range⟩
    · exact ⟨hprint.of_price, fun hpos => ⟨htick hpos, hprint.of_tickSize hpos⟩⟩

theorem messagesPrintable {quantity price : ℤ} (hquantity : IntText.Printable quantity)
    (hprice : IntText.Printable price)
    (hlimits : ∀ limit ∈ inst.limits, IntText.Printable limit.2) :
    inst.MessagesPrintable quantity price := by
  obtain ⟨htick, hlot, hmin, hmax, -⟩ := forall_mem_limits.mp hlimits
  exact ⟨fun _ => hquantity, fun _ => hprice, fun _ _ => hlot, fun _ _ => htick,
    fun _ _ _ => ⟨hmin, hmax⟩⟩

/-- An instrument whose limits can be written and whose lot and tick are
sound faults on no quantity and no price that can be written. -/
theorem neverFaults_of_printable (hlot : 0 < inst.lotSize) (htick : inst.tickSize ≠ 0)
    (hlimits : ∀ limit ∈ inst.limits, IntText.Printable limit.2) {quantity price : ℤ}
    (hquantity : IntText.Printable quantity) (hprice : IntText.Printable price) :
    inst.NeverFaults quantity price :=
  neverFaults_iff.mpr ⟨hlot, fun _ => htick, messagesPrintable hquantity hprice hlimits⟩

theorem LoadedFrom.lotSize_pos_iff (h : LoadedFrom symbol raw inst) :
    0 < inst.lotSize ↔ ∃ q, (raw.get "lot_size").Counts q ∧ 1 ≤ q := by
  obtain ⟨q, hq, hlot : truncate q = inst.lotSize⟩ := (forall_mem_limits.mp h.limits).2.1
  rw [← hlot, truncate_pos_iff, hq.exists_and_iff]

theorem LoadedFrom.tickSize_ne_zero_iff (h : LoadedFrom symbol raw inst) :
    inst.tickSize ≠ 0 ↔ ∃ q, (raw.get "tick_size").Counts q ∧ 1 ≤ |q| := by
  obtain ⟨q, hq, htick : truncate q = inst.tickSize⟩ := (forall_mem_limits.mp h.limits).1
  rw [← htick, truncate_ne_zero_iff, hq.exists_and_iff]

/-- **When an instrument that was loaded never faults**: its lot size was
configured as a whole lot at least, its tick size as a whole tick at least in
either direction, and the message of the check that refuses a value can be
written. -/
theorem fromDict_neverFaults_iff (h : fromDict symbol raw = .ok inst) (quantity price : ℤ) :
    inst.NeverFaults quantity price ↔
      (∃ q, (raw.get "lot_size").Counts q ∧ 1 ≤ q) ∧
        (0 < price → ∃ q, (raw.get "tick_size").Counts q ∧ 1 ≤ |q|) ∧
        inst.MessagesPrintable quantity price := by
  have hloaded := fromDict_eq_ok.mp h
  rw [neverFaults_iff, hloaded.lotSize_pos_iff, hloaded.tickSize_ne_zero_iff]

theorem usdcad_neverFaults : usdcad.NeverFaults 100 1 := by
  refine (fromDict_neverFaults_iff fromDict_usdcadConfig 100 1).mpr ⟨?_, fun _ => ?_, ?_⟩
  · exact ⟨100, .written (.int 100), by norm_num⟩
  · exact ⟨1, .written (by exact_mod_cast Json.Writes.int 1), by norm_num⟩
  · refine messagesPrintable (IntText.printable_of_lt (by decide))
      (IntText.printable_of_lt (by decide)) (forall_mem_limits.mpr ?_)
    refine ⟨?_, ?_, ?_, ?_, ?_, ?_⟩ <;> exact IntText.printable_of_lt (by decide)

/-- A lot size of zero is loaded, and a quantity divided by it. -/
theorem lotConfig_zero_faults :
    fromDict "USDCAD" (lotConfig (.int 0)) = .ok { usdcad with lotSize := 0 } ∧
      validateQuantity { usdcad with lotSize := 0 } 100 = .error (.ZeroDivisionError 100) ∧
      ¬ NeverFaults { usdcad with lotSize := 0 } 100 1 := by
  have hraise : validateQuantity { usdcad with lotSize := 0 } 100 =
      .error (.ZeroDivisionError 100) := rfl
  refine ⟨fromDict_lotConfig rfl, hraise, fun h => ?_⟩
  have hvalidates := h.of_quantity
  rw [hraise] at hvalidates
  rcases hvalidates with hok | ⟨err, herr, -⟩
  · contradiction
  · cases Except.error.inj herr

end Instrument

end DistributedMarket
