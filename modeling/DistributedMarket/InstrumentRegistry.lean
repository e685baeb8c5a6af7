import DistributedMarket.InstrumentLoading
import DistributedMarket.Lib.Comprehension
import Mathlib.Data.List.Sort
import Mathlib.Data.String.Basic

/-!
The registry of instruments, and the errors it answers with.

A registry is loaded from one JSON object whose members are the instruments.
The loader converts them in the order of the file and stops at the first it
cannot convert, whose exception it passes on, so a file is loaded as a whole
or not at all: `fromFile_eq_ok` and `fromFile_eq_error` say when, in terms
of what converting one member does. What the loaded registry then answers is
a statement about the file alone (`registry_answers_from_file`).
-/

namespace DistributedMarket

open Lib

/-! ### Errors -/

/-- `_HTTP_STATUS`. -/
def ErrorCode.httpStatus : ErrorCode → ℕ
  | .VALIDATION_ERROR => 400
  | .UNKNOWN_SYMBOL => 400
  | .PRICE_OUT_OF_BAND => 400
  | .UNAUTHENTICATED => 401
  | .NOT_ORDER_OWNER => 403
  | .ORDER_NOT_FOUND => 404
  | .DUPLICATE_CLIENT_ORDER_ID => 409
  | .ORDER_NOT_CANCELLABLE => 409
  | .INSUFFICIENT_FUNDS => 422
  | .ENGINE_UNAVAILABLE => 503

instance : StrEnum ErrorCode where
  className := "ErrorCode"
  members := [.VALIDATION_ERROR, .UNKNOWN_SYMBOL, .PRICE_OUT_OF_BAND, .UNAUTHENTICATED,
    .NOT_ORDER_OWNER, .ORDER_NOT_FOUND, .DUPLICATE_CLIENT_ORDER_ID, .ORDER_NOT_CANCELLABLE,
    .INSUFFICIENT_FUNDS, .ENGINE_UNAVAILABLE]
  value
    | .VALIDATION_ERROR => "VALIDATION_ERROR"
    | .UNKNOWN_SYMBOL => "UNKNOWN_SYMBOL"
    | .PRICE_OUT_OF_BAND => "PRICE_OUT_OF_BAND"
    | .UNAUTHENTICATED => "UNAUTHENTICATED"
    | .NOT_ORDER_OWNER => "NOT_ORDER_OWNER"
    | .ORDER_NOT_FOUND => "ORDER_NOT_FOUND"
    | .DUPLICATE_CLIENT_ORDER_ID => "DUPLICATE_CLIENT_ORDER_ID"
    | .ORDER_NOT_CANCELLABLE => "ORDER_NOT_CANCELLABLE"
    | .INSUFFICIENT_FUNDS => "INSUFFICIENT_FUNDS"
    | .ENGINE_UNAVAILABLE => "ENGINE_UNAVAILABLE"
  mem_members a := by cases a <;> simp
  value_injective a b := by cases a <;> cases b <;> simp

namespace MarketError

def httpStatus (self : MarketError) : ℕ := self.code.httpStatus

/-- The shape every non-2xx response carries. `render` is Python's rendering
of the message. -/
def toWire (render : Message → String) (self : MarketError) : Json :=
  .dict [("error", .dict
    ([("code", StrEnum.toJson self.code), ("message", .str (render self.message))] ++
      if self.details.isEmpty then [] else [("details", .dict self.details)]))]

/-- The wire keeps the code, the text and the details, absent details being
empty ones. -/
theorem toWire_eq_iff {render : Message → String} {e e' : MarketError} :
    e.toWire render = e'.toWire render ↔
      e.code = e'.code ∧ render e.message = render e'.message ∧ e.details = e'.details := by
  refine ⟨fun h => ?_, fun ⟨hcode, htext, hdetails⟩ => ?_⟩
  · simp only [toWire, Json.dict.injEq, List.cons.injEq, Prod.mk.injEq, List.cons_append,
      List.nil_append, Json.str.injEq, true_and, and_true] at h
    obtain ⟨hcode, htext, hdetails⟩ := h
    refine ⟨StrEnum.toJson_injective hcode, htext, ?_⟩
    cases hd : e.details with
    | nil =>
        cases hd' : e'.details with
        | nil => rfl
        | cons entry rest => simp [hd, hd'] at hdetails
    | cons entry rest =>
        cases hd' : e'.details with
        | nil => simp [hd, hd'] at hdetails
        | cons entry' rest' => simpa [hd, hd'] using hdetails
  · simp only [toWire, hcode, htext, hdetails]

end MarketError

/-! ### The registry -/

/-- `Instrument.from_dict(symbol, body)` for a body that may be anything:
only an object has members to look up. -/
def Instrument.fromBody (symbol : String) : Json → Except Raised Instrument
  | .dict raw => fromDict symbol raw
  | body => .error (.TypeError body)

/-- What `json.loads` makes of a file: the keys of an object are distinct. -/
structure Document where
  value : Json
  distinct : ∀ entries, value = .dict entries → (entries.map Prod.fst).Nodup

/-- What loading a registry can raise: what converting a member raises, or
an `AttributeError` for a document without items. -/
inductive RegistryError
  | member (err : Raised)
  | AttributeError (document : Json)

/-- Every instrument the venue knows about. -/
structure InstrumentRegistry where
  instruments : List (String × Instrument)
  distinct : (instruments.map Prod.fst).Nodup

namespace InstrumentRegistry

/-- The registry of the file `raw` is read from. -/
def fromFile (raw : Document) : Except RegistryError InstrumentRegistry :=
  match hraw : raw.value with
  | .dict items =>
      match hload : comprehension Instrument.fromBody items with
      | .ok instruments =>
          .ok ⟨instruments, keys_comprehension hload ▸ raw.distinct items hraw⟩
      | .error err => .error (.member err)
  | value => .error (.AttributeError value)

/-- `sorted(self._instruments)`. -/
def known (self : InstrumentRegistry) : List String :=
  (self.instruments.map Prod.fst).mergeSort

/-- The error the API boundary already knows how to send. -/
def unknownSymbol (self : InstrumentRegistry) (symbol : String) : MarketError where
  code := .UNKNOWN_SYMBOL
  message := ["unknown symbol: ", symbol]
  details := [("known", .list (self.known.map .str))]

def get (self : InstrumentRegistry) (symbol : String) : Except MarketError Instrument :=
  match self.instruments.lookup symbol with
  | some inst => .ok inst
  | none => .error (self.unknownSymbol symbol)

def contains (self : InstrumentRegistry) (symbol : String) : Bool :=
  (self.instruments.lookup symbol).isSome

def len (self : InstrumentRegistry) : ℕ := self.instruments.length

/-! ### Loading -/

/-- A member that loads: an object an instrument is made of. -/
def Loads (member : String × Json) (inst : Instrument) : Prop :=
  ∃ body, member.2 = .dict body ∧ inst.LoadedFrom member.1 body

theorem fromBody_eq_ok {member : String × Json} {inst : Instrument} :
    Instrument.fromBody member.1 member.2 = .ok inst ↔ Loads member inst := by
  obtain ⟨symbol, body⟩ := member
  cases body with
  | dict raw => simp [Instrument.fromBody, Loads, Instrument.fromDict_eq_ok]
  | _ => simp [Instrument.fromBody, Loads]

/-- Only an object fails as a load error. -/
theorem fromBody_refused_iff {symbol : String} {body : Json} :
    FailsAsLoadError (Instrument.fromBody symbol body) ↔ ∃ raw, body = .dict raw ∧ Refuses raw := by
  cases body with
  | dict raw => simp [Instrument.fromBody, Instrument.failsAsLoadError_iff]
  | _ => simp [Instrument.fromBody, FailsAsLoadError]

section Loading

variable {raw : Document} {items : List (String × Json)} {registry : InstrumentRegistry}

theorem fromFile_eq_ok_of_dict (hraw : raw.value = .dict items) :
    fromFile raw = .ok registry ↔
      comprehension Instrument.fromBody items = .ok registry.instruments := by
  unfold fromFile
  split
  · rename_i items' hraw'
    obtain rfl : items = items' := Json.dict.inj (hraw.symm.trans hraw')
    split
    · rename_i instruments hload
      refine ⟨fun h => Except.ok.inj h ▸ hload, fun h => ?_⟩
      obtain rfl : instruments = registry.instruments := Except.ok.inj (hload.symm.trans h)
      rfl
    · rename_i err hload
      simp [hload]
  · rename_i hnot
    exact absurd hraw (hnot items)

theorem fromFile_eq_error_of_dict (hraw : raw.value = .dict items) {err : RegistryError} :
    fromFile raw = .error err ↔
      ∃ raised, err = .member raised ∧
        comprehension Instrument.fromBody items = .error raised := by
  unfold fromFile
  split
  · rename_i items' hraw'
    obtain rfl : items = items' := Json.dict.inj (hraw.symm.trans hraw')
    split
    · rename_i instruments hload
      simp [hload]
    · rename_i raised hload
      simp [hload, @eq_comm _ err]
  · rename_i hnot
    exact absurd hraw (hnot items)

theorem fromFile_of_not_dict (hraw : ∀ items, raw.value ≠ .dict items) :
    fromFile raw = .error (.AttributeError raw.value) := by
  unfold fromFile
  split
  · rename_i items hraw'
    exact absurd hraw' (hraw items)
  · rfl

theorem exists_dict_of_ok (h : fromFile raw = .ok registry) : ∃ items, raw.value = .dict items := by
  by_contra hnot
  rw [fromFile_of_not_dict fun items hraw => hnot ⟨items, hraw⟩] at h
  contradiction

/-- **A file is loaded as a whole or not at all**: where it is an object and
an instrument is made of each of its members. It fails as a load error where
the first member of which none is made is an object the loader refuses. -/
theorem fromFile_spec (raw : Document) :
    ((∃ registry, fromFile raw = .ok registry) ↔
        ∃ items, raw.value = .dict items ∧ ∀ member ∈ items, ∃ inst, Loads member inst) ∧
      ((∃ message, fromFile raw = .error (.member (.py (.ValueError message)))) ↔
        ∃ before symbol body after,
          raw.value = .dict (before ++ (symbol, .dict body) :: after) ∧
            (∀ member ∈ before, ∃ inst, Loads member inst) ∧ Refuses body) := by
  by_cases hdict : ∃ items, raw.value = .dict items
  · obtain ⟨items, hraw⟩ := hdict
    refine ⟨?_, ?_⟩
    · simp only [hraw, Json.dict.injEq, exists_eq_left', ← fromBody_eq_ok]
      rw [← comprehension_isOk_iff]
      refine ⟨?_, ?_⟩
      · rintro ⟨registry, hload⟩
        exact ⟨_, (fromFile_eq_ok_of_dict hraw).mp hload⟩
      · rintro ⟨instruments, hload⟩
        exact ⟨⟨instruments, keys_comprehension hload ▸ raw.distinct items hraw⟩,
          (fromFile_eq_ok_of_dict hraw).mpr hload⟩
    · simp only [fromFile_eq_error_of_dict hraw, RegistryError.member.injEq, exists_eq_left',
        comprehension_eq_error, hraw, Json.dict.injEq]
      refine ⟨?_, ?_⟩
      · rintro ⟨message, before, symbol, body, after, hsplit, hbefore, hfails⟩
        obtain ⟨body, rfl, hrefuses⟩ := fromBody_refused_iff.mp ⟨message, hfails⟩
        refine ⟨before, symbol, body, after, hsplit, ?_, hrefuses⟩
        intro member hmember
        obtain ⟨inst, hok⟩ := hbefore member hmember
        exact ⟨inst, fromBody_eq_ok.mp hok⟩
      · rintro ⟨before, symbol, body, after, hsplit, hbefore, hrefuses⟩
        obtain ⟨message, hfails⟩ := (@fromBody_refused_iff symbol).mpr ⟨body, rfl, hrefuses⟩
        refine ⟨message, before, symbol, .dict body, after, hsplit, ?_, hfails⟩
        intro member hmember
        obtain ⟨inst, hinst⟩ := hbefore member hmember
        exact ⟨inst, fromBody_eq_ok.mpr hinst⟩
  · have hnot : ∀ items, raw.value ≠ .dict items := fun items hraw => hdict ⟨items, hraw⟩
    simp [fromFile_of_not_dict hnot, hnot]

end Loading

/-! ### Looking up -/

section Lookup

variable {raw : Document} {items : List (String × Json)} {registry : InstrumentRegistry}
  {symbol : String}

theorem get_eq_ok {inst : Instrument} :
    registry.get symbol = .ok inst ↔ registry.instruments.lookup symbol = some inst := by
  unfold get
  cases registry.instruments.lookup symbol <;> simp

theorem contains_iff : registry.contains symbol ↔ symbol ∈ registry.instruments.map Prod.fst := by
  unfold contains
  rw [← not_iff_not, Bool.not_eq_true, Option.isSome_eq_false_iff, Option.isNone_iff_eq_none,
    List.lookup_eq_none_iff]
  simp only [List.mem_map, not_exists, not_and, bne_iff_ne]
  exact ⟨fun h entry hentry heq => h entry hentry heq.symm,
    fun h entry hentry heq => h entry hentry heq.symm⟩

theorem known_perm (registry : InstrumentRegistry) :
    registry.known.Perm (registry.instruments.map Prod.fst) :=
  List.mergeSort_perm _ _

/-- Sorted, and no symbol twice. -/
theorem known_pairwise (registry : InstrumentRegistry) : registry.known.Pairwise (· < ·) := by
  have hsorted : registry.known.Pairwise (· ≤ ·) := List.pairwise_mergeSort' (· ≤ ·) _
  have hnodup : registry.known.Nodup := (known_perm registry).nodup_iff.mpr registry.distinct
  exact hsorted.imp₂ (fun _ _ hle hne => lt_of_le_of_ne hle hne) hnodup

/-- **The registry answers from the file**: with the instrument of a member,
or with an error of status 400 that lists the symbols of the file in
order. -/
theorem registry_answers_from_file (h : fromFile raw = .ok registry) :
    ∃ items, raw.value = .dict items ∧ registry.len = items.length ∧ ∀ symbol,
      (∀ inst, registry.get symbol = .ok inst ↔
        ∃ body, items.lookup symbol = some (.dict body) ∧ inst.LoadedFrom symbol body) ∧
      (registry.contains symbol ↔ symbol ∈ items.map Prod.fst) ∧
      (symbol ∉ items.map Prod.fst → ∃ err, ∃ names : List String,
        registry.get symbol = .error err ∧
        err.code = .UNKNOWN_SYMBOL ∧ err.httpStatus = 400 ∧
        err.details = [("known", .list (names.map .str))] ∧
        names.Perm (items.map Prod.fst) ∧ names.Pairwise (· < ·)) := by
  obtain ⟨items, hraw⟩ := exists_dict_of_ok h
  have hload := (fromFile_eq_ok_of_dict hraw).mp h
  have hkeys : registry.instruments.map Prod.fst = items.map Prod.fst := keys_comprehension hload
  refine ⟨items, hraw, ?_, fun symbol => ⟨fun inst => ?_, ?_, fun hunknown => ?_⟩⟩
  · have hlength := congrArg List.length hkeys
    rwa [List.length_map, List.length_map] at hlength
  · rw [get_eq_ok, lookup_comprehension hload]
    refine ⟨?_, ?_⟩
    · rintro ⟨value, hlookup, hok⟩
      obtain ⟨body, rfl, hinst⟩ := (@fromBody_eq_ok (symbol, value) inst).mp hok
      exact ⟨body, hlookup, hinst⟩
    · rintro ⟨body, hlookup, hinst⟩
      exact ⟨_, hlookup, (@fromBody_eq_ok (symbol, .dict body) inst).mpr ⟨body, rfl, hinst⟩⟩
  · rw [contains_iff, hkeys]
  · have hnone : registry.instruments.lookup symbol = none := by
      rw [← hkeys, ← contains_iff, contains, Bool.not_eq_true, Option.isSome_eq_false_iff,
        Option.isNone_iff_eq_none] at hunknown
      exact hunknown
    refine ⟨registry.unknownSymbol symbol, registry.known, ?_, rfl, rfl, rfl,
      hkeys ▸ known_perm registry, known_pairwise registry⟩
    rw [get, hnone]

end Lookup

/-- The shipped instrument, and then another with the same limits. -/
def extendedFile : Document where
  value := .dict [("USDCAD", .dict usdcadConfig), ("EURCAD", .dict usdcadConfig)]
  distinct entries h := by
    cases h
    decide

/-- Both are found, and who asks for a third is told of them in order. -/
theorem extended_answers :
    ∃ registry, fromFile extendedFile = .ok registry ∧ registry.get "USDCAD" = .ok usdcad ∧
      ∃ err, registry.get "EURUSD" = .error err ∧ err.httpStatus = 400 ∧
        err.details = [("known", .list [.str "EURCAD", .str "USDCAD"])] := by
  have hload : fromFile extendedFile =
      .ok ⟨[("USDCAD", usdcad), ("EURCAD", { usdcad with symbol := "EURCAD" })], by decide⟩ := rfl
  obtain ⟨items, hitems, -, hanswers⟩ := registry_answers_from_file hload
  obtain rfl : [("USDCAD", Json.dict usdcadConfig), ("EURCAD", .dict usdcadConfig)] = items :=
    Json.dict.inj hitems
  refine ⟨_, hload, ?_, ?_⟩
  · refine ((hanswers "USDCAD").1 usdcad).mpr ⟨usdcadConfig, rfl, ?_⟩
    exact Instrument.fromDict_eq_ok.mp fromDict_usdcadConfig
  · obtain ⟨err, names, herr, -, hstatus, hdetails, hperm, hsorted⟩ :=
      (hanswers "EURUSD").2.2 (by decide)
    have hnames : names = ["EURCAD", "USDCAD"] := by
      refine List.Perm.eq_of_pairwise' (hsorted.imp le_of_lt) (by decide) (hperm.trans ?_)
      exact List.Perm.swap "EURCAD" "USDCAD" []
    exact ⟨err, herr, hstatus, by simp [hdetails, hnames]⟩

end InstrumentRegistry

end DistributedMarket
