import DistributedMarket.SequentialIds
import DistributedMarket.Timestamps
import Mathlib.Data.Fintype.BigOperators
import Mathlib.Data.List.Nodup

/-!
The ids a market mints.

Any number of generators mint ids without asking each other, so what can be
said of them is said of the calls of all of them together, each with what it
read of a clock and of the system's entropy. An id is an order embedding of
what its call read (`Call.id_lt_iff`), hence ids are as different and as
sorted as that is (`ids_embed`). This holds of any clock, but the ten digits
of a negative number of milliseconds are those of its remainder, so clocks
from before 1970 come after all others (`Instant.era`). With clocks of our
time a directory of ids lists accounts, orders and trades, each in the order
of their times up to a millisecond (`listing_chronological`).
-/

namespace DistributedMarket.UlidGenerator

open Lib
open SequentialIds (Kind accountPrefix orderPrefix tradePrefix)

/-- What `make_ulid` reads: the clock, and `secrets.randbits`. -/
structure Instant where
  now : DateTime
  drawn : ℤ
  entropy : Entropy drawn none

def Instant.timestampMs (instant : Instant) : ℤ := Clock.timestampMs instant.now.micros

/-- The epoch first, and then what was before it. -/
def Instant.era (instant : Instant) : ℤ := if instant.timestampMs < 0 then 1 else 0

def orderId (instant : Instant) : String := orderPrefix ++ ulidAt instant.now instant.drawn none

def tradeId (instant : Instant) : String := tradePrefix ++ ulidAt instant.now instant.drawn none

def hexSymbol (digit : Fin 16) : Char := "0123456789abcdef".toList.get digit

/-- `bytes.hex()`, two digits for a byte. -/
def hex (bytes : List (Fin 256)) : List Char :=
  bytes.flatMap fun byte : Fin 256 => Positional.encode hexSymbol 2 (byte : ℕ)

/-- The bytes are those of `os.urandom(4)`. -/
def accountId (bytes : List.Vector (Fin 256) 4) : String :=
  accountPrefix ++ String.ofList (hex bytes.toList)

example : accountId ⟨[0, 255, 16, 10], rfl⟩ = "acct_00ff100a" := by decide

def values (bytes : List (Fin 256)) : List ℤ := bytes.map fun byte : Fin 256 => ((byte : ℕ) : ℤ)

theorem values_cons (byte : Fin 256) (bytes : List (Fin 256)) :
    values (byte :: bytes) = ((byte : ℕ) : ℤ) :: values bytes := rfl

/-- A call of some generator, with what it read. -/
inductive Call
  | orderId (instant : Instant)
  | tradeId (instant : Instant)
  | accountId (bytes : List.Vector (Fin 256) 4)

namespace Call

def id : Call → String
  | .orderId instant => UlidGenerator.orderId instant
  | .tradeId instant => UlidGenerator.tradeId instant
  | .accountId bytes => UlidGenerator.accountId bytes

def kind : Call → Kind
  | .orderId _ => .order
  | .tradeId _ => .trade
  | .accountId _ => .account

/-- The instant of an order or a trade. -/
def instant : Call → Option Instant
  | .orderId instant | .tradeId instant => some instant
  | .accountId _ => none

/-- What an id keeps of what its call read, after a number for its kind. -/
def key : Call → List ℤ
  | .accountId bytes => 0 :: values bytes.toList
  | .orderId instant => [1, instant.era, instant.timestampMs, instant.drawn]
  | .tradeId instant => [2, instant.era, instant.timestampMs, instant.drawn]

end Call

/-! ### Hexadecimal -/

theorem hexSymbol_strictMono : StrictMono hexSymbol := by decide

theorem hex_lt_iff (bytes bytes' : List (Fin 256)) :
    hex bytes < hex bytes' ↔ values bytes < values bytes' := by
  have hrange : ∀ byte : Fin 256, (0 : ℤ) ≤ (byte : ℕ) ∧ ((byte : ℕ) : ℤ) < (16 : ℕ) ^ 2 := by
    omega
  induction bytes generalizing bytes' with
  | nil =>
      cases bytes' with
      | nil => simp [hex, values]
      | cons byte' bytes' => simp [hex, values, Positional.encode]
  | cons byte bytes ih =>
      cases bytes' with
      | nil => simp [hex, values]
      | cons byte' bytes' =>
          rw [hex, hex, List.flatMap_cons, List.flatMap_cons, ← hex, ← hex,
            Positional.append_lt_append_iff (by simp),
            Positional.encode_lt_iff hexSymbol_strictMono (hrange byte) (hrange byte'),
            Positional.encode_inj hexSymbol_strictMono.injective (hrange byte) (hrange byte')]
          simp [values_cons, List.cons_lt_cons_iff, ih]

/-! ### An id keeps the order of what its call read -/

/-- No clock is so far from the epoch that its remainder would meet that of
one from the other side. -/
theorem timestampMs_emod_lt_iff (a b : Instant) :
    a.timestampMs % 32 ^ 10 < b.timestampMs % 32 ^ 10 ↔
      a.era < b.era ∨ a.era = b.era ∧ a.timestampMs < b.timestampMs := by
  have ha : |a.timestampMs| ≤ 2 ^ 38 * 1000 := a.now.abs_timestampMs_le
  have hb : |b.timestampMs| ≤ 2 ^ 38 * 1000 := b.now.abs_timestampMs_le
  rw [abs_le] at ha hb
  unfold Instant.era
  split <;> split <;> omega

theorem timestampMs_emod_inj (a b : Instant) :
    a.timestampMs % 32 ^ 10 = b.timestampMs % 32 ^ 10 ↔
      a.era = b.era ∧ a.timestampMs = b.timestampMs := by
  rw [eq_iff_le_not_lt, ← not_lt, timestampMs_emod_lt_iff, timestampMs_emod_lt_iff]
  omega

theorem toList_ulidAt_lt_iff (a b : Instant) :
    (ulidAt a.now a.drawn none).toList < (ulidAt b.now b.drawn none).toList ↔
      a.era < b.era ∨ a.era = b.era ∧ (a.timestampMs < b.timestampMs ∨
        a.timestampMs = b.timestampMs ∧ a.drawn < b.drawn) := by
  rw [← String.lt_iff_toList_lt, ulidAt_lt_iff_emod a.entropy b.entropy]
  show a.timestampMs % 32 ^ 10 < b.timestampMs % 32 ^ 10 ∨
    a.timestampMs % 32 ^ 10 = b.timestampMs % 32 ^ 10 ∧ a.drawn < b.drawn ↔ _
  rw [timestampMs_emod_lt_iff, timestampMs_emod_inj, and_or_left, or_assoc, and_assoc]

namespace Call

variable {call call' : Call}

/-- The prefixes are told apart by their first letters, and an id of one kind
is its prefix and a notation of fixed width. -/
theorem id_lt_iff (call call' : Call) : call.id < call'.id ↔ call.key < call'.key := by
  rw [String.lt_iff_toList_lt]
  cases call <;> cases call' <;>
    simp [id, key, UlidGenerator.orderId, UlidGenerator.tradeId, UlidGenerator.accountId,
      orderPrefix, tradePrefix, accountPrefix, List.cons_lt_cons_iff, toList_ulidAt_lt_iff,
      hex_lt_iff]

theorem id_le_iff (call call' : Call) : call.id ≤ call'.id ↔ call.key ≤ call'.key := by
  rw [← not_lt, id_lt_iff, not_lt]

theorem id_inj : call.id = call'.id ↔ call.key = call'.key := by
  rw [le_antisymm_iff, id_le_iff, id_le_iff, ← le_antisymm_iff]

/-- What `os.urandom` returned, for an account. -/
def bytes : Call → Option (List.Vector (Fin 256) 4)
  | .accountId bytes => some bytes
  | .orderId _ | .tradeId _ => none

theorem bytes_inj {drawn : List.Vector (Fin 256) 4} (h : drawn ∈ call.bytes)
    (h' : drawn ∈ call'.bytes) : call = call' := by
  cases call <;> cases call' <;> simp_all [bytes]

end Call

/-- There is room for as many accounts as four bytes tell apart. -/
theorem accounts_le {calls : List Call} (h : calls.Nodup) :
    calls.countP (fun call => call.kind = .account) ≤ 2 ^ 32 := by
  have hbytes : (calls.filterMap Call.bytes).Nodup :=
    h.filterMap fun _ _ _ hdrawn hdrawn' => Call.bytes_inj hdrawn hdrawn'
  have hkind : ∀ call : Call, decide (call.kind = .account) = call.bytes.isSome := by
    intro call
    cases call <;> rfl
  calc calls.countP (fun call => call.kind = .account)
      = (calls.filterMap Call.bytes).length := by
        rw [List.length_filterMap_eq_countP]
        simp only [hkind]
    _ ≤ Fintype.card (List.Vector (Fin 256) 4) := hbytes.length_le_card
    _ = 2 ^ 32 := by
        rw [card_vector, Fintype.card_fin]
        decide

/-- **Ids are as different and as sorted as what their calls read**, whoever
made the calls, in whatever order and by whatever clock. So they run out of
accounts at last. -/
theorem ids_embed (calls : List Call) :
    ((calls.map Call.id).Nodup ↔ (calls.map Call.key).Nodup) ∧
      ((calls.map Call.id).Pairwise (· ≤ ·) ↔ (calls.map Call.key).Pairwise (· ≤ ·)) ∧
      ((calls.map Call.id).Nodup → calls.countP (fun call => call.kind = .account) ≤ 2 ^ 32) := by
  simp only [List.Nodup, List.pairwise_map, ne_eq, Call.id_inj, Call.id_le_iff, true_and]
  exact fun h => accounts_le (h.imp fun hkey heq => hkey (congrArg Call.key heq))

/-- What a listing with `call` before `call'` says of the two. -/
structure Listed (call call' : Call) : Prop where
  kinds : call.kind.leading ≤ call'.kind.leading
  times : call.kind = call'.kind → ∀ a ∈ call.instant, ∀ b ∈ call'.instant,
    a.timestampMs ≤ b.timestampMs ∧ a.now.micros ≤ b.now.micros + 1000 ∧
      (Clock.Sharp a.now.micros → Clock.Sharp b.now.micros →
        formatTimestamp a.now ≤ formatTimestamp b.now)

/-- Prefixes are in the order of the numbers that stand for them. -/
theorem leading_le_of_id_le {call call' : Call} (h : call.id ≤ call'.id) :
    call.kind.leading ≤ call'.kind.leading := by
  have hacct : accountPrefix ≤ orderPrefix := by decide
  have hord : orderPrefix ≤ tradePrefix := by decide
  have htrans := hacct.trans hord
  rw [← not_lt, Call.id_lt_iff] at h
  cases call <;> cases call' <;>
    simp_all [Call.key, Call.kind, Kind.leading, List.cons_lt_cons_iff]

/-- The clock of the call, if it read one, was between 1970 and 2242. -/
def Call.Supported (call : Call) : Prop := ∀ a ∈ call.instant, a.now.Supported

theorem era_of_supported {a : Instant} (h : a.now.Supported) : a.era = 0 :=
  if_neg (not_lt.mpr h.timestampMs.1)

theorem timestampMs_le_of_id_le {call call' : Call} {a b : Instant} (h : call.id ≤ call'.id)
    (hkind : call.kind = call'.kind) (ha : a ∈ call.instant) (hb : b ∈ call'.instant)
    (hera : a.era = b.era) : a.timestampMs ≤ b.timestampMs := by
  rw [← not_lt, Call.id_lt_iff] at h
  cases call <;> cases call' <;>
    simp_all [Call.key, Call.kind, Call.instant, List.cons_lt_cons_iff]

theorem listed_of_id_le {call call' : Call} (hcall : call.Supported) (hcall' : call'.Supported)
    (h : call.id ≤ call'.id) : Listed call call' := by
  constructor
  case kinds => exact leading_le_of_id_le h
  case times =>
    intro hkind a ha b hb
    have hera : a.era = b.era := by
      rw [era_of_supported (hcall a ha), era_of_supported (hcall' b hb)]
    have hms := timestampMs_le_of_id_le h hkind ha hb hera
    refine ⟨hms, ?_, fun hsharp hsharp' => ?_⟩
    · by_contra hapart
      exact absurd hms (not_le.mpr (timestampMs_lt (hcall' b hb) (hcall a ha) (not_le.mp hapart)))
    · rw [← not_lt, formatTimestamp_lt, not_lt,
        ← Clock.timestampMs_of_sharp hsharp, ← Clock.timestampMs_of_sharp hsharp']
      exact hms

/-- **A listing of ids is chronological** up to a millisecond, kind by kind,
and as long as clocks are sharp it is in the order of the event times. -/
theorem listing_chronological {calls : List Call} (hcalls : ∀ call ∈ calls, call.Supported)
    (h : (calls.map Call.id).Pairwise (· ≤ ·)) : calls.Pairwise Listed :=
  (List.pairwise_map.mp h).imp_of_mem fun hcall hcall' =>
    listed_of_id_le (hcalls _ hcall) (hcalls _ hcall')

def orderAtStart : Instant := ⟨fixedStart, 9, ⟨by decide, by decide⟩⟩

def orderAtNoon : Instant := ⟨fixedNoon, 3, ⟨by decide, by decide⟩⟩

/-- Two orders and then the trade the first of them made. -/
theorem listing_chronological_at_noon :
    [Call.orderId orderAtStart, .orderId orderAtNoon, .tradeId orderAtStart].Pairwise Listed := by
  have hstart : orderAtStart.now.Supported := ⟨by decide, by decide⟩
  have hnoon : orderAtNoon.now.Supported := ⟨by decide, by decide⟩
  apply listing_chronological
  · simp [Call.Supported, Call.instant, hstart, hnoon]
  have hms : orderAtStart.timestampMs < orderAtNoon.timestampMs :=
    timestampMs_lt hstart hnoon (by decide)
  have hsorted : ∀ call call' : Call, call.key < call'.key → call.id ≤ call'.id :=
    fun call call' h => ((call.id_lt_iff call').mpr h).le
  simp only [List.map_cons, List.map_nil, List.pairwise_cons, List.mem_cons, List.not_mem_nil,
    or_false, forall_eq_or_imp, forall_eq, false_implies, implies_true, and_true,
    List.Pairwise.nil]
  refine ⟨⟨hsorted _ _ ?_, hsorted _ _ ?_⟩, hsorted _ _ ?_⟩ <;>
    simp [Call.key, List.cons_lt_cons_iff, hms, era_of_supported hstart, era_of_supported hnoon]

end DistributedMarket.UlidGenerator
