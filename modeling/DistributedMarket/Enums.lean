import DistributedMarket.Json
import Mathlib.Data.List.Basic

/-!
The closed vocabularies every service shares.

All five are `StrEnum`s: each member is a string, its value, and calling
the class on a value looks the member up. The class is one definition; the
members keep the capitals of their values.
-/

namespace DistributedMarket

/-- An enumeration whose members are distinguished by a string value. -/
class StrEnum (α : Type) where
  className : String
  members : List α
  value : α → String
  mem_members : ∀ a, a ∈ members
  value_injective : Function.Injective value

namespace StrEnum

variable {α : Type} [StrEnum α]

/-- `Side(raw)` and its like: the member whose value is `raw`. Anything
else, of any type, is a `ValueError`. -/
def ofValue (α : Type) [StrEnum α] (raw : Json) : Except PyErr α :=
  let member? := match raw with
    | .str s => (members (α := α)).find? fun a => value a == s
    | _ => none
  match member? with
  | some a => .ok a
  | none => .error (.ValueError [.quoted raw, " is not a valid ", className α])

/-- `str(member)`, as the journal stores it. -/
def toJson (a : α) : Json := .str (value a)

theorem find?_value (a : α) : (members (α := α)).find? (fun b => value b == value a) = some a := by
  cases hfind : (members (α := α)).find? (fun b => value b == value a) with
  | none =>
      have hnone := List.find?_eq_none.mp hfind a (mem_members a)
      simp at hnone
  | some b =>
      have hb := List.find?_some hfind
      rw [beq_iff_eq] at hb
      rw [value_injective hb]

/-- A member is found again by its value. -/
@[simp] theorem ofValue_toJson (a : α) : ofValue α (toJson a) = .ok a := by
  simp [ofValue, toJson, find?_value]

/-- Nothing but its value gives a member. -/
theorem ofValue_eq_ok {raw : Json} {a : α} (h : ofValue α raw = .ok a) : raw = toJson a := by
  unfold ofValue at h
  cases raw with
  | str s =>
      dsimp only at h
      cases hfind : (members (α := α)).find? (fun b => value b == s) with
      | none => simp [hfind] at h
      | some b =>
          have hb := List.find?_some hfind
          simp only [hfind, Except.ok.injEq] at h
          rw [beq_iff_eq] at hb
          rw [← hb, ← h, toJson]
  | _ => simp at h

theorem ofValue_eq_ok_iff {raw : Json} {a : α} : ofValue α raw = .ok a ↔ raw = toJson a := by
  refine ⟨?_, ?_⟩
  · exact ofValue_eq_ok
  · rintro rfl
    exact ofValue_toJson a

theorem toJson_injective : Function.Injective (toJson (α := α)) := by
  intro a b h
  exact value_injective (Json.str.inj h)

end StrEnum

inductive Side | BUY | SELL
  deriving DecidableEq, Repr

inductive OrderType | LIMIT | MARKET
  deriving DecidableEq, Repr

inductive TimeInForce | GTC | IOC
  deriving DecidableEq, Repr

/-- `PENDING` is accepted by the gateway and not yet sequenced, `OPEN` and
`PARTIAL` rest on the book, and the other three are terminal. -/
inductive OrderStatus | PENDING | OPEN | PARTIAL | FILLED | CANCELLED | REJECTED
  deriving DecidableEq, Repr

inductive CancelReason
  | USER | IOC_REMAINDER | NOTIONAL_CAP_REACHED | SELF_TRADE_PREVENTION | ADMIN
  deriving DecidableEq, Repr

def OrderStatus.isTerminal : OrderStatus → Bool
  | .FILLED | .CANCELLED | .REJECTED => true
  | _ => false

/-- True while the order occupies a place in the book. -/
def OrderStatus.isResting : OrderStatus → Bool
  | .OPEN | .PARTIAL => true
  | _ => false

instance : StrEnum Side where
  className := "Side"
  members := [.BUY, .SELL]
  value
    | .BUY => "BUY"
    | .SELL => "SELL"
  mem_members a := by cases a <;> simp
  value_injective a b := by cases a <;> cases b <;> simp

instance : StrEnum OrderType where
  className := "OrderType"
  members := [.LIMIT, .MARKET]
  value
    | .LIMIT => "LIMIT"
    | .MARKET => "MARKET"
  mem_members a := by cases a <;> simp
  value_injective a b := by cases a <;> cases b <;> simp

instance : StrEnum TimeInForce where
  className := "TimeInForce"
  members := [.GTC, .IOC]
  value
    | .GTC => "GTC"
    | .IOC => "IOC"
  mem_members a := by cases a <;> simp
  value_injective a b := by cases a <;> cases b <;> simp

instance : StrEnum OrderStatus where
  className := "OrderStatus"
  members := [.PENDING, .OPEN, .PARTIAL, .FILLED, .CANCELLED, .REJECTED]
  value
    | .PENDING => "PENDING"
    | .OPEN => "OPEN"
    | .PARTIAL => "PARTIAL"
    | .FILLED => "FILLED"
    | .CANCELLED => "CANCELLED"
    | .REJECTED => "REJECTED"
  mem_members a := by cases a <;> simp
  value_injective a b := by cases a <;> cases b <;> simp

instance : StrEnum CancelReason where
  className := "CancelReason"
  members := [.USER, .IOC_REMAINDER, .NOTIONAL_CAP_REACHED, .SELF_TRADE_PREVENTION, .ADMIN]
  value
    | .USER => "USER"
    | .IOC_REMAINDER => "IOC_REMAINDER"
    | .NOTIONAL_CAP_REACHED => "NOTIONAL_CAP_REACHED"
    | .SELF_TRADE_PREVENTION => "SELF_TRADE_PREVENTION"
    | .ADMIN => "ADMIN"
  mem_members a := by cases a <;> simp
  value_injective a b := by cases a <;> cases b <;> simp

end DistributedMarket
