import DistributedMarket.Enums

/-!
The order record and the four operations on it.

An order is immutable and every operation builds a new one through the
constructor, whose checks run again each time. `OrderFields` are the fields
as they are passed to the constructor, `Order` the fields the constructor
admits, and each operation is the function of the source. What a caller
needs of them is collected once, in `apply_of_guard` and
`apply_of_not_guard`: which guard lets an operation through, and which
fields it then writes.
-/

namespace DistributedMarket

/-- The fields of an order. Prices are in ticks, quantities in USD cents
and the reservation in CAD cents. -/
@[ext]
structure OrderFields where
  orderId : String
  clientOrderId : String
  accountId : String
  symbol : String
  side : Side
  orderType : OrderType
  timeInForce : TimeInForce
  price : Option ℤ
  quantity : ℤ
  filledQuantity : ℤ
  status : OrderStatus
  createdSeq : ℤ
  createdAt : String
  cancelReason : Option CancelReason := none
  reservedCad : Option ℤ := none
  deriving DecidableEq, Repr

namespace OrderFields

/-- The checks of the constructor, in its order. -/
def postInit (self : OrderFields) : Except PyErr Unit :=
  if self.orderType = .MARKET ∧ self.price ≠ none then
    .error (.ValueError ["a market order must not carry a price"])
  else if self.orderType = .LIMIT ∧ self.price = none then
    .error (.ValueError ["a limit order must carry a price"])
  else if self.orderType = .MARKET ∧ self.timeInForce ≠ .IOC then
    .error (.ValueError ["a market order is always IOC and can never rest"])
  else if self.quantity ≤ 0 then
    .error (.ValueError ["quantity must be positive, got ", self.quantity])
  else if ¬ (0 ≤ self.filledQuantity ∧ self.filledQuantity ≤ self.quantity) then
    .error (.ValueError ["filled_quantity must be within [0, ", self.quantity, "], got ",
      self.filledQuantity])
  else .ok ()

/-- What the constructor asks of the fields. -/
structure Admitted (o : OrderFields) : Prop where
  market_price : o.orderType = .MARKET → o.price = none
  limit_price : o.orderType = .LIMIT → o.price ≠ none
  market_ioc : o.orderType = .MARKET → o.timeInForce = .IOC
  quantity_pos : 0 < o.quantity
  filled_nonneg : 0 ≤ o.filledQuantity
  filled_le : o.filledQuantity ≤ o.quantity

theorem postInit_eq_ok {o : OrderFields} : o.postInit = .ok () ↔ o.Admitted := by
  refine ⟨?_, ?_⟩
  · intro h
    simp only [postInit] at h
    split_ifs at h with hprice hlimit hioc hquantity hfilled
    constructor <;> grind
  · intro h
    simp only [postInit]
    rw [if_neg fun hp => hp.2 (h.market_price hp.1), if_neg fun hp => h.limit_price hp.1 hp.2,
      if_neg fun hp => hp.2 (h.market_ioc hp.1), if_neg (not_le.mpr h.quantity_pos),
      if_neg (not_not.mpr ⟨h.filled_nonneg, h.filled_le⟩)]

/-- The twelve fields no operation writes. -/
structure SameTicket (o o' : OrderFields) : Prop where
  orderId : o'.orderId = o.orderId
  clientOrderId : o'.clientOrderId = o.clientOrderId
  accountId : o'.accountId = o.accountId
  symbol : o'.symbol = o.symbol
  side : o'.side = o.side
  orderType : o'.orderType = o.orderType
  timeInForce : o'.timeInForce = o.timeInForce
  price : o'.price = o.price
  quantity : o'.quantity = o.quantity
  createdSeq : o'.createdSeq = o.createdSeq
  createdAt : o'.createdAt = o.createdAt
  reservedCad : o'.reservedCad = o.reservedCad

theorem SameTicket.refl (o : OrderFields) : o.SameTicket o := by
  constructor <;> rfl

theorem SameTicket.trans {o o' o'' : OrderFields} (h : o.SameTicket o') (h' : o'.SameTicket o'') :
    o.SameTicket o'' := by
  constructor
  · exact h'.orderId.trans h.orderId
  · exact h'.clientOrderId.trans h.clientOrderId
  · exact h'.accountId.trans h.accountId
  · exact h'.symbol.trans h.symbol
  · exact h'.side.trans h.side
  · exact h'.orderType.trans h.orderType
  · exact h'.timeInForce.trans h.timeInForce
  · exact h'.price.trans h.price
  · exact h'.quantity.trans h.quantity
  · exact h'.createdSeq.trans h.createdSeq
  · exact h'.createdAt.trans h.createdAt
  · exact h'.reservedCad.trans h.reservedCad

/-- Of the fields an operation writes, the constructor only looks at the
filled quantity. -/
theorem Admitted.of_sameTicket {o o' : OrderFields} (h : o.Admitted) (hsame : o.SameTicket o')
    (hnonneg : 0 ≤ o'.filledQuantity) (hle : o'.filledQuantity ≤ o'.quantity) : o'.Admitted where
  market_price := by rw [hsame.orderType, hsame.price]; exact h.market_price
  limit_price := by rw [hsame.orderType, hsame.price]; exact h.limit_price
  market_ioc := by rw [hsame.orderType, hsame.timeInForce]; exact h.market_ioc
  quantity_pos := by rw [hsame.quantity]; exact h.quantity_pos
  filled_nonneg := hnonneg
  filled_le := hle

end OrderFields

/-- One order, at one point in its life: fields the constructor admits. -/
structure Order extends OrderFields where
  admitted : toOrderFields.postInit = .ok ()
  deriving DecidableEq

namespace Order

theorem toOrderFields_injective : Function.Injective Order.toOrderFields := by
  rintro ⟨o, ho⟩ ⟨o', ho'⟩ h
  cases h
  rfl

theorem checked (o : Order) : o.toOrderFields.Admitted :=
  OrderFields.postInit_eq_ok.mp o.admitted

/-- `Order(...)`, and `replace(order, ...)` for fields taken from it. -/
def new (fields : OrderFields) : Except PyErr Order :=
  match h : fields.postInit with
  | .ok () => .ok ⟨fields, h⟩
  | .error err => .error err

theorem new_of_admitted {fields : OrderFields} (h : fields.postInit = .ok ()) :
    new fields = .ok ⟨fields, h⟩ := by
  unfold new
  split
  · rfl
  · next err herr =>
      rw [h] at herr
      contradiction

/-! ### The operations -/

def remaining (self : Order) : ℤ := self.quantity - self.filledQuantity

/-- Only a GTC limit order can leave a remainder resting. -/
def restsOnTheBook (self : Order) : Bool :=
  self.orderType = .LIMIT ∧ self.timeInForce = .GTC

/-- Apply a fill, returning the order at its new status. -/
def fill (self : Order) (quantity : ℤ) : Except PyErr Order :=
  if quantity ≤ 0 then
    .error (.ValueError ["fill quantity must be positive, got ", quantity])
  else if quantity > self.remaining then
    .error (.ValueError ["fill of ", quantity, " exceeds remaining ", self.remaining])
  else
    let filled := self.filledQuantity + quantity
    let status := if filled = self.quantity then .FILLED else .PARTIAL
    new { self.toOrderFields with filledQuantity := filled, status := status }

/-- Terminate the order, keeping whatever it had already filled. -/
def cancel (self : Order) (reason : CancelReason) : Except PyErr Order :=
  if self.status.isTerminal then
    .error (.ValueError ["cannot cancel an order in terminal status ",
      StrEnum.toJson self.status])
  else new { self.toOrderFields with status := .CANCELLED, cancelReason := some reason }

def reject (self : Order) : Except PyErr Order :=
  if self.status.isTerminal then
    .error (.ValueError ["cannot reject an order in terminal status ",
      StrEnum.toJson self.status])
  else new { self.toOrderFields with status := .REJECTED }

/-- Mark a remainder as resting, `OPEN` if untouched and `PARTIAL` if it
already traded. -/
def openOnBook (self : Order) : Except PyErr Order :=
  if !self.restsOnTheBook then
    .error (.ValueError [StrEnum.toJson self.orderType, "/", StrEnum.toJson self.timeInForce,
      " orders never rest"])
  else
    let status := if self.filledQuantity ≠ 0 then .PARTIAL else .OPEN
    new { self.toOrderFields with status := status }

/-- Would this order trade against a resting order at `makerPrice`? A market
order has no price bound; a limit order takes its price or better. -/
def crosses (self : Order) (makerPrice : ℤ) : Bool :=
  match self.price with
  | none => true
  | some price => if self.side = .BUY then makerPrice ≤ price else makerPrice ≥ price

/-- A call of one of the four operations, with its argument. -/
inductive Op
  | fill (quantity : ℤ)
  | cancel (reason : CancelReason)
  | reject
  | openOnBook
  deriving DecidableEq, Repr

def apply (self : Order) : Op → Except PyErr Order
  | .fill quantity => self.fill quantity
  | .cancel reason => self.cancel reason
  | .reject => self.reject
  | .openOnBook => self.openOnBook

/-- One step of an order's life: a call that does not raise. -/
def step (self : Order) (op : Op) : Option Order := (self.apply op).toOption

/-! ### What the operations do -/

/-- The checks an operation makes itself, before the constructor's. -/
def Guard (o : Order) : Op → Prop
  | .fill quantity => 0 < quantity ∧ quantity ≤ o.remaining
  | .cancel _ | .reject => o.status.isTerminal = false
  | .openOnBook => o.restsOnTheBook = true

instance (o : Order) (op : Op) : Decidable (o.Guard op) := by
  cases op <;> unfold Guard <;> infer_instance

/-- The fields an operation hands to the constructor. -/
def after (o : Order) : Op → OrderFields
  | .fill quantity =>
      { o.toOrderFields with
        filledQuantity := o.filledQuantity + quantity
        status := if o.filledQuantity + quantity = o.quantity then .FILLED else .PARTIAL }
  | .cancel reason =>
      { o.toOrderFields with status := .CANCELLED, cancelReason := some reason }
  | .reject => { o.toOrderFields with status := .REJECTED }
  | .openOnBook =>
      { o.toOrderFields with status := if o.filledQuantity ≠ 0 then .PARTIAL else .OPEN }

theorem after_sameTicket (o : Order) (op : Op) : o.toOrderFields.SameTicket (o.after op) := by
  cases op <;> constructor <;> rfl

/-- The constructor has nothing to object to once the guard has passed. -/
theorem after_admitted {o : Order} {op : Op} (h : o.Guard op) : (o.after op).postInit = .ok () := by
  rw [OrderFields.postInit_eq_ok]
  have hnonneg := o.checked.filled_nonneg
  have hle := o.checked.filled_le
  apply o.checked.of_sameTicket (after_sameTicket o op)
  · cases op with
    | fill quantity =>
        have hpos : 0 < quantity := h.1
        simp only [after]
        omega
    | _ => exact hnonneg
  · cases op with
    | fill quantity =>
        have hfits : quantity ≤ o.quantity - o.filledQuantity := h.2
        simp only [after]
        omega
    | _ => exact hle

theorem apply_eq_new {o : Order} {op : Op} (h : o.Guard op) : o.apply op = new (o.after op) := by
  cases op with
  | fill quantity =>
      simp only [apply, fill, not_le.mpr h.1, not_lt.mpr h.2, if_false, after]
  | cancel reason =>
      have hopen : o.status.isTerminal = false := h
      simp [apply, cancel, hopen, after]
  | reject =>
      have hopen : o.status.isTerminal = false := h
      simp [apply, reject, hopen, after]
  | openOnBook =>
      have hrests : o.restsOnTheBook = true := h
      simp [apply, openOnBook, hrests, after]

theorem apply_of_guard {o : Order} {op : Op} (h : o.Guard op) :
    o.apply op = .ok ⟨o.after op, after_admitted h⟩ := by
  rw [apply_eq_new h, new_of_admitted (after_admitted h)]

theorem apply_of_not_guard {o : Order} {op : Op} (h : ¬ o.Guard op) :
    RaisesValueError (o.apply op) := by
  cases op with
  | fill quantity =>
      simp only [apply, fill]
      split
      · exact ⟨_, rfl⟩
      · next hpos =>
          have hexceeds : quantity > o.remaining := by
            by_contra hfits
            exact h ⟨not_le.mp hpos, not_lt.mp hfits⟩
          rw [if_pos hexceeds]
          exact ⟨_, rfl⟩
  | cancel reason =>
      have hterminal : o.status.isTerminal = true := by simpa [Guard] using h
      simp [apply, cancel, hterminal, RaisesValueError]
  | reject =>
      have hterminal : o.status.isTerminal = true := by simpa [Guard] using h
      simp [apply, reject, hterminal, RaisesValueError]
  | openOnBook =>
      have hrests : o.restsOnTheBook = false := by simpa [Guard] using h
      simp [apply, openOnBook, hrests, RaisesValueError]

theorem raises_iff (o : Order) (op : Op) : RaisesValueError (o.apply op) ↔ ¬ o.Guard op := by
  refine ⟨?_, ?_⟩
  · rintro ⟨message, hraise⟩ hguard
    rw [apply_of_guard hguard] at hraise
    contradiction
  · exact apply_of_not_guard

/-- A step is a guard that holds and the fields it leads to. -/
theorem step_eq_some {o o' : Order} {op : Op} :
    o.step op = some o' ↔ o.Guard op ∧ o'.toOrderFields = o.after op := by
  refine ⟨?_, ?_⟩
  · intro h
    by_cases hguard : o.Guard op
    · simp only [step, apply_of_guard hguard, Except.toOption, Option.some.injEq] at h
      exact ⟨hguard, h ▸ rfl⟩
    · obtain ⟨message, hraise⟩ := apply_of_not_guard hguard
      simp [step, hraise, Except.toOption] at h
  · rintro ⟨hguard, hfields⟩
    simp only [step, apply_of_guard hguard, Except.toOption, Option.some.injEq]
    exact toOrderFields_injective hfields.symm

theorem step_sameTicket {o o' : Order} {op : Op} (h : o.step op = some o') :
    o.toOrderFields.SameTicket o'.toOrderFields := by
  rw [(step_eq_some.mp h).2]
  exact after_sameTicket o op

/-- A resting limit order, as the gateway makes it. -/
def gtcLimit : Order where
  orderId := "ord_1"
  clientOrderId := "cli-1"
  accountId := "acct_0001"
  symbol := "USDCAD"
  side := .BUY
  orderType := .LIMIT
  timeInForce := .GTC
  price := some 137500
  quantity := 100000
  filledQuantity := 0
  status := .PENDING
  createdSeq := 1
  createdAt := "2026-01-01T00:00:00.000+00:00"
  admitted := rfl

/-- The same order at the market. -/
def marketBuy : Order where
  toOrderFields :=
    { gtcLimit.toOrderFields with orderType := .MARKET, timeInForce := .IOC, price := none }
  admitted := rfl

end Order

end DistributedMarket
