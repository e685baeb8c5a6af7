import DistributedMarket.OrderJournal

/-!
The event records of the engine.

Six classes share a head, and each writes its own payload into the journal
line. There is no decoder in the program; that a line loses nothing is
`journal_line_determines_event`, which compares lines the way Python
compares dicts.
-/

namespace DistributedMarket

open StrEnum

/-- Where an event sits in the sequence, and when it happened. -/
structure EventHead where
  seq : ℤ
  ts : String
  deriving DecidableEq

structure OrderAccepted extends EventHead where
  order : Order
  deriving DecidableEq

def OrderAccepted.payload (self : OrderAccepted) : Dict :=
  [("order", .dict (orderToDict self.order.toRaw))]

structure OrderRejected extends EventHead where
  orderId : String
  reason : String
  deriving DecidableEq

def OrderRejected.payload (self : OrderRejected) : Dict :=
  [("order_id", .str self.orderId), ("reason", .str self.reason)]

structure TradeFields extends EventHead where
  tradeId : String
  symbol : String
  price : ℤ
  quantity : ℤ
  takerOrderId : String
  makerOrderId : String
  takerAccountId : String
  makerAccountId : String
  takerSide : Side
  deriving DecidableEq

/-- An account trading with itself is what self-trade prevention exists to
stop, and the journal must not record it. -/
def TradeFields.postInit (self : TradeFields) : Except PyErr Unit :=
  if self.takerAccountId = self.makerAccountId then
    .error (.ValueError ["self-trade for account ", (Json.str self.takerAccountId),
      ": self-trade prevention should have cancelled the resting order"])
  else if self.quantity ≤ 0 then
    .error (.ValueError ["trade quantity must be positive, got ", self.quantity])
  else .ok ()

structure Trade extends TradeFields where
  admitted : toTradeFields.postInit = .ok ()
  deriving DecidableEq

def Trade.payload (self : Trade) : Dict :=
  [("trade_id", .str self.tradeId),
    ("symbol", .str self.symbol),
    ("price", .int self.price),
    ("quantity", .int self.quantity),
    ("taker_order_id", .str self.takerOrderId),
    ("maker_order_id", .str self.makerOrderId),
    ("taker_account_id", .str self.takerAccountId),
    ("maker_account_id", .str self.makerAccountId),
    ("taker_side", toJson self.takerSide)]

structure OrderFilled extends EventHead where
  orderId : String
  filledQty : ℤ
  remaining : ℤ
  status : OrderStatus
  deriving DecidableEq

def OrderFilled.payload (self : OrderFilled) : Dict :=
  [("order_id", .str self.orderId),
    ("filled_qty", .int self.filledQty),
    ("remaining", .int self.remaining),
    ("status", toJson self.status)]

structure OrderCancelled extends EventHead where
  orderId : String
  reason : CancelReason
  deriving DecidableEq

def OrderCancelled.payload (self : OrderCancelled) : Dict :=
  [("order_id", .str self.orderId), ("reason", toJson self.reason)]

/-- A price level's new absolute quantity; zero means the level is gone. -/
structure BookDelta extends EventHead where
  side : Side
  price : ℤ
  newQty : ℤ
  deriving DecidableEq

def BookDelta.payload (self : BookDelta) : Dict :=
  [("side", toJson self.side), ("price", .int self.price), ("new_qty", .int self.newQty)]

inductive EventClass
  | OrderAccepted | OrderRejected | Trade | OrderFilled | OrderCancelled | BookDelta
  deriving DecidableEq, Repr

/-- The discriminator written into the journal. -/
def EventClass.type : EventClass → String
  | .OrderAccepted => "OrderAccepted"
  | .OrderRejected => "OrderRejected"
  | .Trade => "Trade"
  | .OrderFilled => "OrderFilled"
  | .OrderCancelled => "OrderCancelled"
  | .BookDelta => "BookDelta"

/-- Every event class, keyed by its discriminator. -/
def eventTypes : List (String × EventClass) :=
  [.OrderAccepted, .OrderRejected, .Trade, .OrderFilled, .OrderCancelled, .BookDelta].map
    fun cls => (EventClass.type cls, cls)

inductive Event
  | OrderAccepted (event : OrderAccepted)
  | OrderRejected (event : OrderRejected)
  | Trade (event : Trade)
  | OrderFilled (event : OrderFilled)
  | OrderCancelled (event : OrderCancelled)
  | BookDelta (event : BookDelta)
  deriving DecidableEq

namespace Event

def eventClass : Event → EventClass
  | .OrderAccepted _ => .OrderAccepted
  | .OrderRejected _ => .OrderRejected
  | .Trade _ => .Trade
  | .OrderFilled _ => .OrderFilled
  | .OrderCancelled _ => .OrderCancelled
  | .BookDelta _ => .BookDelta

def head : Event → EventHead
  | .OrderAccepted event => event.toEventHead
  | .OrderRejected event => event.toEventHead
  | .Trade event => event.toEventHead
  | .OrderFilled event => event.toEventHead
  | .OrderCancelled event => event.toEventHead
  | .BookDelta event => event.toEventHead

def payload : Event → Dict
  | .OrderAccepted event => event.payload
  | .OrderRejected event => event.payload
  | .Trade event => event.payload
  | .OrderFilled event => event.payload
  | .OrderCancelled event => event.payload
  | .BookDelta event => event.payload

/-- The journal line, without the framing the store adds. -/
def toRecord (self : Event) : Dict :=
  [("seq", .int self.head.seq),
    ("ts", .str self.head.ts),
    ("type", .str self.eventClass.type),
    ("payload", .dict self.payload)]

end Event

/-! ### Orders inside a line -/

theorem Json.ofOption_injective : Function.Injective Json.ofOption := by
  intro m n h
  cases m <;> cases n <;> simp_all [Json.ofOption]

theorem Json.ofOption_scalar (n : Option ℤ) : (Json.ofOption n).Scalar := by
  cases n <;> trivial

theorem OrderFields.toRaw_injective : Function.Injective OrderFields.toRaw := by
  intro o o' h
  ext1
  · exact Json.str.inj (congrArg RawOrder.orderId h)
  · exact Json.str.inj (congrArg RawOrder.clientOrderId h)
  · exact Json.str.inj (congrArg RawOrder.accountId h)
  · exact Json.str.inj (congrArg RawOrder.symbol h)
  · exact congrArg RawOrder.side h
  · exact congrArg RawOrder.orderType h
  · exact congrArg RawOrder.timeInForce h
  · exact Json.ofOption_injective (congrArg RawOrder.price h)
  · exact Json.int.inj (congrArg RawOrder.quantity h)
  · exact Json.int.inj (congrArg RawOrder.filledQuantity h)
  · exact congrArg RawOrder.status h
  · exact Json.int.inj (congrArg RawOrder.createdSeq h)
  · exact Json.str.inj (congrArg RawOrder.createdAt h)
  · exact congrArg RawOrder.cancelReason h
  · exact Json.ofOption_injective (congrArg RawOrder.reservedCad h)

/-- Two orders with one line are one order: the line is read back as both. -/
theorem order_eq_of_orderToDict_eq {o o' : Order}
    (h : orderToDict o.toRaw = orderToDict o'.toRaw) : o = o' := by
  have ho : orderFromDict (orderToDict o.toRaw) = .ok o.toRaw :=
    orderFromDict_eq_ok.mpr (decoded_toRaw o)
  rw [h, orderFromDict_eq_ok.mpr (decoded_toRaw o'), Except.ok.injEq] at ho
  exact Order.toOrderFields_injective (OrderFields.toRaw_injective ho.symm)

theorem orderToDict_scalar (o : Order) : ∀ entry ∈ orderToDict o.toRaw, entry.2.Scalar := by
  have hreason : (reasonToJson o.toRaw.cancelReason).Scalar := (reasonToJson_admits _).scalar
  have hprice : o.toRaw.price.Scalar := Json.ofOption_scalar _
  have hreserved : o.toRaw.reservedCad.Scalar := Json.ofOption_scalar _
  simp only [orderToDict, List.forall_mem_cons, hreason, hprice, hreserved, true_and]
  simp [Json.Scalar, OrderFields.toRaw, toJson]

theorem orderToDict_keys_nodup (r : RawOrder) : ((orderToDict r).map Prod.fst).Nodup := by
  rw [orderToDict_keys]
  decide

/-! ### The line determines the event -/

namespace Event

theorem type_injective : Function.Injective EventClass.type := by
  intro c c' h
  cases c <;> cases c' <;> first | rfl | exact absurd h (by decide)

theorem eq_accepted {e : Event} (h : e.eventClass = .OrderAccepted) :
    ∃ event, e = .OrderAccepted event := by
  cases e with
  | OrderAccepted event => exact ⟨event, rfl⟩
  | _ => contradiction

/-- Only the payload of an accepted order holds more than scalars. -/
theorem payload_scalar {e : Event} (h : e.eventClass ≠ .OrderAccepted) :
    ∀ entry ∈ e.payload, entry.2.Scalar := by
  cases e with
  | OrderAccepted event => exact absurd rfl h
  | OrderRejected event => simp [payload, OrderRejected.payload, Json.Scalar]
  | Trade event => simp [payload, Trade.payload, Json.Scalar, toJson]
  | OrderFilled event => simp [payload, OrderFilled.payload, Json.Scalar, toJson]
  | OrderCancelled event => simp [payload, OrderCancelled.payload, Json.Scalar, toJson]
  | BookDelta event => simp [payload, BookDelta.payload, Json.Scalar, toJson]

theorem payload_keys_nodup (e : Event) : (e.payload.map Prod.fst).Nodup := by
  cases e <;> simp [payload, OrderAccepted.payload, OrderRejected.payload, Trade.payload,
    OrderFilled.payload, OrderCancelled.payload, BookDelta.payload]

theorem payload_keys_eq {e e' : Event} (h : e.eventClass = e'.eventClass) :
    e.payload.map Prod.fst = e'.payload.map Prod.fst := by
  cases e <;> cases e' <;> first | rfl | contradiction

/-- Equal payloads of one class are the same payload. -/
theorem payload_eq_of_equal {e e' : Event} (hclass : e.eventClass = e'.eventClass)
    (h : Json.Equal (.dict e.payload) (.dict e'.payload)) : e.payload = e'.payload := by
  by_cases haccepted : e.eventClass = .OrderAccepted
  · obtain ⟨a, rfl⟩ := eq_accepted haccepted
    obtain ⟨b, rfl⟩ := eq_accepted (hclass.symm.trans haccepted)
    have horder : Json.Equal (.dict (orderToDict a.order.toRaw))
        (.dict (orderToDict b.order.toRaw)) := h.of_lookup "order" rfl rfl
    have hdict : orderToDict a.order.toRaw = orderToDict b.order.toRaw :=
      Dict.eq_of_equal rfl (orderToDict_keys_nodup _) (orderToDict_scalar a.order)
        (orderToDict_scalar b.order) horder
    simp only [payload, OrderAccepted.payload, hdict]
  · exact Dict.eq_of_equal (payload_keys_eq hclass) (payload_keys_nodup e)
      (payload_scalar haccepted) (payload_scalar (hclass ▸ haccepted)) h

/-- The class, the head and the payload hold every field of an event. -/
theorem eq_of_payload_eq {e e' : Event} (hclass : e.eventClass = e'.eventClass)
    (hhead : e.head = e'.head) (h : e.payload = e'.payload) : e = e' := by
  cases e with
  | OrderAccepted a =>
      cases e' with
      | OrderAccepted b =>
          obtain ⟨_, order⟩ := a
          obtain ⟨_, order'⟩ := b
          cases hhead
          simp only [payload, OrderAccepted.payload, List.cons.injEq, Prod.mk.injEq, true_and,
            and_true, Json.dict.injEq] at h
          rw [order_eq_of_orderToDict_eq h]
      | _ => contradiction
  | OrderRejected a =>
      cases e' with
      | OrderRejected b =>
          obtain ⟨_, _, _⟩ := a
          obtain ⟨_, _, _⟩ := b
          cases hhead
          simp_all [payload, OrderRejected.payload]
      | _ => contradiction
  | Trade a =>
      cases e' with
      | Trade b =>
          obtain ⟨⟨_, _, _, _, _, _, _, _, _, _⟩, _⟩ := a
          obtain ⟨⟨_, _, _, _, _, _, _, _, _, _⟩, _⟩ := b
          cases hhead
          simp_all [payload, Trade.payload, toJson_injective.eq_iff]
      | _ => contradiction
  | OrderFilled a =>
      cases e' with
      | OrderFilled b =>
          obtain ⟨_, _, _, _, _⟩ := a
          obtain ⟨_, _, _, _, _⟩ := b
          cases hhead
          simp_all [payload, OrderFilled.payload, toJson_injective.eq_iff]
      | _ => contradiction
  | OrderCancelled a =>
      cases e' with
      | OrderCancelled b =>
          obtain ⟨_, _, _⟩ := a
          obtain ⟨_, _, _⟩ := b
          cases hhead
          simp_all [payload, OrderCancelled.payload, toJson_injective.eq_iff]
      | _ => contradiction
  | BookDelta a =>
      cases e' with
      | BookDelta b =>
          obtain ⟨_, _, _, _⟩ := a
          obtain ⟨_, _, _, _⟩ := b
          cases hhead
          simp_all [payload, BookDelta.payload, toJson_injective.eq_iff]
      | _ => contradiction

theorem eq_of_equal_toRecord {e e' : Event}
    (h : Json.Equal (.dict e.toRecord) (.dict e'.toRecord)) : e = e' := by
  have hseq : e.head.seq = e'.head.seq := (h.of_lookup "seq" rfl rfl).int_inj
  have hts : e.head.ts = e'.head.ts := (h.of_lookup "ts" rfl rfl).str_inj
  have htype : e.eventClass.type = e'.eventClass.type :=
    (h.of_lookup "type" rfl rfl).str_inj
  have hclass : e.eventClass = e'.eventClass := type_injective htype
  have hpayload : Json.Equal (.dict e.payload) (.dict e'.payload) :=
    h.of_lookup "payload" rfl rfl
  have hhead : e.head = e'.head := by
    cases hh : e.head
    cases hh' : e'.head
    simp_all
  exact eq_of_payload_eq hclass hhead (payload_eq_of_equal hclass hpayload)

theorem payload_plain (e : Event) : ∀ entry ∈ e.payload, entry.2.Plain := by
  intro entry hmem
  by_cases haccepted : e.eventClass = .OrderAccepted
  · obtain ⟨event, rfl⟩ := eq_accepted haccepted
    simp only [payload, OrderAccepted.payload, List.mem_singleton] at hmem
    rw [hmem]
    apply Json.Plain.dict (orderToDict_keys_nodup _)
    intro field hfield
    exact .of_scalar (orderToDict_scalar event.order field hfield)
  · exact .of_scalar (payload_scalar haccepted entry hmem)

theorem toRecord_plain (e : Event) : (Json.dict e.toRecord).Plain := by
  apply Json.Plain.dict
  · simp [toRecord]
  · simp only [toRecord, List.forall_mem_cons, List.not_mem_nil, false_imp_iff, implies_true,
      and_true]
    exact ⟨.int _, .str _, .str _, .dict (payload_keys_nodup e) (payload_plain e)⟩

/-- **A journal line determines its event.** Lines that compare equal belong
to one event of one class; every line is made of objects, integers, strings
and nulls, so that a dump and load return it; and its type names the class
of the event. -/
theorem journal_line_determines_event :
    (∀ e e' : Event, Json.Equal (.dict e.toRecord) (.dict e'.toRecord) →
        e.eventClass = e'.eventClass ∧ e = e') ∧
      ∀ e : Event, (Json.dict e.toRecord).Plain ∧
        (∀ reload, Json.Reloads reload → reload (.dict e.toRecord) = .dict e.toRecord) ∧
        ∃ type, e.toRecord.lookup "type" = some (.str type) ∧
          eventTypes.lookup type = some e.eventClass := by
  refine ⟨?_, ?_⟩
  · intro e e' h
    have heq := eq_of_equal_toRecord h
    exact ⟨congrArg eventClass heq, heq⟩
  · intro e
    refine ⟨e.toRecord_plain, ?_, e.eventClass.type, rfl, ?_⟩
    · intro reload hreload
      exact e.toRecord_plain.reload hreload
    · cases e <;> rfl

/-- A price level that is gone. -/
def levelGone : Event := .BookDelta ⟨⟨5, "2026-01-01T00:00:00.000+00:00"⟩, .BUY, 137500, 0⟩

theorem journal_line_determines_levelGone :
    (levelGone.eventClass = levelGone.eventClass ∧ levelGone = levelGone) ∧
      id (Json.dict levelGone.toRecord) = .dict levelGone.toRecord := by
  have hreloads : Json.Reloads id := by
    constructor
    · rfl
    · intro n
      rfl
    · intro s
      rfl
    · intro d _
      simp
  exact ⟨journal_line_determines_event.1 levelGone levelGone levelGone.toRecord_plain.equal_refl,
    (journal_line_determines_event.2 levelGone).2.1 id hreloads⟩

end Event

end DistributedMarket
