import DistributedMarket.Orders

/-!
Orders in the journal.

`orderToDict` writes an order and `orderFromDict` reads one back. The reader
takes the fields as it finds them: only the enumerations are checked, and
then whatever the constructor's comparisons make of the other values. What
it returns is therefore a `RawOrder`, and an `Order` is the raw order whose
fields have their types. `orderFromDict_eq_ok` says when the reader
succeeds; both directions of the round trip are read off it.
-/

namespace DistributedMarket

open StrEnum

/-- An order built from a journal line, whose fields may hold anything. -/
@[ext]
structure RawOrder where
  orderId : Json
  clientOrderId : Json
  accountId : Json
  symbol : Json
  side : Side
  orderType : OrderType
  timeInForce : TimeInForce
  price : Json
  quantity : Json
  filledQuantity : Json
  status : OrderStatus
  createdSeq : Json
  createdAt : Json
  cancelReason : Option CancelReason
  reservedCad : Json

/-- `0 <= filled_quantity <= quantity`. -/
def Json.within (filledQuantity quantity : Json) : Except PyErr Bool := do
  if ← Json.le (.int 0) filledQuantity then Json.le filledQuantity quantity
  else pure false

/-- The checks of the constructor on values of any type. -/
def RawOrder.postInit (self : RawOrder) : Except PyErr Unit :=
  if self.orderType = .MARKET ∧ !self.price.isNone then
    .error (.ValueError ["a market order must not carry a price"])
  else if self.orderType = .LIMIT ∧ self.price.isNone then
    .error (.ValueError ["a limit order must carry a price"])
  else if self.orderType = .MARKET ∧ self.timeInForce ≠ .IOC then
    .error (.ValueError ["a market order is always IOC and can never rest"])
  else do
    if ← Json.le self.quantity (.int 0) then
      .error (.ValueError ["quantity must be positive, got ", self.quantity])
    else if !(← Json.within self.filledQuantity self.quantity) then
      .error (.ValueError ["filled_quantity must be within [0, ", self.quantity, "], got ",
        self.filledQuantity])
    else .ok ()

def RawOrder.new (fields : RawOrder) : Except PyErr RawOrder := do
  fields.postInit
  pure fields

def Json.ofOption : Option ℤ → Json
  | some n => .int n
  | none => .null

def OrderFields.toRaw (o : OrderFields) : RawOrder where
  orderId := .str o.orderId
  clientOrderId := .str o.clientOrderId
  accountId := .str o.accountId
  symbol := .str o.symbol
  side := o.side
  orderType := o.orderType
  timeInForce := o.timeInForce
  price := .ofOption o.price
  quantity := .int o.quantity
  filledQuantity := .int o.filledQuantity
  status := o.status
  createdSeq := .int o.createdSeq
  createdAt := .str o.createdAt
  cancelReason := o.cancelReason
  reservedCad := .ofOption o.reservedCad

/-- `str(reason) if reason else None`. -/
def reasonToJson : Option CancelReason → Json
  | some reason => if (toJson reason).truthy then toJson reason else .null
  | none => .null

/-- `CancelReason(reason) if reason else None`. -/
def reasonFromJson (reason : Json) : Except PyErr (Option CancelReason) :=
  if reason.truthy then some <$> ofValue CancelReason reason else .ok none

/-- Serialize an order for the journal. -/
def orderToDict (order : RawOrder) : Dict :=
  [("order_id", order.orderId),
    ("client_order_id", order.clientOrderId),
    ("account_id", order.accountId),
    ("symbol", order.symbol),
    ("side", toJson order.side),
    ("order_type", toJson order.orderType),
    ("time_in_force", toJson order.timeInForce),
    ("price", order.price),
    ("quantity", order.quantity),
    ("filled_quantity", order.filledQuantity),
    ("status", toJson order.status),
    ("created_seq", order.createdSeq),
    ("created_at", order.createdAt),
    ("cancel_reason", reasonToJson order.cancelReason),
    ("reserved_cad", order.reservedCad)]

/-- Rebuild an order from a journal line. -/
def orderFromDict (raw : Dict) : Except PyErr RawOrder := do
  let reason := raw.get "cancel_reason"
  let orderId ← raw.item "order_id"
  let clientOrderId ← raw.item "client_order_id"
  let accountId ← raw.item "account_id"
  let symbol ← raw.item "symbol"
  let side ← raw.item "side" >>= ofValue Side
  let orderType ← raw.item "order_type" >>= ofValue OrderType
  let timeInForce ← raw.item "time_in_force" >>= ofValue TimeInForce
  let price ← raw.item "price"
  let quantity ← raw.item "quantity"
  let filledQuantity ← raw.item "filled_quantity"
  let status ← raw.item "status" >>= ofValue OrderStatus
  let createdSeq ← raw.item "created_seq"
  let createdAt ← raw.item "created_at"
  let cancelReason ← reasonFromJson reason
  RawOrder.new
    { orderId, clientOrderId, accountId, symbol, side, orderType, timeInForce, price, quantity,
      filledQuantity, status, createdSeq, createdAt, cancelReason,
      reservedCad := raw.get "reserved_cad" }

/-! ### The constructor on typed fields -/

theorem Json.ofOption_isNone (n : Option ℤ) : (Json.ofOption n).isNone = n.isNone := by
  cases n <;> rfl

theorem Json.within_int (a b : ℤ) :
    Json.within (.int a) (.int b) = .ok (decide (0 ≤ a ∧ a ≤ b)) := by
  simp only [Json.within, Json.le_int, Bind.bind, Except.bind, decide_eq_true_eq]
  split
  · next ha => simp [ha]
  · next ha => simp [ha, pure, Except.pure]

/-- On fields that have their types the two forms of the constructor's
checks are one. -/
theorem OrderFields.postInit_toRaw (o : OrderFields) : o.toRaw.postInit = o.postInit := by
  simp only [RawOrder.postInit, toRaw, Json.ofOption_isNone, Json.within_int, Json.le_int, postInit,
    Bind.bind, Except.bind, decide_eq_true_eq, Bool.not_eq_true', decide_eq_false_iff_not]
  cases o.price <;> simp

/-! ### The two directions -/

/-- What the reader finds in the record of `r`. -/
structure Decoded (d : Dict) (r : RawOrder) : Prop where
  orderId : d.lookup "order_id" = some r.orderId
  clientOrderId : d.lookup "client_order_id" = some r.clientOrderId
  accountId : d.lookup "account_id" = some r.accountId
  symbol : d.lookup "symbol" = some r.symbol
  side : d.lookup "side" = some (toJson r.side)
  orderType : d.lookup "order_type" = some (toJson r.orderType)
  timeInForce : d.lookup "time_in_force" = some (toJson r.timeInForce)
  price : d.lookup "price" = some r.price
  quantity : d.lookup "quantity" = some r.quantity
  filledQuantity : d.lookup "filled_quantity" = some r.filledQuantity
  status : d.lookup "status" = some (toJson r.status)
  createdSeq : d.lookup "created_seq" = some r.createdSeq
  createdAt : d.lookup "created_at" = some r.createdAt
  cancelReason : reasonFromJson (d.get "cancel_reason") = .ok r.cancelReason
  reservedCad : d.get "reserved_cad" = r.reservedCad
  admitted : r.postInit = .ok ()

theorem RawOrder.new_eq_ok {fields r : RawOrder} :
    RawOrder.new fields = .ok r ↔ fields.postInit = .ok () ∧ fields = r := by
  simp only [RawOrder.new, bind_eq_ok, pure, Except.pure, Except.ok.injEq]
  exact ⟨fun ⟨_, hpost, hr⟩ => ⟨hpost, hr⟩, fun ⟨hpost, hr⟩ => ⟨(), hpost, hr⟩⟩

theorem orderFromDict_eq_ok {d : Dict} {r : RawOrder} :
    orderFromDict d = .ok r ↔ Decoded d r := by
  simp only [orderFromDict, bind_eq_ok, Dict.item_eq_ok, ofValue_eq_ok_iff, RawOrder.new_eq_ok]
  refine ⟨?_, ?_⟩
  · rintro ⟨_, horderId, _, hclientOrderId, _, haccountId, _, hsymbol, _, ⟨_, hside, rfl⟩,
      _, ⟨_, horderType, rfl⟩, _, ⟨_, htimeInForce, rfl⟩, _, hprice, _, hquantity,
      _, hfilledQuantity, _, ⟨_, hstatus, rfl⟩, _, hcreatedSeq, _, hcreatedAt, _, hcancelReason,
      hadmitted, rfl⟩
    exact ⟨horderId, hclientOrderId, haccountId, hsymbol, hside, horderType, htimeInForce, hprice,
      hquantity, hfilledQuantity, hstatus, hcreatedSeq, hcreatedAt, hcancelReason, rfl, hadmitted⟩
  · intro h
    refine ⟨_, h.orderId, _, h.clientOrderId, _, h.accountId, _, h.symbol, _, ⟨_, h.side, rfl⟩,
      _, ⟨_, h.orderType, rfl⟩, _, ⟨_, h.timeInForce, rfl⟩, _, h.price, _, h.quantity,
      _, h.filledQuantity, _, ⟨_, h.status, rfl⟩, _, h.createdSeq, _, h.createdAt,
      _, h.cancelReason, ?_⟩
    rw [h.reservedCad]
    exact ⟨h.admitted, rfl⟩

theorem toJson_truthy (reason : CancelReason) : (toJson reason).truthy = true := by
  cases reason <;> decide

theorem reasonFromJson_reasonToJson (reason : Option CancelReason) :
    reasonFromJson (reasonToJson reason) = .ok reason := by
  cases reason with
  | none => rfl
  | some reason => simp [reasonToJson, reasonFromJson, toJson_truthy]

/-- The reason on the line is the one written for the order read from it. -/
theorem Decoded.reasonToJson {d : Dict} {r : RawOrder} (h : Decoded d r) {v : Json}
    (hv : d.lookup "cancel_reason" = some v) (htext : v = .null ∨ v.truthy = true) :
    d.lookup "cancel_reason" = some (reasonToJson r.cancelReason) := by
  have hreason := h.cancelReason
  rw [Dict.get_of_lookup hv] at hreason
  rcases htext with rfl | htruthy
  · have hnone : r.cancelReason = none := (Except.ok.inj hreason).symm
    rw [hv, hnone]
    rfl
  · rw [reasonFromJson, if_pos htruthy] at hreason
    cases hmember : ofValue CancelReason v with
    | error err =>
        rw [hmember] at hreason
        contradiction
    | ok reason =>
        rw [hmember] at hreason
        have hsome : r.cancelReason = some reason := (Except.ok.inj hreason).symm
        rw [hv, hsome, DistributedMarket.reasonToJson, if_pos (toJson_truthy reason),
          ofValue_eq_ok hmember]

theorem decoded_toRaw (o : Order) : Decoded (orderToDict o.toRaw) o.toRaw := by
  constructor
  case cancelReason => exact reasonFromJson_reasonToJson o.cancelReason
  case admitted => rw [OrderFields.postInit_toRaw, o.admitted]
  all_goals rfl

/-! ### Lines of the encoder's shape -/

inductive FieldType
  | text
  | integer
  | optionalInteger
  | optionalText

/-- The value is one the encoder writes in such a field. -/
def FieldType.Admits : FieldType → Json → Prop
  | .text, v => ∃ s, v = .str s
  | .integer, v => ∃ n, v = .int n
  | .optionalInteger, v => ∃ n, v = .ofOption n
  | .optionalText, v => v = .null ∨ ∃ s, s ≠ "" ∧ v = .str s

/-- The keys the encoder writes and the types of their values. -/
def orderSchema : List (String × FieldType) :=
  [("order_id", .text),
    ("client_order_id", .text),
    ("account_id", .text),
    ("symbol", .text),
    ("side", .text),
    ("order_type", .text),
    ("time_in_force", .text),
    ("price", .optionalInteger),
    ("quantity", .integer),
    ("filled_quantity", .integer),
    ("status", .text),
    ("created_seq", .integer),
    ("created_at", .text),
    ("cancel_reason", .optionalText),
    ("reserved_cad", .optionalInteger)]

/-- Exactly the encoder's keys, in any order, with values of its types. -/
structure EncoderShaped (d : Dict) : Prop where
  keys : List.Perm (d.map Prod.fst) (orderSchema.map Prod.fst)
  values : ∀ key type, (key, type) ∈ orderSchema → ∃ v, d.lookup key = some v ∧ type.Admits v

theorem orderToDict_keys (r : RawOrder) :
    (orderToDict r).map Prod.fst = orderSchema.map Prod.fst := rfl

/-- Reading a line and writing it again gives the values that were there,
under every key. -/
theorem Decoded.lookup_eq {d : Dict} {r : RawOrder} (hd : EncoderShaped d) (h : Decoded d r)
    (key : String) : (orderToDict r).lookup key = d.lookup key := by
  by_cases hkey : key ∈ orderSchema.map Prod.fst
  · obtain ⟨reason, hreason, htext⟩ := hd.values "cancel_reason" .optionalText (by simp [orderSchema])
    obtain ⟨reserved, hreserved, -⟩ :=
      hd.values "reserved_cad" .optionalInteger (by simp [orderSchema])
    have hreason' : d.lookup "cancel_reason" = some (DistributedMarket.reasonToJson r.cancelReason) := by
      apply h.reasonToJson hreason
      rcases htext with rfl | ⟨s, hs, rfl⟩
      · exact Or.inl rfl
      · exact Or.inr (by simpa [Json.truthy] using hs)
    have hreserved' : d.lookup "reserved_cad" = some r.reservedCad := by
      rw [hreserved, ← h.reservedCad, Dict.get_of_lookup hreserved]
    simp only [orderSchema, List.map_cons, List.map_nil, List.mem_cons, List.not_mem_nil,
      or_false] at hkey
    rcases hkey with rfl | rfl | rfl | rfl | rfl | rfl | rfl | rfl | rfl | rfl | rfl | rfl | rfl |
      rfl | rfl
    · exact h.orderId.symm
    · exact h.clientOrderId.symm
    · exact h.accountId.symm
    · exact h.symbol.symm
    · exact h.side.symm
    · exact h.orderType.symm
    · exact h.timeInForce.symm
    · exact h.price.symm
    · exact h.quantity.symm
    · exact h.filledQuantity.symm
    · exact h.status.symm
    · exact h.createdSeq.symm
    · exact h.createdAt.symm
    · exact hreason'.symm
    · exact hreserved'.symm
  · rw [Dict.lookup_eq_none (orderToDict_keys r ▸ hkey), eq_comm]
    exact Dict.lookup_eq_none fun hmem => hkey (hd.keys.mem_iff.mp hmem)

theorem FieldType.Admits.scalar {type : FieldType} {v : Json} (h : type.Admits v) : v.Scalar := by
  cases type with
  | text =>
      obtain ⟨s, rfl⟩ := h
      trivial
  | integer =>
      obtain ⟨n, rfl⟩ := h
      trivial
  | optionalInteger =>
      obtain ⟨n, rfl⟩ := h
      cases n <;> trivial
  | optionalText =>
      rcases h with rfl | ⟨s, -, rfl⟩ <;> trivial

theorem EncoderShaped.admits {d : Dict} (hd : EncoderShaped d) {key : String} (type : FieldType)
    (hkey : (key, type) ∈ orderSchema) {v : Json} (hv : d.lookup key = some v) :
    type.Admits v := by
  obtain ⟨w, hw, hadmits⟩ := hd.values key type hkey
  rw [hv, Option.some.injEq] at hw
  exact hw ▸ hadmits

theorem EncoderShaped.scalar {d : Dict} (hd : EncoderShaped d) {key : String} {v : Json}
    (hv : d.lookup key = some v) : v.Scalar := by
  have hkey : key ∈ orderSchema.map Prod.fst := by
    rw [← hd.keys.mem_iff]
    by_contra hmem
    rw [Dict.lookup_eq_none hmem] at hv
    contradiction
  obtain ⟨⟨key, type⟩, hmem, rfl⟩ := List.mem_map.mp hkey
  exact (hd.admits type hmem hv).scalar

/-- What is read from a line of the encoder's shape is an order whose fields
have their types. -/
theorem Decoded.typed {d : Dict} {r : RawOrder} (hd : EncoderShaped d) (h : Decoded d r) :
    ∃ o : Order, r = o.toRaw := by
  obtain ⟨orderId, horderId⟩ := hd.admits .text (by simp [orderSchema]) h.orderId
  obtain ⟨clientOrderId, hclientOrderId⟩ :=
    hd.admits .text (by simp [orderSchema]) h.clientOrderId
  obtain ⟨accountId, haccountId⟩ := hd.admits .text (by simp [orderSchema]) h.accountId
  obtain ⟨symbol, hsymbol⟩ := hd.admits .text (by simp [orderSchema]) h.symbol
  obtain ⟨price, hprice⟩ :=
    hd.admits .optionalInteger (by simp [orderSchema]) h.price
  obtain ⟨quantity, hquantity⟩ := hd.admits .integer (by simp [orderSchema]) h.quantity
  obtain ⟨filledQuantity, hfilledQuantity⟩ :=
    hd.admits .integer (by simp [orderSchema]) h.filledQuantity
  obtain ⟨createdSeq, hcreatedSeq⟩ :=
    hd.admits .integer (by simp [orderSchema]) h.createdSeq
  obtain ⟨createdAt, hcreatedAt⟩ := hd.admits .text (by simp [orderSchema]) h.createdAt
  obtain ⟨v, hv, ⟨reservedCad, hreservedCad⟩⟩ :=
    hd.values "reserved_cad" .optionalInteger (by simp [orderSchema])
  let fields : OrderFields :=
    { orderId, clientOrderId, accountId, symbol, side := r.side, orderType := r.orderType,
      timeInForce := r.timeInForce, price, quantity, filledQuantity, status := r.status,
      createdSeq, createdAt, cancelReason := r.cancelReason, reservedCad }
  have hr : r = fields.toRaw := by
    ext1 <;> try assumption
    all_goals try rfl
    rw [← h.reservedCad, Dict.get_of_lookup hv, hreservedCad]
    rfl
  have hadmitted : fields.postInit = .ok () := by
    rw [← OrderFields.postInit_toRaw, ← hr, h.admitted]
  exact ⟨⟨fields, hadmitted⟩, hr⟩

theorem reasonToJson_admits (reason : Option CancelReason) :
    FieldType.optionalText.Admits (reasonToJson reason) := by
  cases reason with
  | none => exact Or.inl rfl
  | some reason =>
      rw [reasonToJson, if_pos (toJson_truthy reason)]
      refine Or.inr ⟨_, ?_, rfl⟩
      cases reason <;> decide

/-- What the encoder writes is of its shape. -/
theorem encoderShaped_orderToDict (o : Order) : EncoderShaped (orderToDict o.toRaw) where
  keys := List.Perm.refl _
  values := by
    intro key type hkey
    simp only [orderSchema, List.mem_cons, Prod.mk.injEq, List.not_mem_nil, or_false] at hkey
    rcases hkey with ⟨rfl, rfl⟩ | ⟨rfl, rfl⟩ | ⟨rfl, rfl⟩ | ⟨rfl, rfl⟩ | ⟨rfl, rfl⟩ | ⟨rfl, rfl⟩ |
      ⟨rfl, rfl⟩ | ⟨rfl, rfl⟩ | ⟨rfl, rfl⟩ | ⟨rfl, rfl⟩ | ⟨rfl, rfl⟩ | ⟨rfl, rfl⟩ | ⟨rfl, rfl⟩ |
      ⟨rfl, rfl⟩ | ⟨rfl, rfl⟩
    case inr.inr.inr.inr.inr.inr.inr.inr.inr.inr.inr.inr.inr.inl =>
      exact ⟨_, rfl, reasonToJson_admits o.cancelReason⟩
    all_goals exact ⟨_, rfl, _, rfl⟩

/-- **The encoding of orders is a bijection onto its image.** Every order
survives the journal, and a line of the encoder's shape that is read as an
order is the line written for it. -/
theorem order_journal_round_trip :
    (∀ o : Order, orderFromDict (orderToDict o.toRaw) = .ok o.toRaw) ∧
      ∀ (d : Dict) (r : RawOrder), EncoderShaped d → orderFromDict d = .ok r →
        ∃ o : Order, r = o.toRaw ∧ Json.Equal (.dict (orderToDict o.toRaw)) (.dict d) := by
  refine ⟨?_, ?_⟩
  · intro o
    exact orderFromDict_eq_ok.mpr (decoded_toRaw o)
  · intro d r hd hr
    have hdecoded := orderFromDict_eq_ok.mp hr
    obtain ⟨o, rfl⟩ := hdecoded.typed hd
    refine ⟨o, rfl, ?_⟩
    apply Json.Equal.dict_of_lookup_eq (hdecoded.lookup_eq hd)
    intro key v hv
    exact hd.scalar hv

/-- A limit order, and the line of a market order. -/
theorem order_journal_round_trip_marketBuy :
    orderFromDict (orderToDict Order.gtcLimit.toRaw) = .ok Order.gtcLimit.toRaw ∧
      ∃ o : Order, Order.marketBuy.toRaw = o.toRaw ∧
        Json.Equal (.dict (orderToDict o.toRaw)) (.dict (orderToDict Order.marketBuy.toRaw)) :=
  ⟨order_journal_round_trip.1 Order.gtcLimit,
    order_journal_round_trip.2 _ _ (encoderShaped_orderToDict Order.marketBuy)
      (order_journal_round_trip.1 Order.marketBuy)⟩

end DistributedMarket
