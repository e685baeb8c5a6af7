import DistributedMarket.OrderJournal

/-!
Which order records replay can trust.

`orderFromDict` refuses a record when a key is missing, when an enumeration
does not know a value, or when one of the constructor's comparisons fails.
`Readable` says when none of that happens. None of these checks asks for the
type of a number, for the sign of a price or a reservation, or whether the
status fits the fill; these are the clauses of `Sound`. A record the reader
lets through is an order in a legal state if and only if it is sound.
-/

namespace DistributedMarket

open StrEnum

/-- The status tells the truth about the fill. -/
structure FillAgrees (status : OrderStatus) (quantity filledQuantity : ℤ) : Prop where
  untouched : status = .PENDING ∨ status = .OPEN → filledQuantity = 0
  partly : status = .PARTIAL → 0 < filledQuantity ∧ filledQuantity < quantity
  filled_iff : status = .FILLED ↔ filledQuantity = quantity

/-- An order in a legal state: numbers are integers, a limit price is
positive, a reservation not negative, and status, fill and reason agree. -/
structure RawOrder.Legal (r : RawOrder) : Prop where
  fill : ∃ quantity filledQuantity, r.quantity = .int quantity ∧
    r.filledQuantity = .int filledQuantity ∧ FillAgrees r.status quantity filledQuantity
  createdSeq : ∃ n, r.createdSeq = .int n
  price : r.price = .null ∨ ∃ n, r.price = .int n
  limit_price : r.orderType = .LIMIT → ∃ n, 0 < n ∧ r.price = .int n
  reservedCad : r.reservedCad = .null ∨ ∃ n, 0 ≤ n ∧ r.reservedCad = .int n
  reason_iff : r.cancelReason.isSome ↔ r.status = .CANCELLED

/-! ### What the reader checks -/

/-- The keys whose values the reader copies. -/
def copiedKeys : List String :=
  ["order_id", "client_order_id", "account_id", "symbol", "price", "quantity", "filled_quantity",
    "created_seq", "created_at"]

/-- The record passes every check there is. -/
structure Readable (raw : Dict) : Prop where
  copied : ∀ key ∈ copiedKeys, ∃ v, raw.lookup key = some v
  side : ∃ side : Side, raw.lookup "side" = some (toJson side)
  orderType : ∃ orderType : OrderType, raw.lookup "order_type" = some (toJson orderType)
  timeInForce : ∃ timeInForce : TimeInForce, raw.lookup "time_in_force" = some (toJson timeInForce)
  status : ∃ status : OrderStatus, raw.lookup "status" = some (toJson status)
  reason : (raw.get "cancel_reason").truthy = true →
    ∃ reason : CancelReason, raw.get "cancel_reason" = toJson reason
  market_iff : raw.lookup "order_type" = some (.str "MARKET") ↔ raw.lookup "price" = some .null
  market_ioc : raw.lookup "order_type" = some (.str "MARKET") →
    raw.lookup "time_in_force" = some (.str "IOC")
  quantity_pos : Json.le (raw.get "quantity") (.int 0) = .ok false
  filled_within : Json.within (raw.get "filled_quantity") (raw.get "quantity") = .ok true

/-- What no check looks at. A price on a readable record is a limit price,
and there the fill lies between zero and the quantity. -/
structure Sound (raw : Dict) : Prop where
  fill : ∃ quantity filledQuantity,
    raw.get "quantity" = .int quantity ∧ raw.get "filled_quantity" = .int filledQuantity ∧
    (raw.get "status" = .str "PENDING" ∨ raw.get "status" = .str "OPEN" → filledQuantity = 0) ∧
    (raw.get "status" = .str "PARTIAL" → filledQuantity ≠ 0) ∧
    (raw.get "status" = .str "FILLED" ↔ filledQuantity = quantity)
  createdSeq : ∃ n, raw.get "created_seq" = .int n
  price : raw.get "price" = .null ∨ ∃ n, 0 < n ∧ raw.get "price" = .int n
  reservedCad : raw.get "reserved_cad" = .null ∨ ∃ n, 0 ≤ n ∧ raw.get "reserved_cad" = .int n
  reason_iff : (raw.get "cancel_reason").truthy = true ↔ raw.get "status" = .str "CANCELLED"

theorem Json.isNone_iff {v : Json} : v.isNone = true ↔ v = .null := by
  cases v <;> simp [Json.isNone]

theorem refuse_eq_ok {check : Prop} [Decidable check] {err : PyErr} {rest : Except PyErr Unit} :
    (if check then .error err else rest) = .ok () ↔ ¬check ∧ rest = .ok () := by
  split <;> simp_all

/-- A comparison that must give `False`. -/
theorem refuse_if_eq_ok {x : Except PyErr Bool} {err : PyErr} {rest : Except PyErr Unit} :
    (x >>= fun b => if b = true then .error err else rest) = .ok () ↔
      x = .ok false ∧ rest = .ok () := by
  simp only [bind_eq_ok, refuse_eq_ok, Bool.not_eq_true]
  exact ⟨fun ⟨_, hx, hb, hrest⟩ => ⟨hb ▸ hx, hrest⟩, fun ⟨hx, hrest⟩ => ⟨false, hx, rfl, hrest⟩⟩

/-- A comparison that must give `True`. -/
theorem refuse_unless_eq_ok {x : Except PyErr Bool} {err : PyErr} {rest : Except PyErr Unit} :
    (x >>= fun b => if (!b) = true then .error err else rest) = .ok () ↔
      x = .ok true ∧ rest = .ok () := by
  simp only [bind_eq_ok, refuse_eq_ok, Bool.not_eq_true', Bool.not_eq_false]
  exact ⟨fun ⟨_, hx, hb, hrest⟩ => ⟨hb ▸ hx, hrest⟩, fun ⟨hx, hrest⟩ => ⟨true, hx, rfl, hrest⟩⟩

/-- What the constructor asks of values of any type. -/
theorem RawOrder.postInit_eq_ok {r : RawOrder} :
    r.postInit = .ok () ↔
      (r.orderType = .MARKET ↔ r.price = .null) ∧
      (r.orderType = .MARKET → r.timeInForce = .IOC) ∧
      Json.le r.quantity (.int 0) = .ok false ∧
      Json.within r.filledQuantity r.quantity = .ok true := by
  rw [← Json.isNone_iff, RawOrder.postInit, refuse_eq_ok, refuse_eq_ok, refuse_eq_ok,
    refuse_if_eq_ok, refuse_unless_eq_ok]
  cases r.orderType <;> cases r.price.isNone <;> simp

/-- The reason is read from its value, or is none if there is nothing to
read. -/
theorem reasonFromJson_eq_ok {v : Json} {reason : Option CancelReason} :
    reasonFromJson v = .ok reason ↔
      v.truthy = reason.isSome ∧ ∀ a, reason = some a → v = toJson a := by
  unfold reasonFromJson
  cases htruthy : v.truthy with
  | false => cases reason <;> simp
  | true =>
      cases reason with
      | none => cases ofValue CancelReason v <;> simp [Functor.map, Except.map]
      | some a =>
          have hmember := @ofValue_eq_ok_iff CancelReason _ v a
          cases h : ofValue CancelReason v <;> simp_all [Functor.map, Except.map]

/-- Two members are written with the same text only if they are the same. -/
theorem lookup_eq_toJson_iff {α : Type} [StrEnum α] {raw : Dict} {key : String} {a : α}
    (h : raw.lookup key = some (toJson a)) (b : α) :
    raw.lookup key = some (toJson b) ↔ a = b := by
  rw [h, Option.some.injEq, toJson_injective.eq_iff]

/-! ### The records the reader accepts -/

theorem Decoded.readable {raw : Dict} {r : RawOrder} (h : Decoded raw r) : Readable raw := by
  obtain ⟨hmarket, hioc, hquantity, hfilled⟩ := RawOrder.postInit_eq_ok.mp h.admitted
  obtain ⟨htruthy, hreason⟩ := reasonFromJson_eq_ok.mp h.cancelReason
  have horderType : raw.lookup "order_type" = some (.str "MARKET") ↔ r.orderType = .MARKET :=
    lookup_eq_toJson_iff h.orderType .MARKET
  constructor
  case copied =>
      simp only [copiedKeys, List.forall_mem_cons, h.orderId, h.clientOrderId, h.accountId,
        h.symbol, h.price, h.quantity, h.filledQuantity, h.createdSeq, h.createdAt]
      simp
  case side => exact ⟨r.side, h.side⟩
  case orderType => exact ⟨r.orderType, h.orderType⟩
  case timeInForce => exact ⟨r.timeInForce, h.timeInForce⟩
  case status => exact ⟨r.status, h.status⟩
  case reason =>
      intro hread
      obtain ⟨a, ha⟩ := Option.isSome_iff_exists.mp (htruthy ▸ hread)
      exact ⟨a, hreason a ha⟩
  case market_iff => rw [horderType, h.price, Option.some.injEq, hmarket]
  case market_ioc =>
      intro htype
      rw [h.timeInForce, hioc (horderType.mp htype)]
      rfl
  case quantity_pos => rwa [Dict.get_of_lookup h.quantity]
  case filled_within => rwa [Dict.get_of_lookup h.quantity, Dict.get_of_lookup h.filledQuantity]

theorem Readable.decoded {raw : Dict} (h : Readable raw) : ∃ r, Decoded raw r := by
  have hcopied := h.copied
  simp only [copiedKeys, List.forall_mem_cons] at hcopied
  obtain ⟨⟨orderId, horderId⟩, ⟨clientOrderId, hclientOrderId⟩, ⟨accountId, haccountId⟩,
    ⟨symbol, hsymbol⟩, ⟨price, hprice⟩, ⟨quantity, hquantity⟩, ⟨filledQuantity, hfilledQuantity⟩,
    ⟨createdSeq, hcreatedSeq⟩, ⟨createdAt, hcreatedAt⟩, -⟩ := hcopied
  obtain ⟨side, hside⟩ := h.side
  obtain ⟨orderType, horderType⟩ := h.orderType
  obtain ⟨timeInForce, htimeInForce⟩ := h.timeInForce
  obtain ⟨status, hstatus⟩ := h.status
  have hreason : ∃ reason, reasonFromJson (raw.get "cancel_reason") = .ok reason := by
    cases htruthy : (raw.get "cancel_reason").truthy with
    | false => exact ⟨none, reasonFromJson_eq_ok.mpr (by simp [htruthy])⟩
    | true =>
        obtain ⟨a, ha⟩ := h.reason htruthy
        exact ⟨some a, reasonFromJson_eq_ok.mpr (by simp [ha, toJson_truthy])⟩
  obtain ⟨cancelReason, hcancelReason⟩ := hreason
  have htype : raw.lookup "order_type" = some (.str "MARKET") ↔ orderType = .MARKET :=
    lookup_eq_toJson_iff horderType .MARKET
  have hioc : raw.lookup "time_in_force" = some (.str "IOC") ↔ timeInForce = .IOC :=
    lookup_eq_toJson_iff htimeInForce .IOC
  refine ⟨{ orderId, clientOrderId, accountId, symbol, side, orderType, timeInForce, price,
            quantity, filledQuantity, status, createdSeq, createdAt, cancelReason,
            reservedCad := raw.get "reserved_cad" },
    horderId, hclientOrderId, haccountId, hsymbol, hside, horderType, htimeInForce, hprice,
    hquantity, hfilledQuantity, hstatus, hcreatedSeq, hcreatedAt, hcancelReason, rfl, ?_⟩
  rw [RawOrder.postInit_eq_ok]
  refine ⟨?_, ?_, ?_, ?_⟩
  · show orderType = .MARKET ↔ price = .null
    rw [← htype, h.market_iff, hprice, Option.some.injEq]
  · exact fun hmarket => hioc.mp (h.market_ioc (htype.mpr hmarket))
  · exact Dict.get_of_lookup hquantity ▸ h.quantity_pos
  · exact Dict.get_of_lookup hquantity ▸ Dict.get_of_lookup hfilledQuantity ▸ h.filled_within

/-! ### The orders it returns -/

theorem Decoded.get_status {raw : Dict} {r : RawOrder} (h : Decoded raw r)
    (status : OrderStatus) : raw.get "status" = toJson status ↔ r.status = status := by
  rw [Dict.get_of_lookup h.status]
  exact toJson_injective.eq_iff

theorem Decoded.sound {raw : Dict} {r : RawOrder} (h : Decoded raw r) (hlegal : r.Legal) :
    Sound raw := by
  obtain ⟨hmarket, -⟩ := RawOrder.postInit_eq_ok.mp h.admitted
  obtain ⟨quantity, filledQuantity, hquantity, hfilled, hagrees⟩ := hlegal.fill
  constructor
  case fill =>
      refine ⟨quantity, filledQuantity, ?_, ?_, ?_, ?_, ?_⟩
      · rw [Dict.get_of_lookup h.quantity, hquantity]
      · rw [Dict.get_of_lookup h.filledQuantity, hfilled]
      · intro hopen
        exact hagrees.untouched (hopen.imp (h.get_status .PENDING).mp (h.get_status .OPEN).mp)
      · intro hpartial
        exact (hagrees.partly ((h.get_status .PARTIAL).mp hpartial)).1.ne'
      · exact (h.get_status .FILLED).trans hagrees.filled_iff
  case createdSeq =>
      rw [Dict.get_of_lookup h.createdSeq]
      exact hlegal.createdSeq
  case price =>
      rw [Dict.get_of_lookup h.price]
      cases horderType : r.orderType with
      | LIMIT => exact Or.inr (hlegal.limit_price horderType)
      | MARKET => exact Or.inl (hmarket.mp horderType)
  case reservedCad =>
      rw [h.reservedCad]
      exact hlegal.reservedCad
  case reason_iff =>
      rw [(reasonFromJson_eq_ok.mp h.cancelReason).1]
      exact hlegal.reason_iff.trans (h.get_status .CANCELLED).symm

/-- The constructor's comparisons give what a sound record leaves open: a
price belongs to a limit order, and the fill lies within the quantity. -/
theorem Decoded.legal {raw : Dict} {r : RawOrder} (h : Decoded raw r) (hsound : Sound raw) :
    r.Legal := by
  obtain ⟨hmarket, -, -, hwithin⟩ := RawOrder.postInit_eq_ok.mp h.admitted
  obtain ⟨quantity, filledQuantity, hquantity, hfilled, huntouched, hpartly, hwhole⟩ := hsound.fill
  rw [Dict.get_of_lookup h.quantity] at hquantity
  rw [Dict.get_of_lookup h.filledQuantity] at hfilled
  rw [hquantity, hfilled, Json.within_int, Except.ok.injEq, decide_eq_true_eq] at hwithin
  have hprice := hsound.price
  rw [Dict.get_of_lookup h.price] at hprice
  have hfilled_iff : r.status = .FILLED ↔ filledQuantity = quantity :=
    (h.get_status .FILLED).symm.trans hwhole
  constructor
  case fill =>
      refine ⟨quantity, filledQuantity, hquantity, hfilled, ?_, ?_, hfilled_iff⟩
      · intro hopen
        exact huntouched (hopen.imp (h.get_status .PENDING).mpr (h.get_status .OPEN).mpr)
      · intro hpartial
        have hsome : filledQuantity ≠ 0 := hpartly ((h.get_status .PARTIAL).mpr hpartial)
        have hrest : filledQuantity ≠ quantity := by
          rw [ne_eq, ← hfilled_iff, hpartial]
          simp
        omega
  case createdSeq =>
      rw [← Dict.get_of_lookup h.createdSeq]
      exact hsound.createdSeq
  case price => exact hprice.imp_right fun ⟨n, _, hn⟩ => ⟨n, hn⟩
  case limit_price =>
      intro hlimit
      refine hprice.resolve_left fun hnull => ?_
      rw [← hmarket, hlimit] at hnull
      contradiction
  case reservedCad =>
      rw [← h.reservedCad]
      exact hsound.reservedCad
  case reason_iff =>
      rw [← (reasonFromJson_eq_ok.mp h.cancelReason).1]
      exact hsound.reason_iff.trans (h.get_status .CANCELLED)

/-- The reader lets only orders in a legal state through if and only if the
record fails one of its checks or is sound. -/
theorem replay_legal_iff (raw : Dict) :
    (∀ r, orderFromDict raw = .ok r → r.Legal) ↔ (Readable raw → Sound raw) := by
  simp only [orderFromDict_eq_ok]
  refine ⟨fun hlegal hreadable => ?_, fun hsound r h => ?_⟩
  · obtain ⟨r, h⟩ := hreadable.decoded
    exact h.sound (hlegal r h)
  · exact h.legal (hsound h.readable)

/-- A line that says `FILLED` over an untouched quantity is read back as an
order. -/
theorem replay_legal_fails :
    ¬ ∀ raw r, orderFromDict raw = .ok r → r.Legal := by
  intro hlegal
  let r : RawOrder := { Order.gtcLimit.toRaw with status := .FILLED }
  have hread : orderFromDict (orderToDict r) = .ok r := by
    rw [orderFromDict_eq_ok]
    constructor
    case cancelReason => exact reasonFromJson_reasonToJson none
    case admitted => exact (OrderFields.postInit_toRaw _).trans Order.gtcLimit.admitted
    all_goals rfl
  obtain ⟨quantity, filledQuantity, hquantity, hfilled, hagrees⟩ := (hlegal _ r hread).fill
  have hwhole : filledQuantity = quantity := hagrees.filled_iff.mp rfl
  have hq : quantity = 100000 := (Json.int.inj hquantity).symm
  have hf : filledQuantity = 0 := (Json.int.inj hfilled).symm
  omega

end DistributedMarket
