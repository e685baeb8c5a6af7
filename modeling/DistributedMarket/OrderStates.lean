import DistributedMarket.Lifecycle

/-!
The states an order can be in.

The four operations write three fields, so a state of an order is its
status, its filled quantity and its cancel reason. `Attained` says which of
them the code can bring about, and `reachable_iff` that these are all there
are: each operation stays among them, and each of them is at most four calls
away from a fresh order. Among them are states no enum comment describes,
such as a partly filled order with nothing left, or a rejected one that had
been cancelled for a reason. `live_reachable_iff` is the same for the
calls that leave terminal orders alone, which attain the truthful states
and no others.
-/

namespace DistributedMarket.Order

open Lib.Runs

/-- Every state some calls lead to. An order that is not `FILLED` has
something left, unless `open_on_book` came after its last fill. -/
structure Attained (t : Order) : Prop where
  pending : t.status = .PENDING → t.filledQuantity = 0 ∧ t.cancelReason = none
  opened : t.status = .OPEN → t.filledQuantity = 0 ∧ t.restsOnTheBook
  partly : t.status = .PARTIAL → 0 < t.filledQuantity
  filled : t.status = .FILLED → t.filledQuantity = t.quantity
  unfilled : t.status ≠ .FILLED → t.filledQuantity < t.quantity ∨ t.restsOnTheBook
  cancelled : t.status = .CANCELLED → t.cancelReason.isSome
  rejected : t.status = .REJECTED →
    t.cancelReason = none ∨ 0 < t.filledQuantity ∨ t.restsOnTheBook

/-! ### Nothing else is reached -/

theorem Fresh.attained {o : Order} (h : o.Fresh) : o.Attained := by
  have hpos : 0 < o.quantity := o.checked.quantity_pos
  constructor <;> simp [h.status, h.filledQuantity, h.cancelReason, hpos]

/-- A live order has not lost the reason it was cancelled for without
trading or resting since. -/
theorem Attained.live {o : Order} (h : o.Attained) (hlive : o.status.isTerminal = false) :
    o.cancelReason = none ∨ 0 < o.filledQuantity ∨ o.restsOnTheBook := by
  cases hs : o.status with
  | PENDING => exact Or.inl (h.pending hs).2
  | OPEN => exact Or.inr (Or.inr (h.opened hs).2)
  | PARTIAL => exact Or.inr (Or.inl (h.partly hs))
  | _ =>
      rw [hs] at hlive
      contradiction

theorem Attained.preserved {o o' : Order} {op : Op} (h : o.Attained) (hstep : o.step op = some o') :
    o'.Attained := by
  have hquantity : o'.quantity = o.quantity := step_quantity hstep
  have hrests : o'.restsOnTheBook = o.restsOnTheBook := step_restsOnTheBook hstep
  have hnonneg : 0 ≤ o.filledQuantity := o.checked.filled_nonneg
  cases step_outcome hstep with
  | fill quantity hpos hfits hfilled hreason hstatus =>
      have hremaining : o.remaining = o.quantity - o.filledQuantity := rfl
      split at hstatus
      · constructor <;> simp [hstatus, hquantity, hfilled]
        omega
      · constructor <;> simp [hstatus, hquantity, hfilled] <;> omega
  | cancel reason hlive hfilled hreason hstatus =>
      have hunfilled := h.unfilled fun hs => by simp [hs, OrderStatus.isTerminal] at hlive
      constructor <;> simp [hstatus, hreason, hquantity, hrests, hfilled]
      exact hunfilled
  | reject hlive hfilled hreason hstatus =>
      have hunfilled := h.unfilled fun hs => by simp [hs, OrderStatus.isTerminal] at hlive
      constructor <;> simp [hstatus, hreason, hquantity, hrests, hfilled]
      · exact hunfilled
      · exact h.live hlive
  | openOnBook hrestable hfilled hreason hstatus =>
      split at hstatus
      · constructor <;> simp [hstatus, hrests, hrestable, hfilled]
        omega
      · rename_i hzero
        constructor <;> simp [hstatus, hrests, hrestable, hfilled]
        exact not_not.mp hzero

/-! ### Each of them is reached -/

/-- At most `n` calls, made on orders whose status `G` allows, lead from `o`
to this state of it. -/
def Gets (G : OrderStatus → Prop) (n : ℕ) (o : Order) (status : OrderStatus) (filled : ℤ)
    (reason : Option CancelReason) : Prop :=
  ∃ u : Order, Reaches step (fun v _ => G v.status) n o u ∧
    u.toOrderFields =
      { o.toOrderFields with status, filledQuantity := filled, cancelReason := reason }

section Gets

variable {G : OrderStatus → Prop} {n : ℕ} {o t : Order} {status : OrderStatus} {filled : ℤ}
  {reason : Option CancelReason}

theorem Fresh.gets (h : o.Fresh) : Gets G 0 o .PENDING 0 none := by
  refine ⟨o, .start o, ?_⟩
  rw [← h.status, ← h.filledQuantity, ← h.cancelReason]

theorem Gets.mono {m : ℕ} (h : Gets G m o status filled reason) (hmn : m ≤ n) :
    Gets G n o status filled reason := by
  obtain ⟨u, hreach, hu⟩ := h
  exact ⟨u, hreach.mono hmn, hu⟩

/-- One more call, whose guard and effect are read off the state. -/
theorem Gets.call (h : Gets G n o status filled reason) (hG : G status) (op : Op)
    {status' : OrderStatus} {filled' : ℤ} {reason' : Option CancelReason}
    (hcall : ∀ u : Order, u.toOrderFields =
        { o.toOrderFields with status, filledQuantity := filled, cancelReason := reason } →
      u.Guard op ∧ u.after op =
        { o.toOrderFields with
          status := status', filledQuantity := filled', cancelReason := reason' }) :
    Gets G (n + 1) o status' filled' reason' := by
  obtain ⟨u, hreach, hu⟩ := h
  obtain ⟨hguard, hafter⟩ := hcall u hu
  have hstep : u.step op = some ⟨u.after op, after_admitted hguard⟩ :=
    step_eq_some.mpr ⟨hguard, rfl⟩
  exact ⟨_, hreach.next (by simpa [hu] using hG) hstep, hafter⟩

theorem Gets.fill (h : Gets G n o status filled reason) (hG : G status) {quantity : ℤ}
    (hpos : 0 < quantity) (hfits : filled + quantity ≤ o.quantity) :
    Gets G (n + 1) o (if filled + quantity = o.quantity then .FILLED else .PARTIAL)
      (filled + quantity) reason := by
  refine h.call hG (.fill quantity) fun u hu => ⟨⟨hpos, ?_⟩, ?_⟩
  · simp only [remaining, hu]
    omega
  · simp [after, hu]

theorem Gets.cancel (h : Gets G n o status filled reason) (hG : G status)
    (hlive : status.isTerminal = false) (because : CancelReason) :
    Gets G (n + 1) o .CANCELLED filled (some because) := by
  refine h.call hG (.cancel because) fun u hu => ⟨?_, ?_⟩
  · simpa [Guard, hu] using hlive
  · simp [after, hu]

theorem Gets.reject (h : Gets G n o status filled reason) (hG : G status)
    (hlive : status.isTerminal = false) : Gets G (n + 1) o .REJECTED filled reason := by
  refine h.call hG .reject fun u hu => ⟨?_, ?_⟩
  · simpa [Guard, hu] using hlive
  · simp [after, hu]

theorem Gets.openOnBook (h : Gets G n o status filled reason) (hG : G status)
    (hrests : o.restsOnTheBook = true) :
    Gets G (n + 1) o (if filled ≠ 0 then .PARTIAL else .OPEN) filled reason := by
  refine h.call hG .openOnBook fun u hu => ⟨?_, ?_⟩
  · simpa [Guard, restsOnTheBook, hu] using hrests
  · simp [after, hu]

/-- The three fields and the ticket are the whole order. -/
theorem Gets.reaches (h : Gets G n o t.status t.filledQuantity t.cancelReason)
    (hsame : o.toOrderFields.SameTicket t.toOrderFields) :
    Reaches step (fun v _ => G v.status) n o t := by
  obtain ⟨u, hreach, hu⟩ := h
  have heq : u = t := by
    apply toOrderFields_injective
    rw [hu]
    ext : 1 <;> simp [hsame.orderId, hsame.clientOrderId, hsame.accountId, hsame.symbol,
      hsame.side, hsame.orderType, hsame.timeInForce, hsame.price, hsame.quantity,
      hsame.createdSeq, hsame.createdAt, hsame.reservedCad]
  rwa [← heq]

end Gets

section Routes

variable {o t : Order}

/-- Any reason can be there before the first fill. -/
theorem Fresh.gets_reason (h : o.Fresh) (reason : Option CancelReason) :
    ∃ status, Gets (fun _ => True) 1 o status 0 reason := by
  cases reason with
  | none => exact ⟨.PENDING, h.gets.mono (Nat.zero_le 1)⟩
  | some because => exact ⟨.CANCELLED, h.gets.cancel trivial rfl because⟩

theorem Fresh.gets_fill (h : o.Fresh) {filled : ℤ} (hpos : 0 < filled)
    (hle : filled ≤ o.quantity) (reason : Option CancelReason) :
    Gets (fun _ => True) 2 o (if filled = o.quantity then .FILLED else .PARTIAL) filled
      reason := by
  obtain ⟨status, hget⟩ := h.gets_reason reason
  have hfill := hget.fill trivial hpos (by simpa using hle)
  rwa [zero_add] at hfill

theorem Fresh.gets_open (h : o.Fresh) (hrests : o.restsOnTheBook = true)
    (reason : Option CancelReason) : Gets (fun _ => True) 2 o .OPEN 0 reason := by
  obtain ⟨status, hget⟩ := h.gets_reason reason
  exact hget.openOnBook trivial hrests

/-- An order that can rest says it is partly filled also when it is filled
altogether. -/
theorem Fresh.gets_partial (h : o.Fresh) {filled : ℤ} (hpos : 0 < filled)
    (hle : filled ≤ o.quantity) (hunfilled : filled < o.quantity ∨ o.restsOnTheBook)
    (reason : Option CancelReason) : Gets (fun _ => True) 3 o .PARTIAL filled reason := by
  have hfill := h.gets_fill hpos hle reason
  rcases hunfilled with hlt | hrests
  · rw [if_neg hlt.ne] at hfill
    exact hfill.mono (by decide)
  · have hopen := hfill.openOnBook trivial hrests
    rwa [if_pos hpos.ne'] at hopen

/-- Four calls are enough. -/
theorem Attained.reaches (h : t.Attained) (hfresh : o.Fresh)
    (hsame : o.toOrderFields.SameTicket t.toOrderFields) :
    Reaches step (fun _ _ => True) 4 o t := by
  have hquantity : t.quantity = o.quantity := hsame.quantity
  have hrests : t.restsOnTheBook = o.restsOnTheBook := by
    simp only [restsOnTheBook, hsame.orderType, hsame.timeInForce]
  have hle : t.filledQuantity ≤ o.quantity := hquantity ▸ t.checked.filled_le
  have hunfilled := h.unfilled
  rw [hquantity, hrests] at hunfilled
  refine Gets.reaches (G := fun _ => True) ?_ hsame
  cases hs : t.status with
  | PENDING =>
      obtain ⟨hzero, hnone⟩ := h.pending hs
      rw [hzero, hnone]
      exact hfresh.gets.mono (by decide)
  | OPEN =>
      obtain ⟨hzero, hopen⟩ := h.opened hs
      rw [hzero]
      exact (hfresh.gets_open (hrests ▸ hopen) t.cancelReason).mono (by decide)
  | PARTIAL =>
      exact (hfresh.gets_partial (h.partly hs) hle (hunfilled (by simp [hs]))
        t.cancelReason).mono (by decide)
  | FILLED =>
      have hfull : t.filledQuantity = o.quantity := (h.filled hs).trans hquantity
      have hfill := hfresh.gets_fill o.checked.quantity_pos le_rfl t.cancelReason
      rw [if_pos rfl] at hfill
      rw [hfull]
      exact hfill.mono (by decide)
  | CANCELLED =>
      obtain ⟨because, hbecause⟩ := Option.isSome_iff_exists.mp (h.cancelled hs)
      rw [hbecause]
      rcases t.checked.filled_nonneg.eq_or_lt with hzero | hpos
      · rw [← hzero]
        exact (hfresh.gets.cancel trivial rfl because).mono (by decide)
      · exact (hfresh.gets_partial hpos hle (hunfilled (by simp [hs])) none).cancel trivial rfl
          because
  | REJECTED =>
      rcases t.checked.filled_nonneg.eq_or_lt with hzero | hpos
      · rw [← hzero]
        rcases h.rejected hs with hnone | hpos | hopen
        · rw [hnone]
          exact (hfresh.gets.reject trivial rfl).mono (by decide)
        · exact absurd hzero hpos.ne
        · exact ((hfresh.gets_open (hrests ▸ hopen) t.cancelReason).reject trivial rfl).mono
            (by decide)
      · exact (hfresh.gets_partial hpos hle (hunfilled (by simp [hs])) t.cancelReason).reject
          trivial rfl

/-- **The states the code brings about.** Some calls lead from a fresh order
to `t` just when `t` is the same ticket in an attained state, and then four
calls do. -/
theorem reachable_iff (hfresh : o.Fresh) :
    ((∃ ops, exec step o ops = some t) ↔
        o.toOrderFields.SameTicket t.toOrderFields ∧ t.Attained) ∧
      (o.toOrderFields.SameTicket t.toOrderFields ∧ t.Attained →
        ∃ ops, ops.length ≤ 4 ∧ exec step o ops = some t) := by
  have hfour : o.toOrderFields.SameTicket t.toOrderFields ∧ t.Attained →
      ∃ ops, ops.length ≤ 4 ∧ exec step o ops = some t := by
    rintro ⟨hsame, h⟩
    obtain ⟨ops, hlength, -, hrun⟩ := h.reaches hfresh hsame
    exact ⟨ops, hlength, hrun⟩
  refine ⟨⟨?_, fun h => ?_⟩, hfour⟩
  · rintro ⟨ops, hrun⟩
    refine ⟨?_, exec_invariant (fun _ _ _ hs hstep => hs.preserved hstep) hfresh.attained hrun⟩
    exact exec_invariant (I := fun u : Order => o.toOrderFields.SameTicket u.toOrderFields)
      (fun _ _ _ hs hstep => hs.trans (step_sameTicket hstep)) (.refl _) hrun
  · obtain ⟨ops, -, hrun⟩ := hfour h
    exact ⟨ops, hrun⟩

/-! ### Leaving terminal orders alone -/

/-- Only `open_on_book` opens an order. -/
theorem open_of_live_step {op : Op} (hstep : o.step op = some t) (hopen : t.status = .OPEN) :
    t.restsOnTheBook := by
  rw [step_restsOnTheBook hstep]
  cases step_outcome hstep with
  | fill quantity hpos hfits hfilled hreason hstatus =>
      rw [hstatus] at hopen
      split at hopen <;> contradiction
  | cancel reason hlive hfilled hreason hstatus =>
      rw [hstatus] at hopen
      contradiction
  | reject hlive hfilled hreason hstatus =>
      rw [hstatus] at hopen
      contradiction
  | openOnBook hrests hfilled hreason hstatus => exact hrests

theorem Fresh.gets_first_fill (h : o.Fresh) {filled : ℤ} (hpos : 0 < filled)
    (hle : filled ≤ o.quantity) :
    Gets (fun s => s.isTerminal = false) 1 o
      (if filled = o.quantity then .FILLED else .PARTIAL) filled none := by
  have hfill := h.gets.fill (G := fun s => s.isTerminal = false) rfl hpos (by simpa using hle)
  rwa [zero_add filled] at hfill

/-- What was filled before anything else happened. -/
theorem Fresh.gets_live (h : o.Fresh) {filled : ℤ} (hnonneg : 0 ≤ filled)
    (hlt : filled < o.quantity) :
    ∃ status, status.isTerminal = false ∧
      Gets (fun s => s.isTerminal = false) 1 o status filled none := by
  rcases hnonneg.eq_or_lt with rfl | hpos
  · exact ⟨.PENDING, rfl, h.gets.mono (Nat.zero_le 1)⟩
  · have hfill := h.gets_first_fill hpos hlt.le
    rw [if_neg hlt.ne] at hfill
    exact ⟨.PARTIAL, rfl, hfill⟩

/-- Two calls on live orders are enough for a truthful state. -/
theorem reaches_of_truthful (h : t.Truthful) (hopen : t.status = .OPEN → t.restsOnTheBook)
    (hfresh : o.Fresh) (hsame : o.toOrderFields.SameTicket t.toOrderFields) :
    Reaches step (fun v _ => v.status.isTerminal = false) 2 o t := by
  have hquantity : t.quantity = o.quantity := hsame.quantity
  have hnonneg : 0 ≤ t.filledQuantity := t.checked.filled_nonneg
  have hle : t.filledQuantity ≤ o.quantity := hquantity ▸ t.checked.filled_le
  have hreason : t.status ≠ .CANCELLED → t.cancelReason = none := by
    intro hs
    rw [← Option.not_isSome_iff_eq_none, h.reason_iff]
    exact hs
  have hlt : t.status ≠ .FILLED → t.filledQuantity < o.quantity := by
    intro hs
    exact lt_of_le_of_ne hle fun hfull => hs (h.filled_iff.mpr (hfull.trans hquantity.symm))
  refine Gets.reaches (G := fun s => s.isTerminal = false) ?_ hsame
  cases hs : t.status with
  | PENDING =>
      rw [h.untouched (Or.inl hs), hreason (by simp [hs])]
      exact hfresh.gets.mono (Nat.zero_le 2)
  | OPEN =>
      rw [h.untouched (Or.inr hs), hreason (by simp [hs])]
      have hrests : o.restsOnTheBook = true := by
        have hrests := hopen hs
        simpa only [restsOnTheBook, hsame.orderType, hsame.timeInForce] using hrests
      have hget : Gets (fun s => s.isTerminal = false) 1 o .OPEN 0 none :=
        hfresh.gets.openOnBook rfl hrests
      exact hget.mono (by decide)
  | PARTIAL =>
      obtain ⟨hpos, -⟩ := h.partly hs
      rw [hreason (by simp [hs])]
      have hfill := hfresh.gets_first_fill hpos hle
      rw [if_neg (hlt (by simp [hs])).ne] at hfill
      exact hfill.mono (by decide)
  | FILLED =>
      rw [hreason (by simp [hs]), (h.filled_iff.mp hs).trans hquantity]
      have hfill := hfresh.gets_first_fill o.checked.quantity_pos le_rfl
      rw [if_pos rfl] at hfill
      exact hfill.mono (by decide)
  | CANCELLED =>
      obtain ⟨because, hbecause⟩ := Option.isSome_iff_exists.mp (h.reason_iff.mpr hs)
      obtain ⟨status, hlive, hget⟩ := hfresh.gets_live hnonneg (hlt (by simp [hs]))
      rw [hbecause]
      exact hget.cancel hlive hlive because
  | REJECTED =>
      obtain ⟨status, hlive, hget⟩ := hfresh.gets_live hnonneg (hlt (by simp [hs]))
      rw [hreason (by simp [hs])]
      exact hget.reject hlive hlive

/-- **The states of an order that nobody touches once it is terminal** are
the truthful ones in which only a restable order is open, and two calls lead
to each. -/
theorem live_reachable_iff (hfresh : o.Fresh) :
    ((∃ ops, (∀ u op, Fires step o ops u op → u.status.isTerminal = false) ∧
          exec step o ops = some t) ↔
        o.toOrderFields.SameTicket t.toOrderFields ∧ t.Truthful ∧
          (t.status = .OPEN → t.restsOnTheBook)) ∧
      (o.toOrderFields.SameTicket t.toOrderFields ∧ t.Truthful ∧
          (t.status = .OPEN → t.restsOnTheBook) →
        ∃ ops, ops.length ≤ 2 ∧ (∀ u op, Fires step o ops u op → u.status.isTerminal = false) ∧
          exec step o ops = some t) := by
  have htwo : o.toOrderFields.SameTicket t.toOrderFields ∧ t.Truthful ∧
      (t.status = .OPEN → t.restsOnTheBook) →
      Reaches step (fun v _ => v.status.isTerminal = false) 2 o t := by
    rintro ⟨hsame, h, hopen⟩
    exact reaches_of_truthful h hopen hfresh hsame
  refine ⟨⟨?_, fun h => ?_⟩, htwo⟩
  · rintro ⟨ops, hlive, hrun⟩
    have hstory : t.Truthful ∧ (t.status = .OPEN → t.restsOnTheBook) := by
      apply exec_invariant_of_fires (G := fun u _ => u.status.isTerminal = false) _ _ hlive hrun
        (I := fun u : Order => u.Truthful ∧ (u.status = .OPEN → u.restsOnTheBook))
      · rintro u op v ⟨hu, -⟩ hulive hstep
        exact ⟨hu.step hulive hstep, open_of_live_step hstep⟩
      · exact ⟨hfresh.truthful, by simp [hfresh.status]⟩
    refine ⟨?_, hstory⟩
    exact exec_invariant (I := fun u : Order => o.toOrderFields.SameTicket u.toOrderFields)
      (fun _ _ _ hs hstep => hs.trans (step_sameTicket hstep)) (.refl _) hrun
  · obtain ⟨ops, -, hlive, hrun⟩ := htwo h
    exact ⟨ops, hlive, hrun⟩

end Routes

/-- The resting order with nothing left, partly filled all the same, and with
the reason it was cancelled for before. -/
def withdrawnAndFilled : Order where
  toOrderFields :=
    { gtcLimit.toOrderFields with
      status := .PARTIAL, filledQuantity := 100000, cancelReason := some .USER }
  admitted := rfl

theorem reachable_of_withdrawn :
    ((∃ ops, exec step gtcLimit ops = some withdrawnAndFilled) ↔
        gtcLimit.toOrderFields.SameTicket withdrawnAndFilled.toOrderFields ∧
          withdrawnAndFilled.Attained) ∧
      ∃ ops, ops.length ≤ 4 ∧ exec step gtcLimit ops = some withdrawnAndFilled := by
  obtain ⟨hiff, hfour⟩ := @reachable_iff gtcLimit withdrawnAndFilled gtcLimit_fresh
  refine ⟨hiff, hfour ⟨?_, ?_⟩⟩
  · constructor <;> rfl
  · constructor <;> decide

theorem live_reachable_of_withdrawn :
    ¬ ∃ ops, (∀ u op, Fires step gtcLimit ops u op → u.status.isTerminal = false) ∧
      exec step gtcLimit ops = some withdrawnAndFilled := by
  rw [(live_reachable_iff gtcLimit_fresh).1]
  rintro ⟨-, htruthful, -⟩
  have hpartly := (htruthful.partly rfl).2
  revert hpartly
  decide

end DistributedMarket.Order
