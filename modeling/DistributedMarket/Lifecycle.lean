import DistributedMarket.Lib.Runs
import DistributedMarket.Orders

/-!
The life of an order.

A fresh order is pending and untouched. Its runs are the sequences of calls
to `fill`, `cancel`, `reject` and `open_on_book` that do not raise. What one
such call does to the status, the filled quantity and the cancel reason is
`Outcome`, and the rest is by cases on it.

- `truthful_of_live_run`: where no operation touches a terminal order, these
  three fields agree.
- `attempts_conserve`: what holds whatever is called, on whatever order.
-/

namespace DistributedMarket.Order

open Lib.Runs

/-- An order as the gateway makes it. -/
structure Fresh (o : Order) : Prop where
  status : o.status = .PENDING
  filledQuantity : o.filledQuantity = 0
  cancelReason : o.cancelReason = none

/-! ### One step -/

/-- What a call that does not raise does to the three fields the operations
write. -/
inductive Outcome (o o' : Order) : Op → Prop
  | fill (quantity : ℤ) (hpos : 0 < quantity) (hfits : quantity ≤ o.remaining)
      (hfilled : o'.filledQuantity = o.filledQuantity + quantity)
      (hreason : o'.cancelReason = o.cancelReason)
      (hstatus : o'.status = if quantity = o.remaining then .FILLED else .PARTIAL) :
      Outcome o o' (.fill quantity)
  | cancel (reason : CancelReason) (hlive : o.status.isTerminal = false)
      (hfilled : o'.filledQuantity = o.filledQuantity)
      (hreason : o'.cancelReason = some reason) (hstatus : o'.status = .CANCELLED) :
      Outcome o o' (.cancel reason)
  | reject (hlive : o.status.isTerminal = false)
      (hfilled : o'.filledQuantity = o.filledQuantity)
      (hreason : o'.cancelReason = o.cancelReason) (hstatus : o'.status = .REJECTED) :
      Outcome o o' .reject
  | openOnBook (hrests : o.restsOnTheBook = true)
      (hfilled : o'.filledQuantity = o.filledQuantity)
      (hreason : o'.cancelReason = o.cancelReason)
      (hstatus : o'.status = if o.filledQuantity ≠ 0 then .PARTIAL else .OPEN) :
      Outcome o o' .openOnBook

section Step

variable {o o' : Order} {op : Op}

theorem step_outcome (h : o.step op = some o') : Outcome o o' op := by
  obtain ⟨hguard, hfields⟩ := step_eq_some.mp h
  cases op with
  | fill quantity =>
      have hwhole : o.filledQuantity + quantity = o.quantity ↔ quantity = o.remaining := by
        simp only [remaining]
        omega
      apply Outcome.fill quantity hguard.1 hguard.2
      · simp [hfields, after]
      · simp [hfields, after]
      · simp only [hfields, after, hwhole]
  | cancel reason => apply Outcome.cancel reason hguard <;> simp [hfields, after]
  | reject => apply Outcome.reject hguard <;> simp [hfields, after]
  | openOnBook => apply Outcome.openOnBook hguard <;> simp [hfields, after]

theorem step_restsOnTheBook (h : o.step op = some o') : o'.restsOnTheBook = o.restsOnTheBook := by
  have hsame := step_sameTicket h
  simp only [restsOnTheBook, hsame.orderType, hsame.timeInForce]

theorem step_quantity (h : o.step op = some o') : o'.quantity = o.quantity :=
  (step_sameTicket h).quantity

/-- No operation leads back to `PENDING`. -/
theorem step_status_ne_pending (h : o.step op = some o') : o'.status ≠ .PENDING := by
  cases step_outcome h with
  | fill quantity hpos hfits hfilled hreason hstatus =>
      rw [hstatus]
      split <;> simp
  | cancel reason hlive hfilled hreason hstatus => simp [hstatus]
  | reject hlive hfilled hreason hstatus => simp [hstatus]
  | openOnBook hrests hfilled hreason hstatus =>
      rw [hstatus]
      split <;> simp

theorem visits_restsOnTheBook {ops : List Op} (h : Visits step o ops o') :
    o'.restsOnTheBook = o.restsOnTheBook := by
  obtain ⟨pre, -, hrun⟩ := h
  exact exec_invariant (I := fun t => t.restsOnTheBook = o.restsOnTheBook)
    (fun _ _ _ hs hstep => (step_restsOnTheBook hstep).trans hs) rfl hrun

/-- Only the start of a run can be pending. -/
theorem eq_nil_of_pending {ops : List Op} (hrun : exec step o ops = some o')
    (hpending : o'.status = .PENDING) : ops = [] := by
  rcases List.eq_nil_or_concat ops with rfl | ⟨pre, op, rfl⟩
  · rfl
  · rw [List.concat_eq_append] at hrun
    obtain ⟨u, -, hstep⟩ := exec_concat_eq_some.mp hrun
    exact absurd hpending (step_status_ne_pending hstep)

end Step

/-! ### The status and the fills -/

/-- The status, the filled quantity and the cancel reason tell one story. -/
structure Truthful (o : Order) : Prop where
  untouched : o.status = .PENDING ∨ o.status = .OPEN → o.filledQuantity = 0
  partly : o.status = .PARTIAL → 0 < o.filledQuantity ∧ o.filledQuantity < o.quantity
  filled_iff : o.status = .FILLED ↔ o.filledQuantity = o.quantity
  reason_iff : o.cancelReason.isSome ↔ o.status = .CANCELLED

theorem Fresh.truthful {o : Order} (h : o.Fresh) : o.Truthful := by
  have hpos : 0 < o.quantity := o.checked.quantity_pos
  have hempty : o.filledQuantity ≠ o.quantity := by
    rw [h.filledQuantity]
    exact hpos.ne
  constructor <;> simp [h.status, h.filledQuantity, h.cancelReason]
  exact hpos.ne

theorem Truthful.unfilled {o : Order} (h : o.Truthful) (hlive : o.status.isTerminal = false) :
    o.filledQuantity < o.quantity := by
  have hle : o.filledQuantity ≤ o.quantity := o.checked.filled_le
  have hne : o.filledQuantity ≠ o.quantity := by
    intro hfull
    rw [h.filled_iff.mpr hfull] at hlive
    contradiction
  omega

theorem Truthful.no_reason {o : Order} (h : o.Truthful) (hlive : o.status.isTerminal = false) :
    o.cancelReason = none := by
  cases hreason : o.cancelReason with
  | none => rfl
  | some reason =>
      rw [h.reason_iff.mp (by simp [hreason])] at hlive
      contradiction

/-- A step taken in a live order keeps the story straight. -/
theorem Truthful.step {o o' : Order} {op : Op} (h : o.Truthful)
    (hlive : o.status.isTerminal = false) (hstep : o.step op = some o') : o'.Truthful := by
  have hquantity : o'.quantity = o.quantity := step_quantity hstep
  have hnonneg : 0 ≤ o.filledQuantity := o.checked.filled_nonneg
  have hunfilled := h.unfilled hlive
  have hnone := h.no_reason hlive
  cases step_outcome hstep with
  | fill quantity hpos hfits hfilled hreason hstatus =>
      have hremaining : o.remaining = o.quantity - o.filledQuantity := rfl
      rw [hnone] at hreason
      split at hstatus
      · constructor <;> simp [hstatus, hreason, hquantity, hfilled]
        omega
      · constructor <;> simp [hstatus, hreason, hquantity, hfilled] <;> omega
  | cancel reason hlive hfilled hreason hstatus =>
      constructor <;> simp [hstatus, hreason, hquantity, hfilled]
      exact hunfilled.ne
  | reject hlive hfilled hreason hstatus =>
      constructor <;> simp [hstatus, hreason, hquantity, hfilled, hnone]
      exact hunfilled.ne
  | openOnBook hrests hfilled hreason hstatus =>
      split at hstatus
      · constructor <;> simp [hstatus, hreason, hquantity, hfilled, hnone] <;> omega
      · constructor <;> simp [hstatus, hreason, hquantity, hfilled, hnone] <;> omega

/-- **The status tells the truth.** In a run whose successful operations all
meet a live order, every state is truthful and none but the first is
pending. -/
theorem truthful_of_live_run {o : Order} {ops : List Op} (hfresh : o.Fresh)
    (hlive : ∀ t op, Fires step o ops t op → (t.step op).isSome → t.status.isTerminal = false) :
    (∀ t, Visits step o ops t → t.Truthful) ∧
      ∀ pre t, pre <+: ops → pre ≠ [] → exec step o pre = some t → t.status ≠ .PENDING := by
  refine ⟨?_, ?_⟩
  · intro t ht
    apply ht.invariant_of_fires (I := Truthful)
      (G := fun u op => (u.step op).isSome → u.status.isTerminal = false) _ hfresh.truthful hlive
    intro u op v hu hulive hstep
    exact hu.step (hulive (by rw [hstep]; rfl)) hstep
  · intro pre t _ hne hpre hpending
    exact hne (eq_nil_of_pending hpre hpending)

theorem gtcLimit_fresh : gtcLimit.Fresh := ⟨rfl, rfl, rfl⟩

theorem marketBuy_fresh : marketBuy.Fresh := ⟨rfl, rfl, rfl⟩

theorem truthful_of_cancelled_remainder :
    (∀ t, Visits step gtcLimit [.fill 40000, .openOnBook, .cancel .USER] t → t.Truthful) ∧
      ∀ pre t, pre <+: [.fill 40000, .openOnBook, .cancel .USER] → pre ≠ [] →
        exec step gtcLimit pre = some t → t.status ≠ .PENDING := by
  apply truthful_of_live_run gtcLimit_fresh
  intro t op h
  have hall : AllFire step (fun u a => (u.step a).isSome → u.status.isTerminal = false) gtcLimit
      [.fill 40000, .openOnBook, .cancel .USER] := by decide
  exact hall.of_fires h

/-! ### Calls that may raise -/

/-- The quantity of the fills that succeed when the calls are tried in
order. -/
def filledBy (o : Order) : List Op → ℤ
  | [] => 0
  | op :: ops =>
      (match op, o.step op with
        | .fill quantity, some _ => quantity
        | _, _ => 0) + filledBy (attempt step o op) ops

theorem attempt_filledQuantity (o : Order) (op : Op) :
    (attempt step o op).filledQuantity = o.filledQuantity + filledBy o [op] := by
  cases hstep : o.step op with
  | none => simp [attempt_of_eq_none hstep, filledBy, hstep]
  | some o' =>
      rw [attempt_of_eq_some hstep]
      cases step_outcome hstep with
      | fill quantity hpos hfits hfilled hreason hstatus => simp [filledBy, hstep, hfilled]
      | cancel reason hlive hfilled hreason hstatus => simp [filledBy, hfilled]
      | reject hlive hfilled hreason hstatus => simp [filledBy, hfilled]
      | openOnBook hrests hfilled hreason hstatus => simp [filledBy, hfilled]

theorem attempts_filledQuantity (o : Order) (ops : List Op) :
    (attempts step o ops).filledQuantity = o.filledQuantity + filledBy o ops := by
  induction ops generalizing o with
  | nil => simp [filledBy]
  | cons op ops ih =>
      rw [attempts_cons, ih, attempt_filledQuantity]
      simp only [filledBy]
      omega

theorem attempts_sameTicket (o : Order) (ops : List Op) :
    o.toOrderFields.SameTicket (attempts step o ops).toOrderFields := by
  apply attempts_rel (R := fun s t : Order => s.toOrderFields.SameTicket t.toOrderFields)
  · intro s
    exact OrderFields.SameTicket.refl _
  · intro s t u hst htu
    exact hst.trans htu
  · intro s op t hstep
    exact step_sameTicket hstep

theorem attempt_cancelReason {o : Order} {op : Op}
    (h : (attempt step o op).cancelReason ≠ o.cancelReason) :
    ∃ reason, op = .cancel reason ∧ (attempt step o op).cancelReason = some reason := by
  cases hstep : o.step op with
  | none =>
      rw [attempt_of_eq_none hstep] at h
      contradiction
  | some o' =>
      rw [attempt_of_eq_some hstep] at h ⊢
      cases step_outcome hstep with
      | cancel reason hlive hfilled hreason hstatus => exact ⟨reason, rfl, hreason⟩
      | fill quantity hpos hfits hfilled hreason hstatus => exact absurd hreason h
      | reject hlive hfilled hreason hstatus => exact absurd hreason h
      | openOnBook hrests hfilled hreason hstatus => exact absurd hreason h

/-- **Executed quantity is conserved and the rest is framed**, from every
order and whatever is called. The last three parts are about one more call:
only `cancel` changes the reason, an operation whose guard has passed is
not stopped by the constructor, and one whose guard has not raises. -/
theorem attempts_conserve (o : Order) (ops : List Op) :
    (attempts step o ops).filledQuantity = o.filledQuantity + filledBy o ops ∧
      (0 ≤ (attempts step o ops).filledQuantity ∧
        (attempts step o ops).filledQuantity ≤ (attempts step o ops).quantity ∧
        0 ≤ (attempts step o ops).remaining) ∧
      o.toOrderFields.SameTicket (attempts step o ops).toOrderFields ∧
      (∀ op, (attempt step (attempts step o ops) op).cancelReason ≠
          (attempts step o ops).cancelReason →
        ∃ reason, op = .cancel reason ∧
          (attempt step (attempts step o ops) op).cancelReason = some reason) ∧
      (∀ op, (attempts step o ops).Guard op →
        (attempts step o ops).apply op = new ((attempts step o ops).after op) ∧
          ((attempts step o ops).after op).postInit = .ok ()) ∧
      ∀ op, ¬ (attempts step o ops).Guard op →
        RaisesValueError ((attempts step o ops).apply op) := by
  have hchecked := (attempts step o ops).checked
  refine ⟨attempts_filledQuantity o ops, ⟨hchecked.filled_nonneg, hchecked.filled_le, ?_⟩,
    attempts_sameTicket o ops, ?_, ?_, ?_⟩
  · exact sub_nonneg.mpr hchecked.filled_le
  · intro op h
    exact attempt_cancelReason h
  · intro op h
    exact ⟨apply_eq_new h, after_admitted h⟩
  · intro op h
    exact apply_of_not_guard h

/-- The second fill asks for too much and changes nothing. -/
theorem attempts_conserve_overfill :
    (attempts step gtcLimit [.fill 40000, .fill 100000, .cancel .USER]).filledQuantity =
        gtcLimit.filledQuantity +
          filledBy gtcLimit [.fill 40000, .fill 100000, .cancel .USER] ∧
      RaisesValueError
        ((attempts step gtcLimit [.fill 40000, .fill 100000, .cancel .USER]).apply .reject) := by
  obtain ⟨hfilled, -, -, -, -, hraises⟩ :=
    attempts_conserve gtcLimit [.fill 40000, .fill 100000, .cancel .USER]
  exact ⟨hfilled, hraises .reject (by decide)⟩

end DistributedMarket.Order
