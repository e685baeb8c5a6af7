import DistributedMarket.Lifecycle

/-!
Three laws of the statuses.

A resting status should mean an order that can rest, a rejected order
should never have traded, and nothing should happen to a terminal order.
Two of the four operations look at the status and two only at quantities or
at the type, so none of the laws holds in every run; each theorem here says
in which runs its law does.
-/

namespace DistributedMarket.Order

open Lib.Runs

/-! ### Which statuses rest -/

/-- Only a fill can put a resting status on an order that cannot rest. -/
theorem step_resting_iff {o o' : Order} {op : Op} (h : o.step op = some o') :
    (o'.status.isResting → o'.restsOnTheBook) ↔
      ∀ quantity, op = .fill quantity → o.restsOnTheBook ∨ quantity = o.remaining := by
  rw [step_restsOnTheBook h]
  cases step_outcome h with
  | fill quantity hpos hfits hfilled hreason hstatus =>
      simp only [hstatus, Op.fill.injEq, forall_eq']
      split
      · next hwhole => simp [hwhole, OrderStatus.isResting]
      · next hpart => simp [hpart, OrderStatus.isResting]
  | cancel reason hlive hfilled hreason hstatus => simp [hstatus, OrderStatus.isResting]
  | reject hlive hfilled hreason hstatus => simp [hstatus, OrderStatus.isResting]
  | openOnBook hrests hfilled hreason hstatus => simp [hrests]

/-- **A resting status means a restable order** in exactly the runs whose
fills meet a GTC limit order or take all that remains. -/
theorem resting_restable_iff {o o' : Order} {ops : List Op} (hfresh : o.Fresh)
    (hrun : exec step o ops = some o') :
    (∀ t, Visits step o ops t → t.status.isResting → t.restsOnTheBook) ↔
      ∀ t quantity, Fires step o ops t (.fill quantity) →
        t.restsOnTheBook ∨ quantity = t.remaining := by
  refine ⟨?_, ?_⟩
  · intro h t quantity hfires
    obtain ⟨t', hstep⟩ := hfires.succeeds hrun
    have hvisits : Visits step o ops t' := visits_iff.mpr (Or.inr ⟨t, _, hfires, hstep⟩)
    exact (step_resting_iff hstep).mp (h t' hvisits) quantity rfl
  · intro h t hvisits
    rcases visits_iff.mp hvisits with rfl | ⟨u, op, hfires, hstep⟩
    · simp [hfresh.status, OrderStatus.isResting]
    · rw [step_resting_iff hstep]
      rintro quantity rfl
      exact h u quantity hfires

theorem resting_restable_of_whole_fill :
    (∀ t, Visits step marketBuy [.fill 100000] t → t.status.isResting → t.restsOnTheBook) ↔
      ∀ t quantity, Fires step marketBuy [.fill 100000] t (.fill quantity) →
        t.restsOnTheBook ∨ quantity = t.remaining :=
  @resting_restable_iff marketBuy ⟨marketBuy.after (.fill 100000), rfl⟩ _ marketBuy_fresh rfl

/-- A market order that has traded in part says it is in the book. -/
theorem market_order_rests :
    ¬ ∀ (o o' : Order) (ops : List Op), o.Fresh → exec step o ops = some o' →
      o'.status.isResting → o'.restsOnTheBook := by
  intro h
  have hrests := h marketBuy ⟨marketBuy.after (.fill 40000), rfl⟩ [.fill 40000] marketBuy_fresh rfl
  revert hrests
  decide

/-! ### Rejected orders -/

theorem step_rejected {o o' : Order} {op : Op} (h : o.step op = some o')
    (hrejected : o'.status = .REJECTED) : op = .reject := by
  cases step_outcome h with
  | fill quantity hpos hfits hfilled hreason hstatus =>
      rw [hstatus] at hrejected
      split at hrejected <;> contradiction
  | cancel reason hlive hfilled hreason hstatus =>
      rw [hstatus] at hrejected
      contradiction
  | openOnBook hrests hfilled hreason hstatus =>
      rw [hstatus] at hrejected
      split at hrejected <;> contradiction
  | reject hlive hfilled hreason hstatus => rfl

/-- An order rejected at once has no history. -/
theorem rejected_fresh {o t : Order} (hfresh : o.Fresh) (hstep : o.step .reject = some t) :
    t.filledQuantity = 0 ∧
      ∀ u, Visits step o [.reject] u → u.status ≠ .OPEN ∧ u.status ≠ .PARTIAL := by
  cases step_outcome hstep with
  | reject hlive hfilled hreason hstatus =>
      refine ⟨by rw [hfilled, hfresh.filledQuantity], ?_⟩
      intro u hu
      rcases visits_iff.mp hu with rfl | ⟨v, op, hfires, hv⟩
      · simp [hfresh.status]
      · have hop : op = .reject := by simpa using hfires.mem
        obtain ⟨rfl, -⟩ : v = o ∧ op = .reject := by
          rcases fires_cons.mp hfires with hfirst | ⟨w, -, hnone⟩
          · exact hfirst
          · exact absurd hnone not_fires_nil
        rw [hop, hstep] at hv
        cases hv
        simp [hstatus]

/-- **A rejected order never traded** in exactly the runs that reject no
order but a pending one. -/
theorem rejected_untraded_iff {o o' : Order} {ops : List Op} (hfresh : o.Fresh)
    (hrun : exec step o ops = some o') :
    (∀ pre t, pre <+: ops → exec step o pre = some t → t.status = .REJECTED →
        t.filledQuantity = 0 ∧
          ∀ u, Visits step o pre u → u.status ≠ .OPEN ∧ u.status ≠ .PARTIAL) ↔
      ∀ t, Fires step o ops t .reject → t.status = .PENDING := by
  refine ⟨?_, ?_⟩
  · intro h t hfires
    obtain ⟨t', hstep⟩ := hfires.succeeds hrun
    obtain ⟨pre, hpre, ht⟩ := hfires
    have ht' : exec step o (pre ++ [.reject]) = some t' := exec_concat_eq_some.mpr ⟨t, ht, hstep⟩
    cases step_outcome hstep with
    | reject hlive hfilled hreason hstatus =>
        obtain ⟨-, hearlier⟩ := h _ t' hpre ht' hstatus
        obtain ⟨hopen, hpartial⟩ := hearlier t ⟨pre, List.prefix_append _ _, ht⟩
        cases hs : t.status <;> simp_all [OrderStatus.isTerminal]
  · intro h pre t hpre ht hrejected
    rcases List.eq_nil_or_concat pre with rfl | ⟨pre, op, rfl⟩
    · cases ht
      rw [hfresh.status] at hrejected
      contradiction
    · rw [List.concat_eq_append] at hpre ht ⊢
      obtain ⟨u, hu, hstep⟩ := exec_concat_eq_some.mp ht
      obtain rfl := step_rejected hstep hrejected
      -- The order rejected is pending, so it is the one the run starts from.
      obtain rfl := eq_nil_of_pending hu (h u ⟨pre, hpre, hu⟩)
      cases hu
      exact rejected_fresh hfresh hstep

theorem rejected_untraded_at_once :
    (∀ pre t, pre <+: [Op.reject] → exec step gtcLimit pre = some t → t.status = .REJECTED →
        t.filledQuantity = 0 ∧
          ∀ u, Visits step gtcLimit pre u → u.status ≠ .OPEN ∧ u.status ≠ .PARTIAL) ↔
      ∀ t, Fires step gtcLimit [.reject] t .reject → t.status = .PENDING :=
  @rejected_untraded_iff gtcLimit ⟨gtcLimit.after .reject, rfl⟩ _ gtcLimit_fresh rfl

/-- Forty thousand cents are filled, and then the order is rejected. -/
theorem rejected_after_fill :
    ¬ ∀ (o o' : Order) (ops : List Op), o.Fresh → exec step o ops = some o' →
      o'.status = .REJECTED →
        o'.filledQuantity = 0 ∧
          ∀ u, Visits step o ops u → u.status ≠ .OPEN ∧ u.status ≠ .PARTIAL := by
  intro h
  obtain ⟨o', hrun⟩ : ∃ o', exec step gtcLimit [.fill 40000, .reject] = some o' := ⟨_, rfl⟩
  cases hrun
  have huntraded := (h gtcLimit _ [.fill 40000, .reject] gtcLimit_fresh rfl rfl).1
  revert huntraded
  decide

/-! ### Terminal orders -/

/-- The calls a terminal order lets through: those of the two operations
that never look at the status. -/
def Slips (o : Order) : Op → Prop
  | .fill quantity => 0 < quantity ∧ quantity ≤ o.remaining
  | .openOnBook => o.restsOnTheBook = true
  | .cancel _ | .reject => False

theorem guard_iff_slips {o : Order} (hterminal : o.status.isTerminal = true) (op : Op) :
    o.Guard op ↔ o.Slips op := by
  cases op with
  | fill quantity => rfl
  | cancel reason => simp [Guard, Slips, hterminal]
  | reject => simp [Guard, Slips, hterminal]
  | openOnBook => rfl

/-- Every call raises exactly where nothing remains and the order cannot
rest. -/
theorem forall_raises_iff {o : Order} (hterminal : o.status.isTerminal = true) :
    (∀ op, RaisesValueError (o.apply op)) ↔ o.remaining = 0 ∧ o.restsOnTheBook = false := by
  have hnonneg : 0 ≤ o.remaining := sub_nonneg.mpr o.checked.filled_le
  simp only [raises_iff, guard_iff_slips hterminal]
  refine ⟨?_, ?_⟩
  · intro h
    have hone : ¬ o.Slips (.fill 1) := h (.fill 1)
    have hrest : ¬ o.Slips .openOnBook := h .openOnBook
    simp only [Slips] at hone hrest
    exact ⟨by omega, by simpa using hrest⟩
  · rintro ⟨hempty, hrests⟩ op
    cases op with
    | fill quantity =>
        simp only [Slips]
        omega
    | openOnBook => simp [Slips, hrests]
    | _ => simp [Slips]

/-- The operation ends the order without filling it. -/
def Op.Withdraws : Op → Prop
  | .cancel _ | .reject => True
  | .fill _ | .openOnBook => False

/-- While it is live, an order that cannot rest is not filled: only a fill
or `open_on_book` leaves it live, and the latter raises. -/
theorem remaining_pos_of_visits {o t : Order} {ops : List Op} (hfresh : o.Fresh)
    (hrests : o.restsOnTheBook = false) (ht : Visits step o ops t)
    (hlive : t.status.isTerminal = false) : 0 < t.remaining := by
  have hle : t.filledQuantity ≤ t.quantity := t.checked.filled_le
  rcases visits_iff.mp ht with rfl | ⟨u, op, ⟨pre, hpre, hu⟩, hstep⟩
  · have hpos : 0 < t.quantity := t.checked.quantity_pos
    simp only [remaining, hfresh.filledQuantity]
    omega
  · have hurests : u.restsOnTheBook = false := by
      rw [visits_restsOnTheBook (visits_end hu), hrests]
    cases step_outcome hstep with
    | fill quantity hpos hfits hfilled hreason hstatus =>
        have hquantity : t.quantity = u.quantity := step_quantity hstep
        split at hstatus
        · rw [hstatus] at hlive
          contradiction
        · simp only [remaining] at *
          omega
    | cancel reason _ hfilled hreason hstatus =>
        rw [hstatus] at hlive
        contradiction
    | reject _ hfilled hreason hstatus =>
        rw [hstatus] at hlive
        contradiction
    | openOnBook hrests' hfilled hreason hstatus =>
        rw [hurests] at hrests'
        contradiction

/-- Where nothing withdraws it, an order that cannot rest is terminal only
once it is filled. -/
theorem remaining_eq_zero_of_visits {o t : Order} {ops : List Op} (hfresh : o.Fresh)
    (hrests : o.restsOnTheBook = false) (hops : ∀ op ∈ ops, ¬ op.Withdraws)
    (ht : Visits step o ops t) (hterminal : t.status.isTerminal = true) : t.remaining = 0 := by
  rcases visits_iff.mp ht with rfl | ⟨u, op, hfires, hstep⟩
  · rw [hfresh.status] at hterminal
    contradiction
  · have hop : ¬ op.Withdraws := hops op hfires.mem
    cases step_outcome hstep with
    | fill quantity hpos hfits hfilled hreason hstatus =>
        have hquantity : t.quantity = u.quantity := step_quantity hstep
        split at hstatus
        · simp only [remaining] at *
          omega
        · rw [hstatus] at hterminal
          contradiction
    | cancel reason _ hfilled hreason hstatus => exact absurd trivial hop
    | reject _ hfilled hreason hstatus => exact absurd trivial hop
    | openOnBook hrests' hfilled hreason hstatus =>
        rw [hstatus] at hterminal
        split at hterminal <;> contradiction

/-- A withdrawal leaves a terminal order with what was not filled. -/
theorem step_withdraws {o o' : Order} {op : Op} (h : o.step op = some o') (hop : op.Withdraws) :
    o.status.isTerminal = false ∧ o'.status.isTerminal = true ∧ o'.remaining = o.remaining := by
  have hquantity : o'.quantity = o.quantity := step_quantity h
  cases step_outcome h with
  | fill quantity hpos hfits hfilled hreason hstatus => exact hop.elim
  | cancel reason hlive hfilled hreason hstatus =>
      refine ⟨hlive, ?_, ?_⟩
      · simp [hstatus, OrderStatus.isTerminal]
      · simp [remaining, hquantity, hfilled]
  | reject hlive hfilled hreason hstatus =>
      refine ⟨hlive, ?_, ?_⟩
      · simp [hstatus, OrderStatus.isTerminal]
      · simp [remaining, hquantity, hfilled]
  | openOnBook hrests hfilled hreason hstatus => exact hop.elim

/-- In which runs every call on a terminal order raises. -/
theorem all_raise_iff {o o' : Order} {ops : List Op} (hfresh : o.Fresh)
    (hrun : exec step o ops = some o') :
    (∀ t, Visits step o ops t → t.status.isTerminal = true →
        ∀ op, RaisesValueError (t.apply op)) ↔
      (∀ t, Visits step o ops t → t.status.isTerminal = false) ∨
        (o.restsOnTheBook = false ∧ ∀ op ∈ ops, ¬ op.Withdraws) := by
  refine ⟨?_, ?_⟩
  · intro h
    by_cases hnone : ∀ t, Visits step o ops t → t.status.isTerminal = false
    · exact Or.inl hnone
    · push Not at hnone
      obtain ⟨t, ht, hterminal⟩ := hnone
      have hterminal : t.status.isTerminal = true := by simpa using hterminal
      have hrests : o.restsOnTheBook = false := by
        rw [← visits_restsOnTheBook ht]
        exact ((forall_raises_iff hterminal).mp (h t ht hterminal)).2
      refine Or.inr ⟨hrests, ?_⟩
      intro op hmem hop
      -- A withdrawn order keeps a remainder, which a fill may still take.
      obtain ⟨u, hfires⟩ := fires_of_mem hrun hmem
      obtain ⟨u', hstep⟩ := hfires.succeeds hrun
      obtain ⟨hlive, hterminal', hsame⟩ := step_withdraws hstep hop
      have hu' : Visits step o ops u' := visits_iff.mpr (Or.inr ⟨u, op, hfires, hstep⟩)
      have hpos := remaining_pos_of_visits hfresh hrests hfires.visits hlive
      have hempty := ((forall_raises_iff hterminal').mp (h u' hu' hterminal')).1
      omega
  · rintro (hnone | ⟨hrests, hops⟩) t ht hterminal
    · rw [hnone t ht] at hterminal
      contradiction
    · rw [forall_raises_iff hterminal, visits_restsOnTheBook ht]
      exact ⟨remaining_eq_zero_of_visits hfresh hrests hops ht hterminal, hrests⟩

/-- In which runs nothing follows a terminal order. -/
theorem nothing_follows_iff {o o' : Order} {ops : List Op} (hrun : exec step o ops = some o') :
    (∀ pre t, pre <+: ops → exec step o pre = some t → t.status.isTerminal = true →
        pre = ops) ↔
      ∀ t op, Fires step o ops t op → ¬ (t.status.isTerminal = true ∧ t.Slips op) := by
  refine ⟨?_, ?_⟩
  · rintro h t op ⟨pre, hpre, ht⟩ ⟨hterminal, -⟩
    have hlast : pre = ops := h pre t ((List.prefix_append pre [op]).trans hpre) ht hterminal
    have hlength := hpre.length_le
    rw [← hlast] at hlength
    simp at hlength
  · rintro h pre t ⟨post, rfl⟩ ht hterminal
    cases post with
    | nil => exact (List.append_nil pre).symm
    | cons op post =>
        have hfires : Fires step o (pre ++ op :: post) t op := ⟨pre, ⟨post, by simp⟩, ht⟩
        obtain ⟨t', hstep⟩ := hfires.succeeds hrun
        have hslips : t.Slips op :=
          (guard_iff_slips hterminal op).mp (step_eq_some.mp hstep).1
        exact absurd ⟨hterminal, hslips⟩ (h t op hfires)

/-- **When terminal statuses absorb.** The first part says which calls on a
terminal order of the run raise, the second in which runs all of them do,
and the third in which runs nothing follows a terminal order. -/
theorem terminal_absorbs_iff {o o' : Order} {ops : List Op} (hfresh : o.Fresh)
    (hrun : exec step o ops = some o') :
    (∀ t, Visits step o ops t → t.status.isTerminal = true →
        ∀ op, RaisesValueError (t.apply op) ↔ ¬ t.Slips op) ∧
      ((∀ t, Visits step o ops t → t.status.isTerminal = true →
          ∀ op, RaisesValueError (t.apply op)) ↔
        (∀ t, Visits step o ops t → t.status.isTerminal = false) ∨
          (o.restsOnTheBook = false ∧ ∀ op ∈ ops, ¬ op.Withdraws)) ∧
      ((∀ pre t, pre <+: ops → exec step o pre = some t → t.status.isTerminal = true →
          pre = ops) ↔
        ∀ t op, Fires step o ops t op → ¬ (t.status.isTerminal = true ∧ t.Slips op)) := by
  refine ⟨?_, all_raise_iff hfresh hrun, nothing_follows_iff hrun⟩
  intro t _ hterminal op
  rw [raises_iff, guard_iff_slips hterminal]

theorem terminal_absorbs_whole_fill :
    (∀ t, Visits step marketBuy [.fill 100000] t → t.status.isTerminal = true →
        ∀ op, RaisesValueError (t.apply op) ↔ ¬ t.Slips op) ∧
      ((∀ t, Visits step marketBuy [.fill 100000] t → t.status.isTerminal = true →
          ∀ op, RaisesValueError (t.apply op)) ↔
        (∀ t, Visits step marketBuy [.fill 100000] t → t.status.isTerminal = false) ∨
          (marketBuy.restsOnTheBook = false ∧ ∀ op ∈ [Op.fill 100000], ¬ op.Withdraws)) ∧
      ((∀ pre t, pre <+: [.fill 100000] → exec step marketBuy pre = some t →
          t.status.isTerminal = true → pre = [.fill 100000]) ↔
        ∀ t op, Fires step marketBuy [.fill 100000] t op →
          ¬ (t.status.isTerminal = true ∧ t.Slips op)) :=
  @terminal_absorbs_iff marketBuy ⟨marketBuy.after (.fill 100000), rfl⟩ _ marketBuy_fresh rfl

/-- A cancelled order is filled, and a filled one put back on the book. -/
theorem terminal_orders_slip :
    ¬ ∀ (o o' : Order) (ops : List Op), o.Fresh → exec step o ops = some o' →
      o'.status.isTerminal = true → ∀ op, RaisesValueError (o'.apply op) := by
  intro h
  obtain ⟨o', hrun⟩ : ∃ o', exec step gtcLimit [.cancel .USER] = some o' := ⟨_, rfl⟩
  cases hrun
  have hraises := h gtcLimit _ [.cancel .USER] gtcLimit_fresh rfl rfl (.fill 40000)
  rw [raises_iff] at hraises
  revert hraises
  decide

end DistributedMarket.Order
