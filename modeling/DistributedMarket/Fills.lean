import DistributedMarket.Orders
import Mathlib.Algebra.Order.BigOperators.Group.List

/-!
Fills one after the other.

Each fill is checked against what the fills before it have left, and sets
the status again. Both come out as if the fills had been one: a second fill
writes the fields that the sum of the two would have written
(`after_fill_fill`), and the rest is an induction on the list.
-/

namespace DistributedMarket.Order

variable {o o' : Order}

theorem fill_eq_ok {quantity : ℤ} :
    o.fill quantity = .ok o' ↔
      o.Guard (.fill quantity) ∧ o'.toOrderFields = o.after (.fill quantity) := by
  rw [← step_eq_some, show o.step (.fill quantity) = (o.fill quantity).toOption from rfl]
  cases o.fill quantity with
  | ok u => simp [Except.toOption]
  | error err => simp [Except.toOption]

/-- Two fills write what their sum writes. -/
theorem after_fill_fill {first second : ℤ} (h : o'.toOrderFields = o.after (.fill first)) :
    o'.after (.fill second) = o.after (.fill (first + second)) := by
  ext1 <;> simp [after, h, add_assoc]

theorem remaining_after_fill {quantity : ℤ} (h : o'.toOrderFields = o.after (.fill quantity)) :
    o'.remaining = o.remaining - quantity := by
  simp only [remaining, h, after]
  omega

/-- `fill` on each quantity in turn. -/
def fills (o : Order) (quantities : List ℤ) : Except PyErr Order := quantities.foldlM fill o

/-- What a run of fills is: each is positive, together they fit, and they
write what their sum writes. -/
theorem fills_eq_ok {quantity : ℤ} {quantities : List ℤ} :
    o.fills (quantity :: quantities) = .ok o' ↔
      (∀ q ∈ quantity :: quantities, 0 < q) ∧ (quantity :: quantities).sum ≤ o.remaining ∧
        o'.toOrderFields = o.after (.fill (quantity :: quantities).sum) := by
  induction quantities generalizing o quantity with
  | nil =>
      simp only [fills, List.foldlM_cons, List.foldlM_nil, bind_pure, fill_eq_ok, Guard]
      simp [and_assoc]
  | cons next quantities ih =>
      have hrest : o.fills (quantity :: next :: quantities) =
          o.fill quantity >>= fun u => u.fills (next :: quantities) := rfl
      rw [hrest, bind_eq_ok]
      refine ⟨?_, ?_⟩
      · rintro ⟨u, hfill, hfills⟩
        obtain ⟨⟨hpos, hfits⟩, hu⟩ := fill_eq_ok.mp hfill
        obtain ⟨hpos', hfits', ho'⟩ := ih.mp hfills
        rw [remaining_after_fill hu] at hfits'
        rw [after_fill_fill hu, ← List.sum_cons] at ho'
        refine ⟨List.forall_mem_cons.mpr ⟨hpos, hpos'⟩, ?_, ho'⟩
        rw [List.sum_cons]
        omega
      · rintro ⟨hpos, hfits, ho'⟩
        obtain ⟨hhead, htail⟩ := List.forall_mem_cons.mp hpos
        have hsum : 0 ≤ (next :: quantities).sum :=
          List.sum_nonneg fun q hq => (htail q hq).le
        rw [List.sum_cons] at hfits
        have hguard : o.Guard (.fill quantity) := ⟨hhead, by omega⟩
        refine ⟨_, apply_of_guard hguard, ih.mpr ⟨htail, ?_, ?_⟩⟩
        · rw [remaining_after_fill (o := o) rfl]
          omega
        · rw [after_fill_fill (o := o) rfl, ← List.sum_cons]
          exact ho'

theorem fills_eq_fill_sum {quantities : List ℤ} (hne : quantities ≠ [])
    (h : o.fills quantities = .ok o') : o.fill quantities.sum = .ok o' := by
  obtain ⟨quantity, rest, rfl⟩ := List.exists_cons_of_ne_nil hne
  obtain ⟨hpos, hfits, ho'⟩ := fills_eq_ok.mp h
  have hsum : 0 < (quantity :: rest).sum :=
    List.sum_pos _ hpos (List.cons_ne_nil quantity rest)
  exact fill_eq_ok.mpr ⟨⟨hsum, hfits⟩, ho'⟩

/-- Positive fills of the same sum lead to the same order. -/
theorem fills_congr {quantities quantities' : List ℤ} (hne : quantities ≠ [])
    (hne' : quantities' ≠ []) (hpos' : ∀ q ∈ quantities', 0 < q)
    (hsum : quantities'.sum = quantities.sum) (h : o.fills quantities = .ok o') :
    o.fills quantities' = .ok o' := by
  obtain ⟨quantity, rest, rfl⟩ := List.exists_cons_of_ne_nil hne
  obtain ⟨quantity', rest', rfl⟩ := List.exists_cons_of_ne_nil hne'
  obtain ⟨-, hfits, ho'⟩ := fills_eq_ok.mp h
  rw [← hsum] at hfits ho'
  exact fills_eq_ok.mpr ⟨hpos', hfits, ho'⟩

/-- The sums of groups of positive quantities are positive. -/
theorem groups_pos {groups : List (List ℤ)} (hgroups : ∀ group ∈ groups, group ≠ [])
    (hpos : ∀ q ∈ groups.flatten, 0 < q) : ∀ sum ∈ groups.map List.sum, 0 < sum := by
  intro sum hsum
  obtain ⟨group, hmem, rfl⟩ := List.mem_map.mp hsum
  refine List.sum_pos _ (fun q hq => ?_) (hgroups group hmem)
  exact hpos q (List.mem_flatten_of_mem hmem hq)

/-- **Fills compose additively.** A run of fills succeeds if and only if all
are positive and together fit, and then it is one fill of the sum: whatever
the order the quantities come in, and however they are grouped. -/
theorem fills_compose (o : Order) {quantities : List ℤ} (hne : quantities ≠ []) :
    ((∃ o', o.fills quantities = .ok o') ↔
      (∀ q ∈ quantities, 0 < q) ∧ quantities.sum ≤ o.remaining) ∧
    ∀ o', o.fills quantities = .ok o' →
      o.fill quantities.sum = .ok o' ∧
      (∀ quantities', quantities'.Perm quantities → o.fills quantities' = .ok o') ∧
      ∀ groups : List (List ℤ), (∀ group ∈ groups, group ≠ []) →
        groups.flatten.Perm quantities → o.fills (groups.map List.sum) = .ok o' := by
  refine ⟨?_, ?_⟩
  · obtain ⟨quantity, rest, rfl⟩ := List.exists_cons_of_ne_nil hne
    refine ⟨fun ⟨o', h⟩ => ?_, fun ⟨hpos, hfits⟩ => ?_⟩
    · obtain ⟨hpos, hfits, -⟩ := fills_eq_ok.mp h
      exact ⟨hpos, hfits⟩
    · have hsum := List.sum_pos _ hpos (List.cons_ne_nil quantity rest)
      have hguard : o.Guard (.fill (quantity :: rest).sum) := ⟨hsum, hfits⟩
      exact ⟨⟨_, after_admitted hguard⟩, fills_eq_ok.mpr ⟨hpos, hfits, rfl⟩⟩
  · intro o' h
    have hpos : ∀ q ∈ quantities, 0 < q := by
      obtain ⟨quantity, rest, rfl⟩ := List.exists_cons_of_ne_nil hne
      exact (fills_eq_ok.mp h).1
    refine ⟨fills_eq_fill_sum hne h, ?_, ?_⟩
    · intro quantities' hperm
      have hne' : quantities' ≠ [] := fun hnil => hne (List.nil_perm.mp (hnil ▸ hperm))
      exact fills_congr hne hne' (fun q hq => hpos q (hperm.mem_iff.mp hq)) hperm.sum_eq h
    · intro groups hgroups hperm
      have hne' : groups.map List.sum ≠ [] := by
        intro hnil
        rw [List.map_eq_nil_iff.mp hnil, List.flatten_nil] at hperm
        exact hne (List.nil_perm.mp hperm)
      have hposgroups := groups_pos hgroups fun q hq => hpos q (hperm.mem_iff.mp hq)
      have hsum : (groups.map List.sum).sum = quantities.sum := by
        rw [← List.sum_flatten, hperm.sum_eq]
      exact fills_congr hne hne' hposgroups hsum h

/-- Three fills that take all of an order. -/
theorem fills_compose_whole :
    ∃ o', gtcLimit.fills [20000, 50000, 30000] = .ok o' ∧ gtcLimit.fill 100000 = .ok o' ∧
      gtcLimit.fills [30000, 20000, 50000] = .ok o' ∧ gtcLimit.fills [70000, 30000] = .ok o' := by
  have h := @fills_compose gtcLimit [20000, 50000, 30000] (by decide)
  obtain ⟨o', hfills⟩ := h.1.mpr ⟨by decide, by decide⟩
  obtain ⟨hwhole, hperm, hgroups⟩ := h.2 o' hfills
  exact ⟨o', hfills, hwhole, hperm [30000, 20000, 50000] (by decide),
    hgroups [[20000, 50000], [30000]] (by decide) (by decide)⟩

end DistributedMarket.Order
