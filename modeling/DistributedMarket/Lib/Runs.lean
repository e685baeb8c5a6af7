import Mathlib.Data.List.Infix
import Mathlib.Data.Option.Basic

/-!
Finite runs of a partial step function.

A system is a function `step : σ → α → Option σ`: the action `a` taken in
state `s` leads to `t` when `step s a = some t`, and is refused when it is
`none`. Everything else is derived from that one function. `exec` performs
a list of actions and gives up at the first refusal; `attempts` performs
them too, but a refused action leaves the state alone.

A statement about a whole run talks about the states the run passes
through and about the actions it fires, so these two notions have names,
`Visits` and `Fires`. Both are defined by prefixes of the action list,
which is how a reader thinks of them, and `visits_iff` takes the one to the
other. The rule every safety proof goes through is `exec_invariant`: an
invariant that each fired step preserves holds at the end.
-/

namespace Lib.Runs

variable {σ α : Type*} {step : σ → α → Option σ}

/-- Perform the actions in order; `none` as soon as one is refused. -/
def exec (step : σ → α → Option σ) : σ → List α → Option σ
  | s, [] => some s
  | s, a :: as => (step s a).bind fun t => exec step t as

@[simp] theorem exec_nil (s : σ) : exec step s [] = some s := rfl

@[simp] theorem exec_cons (s : σ) (a : α) (as : List α) :
    exec step s (a :: as) = (step s a).bind fun t => exec step t as := rfl

theorem exec_append (s : σ) (as bs : List α) :
    exec step s (as ++ bs) = (exec step s as).bind fun t => exec step t bs := by
  induction as generalizing s with
  | nil => rfl
  | cons a as ih =>
      rw [List.cons_append, exec_cons, exec_cons, Option.bind_assoc]
      congr 1
      funext t
      exact ih t

theorem exec_append_of_eq_some {s t : σ} {as bs : List α}
    (h : exec step s as = some t) : exec step s (as ++ bs) = exec step t bs := by
  rw [exec_append, h, Option.bind_some]

theorem exec_cons_eq_some {s t : σ} {a : α} {as : List α} :
    exec step s (a :: as) = some t ↔ ∃ u, step s a = some u ∧ exec step u as = some t := by
  rw [exec_cons, Option.bind_eq_some_iff]

theorem exec_concat_eq_some {s t : σ} {a : α} {as : List α} :
    exec step s (as ++ [a]) = some t ↔ ∃ u, exec step s as = some u ∧ step u a = some t := by
  rw [exec_append, Option.bind_eq_some_iff]
  simp

/-! ### What a run passes through -/

/-- The run of `acts` from `s` passes through the state `t`. -/
def Visits (step : σ → α → Option σ) (s : σ) (acts : List α) (t : σ) : Prop :=
  ∃ pre, pre <+: acts ∧ exec step s pre = some t

/-- The run of `acts` from `s` takes the action `a` in the state `t`. -/
def Fires (step : σ → α → Option σ) (s : σ) (acts : List α) (t : σ) (a : α) : Prop :=
  ∃ pre, pre ++ [a] <+: acts ∧ exec step s pre = some t

theorem visits_start (s : σ) (acts : List α) : Visits step s acts s :=
  ⟨[], List.nil_prefix, rfl⟩

theorem visits_end {s t : σ} {acts : List α} (h : exec step s acts = some t) :
    Visits step s acts t :=
  ⟨acts, List.prefix_refl acts, h⟩

theorem not_fires_nil {s t : σ} {a : α} : ¬ Fires step s [] t a := by
  rintro ⟨pre, hpre, -⟩
  simp at hpre

theorem fires_cons {s t : σ} {a b : α} {as : List α} :
    Fires step s (a :: as) t b ↔
      (t = s ∧ b = a) ∨ ∃ u, step s a = some u ∧ Fires step u as t b := by
  refine ⟨?_, ?_⟩
  · rintro ⟨pre, hpre, hrun⟩
    cases pre with
    | nil =>
        obtain ⟨rfl, -⟩ := List.cons_prefix_cons.mp hpre
        exact Or.inl ⟨(Option.some.inj hrun).symm, rfl⟩
    | cons c pre =>
        obtain ⟨rfl, htail⟩ := List.cons_prefix_cons.mp hpre
        obtain ⟨u, hu, hrun⟩ := exec_cons_eq_some.mp hrun
        exact Or.inr ⟨u, hu, pre, htail, hrun⟩
  · rintro (⟨rfl, rfl⟩ | ⟨u, hu, pre, hpre, hrun⟩)
    · exact ⟨[], List.cons_prefix_cons.mpr ⟨rfl, List.nil_prefix⟩, rfl⟩
    · exact ⟨a :: pre, List.cons_prefix_cons.mpr ⟨rfl, hpre⟩,
        exec_cons_eq_some.mpr ⟨u, hu, hrun⟩⟩

/-- What a prefix of a run fires, the run fires. -/
theorem Fires.of_prefix {s t : σ} {a : α} {as bs : List α} (hab : as <+: bs)
    (h : Fires step s as t a) : Fires step s bs t a := by
  obtain ⟨pre, hpre, hrun⟩ := h
  exact ⟨pre, hpre.trans hab, hrun⟩

/-- A visited state is where the run starts or where one of its actions
leads. -/
theorem visits_iff {s t : σ} {acts : List α} :
    Visits step s acts t ↔ t = s ∨ ∃ u a, Fires step s acts u a ∧ step u a = some t := by
  refine ⟨?_, ?_⟩
  · rintro ⟨pre, hpre, hrun⟩
    rcases List.eq_nil_or_concat pre with rfl | ⟨pre, a, rfl⟩
    · exact Or.inl (Option.some.inj hrun).symm
    · rw [List.concat_eq_append] at hpre hrun
      obtain ⟨u, hu, ha⟩ := exec_concat_eq_some.mp hrun
      exact Or.inr ⟨u, a, ⟨pre, hpre, hu⟩, ha⟩
  · rintro (rfl | ⟨u, a, ⟨pre, hpre, hu⟩, ha⟩)
    · exact visits_start t acts
    · exact ⟨pre ++ [a], hpre, exec_concat_eq_some.mpr ⟨u, hu, ha⟩⟩

theorem Fires.visits {s u : σ} {a : α} {acts : List α} (h : Fires step s acts u a) :
    Visits step s acts u := by
  obtain ⟨pre, hpre, hu⟩ := h
  exact ⟨pre, (List.prefix_append pre [a]).trans hpre, hu⟩

theorem Fires.mem {s u : σ} {a : α} {acts : List α} (h : Fires step s acts u a) : a ∈ acts := by
  obtain ⟨pre, hpre, -⟩ := h
  exact hpre.subset (by simp)

/-- A run that gets to its end has performed each of its actions. -/
theorem fires_of_mem {s t : σ} {a : α} {acts : List α} (hrun : exec step s acts = some t)
    (ha : a ∈ acts) : ∃ u, Fires step s acts u a := by
  obtain ⟨pre, post, rfl⟩ := List.append_of_mem ha
  rw [exec_append, Option.bind_eq_some_iff] at hrun
  obtain ⟨u, hu, -⟩ := hrun
  refine ⟨u, pre, ?_, hu⟩
  rw [List.prefix_append_right_inj]
  exact ⟨post, rfl⟩

theorem Fires.succeeds {s t u : σ} {a : α} {acts : List α} (hrun : exec step s acts = some t)
    (h : Fires step s acts u a) : ∃ v, step u a = some v := by
  obtain ⟨pre, ⟨post, rfl⟩, hu⟩ := h
  rw [List.append_assoc, exec_append_of_eq_some hu] at hrun
  obtain ⟨v, hv, -⟩ := exec_cons_eq_some.mp hrun
  exact ⟨v, hv⟩

/-- Everything a run fires satisfies `P`, by recursion on its actions. -/
def AllFire (step : σ → α → Option σ) (P : σ → α → Prop) : σ → List α → Prop
  | _, [] => True
  | s, a :: as => P s a ∧ ∀ t ∈ step s a, AllFire step P t as

instance decidableAllFire (P : σ → α → Prop) [∀ s a, Decidable (P s a)] (s : σ) (acts : List α) :
    Decidable (AllFire step P s acts) :=
  match acts with
  | [] => isTrue trivial
  | a :: as =>
      have : ∀ t, Decidable (AllFire step P t as) := fun t => decidableAllFire P t as
      inferInstanceAs (Decidable (P s a ∧ ∀ t ∈ step s a, AllFire step P t as))

theorem AllFire.of_fires {P : σ → α → Prop} {s t : σ} {a : α} {acts : List α}
    (hall : AllFire step P s acts) (h : Fires step s acts t a) : P t a := by
  induction acts generalizing s with
  | nil => exact absurd h not_fires_nil
  | cons b as ih =>
      rcases fires_cons.mp h with ⟨rfl, rfl⟩ | ⟨u, hu, hfires⟩
      · exact hall.1
      · exact ih (hall.2 u hu) hfires

/-! ### The invariant rules -/

/-- **The run rule.** An invariant that every fired step preserves holds at
the end of the run. `G` is what is known about the steps of this run: the
rule for all runs is the case where it is trivial. -/
theorem exec_invariant_of_fires {I : σ → Prop} {G : σ → α → Prop}
    (hstep : ∀ s a t, I s → G s a → step s a = some t → I t)
    {s t : σ} {acts : List α} (hs : I s) (hG : ∀ u a, Fires step s acts u a → G u a)
    (hrun : exec step s acts = some t) : I t := by
  induction acts generalizing s with
  | nil => exact Option.some.inj hrun ▸ hs
  | cons a as ih =>
      obtain ⟨u, hu, hrun⟩ := exec_cons_eq_some.mp hrun
      have hGa : G s a := hG s a (fires_cons.mpr (Or.inl ⟨rfl, rfl⟩))
      refine ih (hstep s a u hs hGa hu) (fun v b hv => hG v b ?_) hrun
      exact fires_cons.mpr (Or.inr ⟨u, hu, hv⟩)

/-- An invariant of every step is an invariant of every run. -/
theorem exec_invariant {I : σ → Prop} (hstep : ∀ s a t, I s → step s a = some t → I t)
    {s t : σ} {acts : List α} (hs : I s) (hrun : exec step s acts = some t) : I t :=
  exec_invariant_of_fires (G := fun _ _ => True) (fun s a t h _ => hstep s a t h) hs
    (fun _ _ _ => trivial) hrun

/-- The states a run passes through satisfy whatever its steps preserve. -/
theorem Visits.invariant_of_fires {I : σ → Prop} {G : σ → α → Prop}
    (hstep : ∀ s a t, I s → G s a → step s a = some t → I t)
    {s t : σ} {acts : List α} (hs : I s) (hG : ∀ u a, Fires step s acts u a → G u a)
    (h : Visits step s acts t) : I t := by
  obtain ⟨pre, hpre, hrun⟩ := h
  exact exec_invariant_of_fires hstep hs (fun u a hu => hG u a (hu.of_prefix hpre)) hrun

/-- **The last entry.** A run that ends where `I` holds, and did not start
there, has come to `I` by one of its steps and has not left it since. -/
theorem exec_last_entry {I : σ → Prop} {s t : σ} {acts : List α} (hs : ¬ I s)
    (hrun : exec step s acts = some t) (ht : I t) :
    ∃ pre a post u v, acts = pre ++ a :: post ∧ exec step s pre = some u ∧ ¬ I u ∧
      step u a = some v ∧ exec step v post = some t ∧ ∀ w, Visits step v post w → I w := by
  induction acts using List.reverseRecOn generalizing t with
  | nil =>
      cases hrun
      exact absurd ht hs
  | append_singleton acts b ih =>
      obtain ⟨u, hu, hstep⟩ := exec_concat_eq_some.mp hrun
      by_cases hI : I u
      · obtain ⟨pre, a, post, u', v, rfl, hpre, hnot, hentry, hpost, hstays⟩ := ih hu hI
        refine ⟨pre, a, post ++ [b], u', v, by simp, hpre, hnot, hentry,
          exec_concat_eq_some.mpr ⟨u, hpost, hstep⟩, ?_⟩
        rintro w ⟨pre', hpre', hw⟩
        rcases List.prefix_concat_iff.mp hpre' with rfl | hpre'
        · rw [exec_append_of_eq_some hpost, exec_cons, hstep] at hw
          cases hw
          exact ht
        · exact hstays w ⟨pre', hpre', hw⟩
      · refine ⟨acts, b, [], u, t, rfl, hu, hI, hstep, rfl, ?_⟩
        rintro w ⟨pre', hpre', hw⟩
        rw [List.prefix_nil.mp hpre'] at hw
        cases hw
        exact ht

/-- Accounting. A run whose steps `p` spend a unit of the measure each, and
whose steps `q` earn at most `k`, has no more of the former than was there
and was earned. -/
theorem exec_countP_le {I : σ → Prop} {m : σ → ℕ} {p q : α → Bool} {k : ℕ}
    (hinv : ∀ s a t, I s → step s a = some t → I t)
    (hstep : ∀ s a t, I s → step s a = some t →
      m t + (if p a then 1 else 0) ≤ m s + if q a then k else 0)
    {s t : σ} {acts : List α} (hs : I s) (hrun : exec step s acts = some t) :
    m t + acts.countP p ≤ m s + k * acts.countP q := by
  induction acts generalizing s with
  | nil =>
      cases hrun
      simp
  | cons a as ih =>
      obtain ⟨u, hu, hrun⟩ := exec_cons_eq_some.mp hrun
      have hrest := ih (hinv s a u hs hu) hrun
      have hfirst := hstep s a u hs hu
      have hearned : k * (as.countP q + if q a then 1 else 0) =
          k * as.countP q + if q a then k else 0 := by
        cases q a <;> simp [Nat.mul_add]
      rw [List.countP_cons, List.countP_cons, hearned]
      omega

/-! ### Reachable states -/

/-- At most `n` actions, each taken where `G` allows it, lead from `s`
to `t`. -/
def Reaches (step : σ → α → Option σ) (G : σ → α → Prop) (n : ℕ) (s t : σ) : Prop :=
  ∃ acts, acts.length ≤ n ∧ (∀ u a, Fires step s acts u a → G u a) ∧ exec step s acts = some t

theorem fires_concat {s u : σ} {a b : α} {as : List α} (h : Fires step s (as ++ [a]) u b) :
    Fires step s as u b ∨ (exec step s as = some u ∧ b = a) := by
  obtain ⟨pre, hpre, hu⟩ := h
  rcases List.prefix_concat_iff.mp hpre with heq | hpre
  · obtain ⟨rfl, hlast⟩ := List.append_inj' heq rfl
    exact Or.inr ⟨hu, by simpa using hlast⟩
  · exact Or.inl ⟨pre, hpre, hu⟩

theorem Reaches.start {G : σ → α → Prop} (s : σ) : Reaches step G 0 s s :=
  ⟨[], le_rfl, fun _ _ h => absurd h not_fires_nil, rfl⟩

/-- One more action. -/
theorem Reaches.next {G : σ → α → Prop} {n : ℕ} {s t u : σ} {a : α} (h : Reaches step G n s t)
    (hG : G t a) (hstep : step t a = some u) : Reaches step G (n + 1) s u := by
  obtain ⟨acts, hlength, hfires, hrun⟩ := h
  refine ⟨acts ++ [a], ?_, ?_, exec_concat_eq_some.mpr ⟨t, hrun, hstep⟩⟩
  · rw [List.length_append, List.length_singleton]
    exact Nat.succ_le_succ hlength
  · intro v b hb
    rcases fires_concat hb with hb | ⟨hv, rfl⟩
    · exact hfires v b hb
    · rw [hrun] at hv
      cases hv
      exact hG

theorem Reaches.mono {G : σ → α → Prop} {m n : ℕ} {s t : σ} (h : Reaches step G m s t)
    (hmn : m ≤ n) : Reaches step G n s t := by
  obtain ⟨acts, hlength, hfires, hrun⟩ := h
  exact ⟨acts, hlength.trans hmn, hfires, hrun⟩

/-! ### Attempted actions -/

/-- Try one action: a refusal leaves the state as it was. -/
def attempt (step : σ → α → Option σ) (s : σ) (a : α) : σ := (step s a).getD s

/-- Try the actions in order. -/
def attempts (step : σ → α → Option σ) (s : σ) (acts : List α) : σ :=
  acts.foldl (attempt step) s

@[simp] theorem attempts_nil (s : σ) : attempts step s [] = s := rfl

@[simp] theorem attempts_cons (s : σ) (a : α) (as : List α) :
    attempts step s (a :: as) = attempts step (attempt step s a) as := rfl

theorem attempt_of_eq_some {s t : σ} {a : α} (h : step s a = some t) :
    attempt step s a = t := by simp [attempt, h]

theorem attempt_of_eq_none {s : σ} {a : α} (h : step s a = none) :
    attempt step s a = s := by simp [attempt, h]

/-- A reflexive and transitive relation that every step respects relates
the two ends of any sequence of attempts. -/
theorem attempts_rel {R : σ → σ → Prop} (hrefl : ∀ s, R s s)
    (htrans : ∀ s t u, R s t → R t u → R s u)
    (hstep : ∀ s a t, step s a = some t → R s t) (s : σ) (acts : List α) :
    R s (attempts step s acts) := by
  induction acts generalizing s with
  | nil => exact hrefl s
  | cons a as ih =>
      rw [attempts_cons]
      refine htrans _ _ _ ?_ (ih _)
      cases h : step s a with
      | none => rw [attempt_of_eq_none h]; exact hrefl s
      | some t => rw [attempt_of_eq_some h]; exact hstep s a t h

end Lib.Runs
