import DistributedMarket.Lib.Runs

/-!
Refinement between two partial step functions.

A step of a system shows an event or nothing, and the trace of a run is what
its steps show. A system refines a specification along a map of its states
if each step takes the image of its state through what it shows; then each
run takes it through its trace (`Refines.run`), so that whatever holds of
every run of the specification holds of every run of the system. A step
that shows nothing leaves the image alone.

`trace_invariant` is the rule behind it: a relation between a state and what
has been shown so far, kept by each step, holds at the end of a run.
-/

namespace Lib.Refinement

open Runs

variable {σ α τ ε : Type*} {step : σ → α → Option σ} {event : σ → α → Option ε}

/-- What a run shows. -/
def trace (step : σ → α → Option σ) (event : σ → α → Option ε) : σ → List α → List ε
  | _, [] => []
  | s, a :: as => (event s a).toList ++ (step s a).elim [] fun t => trace step event t as

theorem trace_cons {s t : σ} {a : α} {as : List α} (h : step s a = some t) :
    trace step event s (a :: as) = (event s a).toList ++ trace step event t as := by
  rw [trace, h, Option.elim_some]

/-- **The trace rule.** `seen` is what was shown before. -/
theorem trace_invariant {I : σ → List ε → Prop}
    (hstep : ∀ s a t seen, I s seen → step s a = some t → I t (seen ++ (event s a).toList))
    {s t : σ} {acts : List α} (seen : List ε) (hs : I s seen) (hrun : exec step s acts = some t) :
    I t (seen ++ trace step event s acts) := by
  induction acts generalizing s seen with
  | nil =>
      cases hrun
      rwa [trace, List.append_nil]
  | cons a as ih =>
      obtain ⟨u, hu, hrun⟩ := exec_cons_eq_some.mp hrun
      rw [trace_cons hu, ← List.append_assoc]
      exact ih _ (hstep s a u seen hs hu) hrun

/-- Each step of the system, in a state the invariant allows, is what it
shows to the specification. -/
structure Refines (step : σ → α → Option σ) (event : σ → α → Option ε) (I : σ → Prop)
    (abs : σ → τ) (spec : τ → ε → Option τ) : Prop where
  invariant : ∀ s a t, I s → step s a = some t → I t
  shows : ∀ s a t, I s → step s a = some t → exec spec (abs s) (event s a).toList = some (abs t)

namespace Refines

variable {I : σ → Prop} {abs : σ → τ} {spec : τ → ε → Option τ} {s t : σ} {acts : List α}

/-- **Each run of the system is a run of the specification.** -/
theorem run (h : Refines step event I abs spec) (hs : I s) (hrun : exec step s acts = some t) :
    exec spec (abs s) (trace step event s acts) = some (abs t) := by
  have hinv : I t ∧ exec spec (abs s) (trace step event s acts) = some (abs t) := by
    refine trace_invariant (I := fun u seen => I u ∧ exec spec (abs s) seen = some (abs u))
      (fun u a v seen hu hstep => ?_) [] ⟨hs, rfl⟩ hrun
    refine ⟨h.invariant u a v hu.1 hstep, ?_⟩
    rw [exec_append_of_eq_some hu.2]
    exact h.shows u a v hu.1 hstep
  exact hinv.2

end Refines

end Lib.Refinement
