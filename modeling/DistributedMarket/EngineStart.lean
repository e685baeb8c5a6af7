import DistributedMarket.EngineProgress

/-!
An engine starts, or it does not.

Whatever has happened on the data directory before, a process that runs
`run()` without being interrupted gets to its server if the lock is free, and
otherwise ends without a trace (`engine_serves_or_ends`). The lock is free once
the processes that had it have ended, however they ended; so a crashed engine
can be replaced (`engine_restarts`), which is what a supervisor does who
knows nothing but that the process is gone.
-/

namespace DistributedMarket

open Lib.Flock Lib.Runs SingleWriterLock

variable {π ω : Type} [DecidableEq π] [DecidableEq ω]

namespace EngineState

variable {env : Engines π ω} {s : EngineState π ω} {p : π} {locks : Locks ω}

/-- System calls of a lock object change no stage. -/
theorem exec_other {o : ω} {moves : List Move} (hcalls : ∀ move ∈ moves, move.isCall = false)
    (hexec : exec (Locks.step env.toProcesses) s.locks (moves.map (.on o)) = some locks) :
    exec (step env) s (moves.map fun move => .other (.on o move)) = some ⟨locks, s.stage⟩ := by
  induction moves generalizing s with
  | nil =>
      cases hexec
      rfl
  | cons move moves ih =>
      obtain ⟨u, hu, hrest⟩ := exec_cons_eq_some.mp hexec
      have hnot : ¬ (env.lock (env.home o) = o ∧ (move = .acquire ∨ move = .release)) := by
        rintro ⟨-, rfl | rfl⟩ <;> simp [Move.isCall] at hcalls
      have hstep : step env s (.other (.on o move)) = some ⟨u, s.stage⟩ := by
        rw [step, if_neg hnot, EngineState.move, hu, Option.map_some, Function.update_eq_self]
      exact exec_cons_eq_some.mpr ⟨_, hstep,
        ih (fun move hmove => hcalls move (List.mem_cons_of_mem _ hmove)) hrest⟩

/-- `lock.acquire()` as `run()` calls it. -/
theorem exec_run {n : ℕ} (hstart : s.stage p = .start)
    (hexec : exec (Locks.step env.toProcesses) s.locks
      ((.acquire :: List.replicate n .advance).map (.on (env.lock p))) = some locks) :
    exec (step env) s (.run p :: List.replicate n (.other (.on (env.lock p) .advance))) =
      some ⟨locks, Function.update s.stage p .acquiring⟩ := by
  obtain ⟨u, hu, hrest⟩ := exec_cons_eq_some.mp hexec
  have hrun : step env s (.run p) = some ⟨u, Function.update s.stage p .acquiring⟩ := by
    rw [step, if_pos hstart, EngineState.move, hu, Option.map_some]
  refine exec_cons_eq_some.mpr ⟨_, hrun, ?_⟩
  have hcalls : ∀ move ∈ List.replicate n Move.advance, move.isCall = false := by
    intro move hmove
    rw [List.eq_of_mem_replicate hmove]
    rfl
  have hother := exec_other (s := ⟨u, Function.update s.stage p .acquiring⟩) hcalls hrest
  rwa [List.map_replicate] at hother

/-- `run()` up to `uvicorn.run`. -/
def servedCalls (env : Engines π ω) (p : π) : List (EngineAction π ω) :=
  (.run p :: List.replicate 6 (.other (.on (env.lock p) .advance))) ++ [.serve p]

/-- `run()` up to `sys.exit(1)`. -/
def refusedCalls (env : Engines π ω) (p : π) : List (EngineAction π ω) :=
  (.run p :: List.replicate 3 (.other (.on (env.lock p) .advance))) ++ [.refuse p]

theorem Fits.serves (hfits : s.Fits env) (hready : s.Ready env) (hstart : s.stage p = .start)
    (hfree : s.locks.file.Free) :
    ∃ t, exec (step env) s (servedCalls env p) = some t ∧ t.stage p = .serving ∧
      t.locks.file.Holds (env.lock p) ∧
      t.locks.file.content = env.pidLine (env.lock p) := by
  obtain ⟨locks, hexec, hacquired, hpc⟩ :=
    Locks.exec_acquire_free env.toProcesses (hready.idle hstart) hfree
  have hserve : exec (step env) s (servedCalls env p) = some ⟨locks,
      Function.update (Function.update s.stage p .acquiring) p .serving⟩ := by
    rw [servedCalls, exec_append_of_eq_some (exec_run hstart hexec)]
    simp [step, hpc]
  have hconsistent := (exec_invariant (fun _ _ _ hs hstep => hs.preserved hstep) hfits
    hserve).consistent
  exact ⟨_, hserve, Function.update_self _ _ _, (hconsistent (env.lock p)).holds hacquired⟩

/-- What a process leaves alone that was not there. -/
structure Untouched (env : Engines π ω) (p : π) (s t : EngineState π ω) : Prop where
  content : t.locks.file.content = s.locks.file.content
  table : ∀ fd d, env.home d.owner ≠ p →
    (t.locks.file.table fd = some d ↔ s.locks.file.table fd = some d)
  objects : ∀ o, env.home o ≠ p → t.locks.objects o = s.locks.objects o
  stage : ∀ q, q ≠ p → t.stage q = s.stage q

theorem Ready.refuses (hready : s.Ready env) (hstart : s.stage p = .start)
    (htaken : ¬ s.locks.file.Free) :
    ∃ t, exec (step env) s (refusedCalls env p) = some t ∧ t.stage p = .exited ∧
      Untouched env p s t := by
  obtain ⟨locks, hexec, hpc, htable, hcontent, hobjects⟩ :=
    Locks.exec_acquire_taken env.toProcesses (hready.idle hstart) htaken
  obtain ⟨after, hafter⟩ : ∃ after, Locks.step env.toProcesses locks (.exit p) = some after :=
    ⟨_, rfl⟩
  refine ⟨⟨after, Function.update (Function.update s.stage p .acquiring) p .exited⟩, ?_,
    Function.update_self _ _ _, ?_⟩
  · rw [refusedCalls, exec_append_of_eq_some (exec_run hstart hexec)]
    simp [step, hpc, EngineState.move, hafter]
  · constructor
    case content =>
      rw [← hcontent]
      cases hafter
      rfl
    case table =>
      intro fd d hd
      show after.file.table fd = some d ↔ _
      rw [Locks.table_exit hafter, htable]
      exact and_iff_left hd
    case objects =>
      intro o ho
      show after.objects o = _
      rw [Locks.objects_exit hafter ho, hobjects]
      rintro rfl
      exact ho (env.home_lock p)
    case stage =>
      intro q hq
      show Function.update (Function.update s.stage p .acquiring) p .exited q = s.stage q
      rw [Function.update_of_ne hq, Function.update_of_ne hq]

/-- What is left when processes end. -/
theorem exec_exits (env : Engines π ω) (s : EngineState π ω) (ps : List π) :
    ∃ t, exec (step env) s (ps.map fun q => .other (.exit q)) = some t ∧
      (∀ fd d, t.locks.file.table fd = some d ↔
        s.locks.file.table fd = some d ∧ env.home d.owner ∉ ps) ∧
      ∀ q, q ∉ ps → t.stage q = s.stage q := by
  induction ps generalizing s with
  | nil => exact ⟨s, rfl, by simp, by simp⟩
  | cons p ps ih =>
      obtain ⟨u, hu⟩ : ∃ u, step env s (.other (.exit p)) = some u := ⟨_, rfl⟩
      obtain ⟨hlocks, hstage⟩ := move_eq_some hu
      obtain ⟨t, ht, htable, hstages⟩ := ih u
      refine ⟨t, ?_, fun fd d => ?_, fun q hq => ?_⟩
      · rw [List.map_cons, exec_cons, hu]
        exact ht
      · rw [htable, Locks.table_exit hlocks, List.mem_cons, not_or, and_assoc]
      · rw [List.mem_cons, not_or] at hq
        rw [hstages q hq.2, hstage, Function.update_of_ne hq.1]

end EngineState

open EngineState

variable {env : Engines π ω} {s : EngineState π ω} {content : List Char}
  {acts : List (EngineAction π ω)} {p : π}

/-- **An engine serves or ends**, if nothing interrupts it, whatever has
happened before: it serves, and the file names it, if the lock is free, and
otherwise it ends and leaves everybody and everything as it was. -/
theorem engine_serves_or_ends
    (hrun : exec (EngineState.step env) (EngineState.start content) acts = some s)
    (hstart : s.stage p = .start) :
    (s.locks.file.Free → ∃ t, exec (EngineState.step env) s (servedCalls env p) = some t ∧
        t.stage p = .serving ∧ t.locks.file.Holds (env.lock p) ∧
        t.locks.file.content = env.pidLine (env.lock p)) ∧
      (¬ s.locks.file.Free → ∃ t,
        exec (EngineState.step env) s (refusedCalls env p) = some t ∧
        t.stage p = .exited ∧ Untouched env p s t) :=
  ⟨(fits_of_run hrun).serves (ready_of_run hrun) hstart, (ready_of_run hrun).refuses hstart⟩

/-- Two processes with an engine each. -/
def twoEngines : Engines Bool Bool where
  toProcesses := Locks.twoProcesses
  lock := id
  home_lock := fun _ => rfl

/-- The first serves, and goes on when the second has come and gone. -/
theorem engine_serves_or_ends_of_two : ∃ s,
    exec (EngineState.step twoEngines) (EngineState.start []) (servedCalls twoEngines false) =
        some s ∧
      ∃ t, exec (EngineState.step twoEngines) s (refusedCalls twoEngines true) = some t ∧
        t.stage true = .exited ∧ t.stage false = .serving := by
  have hrun : exec (EngineState.step twoEngines) (EngineState.start [])
    (servedCalls twoEngines false) = some _ := rfl
  refine ⟨_, hrun, ?_⟩
  obtain ⟨t, ht, hexited, huntouched⟩ := (engine_serves_or_ends (p := true) hrun rfl).2 fun hfree =>
    absurd (hfree 0 _ rfl) (by decide)
  exact ⟨t, ht, hexited, (huntouched.stage false (by decide)).trans rfl⟩

/-- **A crashed engine can be replaced.** Wherever the others are stopped,
once the processes that have the lock are gone the next engine serves. -/
theorem engine_restarts
    (hrun : exec (EngineState.step env) (EngineState.start content) acts = some s)
    (hstart : s.stage p = .start) (ps : List π) (hp : p ∉ ps)
    (hps : ∀ fd d, s.locks.file.table fd = some d → d.locked = true → env.home d.owner ∈ ps) :
    ∃ t, exec (EngineState.step env) s
        ((ps.map fun q => .other (.exit q)) ++ servedCalls env p) = some t ∧
      t.stage p = .serving ∧ t.locks.file.Holds (env.lock p) ∧
      t.locks.file.content = env.pidLine (env.lock p) := by
  obtain ⟨u, hu, htable, hstages⟩ := exec_exits env s ps
  have hrun' := (exec_append_of_eq_some hrun).trans hu
  obtain ⟨t, ht, hserving⟩ := (fits_of_run hrun').serves (ready_of_run hrun')
    ((hstages p hp).trans hstart) (Locks.free_of_table htable hps)
  exact ⟨t, (exec_append_of_eq_some hu).trans ht, hserving⟩

/-- The second engine serves once the first has been killed. -/
theorem engine_restarts_of_two : ∃ s,
    exec (EngineState.step twoEngines) (EngineState.start []) (servedCalls twoEngines false) =
        some s ∧
      ∃ t, exec (EngineState.step twoEngines) s
          (([false].map fun q => .other (.exit q)) ++ servedCalls twoEngines true) = some t ∧
        t.stage true = .serving ∧ t.locks.file.Holds (twoEngines.lock true) ∧
        t.locks.file.content = twoEngines.pidLine (twoEngines.lock true) := by
  have hrun : exec (EngineState.step twoEngines) (EngineState.start [])
    (servedCalls twoEngines false) = some _ := rfl
  refine ⟨_, hrun, engine_restarts (p := true) hrun rfl [false] (by decide) ?_⟩
  intro fd d hd hlocked
  cases fd with
  | zero =>
      cases hd
      decide
  | succ fd => contradiction

end DistributedMarket
