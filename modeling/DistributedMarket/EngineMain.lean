import DistributedMarket.SingleWriterSafety

/-!
The engine process.

`run()` takes the lock of its module, serves while it holds it, and gives it
back. A process that is refused exits. The engines live among any other
objects on the same directory, so a step of the system is a step of `run()`
or any step of anybody's calls; the calls of an engine's own lock are made by
its `run()` alone.
-/

namespace DistributedMarket

open Lib.Flock Lib.Runs SingleWriterLock

/-- How far `run()` has got in a process. -/
inductive Stage | start | acquiring | serving | releasing | exited
  deriving DecidableEq, Repr

/-- The processes, each with the lock object of its engine module. -/
structure Engines (π ω : Type) extends Processes π ω where
  lock : π → ω
  home_lock : ∀ p, home (lock p) = p

inductive EngineAction (π ω : Type)
  -- `lock.acquire()` is called
  | run (p : π)
  -- it returned, and `uvicorn.run` is entered
  | serve (p : π)
  -- it raised, and the process ends
  | refuse (p : π)
  -- `uvicorn.run` returned or raised, and `lock.release()` is called
  | stop (p : π)
  -- it returned, and the process ends
  | finish (p : π)
  -- a step of a call, a call of another object, or the end of a process
  | other (a : Action π ω)

structure EngineState (π ω : Type) where
  locks : Locks ω
  stage : π → Stage

variable {π ω : Type}

namespace EngineState

def start (content : List Char) : EngineState π ω where
  locks := Locks.start content
  stage := fun _ => .start

variable [DecidableEq π] [DecidableEq ω]

/-- A step of the locks, after which `run()` is at `stage` in `p`. -/
def move (env : Engines π ω) (s : EngineState π ω) (p : π) (a : Action π ω) (stage : Stage) :
    Option (EngineState π ω) :=
  (s.locks.step env.toProcesses a).map fun locks =>
    { locks := locks, stage := Function.update s.stage p stage }

def step (env : Engines π ω) (s : EngineState π ω) : EngineAction π ω → Option (EngineState π ω)
  | .run p =>
      if s.stage p = .start then s.move env p (.on (env.lock p) .acquire) .acquiring else none
  | .serve p =>
      if s.stage p = .acquiring ∧ (s.locks.objects (env.lock p)).pc = .idle .returned then
        some { s with stage := Function.update s.stage p .serving }
      else none
  | .refuse p =>
      if s.stage p = .acquiring ∧ ((s.locks.objects (env.lock p)).pc = .idle .locked ∨
          (s.locks.objects (env.lock p)).pc = .idle .raised) then
        s.move env p (.exit p) .exited
      else none
  | .stop p =>
      if s.stage p = .serving then s.move env p (.on (env.lock p) .release) .releasing else none
  | .finish p =>
      if s.stage p = .releasing ∧ (s.locks.objects (env.lock p)).pc = .idle .returned then
        s.move env p (.exit p) .exited
      else none
  | .other (.on o move) =>
      if env.lock (env.home o) = o ∧ (move = .acquire ∨ move = .release) then none
      else s.move env (env.home o) (.on o move) (s.stage (env.home o))
  | .other (.exit p) => s.move env p (.exit p) .exited

end EngineState

/-! ### What a stage says about the lock -/

/-- The lock of a process, as `run()` relies on it. -/
def StageFits (self : SingleWriterLock) : Stage → Prop
  | .acquiring =>
      match self.pc with
      | .idle .returned => self.fd.isSome
      | .refused _ outcome => outcome ≠ .returned
      | .unlocking | .unlocked | .closed => False
      | _ => True
  | .serving => self.fd.isSome ∧ self.pc = .idle .returned
  | _ => True

theorem StageFits.objectStep {env : Processes π ω} {o : ω} {file file' : Inode ω}
    {self self' : SingleWriterLock} {move : Move} {stage : Stage} (h : StageFits self stage)
    (hstep : self.objectStep env o file move = some (file', self'))
    (hmove : ¬ (move = .acquire ∨ move = .release)) : StageFits self' stage := by
  have hmoves := moves_of_objectStep hstep
  cases stage with
  | acquiring =>
      unfold StageFits at h
      cases hmoves with
      | acquire last hpc => simp at hmove
      | releaseNothing last hpc hfd => simp at hmove
      | release last hpc hfd => simp at hmove
      | flockRefused fd hpc hrefused => simp [StageFits]
      | closeRefused fd outcome hpc =>
          rw [hpc] at h
          cases outcome with
          | returned => contradiction
          | locked => trivial
          | raised => trivial
      | record fd hpc => rfl
      | flockUn fd hpc hfd =>
          rw [hpc] at h
          exact h.elim
      | closeReleased fd hpc hfd =>
          rw [hpc] at h
          exact h.elim
      | clear hpc =>
          rw [hpc] at h
          exact h.elim
      | failFlock errno fd hpc => exact errno.outcome_ne_returned
      | _ => trivial
  | serving => exact absurd (hmoves.of_idle h.2) hmove
  | _ => trivial

namespace EngineState

variable {env : Engines π ω} {s t : EngineState π ω} {p : π}

/-- The process whose step it is. -/
def process (env : Engines π ω) : Action π ω → π
  | .on o _ => env.home o
  | .exit p => p

/-- Every object is consistent, and every `run()` is right about its lock. -/
structure Fits (env : Engines π ω) (s : EngineState π ω) : Prop where
  consistent : s.locks.AllConsistent env.toProcesses
  stage : ∀ p, StageFits (s.locks.objects (env.lock p)) (s.stage p)

theorem fits_start (content : List Char) : (start content : EngineState π ω).Fits env where
  consistent := Locks.allConsistent_start content
  stage := fun _ => trivial

/-- A process that serves has acquired its lock. -/
theorem Fits.acquired (h : s.Fits env) (hserving : s.stage p = .serving) :
    (s.locks.objects (env.lock p)).Acquired := by
  have hfits := h.stage p
  rw [hserving] at hfits
  obtain ⟨hsome, hpc⟩ := hfits
  exact ⟨hsome, by simp [hpc], by simp [hpc]⟩

theorem Fits.serving_unique {q : π} (h : s.Fits env) (hp : s.stage p = .serving)
    (hq : s.stage q = .serving) : p = q := by
  have hholds := ((h.consistent (env.lock p)).holds (h.acquired hp)).1
  have hholds' := ((h.consistent (env.lock q)).holds (h.acquired hq)).1
  have hlock : env.lock p = env.lock q := hholds.unique hholds'
  rw [← env.home_lock p, hlock, env.home_lock]

variable [DecidableEq π] [DecidableEq ω]

theorem move_eq_some {a : Action π ω} {stage : Stage} (h : s.move env p a stage = some t) :
    s.locks.step env.toProcesses a = some t.locks ∧
      t.stage = Function.update s.stage p stage := by
  obtain ⟨locks, hstep, rfl⟩ := Option.map_eq_some_iff.mp h
  exact ⟨hstep, rfl⟩

/-- A step of one process leaves the lock objects of the others alone. -/
theorem objects_of_ne {a : Action π ω} {locks : Locks ω} {o : ω}
    (hstep : s.locks.step env.toProcesses a = some locks) (ho : env.home o ≠ process env a) :
    locks.objects o = s.locks.objects o := by
  cases a with
  | on o' move =>
      obtain ⟨file, self, -, rfl⟩ := Locks.step_on hstep
      apply Function.update_of_ne
      rintro rfl
      exact ho rfl
  | exit p =>
      cases hstep
      exact if_neg ho

/-- To keep the invariant, a step of `p` has to fit its own lock. -/
theorem Fits.of_move {a : Action π ω} {stage : Stage} (h : s.Fits env)
    (hmove : s.move env p a stage = some t) (ha : process env a = p)
    (hp : StageFits (t.locks.objects (env.lock p)) stage) : t.Fits env := by
  obtain ⟨hstep, hstage⟩ := move_eq_some hmove
  refine ⟨h.consistent.preserved hstep, ?_⟩
  intro q
  rw [hstage]
  by_cases hq : q = p
  · subst hq
    rw [Function.update_self]
    exact hp
  · have hne : env.home (env.lock q) ≠ process env a := by
      rw [env.home_lock, ha]
      exact hq
    rw [Function.update_of_ne hq, objects_of_ne hstep hne]
    exact h.stage q

theorem Fits.preserved {a : EngineAction π ω} (h : s.Fits env) (hstep : s.step env a = some t) :
    t.Fits env := by
  cases a with
  | run p =>
      obtain ⟨-, hmove⟩ := Option.ite_none_right_eq_some.mp hstep
      apply h.of_move hmove (env.home_lock p)
      obtain ⟨file, self, hacquire, hlocks⟩ := Locks.step_on (move_eq_some hmove).1
      simp only [hlocks, Function.update_self]
      simp only [objectStep] at hacquire
      split at hacquire
      · cases hacquire
        trivial
      · contradiction
  | serve p =>
      obtain ⟨⟨hstage, hpc⟩, heq⟩ := Option.ite_none_right_eq_some.mp hstep
      cases heq
      refine ⟨h.consistent, ?_⟩
      intro q
      show StageFits (s.locks.objects (env.lock q)) (Function.update s.stage p .serving q)
      by_cases hq : q = p
      · subst hq
        have hfits := h.stage q
        rw [hstage, StageFits, hpc] at hfits
        rw [Function.update_self]
        exact ⟨hfits, hpc⟩
      · rw [Function.update_of_ne hq]
        exact h.stage q
  | refuse p =>
      obtain ⟨-, hmove⟩ := Option.ite_none_right_eq_some.mp hstep
      exact h.of_move hmove rfl trivial
  | stop p =>
      obtain ⟨-, hmove⟩ := Option.ite_none_right_eq_some.mp hstep
      exact h.of_move hmove (env.home_lock p) trivial
  | finish p =>
      obtain ⟨-, hmove⟩ := Option.ite_none_right_eq_some.mp hstep
      exact h.of_move hmove rfl trivial
  | other a =>
      cases a with
      | exit p => exact h.of_move hstep rfl trivial
      | on o move =>
          obtain ⟨hcall, hmove⟩ := Option.ite_none_left_eq_some.mp hstep
          apply h.of_move hmove rfl
          have hfits := h.stage (env.home o)
          obtain ⟨file, self, hobject, hlocks⟩ := Locks.step_on (move_eq_some hmove).1
          simp only [hlocks]
          by_cases ho : env.lock (env.home o) = o
          · rw [ho] at hfits ⊢
            rw [Function.update_self]
            exact hfits.objectStep hobject fun hmove => hcall ⟨ho, hmove⟩
          · rw [Function.update_of_ne ho]
            exact hfits

theorem fits_of_run {content : List Char} {acts : List (EngineAction π ω)}
    (hrun : exec (step env) (start content) acts = some s) : s.Fits env :=
  exec_invariant (fun _ _ _ hs hstep => hs.preserved hstep) (fits_start content) hrun

end EngineState

/-- **Single writer.** In every run of any number of lock objects the
guarantees of `SingleWriter` hold, and no two processes that go through
`run()` serve at once. -/
theorem single_writer [DecidableEq π] [DecidableEq ω] (content : List Char) :
    (∀ (env : Processes π ω) (acts : List (Action π ω)) (s : Locks ω),
        exec (Locks.step env) (Locks.start content) acts = some s → s.SingleWriter env) ∧
      ∀ (env : Engines π ω) (acts : List (EngineAction π ω)) (s : EngineState π ω),
        exec (EngineState.step env) (EngineState.start content) acts = some s →
          ∀ p q, s.stage p = .serving → s.stage q = .serving → p = q := by
  refine ⟨?_, ?_⟩
  · intro env acts s hrun
    exact (Locks.allConsistent_of_run hrun).singleWriter
  · intro env acts s hrun p q hp hq
    exact (EngineState.fits_of_run hrun).serving_unique hp hq

/-- One process, number 7, with one lock. -/
def oneEngine : Engines Unit Unit where
  home := id
  getpid := fun _ => 7
  lock := id
  home_lock := fun _ => rfl

/-- The six steps of an `acquire` that succeeds. -/
def acquireCalls : List (Action Unit Unit) :=
  .on () .acquire :: List.replicate 6 (.on () .advance)

/-- The same through `run()`, up to `uvicorn.run`. -/
def serveCalls : List (EngineAction Unit Unit) :=
  .run () :: List.replicate 6 (.other (.on () .advance)) ++ [.serve ()]

theorem single_writer_of_one :
    (∃ s, exec (Locks.step oneEngine.toProcesses) (Locks.start ['9', '\n']) acquireCalls = some s ∧
        s.SingleWriter oneEngine.toProcesses) ∧
      ∃ s, exec (EngineState.step oneEngine) (EngineState.start ['9', '\n']) serveCalls = some s ∧
        ∀ p q, s.stage p = .serving → s.stage q = .serving → p = q :=
  ⟨⟨_, rfl, (single_writer ['9', '\n']).1 oneEngine.toProcesses acquireCalls _ rfl⟩,
    ⟨_, rfl, (single_writer ['9', '\n']).2 oneEngine serveCalls _ rfl⟩⟩

/-- Between the unlocking and the end of a `release`, `_fd` is set and the
lock is not held. -/
theorem released_fd_still_set :
    ¬ ∀ (acts : List (Action Unit Unit)) (s : Locks Unit),
      exec (Locks.step oneEngine.toProcesses) (Locks.start []) acts = some s →
        ∀ o, (s.objects o).fd.isSome → s.file.Holds o := by
  intro h
  obtain ⟨fd, d, hd, -, hlocked⟩ :=
    h (acquireCalls ++ [.on () .release, .on () .advance]) _ rfl () rfl
  cases fd with
  | zero =>
      cases hd
      contradiction
  | succ fd => contradiction

end DistributedMarket
