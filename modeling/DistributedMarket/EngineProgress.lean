import DistributedMarket.LockProgress

/-!
Every engine runs to its end.

A run of the engines is a run of their locks (`locks_run`), so what is known
of the descriptors holds among engines too. Here the progress of one process
is followed: `EngineState.left` is what `run()` has still to do there, a call
of a method, a step of a call or one of `run()` itself lowers it, and nothing
any other process does changes it. Only `uvicorn.run` may take its time.
-/

namespace DistributedMarket

open Lib.Flock Lib.Runs SingleWriterLock

variable {π ω : Type}

namespace EngineState

/-! ### The locks of a run -/

section

variable [DecidableEq π] [DecidableEq ω] {env : Engines π ω} {s t : EngineState π ω}
  {content : List Char} {acts : List (EngineAction π ω)} {p : π}

/-- A step of the engines is at most one step of the locks. -/
theorem locks_step {a : EngineAction π ω} (hstep : s.step env a = some t) :
    t.locks = s.locks ∨ ∃ b, s.locks.step env.toProcesses b = some t.locks := by
  cases a with
  | run p =>
      obtain ⟨-, hmove⟩ := Option.ite_none_right_eq_some.mp hstep
      exact Or.inr ⟨_, (move_eq_some hmove).1⟩
  | serve p =>
      obtain ⟨-, heq⟩ := Option.ite_none_right_eq_some.mp hstep
      cases heq
      exact Or.inl rfl
  | refuse p =>
      obtain ⟨-, hmove⟩ := Option.ite_none_right_eq_some.mp hstep
      exact Or.inr ⟨_, (move_eq_some hmove).1⟩
  | stop p =>
      obtain ⟨-, hmove⟩ := Option.ite_none_right_eq_some.mp hstep
      exact Or.inr ⟨_, (move_eq_some hmove).1⟩
  | finish p =>
      obtain ⟨-, hmove⟩ := Option.ite_none_right_eq_some.mp hstep
      exact Or.inr ⟨_, (move_eq_some hmove).1⟩
  | other a =>
      cases a with
      | on o move =>
          obtain ⟨-, hmove⟩ := Option.ite_none_left_eq_some.mp hstep
          exact Or.inr ⟨_, (move_eq_some hmove).1⟩
      | exit p => exact Or.inr ⟨_, (move_eq_some hstep).1⟩

theorem locks_run (hrun : exec (step env) (start content) acts = some s) :
    ∃ acts', exec (Locks.step env.toProcesses) (Locks.start content) acts' = some s.locks := by
  refine exec_invariant (I := fun u : EngineState π ω => ∃ acts',
    exec (Locks.step env.toProcesses) (Locks.start content) acts' = some u.locks) ?_ ⟨[], rfl⟩ hrun
  rintro u a v ⟨acts', hu⟩ hstep
  rcases locks_step hstep with heq | ⟨b, hb⟩
  · exact ⟨acts', heq ▸ hu⟩
  · exact ⟨acts' ++ [b], exec_concat_eq_some.mpr ⟨u.locks, hu, hb⟩⟩

end

/-! ### Where the lock is at each stage -/

/-- How far the calls of a lock have got when `run()` is at a stage. -/
def StageReady (self : SingleWriterLock) : Stage → Prop
  | .start => self.pc = .idle .returned
  | .acquiring => self.pc ≠ .gone
  | .serving => True
  | .releasing =>
      match self.pc with
      | .unlocking | .unlocked | .closed | .idle .returned => True
      | _ => False
  | .exited => self.pc = .gone

theorem StageReady.objectStep {env : Processes π ω} {o : ω} {file file' : Inode ω}
    {self self' : SingleWriterLock} {move : Move} {stage : Stage} (h : StageReady self stage)
    (hstep : self.objectStep env o file move = some (file', self'))
    (hmove : ¬ (move = .acquire ∨ move = .release)) : StageReady self' stage := by
  have hmoves := moves_of_objectStep hstep
  cases stage with
  | start => exact absurd (hmoves.of_idle h) hmove
  | acquiring => exact hmoves.not_gone.2
  | serving => trivial
  | releasing =>
      unfold StageReady at h
      cases hmoves with
      | acquire last hpc => simp at hmove
      | releaseNothing last hpc hfd => simp at hmove
      | release last hpc hfd => simp at hmove
      | flockUn fd hpc hfd => trivial
      | closeReleased fd hpc hfd => trivial
      | clear hpc => trivial
      | failHeld errno fd hpc => rcases hpc with hpc | hpc | hpc <;> simp [hpc] at h
      | _ => simp_all
  | exited => exact absurd h hmoves.not_gone.1

variable {env : Engines π ω} {s t : EngineState π ω} {p : π}

/-- Every `run()` is where its lock is, and an ended process stays so. -/
structure Ready (env : Engines π ω) (s : EngineState π ω) : Prop where
  stage : ∀ p, StageReady (s.locks.objects (env.lock p)) (s.stage p)
  exited : ∀ o, s.stage (env.home o) = .exited → (s.locks.objects o).pc = .gone

theorem ready_start (content : List Char) : (start content : EngineState π ω).Ready env where
  stage := fun _ => rfl
  exited := fun _ h => by cases h

theorem Ready.idle (h : s.Ready env) (hstart : s.stage p = .start) :
    (s.locks.objects (env.lock p)).pc = .idle .returned := by
  have hready := h.stage p
  rwa [hstart] at hready

/-- How many steps `run()` and its lock can still take in a process. -/
def left (env : Engines π ω) (p : π) (s : EngineState π ω) : ℕ :=
  match s.stage p with
  | .start => 13
  | .acquiring => (s.locks.objects (env.lock p)).pc.left + 6
  | .serving => 5
  | .releasing => (s.locks.objects (env.lock p)).pc.left + 1
  | .exited => 0

/-- What a process has left depends on its stage and its lock. -/
theorem left_congr (hstage : t.stage p = s.stage p)
    (hobject : t.locks.objects (env.lock p) = s.locks.objects (env.lock p)) :
    t.left env p = s.left env p := by
  rw [left, left, hstage, hobject]

variable [DecidableEq π] [DecidableEq ω]

theorem Ready.of_move {a : Action π ω} {stage : Stage} (h : s.Ready env)
    (hmove : s.move env p a stage = some t) (ha : process env a = p)
    (hp : StageReady (t.locks.objects (env.lock p)) stage)
    (hexited : stage = .exited → ∀ o, env.home o = p → (t.locks.objects o).pc = .gone) :
    t.Ready env := by
  obtain ⟨hstep, hstage⟩ := move_eq_some hmove
  refine ⟨fun q => ?_, fun o => ?_⟩
  · rw [hstage]
    by_cases hq : q = p
    · subst hq
      rw [Function.update_self]
      exact hp
    · have hne : env.home (env.lock q) ≠ process env a := by
        rw [env.home_lock, ha]
        exact hq
      rw [Function.update_of_ne hq, objects_of_ne hstep hne]
      exact h.stage q
  · rw [hstage]
    by_cases ho : env.home o = p
    · rw [ho, Function.update_self]
      intro hstage
      exact hexited hstage o ho
    · rw [Function.update_of_ne ho, objects_of_ne hstep (ha ▸ ho)]
      exact h.exited o

theorem gone_of_exit {locks : Locks ω}
    (hstep : s.locks.step env.toProcesses (.exit p) = some locks) :
    ∀ o, env.home o = p → (locks.objects o).pc = .gone := by
  intro o ho
  cases hstep
  simp [ho]

theorem Ready.of_exit (h : s.Ready env) (hmove : s.move env p (.exit p) .exited = some t) :
    t.Ready env := by
  have hgone := gone_of_exit (move_eq_some hmove).1
  exact h.of_move hmove rfl (hgone _ (env.home_lock p)) fun _ => hgone

theorem Ready.preserved {a : EngineAction π ω} (h : s.Ready env)
    (hstep : s.step env a = some t) : t.Ready env := by
  cases a with
  | run p =>
      obtain ⟨-, hmove⟩ := Option.ite_none_right_eq_some.mp hstep
      refine h.of_move hmove (env.home_lock p) ?_ (fun hstage => by contradiction)
      obtain ⟨file, self, hacquire, hlocks⟩ := Locks.step_on (move_eq_some hmove).1
      simp only [hlocks, Function.update_self]
      exact (moves_of_objectStep hacquire).not_gone.2
  | serve p =>
      obtain ⟨⟨hstage, hpc⟩, heq⟩ := Option.ite_none_right_eq_some.mp hstep
      cases heq
      refine ⟨fun q => ?_, fun o => ?_⟩
      · show StageReady (s.locks.objects (env.lock q)) (Function.update s.stage p .serving q)
        by_cases hq : q = p
        · subst hq
          rw [Function.update_self]
          trivial
        · rw [Function.update_of_ne hq]
          exact h.stage q
      · show Function.update s.stage p .serving (env.home o) = .exited → _
        by_cases ho : env.home o = p
        · rw [ho, Function.update_self]
          intro hstage
          contradiction
        · rw [Function.update_of_ne ho]
          exact h.exited o
  | refuse p =>
      obtain ⟨-, hmove⟩ := Option.ite_none_right_eq_some.mp hstep
      exact h.of_exit hmove
  | stop p =>
      obtain ⟨hstage, hmove⟩ := Option.ite_none_right_eq_some.mp hstep
      refine h.of_move hmove (env.home_lock p) ?_ (fun hstage => by contradiction)
      obtain ⟨file, self, hrelease, hlocks⟩ := Locks.step_on (move_eq_some hmove).1
      simp only [hlocks, Function.update_self]
      cases moves_of_objectStep hrelease with
      | releaseNothing last hpc hfd => trivial
      | release last hpc hfd => trivial
  | finish p =>
      obtain ⟨-, hmove⟩ := Option.ite_none_right_eq_some.mp hstep
      exact h.of_exit hmove
  | other a =>
      cases a with
      | exit p => exact h.of_exit hstep
      | on o move =>
          obtain ⟨hcall, hmove⟩ := Option.ite_none_left_eq_some.mp hstep
          obtain ⟨file, self, hobject, hlocks⟩ := Locks.step_on (move_eq_some hmove).1
          refine h.of_move hmove rfl ?_ fun hstage => ?_
          · have hready := h.stage (env.home o)
            simp only [hlocks]
            by_cases ho : env.lock (env.home o) = o
            · rw [ho] at hready ⊢
              rw [Function.update_self]
              exact hready.objectStep hobject fun hmove => hcall ⟨ho, hmove⟩
            · rw [Function.update_of_ne ho]
              exact hready
          · exact absurd (h.exited o hstage) (moves_of_objectStep hobject).not_gone.1

theorem ready_of_run {content : List Char} {acts : List (EngineAction π ω)}
    (hrun : exec (step env) (start content) acts = some s) : s.Ready env :=
  exec_invariant (fun _ _ _ hs hstep => hs.preserved hstep) (ready_start content) hrun

/-! ### What is left to do -/

/-- A step of `run()` in `p`, or of a call of its lock. -/
def isOwn (env : Engines π ω) (p : π) : EngineAction π ω → Bool
  | .run q | .serve q | .refuse q | .stop q | .finish q => q = p
  | .other (.on o _) => o = env.lock p
  | .other (.exit _) => false

theorem left_of_move {q : π} {a : Action π ω} {stage : Stage}
    (hmove : s.move env q a stage = some t) (ha : process env a = q) (hq : q ≠ p) :
    t.left env p = s.left env p := by
  obtain ⟨hstep, hstage⟩ := move_eq_some hmove
  refine left_congr ?_ (objects_of_ne hstep ?_)
  · rw [hstage, Function.update_of_ne (Ne.symm hq)]
  · rw [env.home_lock, ha]
    exact Ne.symm hq

theorem left_of_exit {q : π} (hmove : s.move env q (.exit q) .exited = some t) :
    t.left env p ≤ s.left env p ∧ (q = p → t.left env p = 0) := by
  by_cases hq : q = p
  · subst hq
    have hzero : t.left env q = 0 := by
      rw [left, (move_eq_some hmove).2, Function.update_self]
    exact ⟨by omega, fun _ => hzero⟩
  · exact ⟨(left_of_move hmove rfl hq).le, fun h => absurd h hq⟩

/-- A step of a call of the lock of `p`. -/
theorem left_of_step {o : ω} {move : Move} (h : s.Ready env) (hfits : s.Fits env)
    (hcall : ¬ (move = .acquire ∨ move = .release))
    (hmove : s.move env (env.home o) (.on o move) (s.stage (env.home o)) = some t)
    (ho : o = env.lock p) : t.left env p + 1 ≤ s.left env p := by
  subst ho
  obtain ⟨hstep, hstage⟩ := move_eq_some hmove
  obtain ⟨file, self, hobject, hlocks⟩ := Locks.step_on hstep
  have hmoves := moves_of_objectStep hobject
  have hleft := hmoves.left_le
  have hready := h.stage p
  have hnot : move.isCall = false := by
    cases move with
    | acquire => simp at hcall
    | release => simp at hcall
    | advance => rfl
    | osError errno => rfl
  rw [hnot] at hleft
  rw [left, left, hstage, env.home_lock, Function.update_eq_self, hlocks]
  simp only [Function.update_self]
  cases hs : s.stage p with
  | start =>
      rw [hs] at hready
      exact absurd (hmoves.of_idle hready) hcall
  | acquiring =>
      simp only [Bool.false_eq_true, if_false] at hleft ⊢
      omega
  | serving =>
      have hserving := hfits.stage p
      rw [hs] at hserving
      exact absurd (hmoves.of_idle hserving.2) hcall
  | releasing =>
      simp only [Bool.false_eq_true, if_false] at hleft ⊢
      omega
  | exited =>
      rw [hs] at hready
      exact absurd hready hmoves.not_gone.1

theorem left_le {a : EngineAction π ω} (h : s.Ready env) (hfits : s.Fits env)
    (hstep : s.step env a = some t) :
    t.left env p + (if isOwn env p a then 1 else 0) ≤ s.left env p := by
  cases a with
  | run q =>
      obtain ⟨hstage, hmove⟩ := Option.ite_none_right_eq_some.mp hstep
      by_cases hq : q = p
      · subst hq
        obtain ⟨hacquire, hstage'⟩ := move_eq_some hmove
        obtain ⟨file, self, hobject, hlocks⟩ := Locks.step_on hacquire
        cases moves_of_objectStep hobject with
        | acquire last hpc => simp [left, isOwn, hstage, hstage', hlocks, Pc.left]
      · simp [isOwn, hq, left_of_move hmove (env.home_lock q) hq]
  | serve q =>
      obtain ⟨⟨hstage, hpc⟩, heq⟩ := Option.ite_none_right_eq_some.mp hstep
      cases heq
      by_cases hq : q = p
      · subst hq
        simp [left, isOwn, hstage]
      · simp [isOwn, hq, left, Function.update_of_ne (Ne.symm hq)]
  | refuse q =>
      obtain ⟨⟨hstage, -⟩, hmove⟩ := Option.ite_none_right_eq_some.mp hstep
      obtain ⟨hle, hzero⟩ := left_of_exit (p := p) hmove
      by_cases hq : q = p
      · subst hq
        have hpos : 1 ≤ s.left env q := by simp [left, hstage]
        simpa [isOwn, hzero rfl] using hpos
      · simpa [isOwn, hq] using hle
  | stop q =>
      obtain ⟨hstage, hmove⟩ := Option.ite_none_right_eq_some.mp hstep
      by_cases hq : q = p
      · subst hq
        obtain ⟨hrelease, hstage'⟩ := move_eq_some hmove
        obtain ⟨file, self, hobject, hlocks⟩ := Locks.step_on hrelease
        cases moves_of_objectStep hobject with
        | releaseNothing last hpc hfd => simp [left, isOwn, hstage, hstage', hlocks, Pc.left]
        | release last hpc hfd => simp [left, isOwn, hstage, hstage', hlocks, Pc.left]
      · simp [isOwn, hq, left_of_move hmove (env.home_lock q) hq]
  | finish q =>
      obtain ⟨⟨hstage, -⟩, hmove⟩ := Option.ite_none_right_eq_some.mp hstep
      obtain ⟨hle, hzero⟩ := left_of_exit (p := p) hmove
      by_cases hq : q = p
      · subst hq
        have hpos : 1 ≤ s.left env q := by simp [left, hstage]
        simpa [isOwn, hzero rfl] using hpos
      · simpa [isOwn, hq] using hle
  | other a =>
      cases a with
      | exit q =>
          obtain ⟨hle, -⟩ := left_of_exit (p := p) hstep
          simpa [isOwn] using hle
      | on o move =>
          obtain ⟨hcall, hmove⟩ := Option.ite_none_left_eq_some.mp hstep
          by_cases ho : o = env.lock p
          · have hcall' : ¬ (move = .acquire ∨ move = .release) := by
              subst ho
              rw [env.home_lock] at hcall
              exact fun hmove => hcall ⟨rfl, hmove⟩
            simpa [isOwn, ho] using left_of_step h hfits hcall' hmove ho
          · obtain ⟨hobject, hstage⟩ := move_eq_some hmove
            obtain ⟨file, self, -, hlocks⟩ := Locks.step_on hobject
            have hsame : t.left env p = s.left env p := by
              refine left_congr ?_ ?_
              · rw [hstage, Function.update_eq_self]
              · rw [hlocks]
                exact Function.update_of_ne (Ne.symm ho) _ _
            simp [isOwn, ho, hsame]

theorem exists_move {o : ω} {move : Move} {stage : Stage}
    (h : ∃ after, (s.locks.objects o).objectStep env.toProcesses o s.locks.file move = some after) :
    ∃ t, s.move env p (.on o move) stage = some t := by
  obtain ⟨after, hafter⟩ := h
  simp [EngineState.move, Locks.step, hafter]

/-- `run()` or its lock can go on. -/
theorem exists_own_step (h : s.Ready env) (hfits : s.Fits env)
    (hreleases : Releases (s.locks.objects (env.lock p))) (hstage : s.stage p ≠ .exited) :
    ∃ a t, isOwn env p a = true ∧ s.step env a = some t := by
  have hready := h.stage p
  have hserving := hfits.stage p
  have hnext : (s.locks.objects (env.lock p)).pc.left ≠ 0 →
      ∃ a t, isOwn env p a = true ∧ s.step env a = some t := by
    intro hleft
    obtain ⟨t, ht⟩ : ∃ t, s.move env (env.home (env.lock p)) (.on (env.lock p) .advance)
        (s.stage (env.home (env.lock p))) = some t :=
      exists_move (hreleases.advances hleft env.toProcesses (env.lock p) s.locks.file)
    exact ⟨.other (.on (env.lock p) .advance), t, by simp [isOwn], by simpa [step] using ht⟩
  have hcall : ∀ (move : Move) (stage : Stage) {last : Outcome},
      (s.locks.objects (env.lock p)).pc = .idle last → move.isCall = true →
      ∃ t, s.move env p (.on (env.lock p) move) stage = some t := by
    intro move stage last hpc hmove
    exact exists_move (exists_call hpc hmove env.toProcesses (env.lock p) s.locks.file)
  cases hs : s.stage p with
  | start =>
      rw [hs] at hready
      obtain ⟨t, ht⟩ := hcall .acquire .acquiring hready rfl
      exact ⟨.run p, t, by simp [isOwn], by simpa [step, hs] using ht⟩
  | acquiring =>
      cases hpc : (s.locks.objects (env.lock p)).pc with
      | idle last =>
          cases last with
          | returned => exact ⟨.serve p, by simp [isOwn, step, hs, hpc]⟩
          | locked => exact ⟨.refuse p, by simp [isOwn, step, hs, hpc, move, Locks.step]⟩
          | raised => exact ⟨.refuse p, by simp [isOwn, step, hs, hpc, move, Locks.step]⟩
      | gone =>
          rw [hs] at hready
          exact absurd hpc hready
      | _ => exact hnext (by simp [hpc, Pc.left])
  | serving =>
      rw [hs] at hserving
      obtain ⟨t, ht⟩ := hcall .release .releasing hserving.2 rfl
      exact ⟨.stop p, t, by simp [isOwn], by simpa [step, hs] using ht⟩
  | releasing =>
      rw [hs] at hready
      cases hpc : (s.locks.objects (env.lock p)).pc with
      | idle last =>
          cases last with
          | returned => exact ⟨.finish p, by simp [isOwn, step, hs, hpc, move, Locks.step]⟩
          | locked => simp [StageReady, hpc] at hready
          | raised => simp [StageReady, hpc] at hready
      | gone => simp [StageReady, hpc] at hready
      | _ => exact hnext (by simp [hpc, Pc.left])
  | exited => exact absurd hs hstage

end EngineState

open EngineState

variable [DecidableEq π] [DecidableEq ω] {env : Engines π ω} {s : EngineState π ω}
  {content : List Char} {acts : List (EngineAction π ω)}

/-- **Every engine ends.** In every state a run leads to, a process that has
not exited can take a step of `run()` or of its lock. No run holds more than
thirteen such steps of one process, whatever the others do, and a process
that has exited has no descriptor of the lock file. -/
theorem engine_ends (hrun : exec (EngineState.step env) (EngineState.start content) acts = some s)
    (p : π) :
    (s.stage p ≠ .exited → ∃ a t, isOwn env p a = true ∧ s.step env a = some t) ∧
      acts.countP (isOwn env p) ≤ 13 ∧
      (s.stage p = .exited → ∀ fd d, s.locks.file.table fd = some d → env.home d.owner ≠ p) := by
  obtain ⟨acts', hlocks⟩ := locks_run hrun
  have hready := ready_of_run hrun
  refine ⟨?_, ?_, fun hexited fd d hd hhome => ?_⟩
  · exact exists_own_step hready (fits_of_run hrun) (Locks.releases_of_run hlocks _)
  · have hcount := exec_countP_le (I := fun u : EngineState π ω => u.Ready env ∧ u.Fits env)
      (m := EngineState.left env p) (p := isOwn env p) (q := fun _ => false) (k := 0)
      (fun u a v hu hstep => ⟨hu.1.preserved hstep, hu.2.preserved hstep⟩)
      (fun u a v hu hstep => EngineState.left_le hu.1 hu.2 hstep)
      ⟨ready_start content, fits_start content⟩ hrun
    have hstart : EngineState.left env p (EngineState.start content) = 13 := rfl
    omega
  · have hgone := hready.exited d.owner (by rw [hhome, hexited])
    exact Locks.gone_of_run hlocks hgone fd d hd rfl

theorem engine_ends_of_one : ∃ s,
    exec (EngineState.step oneEngine) (EngineState.start ['9', '\n']) serveCalls = some s ∧
      (s.stage () ≠ .exited → ∃ a t, isOwn oneEngine () a = true ∧ s.step oneEngine a = some t) ∧
      serveCalls.countP (isOwn oneEngine ()) ≤ 13 ∧
      (s.stage () = .exited →
        ∀ fd d, s.locks.file.table fd = some d → oneEngine.home d.owner ≠ ()) :=
  have hrun : exec (EngineState.step oneEngine) (EngineState.start ['9', '\n']) serveCalls =
    some _ := rfl
  ⟨_, hrun, engine_ends hrun ()⟩

end DistributedMarket
