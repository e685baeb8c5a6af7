import DistributedMarket.EngineMain
import DistributedMarket.LostDescriptors

/-!
Every call ends.

`LOCK_NB` makes `flock` answer at once, so no step of an object ever waits
for another object. The measure is `Pc.left`, the number of steps the current
call can still take: each of them lowers it, whoever else does what in
between, and while it is not zero the next one can be taken.
-/

namespace DistributedMarket

open Lib.Flock Lib.Runs SingleWriterLock

variable {π ω : Type} {env : Processes π ω} {file file' : Inode ω} {o : ω}
  {self self' : SingleWriterLock} {move : Move}

/-! ### Calls -/

/-- How many steps the call can still take. -/
def Pc.left : Pc → ℕ
  | .opening => 6
  | .opened _ => 5
  | .won _ => 4
  | .truncated _ => 3
  | .written _ => 2
  | .synced _ => 1
  | .refused _ _ => 1
  | .unlocking => 3
  | .unlocked => 2
  | .closed => 1
  | .idle _ | .gone => 0

/-- The object is called. -/
def Move.isCall : Move → Bool
  | .acquire | .release => true
  | .advance | .osError _ => false

/-- Each step uses the call up, and a new call has six at most. -/
theorem SingleWriterLock.Moves.left_le (h : Moves env o file self move file' self') :
    self'.pc.left + (if move.isCall then 0 else 1) ≤
      self.pc.left + if move.isCall then 6 else 0 := by
  cases h with
  | failHeld errno fd hpc =>
      rcases hpc with hpc | hpc | hpc <;> simp [hpc, Pc.left, Move.isCall]
  | _ => simp_all [Pc.left, Move.isCall]

/-- A `release` under way has a descriptor to release. -/
def Releases (self : SingleWriterLock) : Prop :=
  self.pc = .unlocking ∨ self.pc = .unlocked → self.fd ≠ none

theorem SingleWriterLock.Moves.releases (h : Moves env o file self move file' self') :
    Releases self' := by
  cases h with
  | release last hpc hfd => exact fun _ => hfd
  | flockUn fd hpc hfd => simp [Releases, hfd]
  | _ => simp [Releases]

/-- The next step can be taken. -/
theorem Releases.advances (h : Releases self) (hleft : self.pc.left ≠ 0) (env : Processes π ω)
    (o : ω) (file : Inode ω) : ∃ after, self.objectStep env o file .advance = some after := by
  show ∃ after, self.syscall env o file = some after
  unfold syscall
  cases hpc : self.pc with
  | opened fd =>
      by_cases hgrant : file.Grantable fd
      · simp [hgrant]
      · simp [hgrant]
  | unlocking => simpa using Option.ne_none_iff_exists'.mp (h (Or.inl hpc))
  | unlocked => simpa using Option.ne_none_iff_exists'.mp (h (Or.inr hpc))
  | idle last => simp [hpc, Pc.left] at hleft
  | gone => simp [hpc, Pc.left] at hleft
  | _ => exact ⟨_, rfl⟩

/-- Between its calls an object can be called. -/
theorem SingleWriterLock.exists_call {last : Outcome} (hpc : self.pc = .idle last)
    (hmove : move.isCall = true) (env : Processes π ω) (o : ω) (file : Inode ω) :
    ∃ after, self.objectStep env o file move = some after := by
  cases move with
  | acquire => simp [objectStep, hpc]
  | release => cases hfd : self.fd <;> simp [objectStep, hpc, hfd]
  | advance => contradiction
  | osError errno => contradiction

/-! ### All objects -/

namespace Locks

variable [DecidableEq ω]

/-- The action is a step of a call of `o`. -/
def isStep (o : ω) : Action π ω → Bool
  | .on o' move => o' = o ∧ ¬ move.isCall
  | .exit _ => false

/-- The action is a call of a method of `o`. -/
def isCall (o : ω) : Action π ω → Bool
  | .on o' move => o' = o ∧ move.isCall
  | .exit _ => false

variable [DecidableEq π] {s t : Locks ω} {content : List Char} {acts : List (Action π ω)}

theorem left_le {a : Action π ω} (hstep : step env s a = some t) :
    (t.objects o).pc.left + (if isStep o a then 1 else 0) ≤
      (s.objects o).pc.left + if isCall o a then 6 else 0 := by
  cases a with
  | on o' move =>
      obtain ⟨file, self, hmove, rfl⟩ := step_on hstep
      by_cases ho : o' = o
      · subst ho
        have hleft := (moves_of_objectStep hmove).left_le
        cases hcall : move.isCall <;> simp_all [isStep, isCall]
      · simp [isStep, isCall, ho, Function.update_of_ne (Ne.symm ho)]
  | exit p =>
      by_cases ho : env.home o = p
      · cases hstep
        simp [isStep, isCall, ho, Pc.left]
      · simp [isStep, isCall, objects_exit hstep ho]

theorem releases_of_run (hrun : exec (step env) (start content) acts = some s) (o : ω) :
    Releases (s.objects o) := by
  refine exec_invariant (I := fun u : Locks ω => Releases (u.objects o)) ?_ ?_ hrun
  · intro u a v hu hstep
    cases a with
    | on o' move =>
        obtain ⟨file, self, hmove, rfl⟩ := step_on hstep
        show Releases (Function.update u.objects o' self o)
        by_cases ho : o = o'
        · subst ho
          rw [Function.update_self]
          exact (moves_of_objectStep hmove).releases
        · rw [Function.update_of_ne ho]
          exact hu
    | exit p =>
        by_cases ho : env.home o = p
        · cases hstep
          simp [Releases, ho]
        · rw [objects_exit hstep ho]
          exact hu
  · rintro (hpc | hpc)
    · cases hpc
    · cases hpc

/-- **No call ever waits.** In every state a run leads to, an object in a
call can take its next step; and in whatever follows, by whomever, it takes
at most six for each call, besides those its call had left. -/
theorem calls_never_wait (hrun : exec (step env) (start content) acts = some s) (o : ω) :
    ((s.objects o).pc.left ≠ 0 → ∃ t, step env s (.on o .advance) = some t) ∧
      ∀ acts' t, exec (step env) s acts' = some t →
        (t.objects o).pc.left + acts'.countP (isStep o) ≤
          (s.objects o).pc.left + 6 * acts'.countP (isCall o) := by
  refine ⟨fun hleft => ?_, fun acts' t hrun' => ?_⟩
  · obtain ⟨after, hafter⟩ := (releases_of_run hrun o).advances hleft env o s.file
    exact ⟨_, Option.map_eq_some_iff.mpr ⟨after, hafter, rfl⟩⟩
  · exact exec_countP_le (I := fun _ => True) (m := fun u : Locks ω => (u.objects o).pc.left)
      (fun _ _ _ _ _ => trivial) (fun _ _ _ _ hstep => left_le hstep) trivial hrun'

theorem calls_never_wait_of_call : ∃ s,
    exec (step twoProcesses) (start []) [.on true .acquire] = some s ∧
      ((s.objects true).pc.left ≠ 0 → ∃ t, step twoProcesses s (.on true .advance) = some t) ∧
      ∀ acts t, exec (step twoProcesses) s acts = some t →
        (t.objects true).pc.left + acts.countP (isStep true) ≤
          (s.objects true).pc.left + 6 * acts.countP (isCall true) :=
  have hrun : exec (step twoProcesses) (start []) [.on true .acquire] = some _ := rfl
  ⟨_, hrun, calls_never_wait hrun true⟩

end Locks

end DistributedMarket
