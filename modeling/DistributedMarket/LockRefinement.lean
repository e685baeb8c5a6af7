import DistributedMarket.Lib.Refinement
import DistributedMarket.LostDescriptors

/-!
What the lock is for.

To its users the lock is a mutex: somebody has it or nobody, and to take it,
to be refused it or to let it go is one step. The system calls of any number
of objects in any number of processes refine this (`Locks.refines`): of a
call of `acquire` only its `flock` counts, of a `release` the unlocking, and
of the end of a process whether it had the lock. What a call of `acquire`
answers is what its `flock` did, and nothing else happened in between
(`Told`). So a reader who knows the mutex knows all there is to know about
who has the directory (`refines_mutex`).

The mutex does not say when its holder lets go. An `acquire` that raises
after its `flock` has taken the lock, and only the end of the process drops
it. Nor does the file say who has the lock, but what it says is never a mix
of two lines (`says_of_run`).
-/

namespace DistributedMarket

open Lib.Flock Lib.Runs Lib.Refinement SingleWriterLock

/-- What is seen of the lock: a call of `acquire`, and what becomes of it. -/
inductive MutexEvent (ω : Type)
  | call (o : ω)
  | take (o : ω)
  | refuse (o : ω)
  | fail (o : ω) (errno : Errno)
  | drop (o : ω)
  deriving DecidableEq, Repr

/-- Whose event it is. -/
def MutexEvent.caller {ω : Type} : MutexEvent ω → ω
  | .call o | .take o | .refuse o | .fail o _ | .drop o => o

/-- The mutex, by its holder. A free one is taken, a taken one refused, and
only its holder drops it. To take it may fail at any time. -/
def mutexStep {ω : Type} [DecidableEq ω] : Option ω → MutexEvent ω → Option (Option ω)
  | holder, .call _ | holder, .fail _ _ => some holder
  | none, .take o => some (some o)
  | some h, .refuse _ => some (some h)
  | some h, .drop o => if o = h then some none else none
  | _, _ => none

variable {π ω : Type} {env : Processes π ω} {file file' : Inode ω} {o : ω}
  {self self' : SingleWriterLock} {move : Move}

/-- What a reader of the file finds, where it said `content` in the
beginning. -/
def Says (env : Processes π ω) (content : List Char) (seen : List (MutexEvent ω))
    (found : List Char) : Prop :=
  found = content ∨ found = [] ∨ ∃ o, .take o ∈ seen ∧ found = env.pidLine o

theorem Says.mono {content : List Char} {seen seen' : List (MutexEvent ω)} {found : List Char}
    (h : Says env content seen found) : Says env content (seen ++ seen') found :=
  h.imp_right (Or.imp_right fun ⟨o, htake, hline⟩ => ⟨o, List.mem_append_left _ htake, hline⟩)

/-- What is seen of a move of `o`. -/
def SingleWriterLock.event (o : ω) (file : Inode ω) (self : SingleWriterLock) :
    Move → Option (MutexEvent ω)
  | .acquire => some (.call o)
  | .advance =>
      match self.pc with
      | .opened fd => some (if file.Grantable fd then .take o else .refuse o)
      | .unlocking => some (.drop o)
      | _ => none
  | .osError errno =>
      match self.pc with
      | .opened _ => some (.fail o errno)
      | _ => none
  | .release => none

theorem SingleWriterLock.caller_of_event {e : MutexEvent ω}
    (h : self.event o file move = some e) : e.caller = o := by
  unfold event at h
  split at h
  · cases h
    rfl
  · split at h
    · split at h <;> cases h <;> rfl
    · cases h
      rfl
    · contradiction
  · split at h
    · cases h
      rfl
    · contradiction
  · contradiction

/-! ### One object -/

/-- Only two moves change the content. -/
theorem SingleWriterLock.Moves.content (h : Moves env o file self move file' self')
    (hconsistent : Consistent env file o self) :
    file'.content = file.content ∨ file'.content = [] ∨
      (∃ fd, self.pc = .truncated fd) ∧ file'.content = env.pidLine o := by
  cases h with
  | truncate fd hpc => exact Or.inr (Or.inl rfl)
  | write fd hpc =>
      rw [Consistent, hpc] at hconsistent
      exact Or.inr (Or.inr ⟨⟨fd, hpc⟩, Inode.content_write hconsistent.1 rfl hconsistent.2.2⟩)
  | _ => exact Or.inl rfl

variable [DecidableEq ω]

theorem SingleWriterLock.Moves.shows (h : Moves env o file self move file' self')
    (hconsistent : Consistent env file o self) :
    exec mutexStep file.holder (self.event o file move).toList = some file'.holder := by
  cases h with
  | acquire last hpc => simp [event, mutexStep]
  | openFile hpc => simp [event, hpc, Inode.holder_openFile]
  | flockEx fd hpc hgrant =>
      rw [Consistent, hpc] at hconsistent
      rw [Inode.holder_of_grantable hgrant hconsistent.1 rfl,
        Inode.holder_flockEx hgrant hconsistent.1]
      simp [event, hpc, hgrant, mutexStep]
  | flockRefused fd hpc hrefused =>
      obtain ⟨h, hholds⟩ := Inode.exists_holds_of_not_grantable hrefused
      rw [Inode.holder_eq_some_iff.mpr hholds]
      simp [event, hpc, hrefused, mutexStep]
  | closeRefused fd outcome hpc =>
      rw [Consistent, hpc] at hconsistent
      simp [event, hpc, Inode.holder_close hconsistent.1 rfl]
  | truncate fd hpc =>
      simp only [event, hpc]
      rfl
  | write fd hpc =>
      rw [Consistent, hpc] at hconsistent
      simp [event, hpc, Inode.holder_write _ hconsistent.1]
  | flockUn fd hpc hfd =>
      rw [Consistent, hpc] at hconsistent
      obtain ⟨⟨n, hd⟩, -⟩ := hconsistent fd hfd
      rw [Inode.holder_eq_some_iff.mpr ⟨fd, _, hd, rfl, rfl⟩, Inode.holder_flockUn hd rfl]
      simp [event, hpc, mutexStep]
  | closeReleased fd hpc hfd =>
      rw [Consistent, hpc] at hconsistent
      obtain ⟨n, hd⟩ := hconsistent fd hfd
      simp [event, hpc, Inode.holder_close hd rfl]
  | fsync fd hpc => simp [event, hpc]
  | record fd hpc => simp [event, hpc]
  | clear hpc => simp [event, hpc]
  | failOpen errno hpc => simp [event, hpc]
  | failFlock errno fd hpc => simp [event, hpc, mutexStep]
  | failHeld errno fd hpc => rcases hpc with hpc | hpc | hpc <;> simp [event, hpc]
  | _ => simp [event]

/-- The events of `o` since its last call, one event later. -/
def noted (o : ω) (since : List (MutexEvent ω)) (e : MutexEvent ω) : List (MutexEvent ω) :=
  if e.caller = o then
    match e with
    | .call _ => []
    | e => since ++ [e]
  else since

/-- The events of a call whose `flock` raised an `OSError` that `acquire`
makes `outcome` of. -/
def Denied (o : ω) (outcome : Outcome) (since : List (MutexEvent ω)) : Prop :=
  outcome = .locked ∧ since = [.refuse o] ∨
    ∃ errno : Errno, errno.outcome = outcome ∧ since = [.fail o errno]

/-- What an object has been told, or will be, at each point of its calls, of
the events since its last call of `acquire`. -/
def Told (o : ω) (self : SingleWriterLock) (since : List (MutexEvent ω)) : Prop :=
  match self.pc with
  | .opening | .opened _ => since = []
  | .refused _ outcome => Denied o outcome since
  | .idle .locked => Denied o .locked since
  | .won _ | .truncated _ | .written _ | .synced _ => since = [.take o]
  | .idle .returned => self.fd.isSome → since = [.take o]
  | .idle .raised => since = [] ∨ since = [.take o] ∨ Denied o .raised since
  | .unlocking | .unlocked | .closed | .gone => True

theorem SingleWriterLock.Moves.told {since : List (MutexEvent ω)}
    (h : Moves env o file self move file' self') (htold : Told o self since) :
    Told o self' ((self.event o file move).toList.foldl (noted o) since) := by
  cases h with
  | acquire last hpc => simp [event, noted, Told, MutexEvent.caller]
  | releaseNothing last hpc hfd => simp [Told, hfd]
  | release last hpc hfd => trivial
  | flockEx fd hpc hgrant =>
      rw [Told, hpc] at htold
      simp [event, noted, Told, MutexEvent.caller, hpc, hgrant, htold]
  | flockRefused fd hpc hrefused =>
      rw [Told, hpc] at htold
      simp [event, noted, Told, Denied, MutexEvent.caller, hpc, hrefused, htold]
  | closeRefused fd outcome hpc =>
      rw [Told, hpc] at htold
      cases outcome with
      | returned =>
          rcases htold with ⟨hlocked, -⟩ | ⟨errno, herrno, -⟩
          · contradiction
          · exact absurd herrno errno.outcome_ne_returned
      | locked => simpa [event, Told, hpc] using htold
      | raised => simpa [event, Told, hpc] using Or.inr (Or.inr htold)
  | record fd hpc =>
      rw [Told, hpc] at htold
      simp [event, Told, hpc, htold]
  | failOpen errno hpc =>
      rw [Told, hpc] at htold
      simp [event, Told, hpc, htold]
  | failFlock errno fd hpc =>
      rw [Told, hpc] at htold
      refine Or.inr ⟨errno, rfl, ?_⟩
      simp [event, noted, MutexEvent.caller, hpc, htold]
  | failHeld errno fd hpc =>
      rcases hpc with hpc | hpc | hpc <;> rw [Told, hpc] at htold <;> simp [event, Told, hpc, htold]
  | flockUn fd hpc hfd => trivial
  | closeReleased fd hpc hfd => trivial
  | clear hpc => simp [Told]
  | openFile hpc =>
      rw [Told, hpc] at htold
      simpa [event, Told, hpc] using htold
  | truncate fd hpc =>
      rw [Told, hpc] at htold
      simpa [event, Told, hpc] using htold
  | write fd hpc =>
      rw [Told, hpc] at htold
      simpa [event, Told, hpc] using htold
  | fsync fd hpc =>
      rw [Told, hpc] at htold
      simpa [event, Told, hpc] using htold

/-! ### All objects -/

namespace Locks

/-- The events of `o` since its last call. -/
def since (o : ω) (events : List (MutexEvent ω)) : List (MutexEvent ω) := events.foldl (noted o) []

theorem foldl_noted_of_ne {since : List (MutexEvent ω)} {e : Option (MutexEvent ω)}
    (h : ∀ o' ∈ e.map MutexEvent.caller, o' ≠ o) : e.toList.foldl (noted o) since = since := by
  cases e with
  | none => rfl
  | some e => exact if_neg (h e.caller rfl)

theorem mem_of_mem_noted {seen : List (MutexEvent ω)} {e e' : MutexEvent ω}
    (h : e ∈ noted o seen e') : e ∈ seen ∨ e = e' := by
  unfold noted at h
  split at h
  · split at h
    · contradiction
    · exact (List.mem_append.mp h).imp_right List.mem_singleton.mp
  · exact Or.inl h

theorem mem_of_mem_since {seen : List (MutexEvent ω)} {e : MutexEvent ω} (h : e ∈ since o seen) :
    e ∈ seen := by
  induction seen using List.reverseRecOn with
  | nil => contradiction
  | append_singleton seen e' ih =>
      rw [since, List.foldl_append, ← since] at h
      rw [List.mem_append, List.mem_singleton]
      exact (mem_of_mem_noted h).imp_left ih

variable [DecidableEq π] {s : Locks ω} {content : List Char} {acts : List (Action π ω)}

/-- What is seen of a step. The end of a process drops the lock if one of
its objects has it. -/
def event (env : Processes π ω) (s : Locks ω) : Action π ω → Option (MutexEvent ω)
  | .on o move => (s.objects o).event o s.file move
  | .exit p => (s.file.holder.filter fun h => env.home h = p).map .drop

/-- **The system calls refine the mutex.** -/
theorem refines (env : Processes π ω) :
    Refines (step env) (event env) (AllConsistent env) (fun s => s.file.holder) mutexStep where
  invariant _ _ _ h hstep := h.preserved hstep
  shows s a t h hstep := by
    cases a with
    | on o move =>
        obtain ⟨file, self, hmove, rfl⟩ := step_on hstep
        exact (moves_of_objectStep hmove).shows (h o)
    | exit p =>
        cases hstep
        show exec mutexStep s.file.holder _ = some (s.file.closeAll fun o => env.home o = p).holder
        rw [Inode.holder_closeAll, event]
        cases s.file.holder with
        | none => simp
        | some h => by_cases hhome : env.home h = p <;> simp [Option.filter_some, hhome, mutexStep]

/-- What the others do is not told to `o`. -/
theorem told_preserved {a : Action π ω} {t : Locks ω} {seen : List (MutexEvent ω)}
    (htold : Told o (s.objects o) (since o seen)) (hstep : step env s a = some t) :
    Told o (t.objects o) (since o (seen ++ (event env s a).toList)) := by
  rw [since, List.foldl_append, ← since]
  cases a with
  | on o' move =>
      obtain ⟨file, self, hmove, rfl⟩ := step_on hstep
      show Told o (Function.update s.objects o' self o) _
      by_cases ho : o = o'
      · subst ho
        rw [Function.update_self]
        exact (moves_of_objectStep hmove).told htold
      · rw [Function.update_of_ne ho, foldl_noted_of_ne]
        · exact htold
        · rintro o'' ho''
          obtain ⟨e, he, rfl⟩ := Option.map_eq_some_iff.mp ho''
          rw [SingleWriterLock.caller_of_event he]
          exact Ne.symm ho
  | exit p =>
      by_cases hhome : env.home o = p
      · cases hstep
        simp [Told, hhome]
      · rw [foldl_noted_of_ne]
        · cases hstep
          simpa [hhome] using htold
        · rintro o' ho'
          obtain ⟨e, he, rfl⟩ := Option.map_eq_some_iff.mp ho'
          obtain ⟨h, hh, rfl⟩ := Option.map_eq_some_iff.mp he
          rintro rfl
          exact hhome (by simpa [MutexEvent.caller] using (Option.filter_eq_some_iff.mp hh).2)

/-- What is seen of a run. -/
def events (env : Processes π ω) (content : List Char) (acts : List (Action π ω)) :
    List (MutexEvent ω) :=
  trace (step env) (event env) (start content) acts

theorem told_of_run (hrun : exec (step env) (start content) acts = some s) (o : ω) :
    Told o (s.objects o) (since o (events env content acts)) := by
  refine trace_invariant (I := fun (u : Locks ω) seen => Told o (u.objects o) (since o seen))
    (fun _ _ _ _ htold hstep => told_preserved htold hstep) [] ?_ hrun
  intro hsome
  contradiction

/-- **The lock is a mutex.** What is seen of any run is a run of the mutex
that ends with the holder of the file; and a call of `acquire` that is over
has been refused once, or has failed once with `EACCES` or `EAGAIN`, if it
raised `DataDirectoryLocked`; has taken the lock once if it stored a
descriptor; and has done nothing, or has taken the lock once, or has failed
once with another number, if it raised another exception. -/
theorem refines_mutex (hrun : exec (step env) (start content) acts = some s) :
    exec mutexStep none (events env content acts) = some s.file.holder ∧
      ∀ o, ((s.objects o).pc = .idle .locked →
          since o (events env content acts) = [.refuse o] ∨
            ∃ errno, (errno = .EACCES ∨ errno = .EAGAIN) ∧
              since o (events env content acts) = [.fail o errno]) ∧
        ((s.objects o).pc = .idle .returned → (s.objects o).fd.isSome →
          since o (events env content acts) = [.take o]) ∧
        ((s.objects o).pc = .idle .raised →
          since o (events env content acts) = [] ∨
            since o (events env content acts) = [.take o] ∨
            ∃ errno, errno ≠ .EACCES ∧ errno ≠ .EAGAIN ∧
              since o (events env content acts) = [.fail o errno]) := by
  refine ⟨(refines env).run (allConsistent_start content) hrun, fun o => ?_⟩
  have htold := told_of_run hrun o
  refine ⟨fun hpc => ?_, fun hpc => ?_, fun hpc => ?_⟩ <;> rw [Told, hpc] at htold
  · simpa [Denied, Errno.outcome_eq_locked] using htold
  · exact htold
  · simpa [Denied, Errno.outcome_eq_raised, and_assoc] using htold

/-- The descriptor of an `acquire` that failed is in no variable, and yet the
mutex is taken; and a free mutex may not be had. -/
theorem refines_mutex_of_failures :
    (∃ s, exec (step twoProcesses) (start []) leakingCalls = some s ∧
      exec mutexStep none (events twoProcesses [] leakingCalls) = some s.file.holder ∧
      (since false (events twoProcesses [] leakingCalls) = [] ∨
        since false (events twoProcesses [] leakingCalls) = [.take false] ∨
        ∃ errno, errno ≠ .EACCES ∧ errno ≠ .EAGAIN ∧
          since false (events twoProcesses [] leakingCalls) = [.fail false errno])) ∧
      ∃ s, exec (step twoProcesses) (start []) deniedCalls = some s ∧
        exec mutexStep none (events twoProcesses [] deniedCalls) = some s.file.holder ∧
        (since true (events twoProcesses [] deniedCalls) = [.refuse true] ∨
          ∃ errno, (errno = .EACCES ∨ errno = .EAGAIN) ∧
            since true (events twoProcesses [] deniedCalls) = [.fail true errno]) := by
  have hleak : exec (step twoProcesses) (start []) leakingCalls = some _ := rfl
  have hdenied : exec (step twoProcesses) (start []) deniedCalls = some _ := rfl
  obtain ⟨hmutex, htold⟩ := refines_mutex hleak
  obtain ⟨hmutex', htold'⟩ := refines_mutex hdenied
  exact ⟨⟨_, hleak, hmutex, (htold false).2.2 rfl⟩, _, hdenied, hmutex', (htold' true).1 rfl⟩

/-! ### What the file says -/

theorem says_preserved {a : Action π ω} {t : Locks ω} {seen : List (MutexEvent ω)}
    (hconsistent : s.AllConsistent env) (htold : ∀ o, Told o (s.objects o) (since o seen))
    (h : Says env content seen s.file.content) (hstep : step env s a = some t) :
    Says env content (seen ++ (event env s a).toList) t.file.content := by
  cases a with
  | on o move =>
      obtain ⟨file, self, hmove, rfl⟩ := step_on hstep
      rcases (moves_of_objectStep hmove).content (hconsistent o) with
        hsame | hempty | ⟨⟨fd, hpc⟩, hline⟩
      · exact hsame ▸ h.mono
      · exact Or.inr (Or.inl hempty)
      · have htake := htold o
        rw [Told, hpc] at htake
        refine Or.inr (Or.inr ⟨o, List.mem_append_left _ ?_, hline⟩)
        exact mem_of_mem_since (htake ▸ List.mem_singleton_self _)
  | exit p =>
      cases hstep
      exact h.mono

/-- **The lock file is never garbled.** Whenever it is read, it says what it
said in the beginning, or nothing, or the whole line of somebody who took
the lock. -/
theorem says_of_run (hrun : exec (step env) (start content) acts = some s) :
    Says env content (events env content acts) s.file.content := by
  have hinv : s.AllConsistent env ∧
      (∀ o, Told o (s.objects o) (since o (events env content acts))) ∧
      Says env content (events env content acts) s.file.content := by
    refine trace_invariant (I := fun (u : Locks ω) seen => u.AllConsistent env ∧
      (∀ o, Told o (u.objects o) (since o seen)) ∧ Says env content seen u.file.content)
      (fun u a v seen hu hstep => ?_) [] ⟨allConsistent_start content, ?_, Or.inl rfl⟩ hrun
    · exact ⟨hu.1.preserved hstep, fun o => told_preserved (hu.2.1 o) hstep,
        says_preserved hu.1 hu.2.1 hu.2.2 hstep⟩
    · rintro o hsome
      contradiction
  exact hinv.2.2

/-- The `truncate` failed, so the file still says what it said. -/
theorem says_of_run_of_leak : ∃ s,
    exec (step twoProcesses) (start ['9', '\n']) leakingCalls = some s ∧
      Says twoProcesses ['9', '\n'] (events twoProcesses ['9', '\n'] leakingCalls) s.file.content :=
  ⟨_, rfl, says_of_run rfl⟩

end Locks

end DistributedMarket
