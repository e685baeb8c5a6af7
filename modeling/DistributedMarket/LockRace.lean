import DistributedMarket.LostDescriptors

/-!
The race for the lock.

Any number of objects call `acquire` on a fresh directory, in any order and
with their system calls interleaved in any way. Safety says that not two of
them get the lock; it would also hold if all of them were refused. What is
shown here is that somebody gets it, and that everybody else is told so.

A lock that is taken stays taken as long as nobody releases, fails or ends
(`Moves.free_of_free`), and while nobody has it no call can have come to an
end, because only a held lock refuses (`Racing`).

That is so where nothing fails. In any run `flock` may also raise what it
raises for a held lock, and `locked_iff` says that these two are the ways to
be told that the directory is locked.
-/

namespace DistributedMarket

open Lib.Flock Lib.Runs SingleWriterLock

variable {π ω : Type} {env : Processes π ω} {file file' : Inode ω} {o : ω}
  {self self' : SingleWriterLock} {move : Move}

/-! ### One object -/

/-- What a call that is not a `release` unlocks: nothing. -/
theorem SingleWriterLock.Moves.free_of_free (h : Moves env o file self move file' self')
    (hconsistent : Consistent env file o self)
    (hpc : self.pc ≠ .unlocking ∧ self.pc ≠ .unlocked) (hfree : file'.Free) : file.Free := by
  intro fd d hd
  by_contra hlocked
  rw [Bool.not_eq_false] at hlocked
  -- The entry is still there, and still locked.
  suffices hstays : ∃ d', file'.table fd = some d' ∧ d'.locked = true by
    obtain ⟨d', hd', hlocked'⟩ := hstays
    rw [hfree fd d' hd'] at hlocked'
    contradiction
  cases h with
  | openFile hopening => exact ⟨d, Inode.table_openFile_of_some o hd, hlocked⟩
  | flockEx fd' hopened hgrant =>
      obtain rfl := hgrant.eq_of_locked hd hlocked
      exact ⟨_, Inode.table_flockEx hgrant hd, rfl⟩
  | closeRefused fd' outcome hrefused =>
      have hne : fd ≠ fd' := by
        rintro rfl
        rw [Consistent, hrefused] at hconsistent
        rw [Option.some.inj (hd.symm.trans hconsistent.1)] at hlocked
        contradiction
      exact ⟨d, (Inode.table_close_of_ne hne).trans hd, hlocked⟩
  | write fd' htruncated =>
      by_cases hne : fd = fd'
      · subst hne
        exact ⟨_, Inode.table_write _ hd, hlocked⟩
      · exact ⟨d, (Inode.table_write_of_ne _ hne).trans hd, hlocked⟩
  | flockUn fd' hunlocking hfd => exact absurd hunlocking hpc.1
  | closeReleased fd' hunlocked hfd => exact absurd hunlocked hpc.2
  | _ => exact ⟨d, hd, hlocked⟩

/-- The points an object can reach that is only asked to `acquire`, without
failures. -/
def Pc.Racing : Pc → Prop
  | .idle .raised | .refused _ .returned | .refused _ .raised | .unlocking | .unlocked | .closed
  | .gone => False
  | _ => True

/-- `flock` has said no, and the caller has been told or will be. -/
def Pc.Refused (pc : Pc) : Prop := pc = .idle .locked ∨ ∃ fd, pc = .refused fd .locked

theorem SingleWriterLock.Moves.racing (h : Moves env o file self move file' self')
    (hmove : move = .acquire ∨ move = .advance) (hracing : self.pc.Racing) :
    self'.pc.Racing := by
  cases h with
  | closeRefused fd outcome hpc =>
      rw [hpc] at hracing
      cases outcome with
      | locked => trivial
      | returned => exact hracing.elim
      | raised => exact hracing.elim
  | flockUn fd hpc hfd => simp [hpc, Pc.Racing] at hracing
  | closeReleased fd hpc hfd => simp [hpc, Pc.Racing] at hracing
  | clear hpc => simp [hpc, Pc.Racing] at hracing
  | releaseNothing last hpc hfd => simp at hmove
  | release last hpc hfd => simp at hmove
  | failOpen errno hpc => simp at hmove
  | failFlock errno fd hpc => simp at hmove
  | failHeld errno fd hpc => simp at hmove
  | _ => trivial

/-- `acquire` returns with the descriptor in `_fd`. -/
theorem SingleWriterLock.Moves.entered (h : Moves env o file self move file' self')
    (hmove : move = .acquire ∨ move = .advance) (hracing : self.pc.Racing)
    (hpc' : self'.pc = .idle .returned) : self'.fd.isSome := by
  cases h with
  | closeRefused fd outcome hpc =>
      rw [hpc] at hracing
      cases outcome with
      | locked => simp at hpc'
      | returned => exact hracing.elim
      | raised => exact hracing.elim
  | record fd hpc => rfl
  | clear hpc => simp [hpc, Pc.Racing] at hracing
  | releaseNothing last hpc hfd => simp at hmove
  | _ => simp at hpc'

/-- The `flock` of a move is denied: somebody holds the lock, or it raises what
it would raise then. -/
def Denies (file : Inode ω) : Move → Prop
  | .advance => ∃ o, file.Holds o
  | .osError errno => errno = .EACCES ∨ errno = .EAGAIN
  | .acquire | .release => False

theorem Denies.not_free (h : Denies file move) (hmove : move = .acquire ∨ move = .advance) :
    ¬ file.Free := by
  intro hfree
  rcases hmove with rfl | rfl
  · exact h
  · obtain ⟨o, fd, d, hd, -, hlocked⟩ := h
    rw [hfree fd d hd] at hlocked
    contradiction

/-- Who is refused is refused by `flock`. -/
theorem SingleWriterLock.Moves.refused (h : Moves env o file self move file' self')
    (hbefore : ¬ self.pc.Refused) (hrefused : self'.pc.Refused) :
    ∃ fd, self.pc = .opened fd ∧ Denies file move := by
  cases h with
  | flockRefused fd hpc hnot => exact ⟨fd, hpc, Inode.exists_holds_of_not_grantable hnot⟩
  | failFlock errno fd hpc =>
      rcases hrefused with hlocked | ⟨fd', hfd'⟩
      · cases hlocked
      · obtain ⟨-, houtcome⟩ := Pc.refused.inj hfd'
        exact ⟨fd, hpc, Errno.outcome_eq_locked.mp houtcome⟩
  | closeRefused fd outcome hpc =>
      rcases hrefused with hlocked | ⟨fd', hfd'⟩
      · cases hlocked
        exact absurd (Or.inr ⟨fd, hpc⟩) hbefore
      · cases hfd'
  | _ => simp [Pc.Refused] at hrefused

theorem SingleWriterLock.Moves.refused_of_denies {fd : ℕ}
    (h : Moves env o file self move file' self') (hconsistent : Consistent env file o self)
    (hpc : self.pc = .opened fd) (hdenies : Denies file move) : self'.pc.Refused := by
  rw [Consistent, hpc] at hconsistent
  cases h with
  | acquire last hidle => exact hdenies.elim
  | releaseNothing last hidle hfd => exact hdenies.elim
  | release last hidle hfd => exact hdenies.elim
  | flockEx fd' hopened hgrant =>
      -- What the holder has locked is another description.
      obtain rfl := Pc.opened.inj (hpc.symm.trans hopened)
      obtain ⟨o', fd', d, hd, -, hlocked⟩ := hdenies
      obtain rfl := hgrant.eq_of_locked hd hlocked
      rw [Option.some.inj (hd.symm.trans hconsistent.1)] at hlocked
      contradiction
  | flockRefused fd' hopened hnot => exact Or.inr ⟨fd', rfl⟩
  | failFlock errno fd' hopened => exact Or.inr ⟨fd', by rw [Errno.outcome_eq_locked.mpr hdenies]⟩
  | failHeld errno fd' hheld => rcases hheld with hheld | hheld | hheld <;> simp [hheld] at hpc
  | _ => simp_all

/-- It stays so until the next call. -/
theorem SingleWriterLock.Moves.refused_iff (h : Moves env o file self move file' self')
    (hrefused : self.pc.Refused) :
    self'.pc.Refused ↔ ¬ (move = .acquire ∨ move = .release) := by
  cases h with
  | acquire last hpc => simp [Pc.Refused]
  | releaseNothing last hpc hfd => simp [Pc.Refused]
  | release last hpc hfd => simp [Pc.Refused]
  | closeRefused fd outcome hpc =>
      rcases hrefused with hlocked | ⟨fd', hfd'⟩
      · simp [hpc] at hlocked
      · obtain ⟨-, rfl⟩ := Pc.refused.inj (hpc.symm.trans hfd')
        simp [Pc.Refused]
  | failHeld errno fd hpc => rcases hpc with hpc | hpc | hpc <;> simp [hpc, Pc.Refused] at hrefused
  | _ => simp_all [Pc.Refused]

/-! ### All objects -/

namespace Locks

/-- A call of `acquire`, or the next system call of one. -/
def Races (a : Action π ω) : Prop := ∃ o, a = .on o .acquire ∨ a = .on o .advance

/-- Nobody is refused while nobody holds the lock. -/
structure Race (env : Processes π ω) (s : Locks ω) : Prop where
  consistent : s.AllConsistent env
  racing : ∀ o, (s.objects o).pc.Racing
  refused : ∀ o, (s.objects o).pc.Refused → ¬ s.file.Free

theorem race_start (content : List Char) : (start content : Locks ω).Race env where
  consistent := allConsistent_start content
  racing := fun _ => trivial
  refused := by
    rintro o (hpc | ⟨fd, hpc⟩)
    · cases hpc
    · cases hpc

variable [DecidableEq π] [DecidableEq ω] {s t : Locks ω} {content : List Char}
  {acts : List (Action π ω)}

/-- A racing step is one move of one object. -/
theorem Races.moves {a : Action π ω} (ha : Races a) (hstep : step env s a = some t) :
    ∃ o move file self, (move = .acquire ∨ move = .advance) ∧ a = .on o move ∧
      (s.objects o).Moves env o s.file move file self ∧
      t = ⟨file, Function.update s.objects o self⟩ := by
  obtain ⟨o, rfl | rfl⟩ := ha
  · obtain ⟨file, self, hmove, rfl⟩ := step_on hstep
    exact ⟨o, .acquire, file, self, Or.inl rfl, rfl, moves_of_objectStep hmove, rfl⟩
  · obtain ⟨file, self, hmove, rfl⟩ := step_on hstep
    exact ⟨o, .advance, file, self, Or.inr rfl, rfl, moves_of_objectStep hmove, rfl⟩

theorem Race.preserved {a : Action π ω} (h : s.Race env) (ha : Races a)
    (hstep : step env s a = some t) : t.Race env := by
  have hconsistent := h.consistent.preserved hstep
  obtain ⟨o, move, file, self, hmove, -, hmoves, rfl⟩ := ha.moves hstep
  have hfree : file.Free → s.file.Free := by
    apply hmoves.free_of_free (h.consistent o)
    have := h.racing o
    exact ⟨fun hpc => by simp [hpc, Pc.Racing] at this, fun hpc => by simp [hpc, Pc.Racing] at this⟩
  refine ⟨hconsistent, fun o' => ?_, fun o' => ?_⟩
  · show (Function.update s.objects o self o').pc.Racing
    by_cases ho : o' = o
    · subst ho
      rw [Function.update_self]
      exact hmoves.racing hmove (h.racing o')
    · rw [Function.update_of_ne ho]
      exact h.racing o'
  · show (Function.update s.objects o self o').pc.Refused → ¬ file.Free
    by_cases ho : o' = o
    · subst ho
      rw [Function.update_self]
      intro hpc
      by_cases hbefore : (s.objects o').pc.Refused
      · exact mt hfree (h.refused o' hbefore)
      · obtain ⟨fd, -, hdenies⟩ := hmoves.refused hbefore hpc
        exact mt hfree (hdenies.not_free hmove)
    · rw [Function.update_of_ne ho]
      exact fun hpc => mt hfree (h.refused o' hpc)

theorem race_of_run (hacts : ∀ a ∈ acts, Races a) (hs : s.Race env)
    (hrun : exec (step env) s acts = some t) : t.Race env :=
  exec_invariant_of_fires (G := fun _ a => Races a)
    (fun _ _ _ hu ha hstep => hu.preserved ha hstep) hs (fun _ _ hfires => hacts _ hfires.mem) hrun

/-- Who was never called is as he was at the start. -/
theorem untouched_of_run (hacts : ∀ a ∈ acts, Races a)
    (hrun : exec (step env) (start content) acts = some s) (ho : .on o .acquire ∉ acts) :
    s.objects o = ⟨none, .idle .returned⟩ := by
  refine exec_invariant_of_fires (G := fun _ a => Races a ∧ a ≠ .on o .acquire)
    (I := fun u : Locks ω => u.objects o = ⟨none, .idle .returned⟩) ?_ rfl ?_ hrun
  · intro u a v hu ⟨ha, hne⟩ hstep
    obtain ⟨o', move, file, self, hmove, rfl, hmoves, rfl⟩ := ha.moves hstep
    by_cases ho : o = o'
    · subst ho
      rw [hu] at hmoves
      rcases hmoves.of_idle rfl with rfl | rfl
      · exact absurd rfl hne
      · simp at hmove
    · exact (Function.update_of_ne ho _ _).trans hu
  · intro u a hfires
    exact ⟨hacts a hfires.mem, fun heq => ho (heq ▸ hfires.mem)⟩

/-- Who was called has the descriptor in `_fd` if `acquire` returned. -/
theorem entered_of_run (hacts : ∀ a ∈ acts, Races a)
    (hrun : exec (step env) (start content) acts = some s) (ho : .on o .acquire ∈ acts)
    (hpc : (s.objects o).pc = .idle .returned) : (s.objects o).fd.isSome := by
  obtain ⟨pre, post, rfl⟩ := List.append_of_mem ho
  rw [exec_append, Option.bind_eq_some_iff] at hrun
  obtain ⟨u, hu, hrun⟩ := hrun
  obtain ⟨v, hstep, hrun⟩ := exec_cons_eq_some.mp hrun
  have hrace := race_of_run (fun a ha => hacts a (by simp [ha])) (race_start content) hu
  have hinv := exec_invariant_of_fires (G := fun _ a => Races a)
    (I := fun w : Locks ω => w.Race env ∧
      ((w.objects o).pc = .idle .returned → (w.objects o).fd.isSome))
    (s := v) (t := s) ?_ ⟨hrace.preserved ⟨o, Or.inl rfl⟩ hstep, ?_⟩
    (fun w a hfires => hacts a (by simp [hfires.mem])) hrun
  · exact hinv.2 hpc
  · intro w a x ⟨hw, hentered⟩ ha hstep
    refine ⟨hw.preserved ha hstep, ?_⟩
    obtain ⟨o', move, file, self, hmove, -, hmoves, rfl⟩ := ha.moves hstep
    show (Function.update w.objects o' self o).pc = _ →
      (Function.update w.objects o' self o).fd.isSome
    by_cases ho : o = o'
    · subst ho
      rw [Function.update_self]
      exact hmoves.entered hmove (hw.racing o)
    · rw [Function.update_of_ne ho]
      exact hentered
  · obtain ⟨file, self, hmove, rfl⟩ := step_on hstep
    cases moves_of_objectStep hmove with
    | acquire last hidle => simp

/-- **Exactly one wins.** However the calls of `acquire` on a fresh directory
interleave, once all have ended one of the callers has the lock, and its
process is the one the file names; every other caller was told that the
directory is locked. -/
theorem race_has_one_winner (hrun : exec (step env) (start content) acts = some s)
    (hacts : ∀ a ∈ acts, Races a) (hcalled : ∃ o, .on o .acquire ∈ acts)
    (hidle : ∀ o, ∃ last, (s.objects o).pc = .idle last) :
    ∃ w, .on w .acquire ∈ acts ∧ (s.objects w).Acquired ∧ s.file.content = env.pidLine w ∧
      ∀ o, o ≠ w → (s.objects o).fd = none ∧
        (.on o .acquire ∈ acts → (s.objects o).pc = .idle .locked) := by
  have hrace := race_of_run hacts (race_start content) hrun
  have hacquired : ∀ o, (s.objects o).fd.isSome → (s.objects o).Acquired := by
    intro o hsome
    obtain ⟨last, hlast⟩ := hidle o
    exact ⟨hsome, by simp [hlast], by simp [hlast]⟩
  have houtcome : ∀ o, .on o .acquire ∈ acts → (s.objects o).fd = none →
      (s.objects o).pc = .idle .locked := by
    intro o ho hnone
    obtain ⟨last, hlast⟩ := hidle o
    have hracing := hrace.racing o
    rw [hlast] at hracing
    cases last with
    | locked => exact hlast
    | returned => simpa [hnone] using entered_of_run hacts hrun ho hlast
    | raised => exact hracing.elim
  -- Were all callers refused, the lock would be held by somebody else.
  obtain ⟨w, hw⟩ : ∃ w, (s.objects w).fd.isSome := by
    by_contra hnobody
    have hnone : ∀ o, (s.objects o).fd = none := fun o => by
      simpa using fun hsome => hnobody ⟨o, hsome⟩
    obtain ⟨o, ho⟩ := hcalled
    refine hrace.refused o (Or.inl (houtcome o ho (hnone o))) ((free_iff hrun).mpr ⟨?_, ?_⟩)
    · rintro o' (hacquired' | ⟨fd, hpc⟩)
      · simpa [hnone o'] using hacquired'.1
      · obtain ⟨last, hlast⟩ := hidle o'
        simp [Pc.Exposes, hlast] at hpc
    · rintro o' fd ⟨u, errno, hfires, -⟩
      obtain ⟨o'', ho'' | ho''⟩ := hacts _ hfires.mem
      · simp at ho''
      · simp at ho''
  refine ⟨w, ?_, hacquired w hw, ((hrace.consistent w).holds (hacquired w hw)).2, ?_⟩
  · by_contra hnot
    simp [untouched_of_run hacts hrun hnot] at hw
  · intro o hne
    have hnone : (s.objects o).fd = none := by
      by_contra hsome
      have ho := hacquired o (Option.isSome_iff_ne_none.mpr hsome)
      have hw := hacquired w hw
      exact hne (((hrace.consistent o).holds ho).1.unique ((hrace.consistent w).holds hw).1)
    exact ⟨hnone, fun ho => houtcome o ho hnone⟩

/-- Both open the file before either has locked it. -/
def raceCalls : List (Action Bool Bool) :=
  [.on false .acquire, .on true .acquire, .on true .advance, .on false .advance] ++
    List.replicate 2 (.on true .advance) ++ List.replicate 2 (.on false .advance) ++
    List.replicate 3 (.on true .advance)

theorem race_has_one_winner_of_two : ∃ s,
    exec (step twoProcesses) (start []) raceCalls = some s ∧
      ∃ w, .on w .acquire ∈ raceCalls ∧ (s.objects w).Acquired ∧
        s.file.content = twoProcesses.pidLine w ∧
        ∀ o, o ≠ w → (s.objects o).fd = none ∧
          (.on o .acquire ∈ raceCalls → (s.objects o).pc = .idle .locked) := by
  have hrun : exec (step twoProcesses) (start []) raceCalls = some _ := rfl
  refine ⟨_, hrun, race_has_one_winner hrun ?_ ⟨true, by simp [raceCalls]⟩ ?_⟩
  · simp [raceCalls, Races]
  · intro o
    cases o with
    | false => exact ⟨.locked, rfl⟩
    | true => exact ⟨.returned, rfl⟩

/-! ### Who is refused -/

/-- The action calls `o` again, or ends its process. -/
def Renews (env : Processes π ω) (o : ω) : Action π ω → Prop
  | .on o' move => o' = o ∧ (move = .acquire ∨ move = .release)
  | .exit p => env.home o = p

/-- How an object comes to be refused. -/
theorem refused_step_iff {a : Action π ω} (h : s.AllConsistent env)
    (hstep : step env s a = some t) (hbefore : ¬ (s.objects o).pc.Refused) :
    (t.objects o).pc.Refused ↔
      ∃ move fd, a = .on o move ∧ (s.objects o).pc = .opened fd ∧ Denies s.file move := by
  cases a with
  | on o' move =>
      obtain ⟨file, self, hmove, rfl⟩ := step_on hstep
      have hmoves := moves_of_objectStep hmove
      by_cases ho : o = o'
      · subst ho
        simp only [Function.update_self]
        constructor
        · intro hrefused
          obtain ⟨fd, hpc, hdenies⟩ := hmoves.refused hbefore hrefused
          exact ⟨move, fd, rfl, hpc, hdenies⟩
        · rintro ⟨move', fd, hact, hpc, hdenies⟩
          cases hact
          exact hmoves.refused_of_denies (h o) hpc hdenies
      · simp only [Function.update_of_ne ho]
        refine iff_of_false hbefore ?_
        rintro ⟨move', fd, hact, -⟩
        cases hact
        exact ho rfl
  | exit p =>
      refine iff_of_false (fun hrefused => ?_) (by simp)
      by_cases ho : env.home o = p
      · cases hstep
        simp [ho, Pc.Refused] at hrefused
      · exact hbefore (objects_exit hstep ho ▸ hrefused)

/-- How long it stays so. -/
theorem still_refused_iff {a : Action π ω} (hstep : step env s a = some t)
    (hrefused : (s.objects o).pc.Refused) :
    (t.objects o).pc.Refused ↔ ¬ Renews env o a := by
  cases a with
  | on o' move =>
      obtain ⟨file, self, hmove, rfl⟩ := step_on hstep
      by_cases ho : o = o'
      · subst ho
        simpa [Renews] using (moves_of_objectStep hmove).refused_iff hrefused
      · simp [Renews, Function.update_of_ne ho, hrefused, Ne.symm ho]
  | exit p =>
      by_cases ho : env.home o = p
      · cases hstep
        simp [Renews, Pc.Refused, ho]
      · simp [Renews, objects_exit hstep ho, hrefused, ho]

/-- In the run, the last call of `o` is an `acquire` whose `flock` was
denied. -/
def LastDenied (env : Processes π ω) (content : List Char) (acts : List (Action π ω)) (o : ω) :
    Prop :=
  ∃ pre move post u fd, acts = pre ++ .on o move :: post ∧ (∀ a ∈ post, ¬ Renews env o a) ∧
    exec (step env) (start content) pre = some u ∧ (u.objects o).pc = .opened fd ∧
    Denies u.file move

/-- **Who is told that the directory is locked**: an object is told so by its
last call exactly when the `flock` of that call met a lock that somebody held
or had leaked, or raised `EACCES` or `EAGAIN` without that. -/
theorem locked_iff (hrun : exec (step env) (start content) acts = some s) {last : Outcome}
    (hidle : (s.objects o).pc = .idle last) :
    last = .locked ↔ LastDenied env content acts o := by
  have hrefused : last = .locked ↔ (s.objects o).pc.Refused := by simp [hidle, Pc.Refused]
  rw [hrefused]
  constructor
  · intro hs
    obtain ⟨pre, a, post, u, v, rfl, hu, hnot, hentry, hpost, hstays⟩ :=
      exec_last_entry (I := fun w : Locks ω => (w.objects o).pc.Refused)
        (by simp [start, Pc.Refused]) hrun hs
    have hv := hstays v (visits_start v post)
    obtain ⟨move, fd, rfl, hpc, hdenies⟩ :=
      (refused_step_iff (allConsistent_of_run hu) hentry hnot).mp hv
    refine ⟨pre, move, post, u, fd, rfl, fun a ha => ?_, hu, hpc, hdenies⟩
    obtain ⟨w, hfires⟩ := fires_of_mem hpost ha
    obtain ⟨x, hstep⟩ := hfires.succeeds hpost
    have hx := hstays x (visits_iff.mpr (Or.inr ⟨w, a, hfires, hstep⟩))
    exact (still_refused_iff hstep (hstays w hfires.visits)).mp hx
  · rintro ⟨pre, move, post, u, fd, rfl, hpost, hu, hpc, hdenies⟩
    rw [exec_append_of_eq_some hu, exec_cons_eq_some] at hrun
    obtain ⟨v, hentry, hrun⟩ := hrun
    have hnot : ¬ (u.objects o).pc.Refused := by simp [hpc, Pc.Refused]
    have hv := (refused_step_iff (allConsistent_of_run hu) hentry hnot).mpr
      ⟨move, fd, rfl, hpc, hdenies⟩
    exact exec_invariant_of_fires (G := fun _ a => ¬ Renews env o a)
      (I := fun w : Locks ω => (w.objects o).pc.Refused)
      (fun _ _ _ hw hnot hstep => (still_refused_iff hstep hw).mpr hnot) hv
      (fun _ a hfires => hpost a hfires.mem) hrun

/-- The one that comes second is told so, and the one whose `flock` fails. -/
theorem locked_iff_of_two :
    (∃ s, exec (step twoProcesses) (start []) raceCalls = some s ∧
      LastDenied twoProcesses [] raceCalls false) ∧
      ∃ s, exec (step twoProcesses) (start []) deniedCalls = some s ∧
        LastDenied twoProcesses [] deniedCalls true := by
  have hrace : exec (step twoProcesses) (start []) raceCalls = some _ := rfl
  have hdenied : exec (step twoProcesses) (start []) deniedCalls = some _ := rfl
  exact ⟨⟨_, hrace, (locked_iff hrace rfl).mp rfl⟩, _, hdenied, (locked_iff hdenied rfl).mp rfl⟩

end Locks

end DistributedMarket
