import DistributedMarket.AcquireFailures

/-!
Descriptors nobody can close.

A descriptor of the lock file is in the variable `fd` of a call of
`acquire`, then in `_fd`, and is closed from there. One way leads out of
this: a system call that raises after the lock was granted leaves `acquire`
with the descriptor in no variable. `lost_iff` says that it is the only way,
over every run in which `release` and the `close` of a refused call do not
fail, and that such a descriptor stays open and locked until its process
ends.

What is open is thereby accounted for, so a reachable state says of itself
whether `acquire` can succeed in it (`free_iff`), and the end of the
processes that hold the lock makes it available again (`acquire_after_exits`).
-/

namespace DistributedMarket

open Lib.Flock Lib.Runs SingleWriterLock

/-! ### One object -/

/-- The variable `fd` of `acquire`. -/
def Pc.fd : Pc → Option ℕ
  | .opened fd | .refused fd _ | .won fd | .truncated fd | .written fd | .synced fd => some fd
  | _ => none

/-- The object has a variable that names the open descriptor. -/
def SingleWriterLock.Knows (self : SingleWriterLock) (fd : ℕ) : Prop :=
  self.pc.fd = some fd ∨ self.fd = some fd ∧ self.pc ≠ .closed

/-- The call has been granted the lock on `fd`, and its next step is a system
call whose `OSError` nobody catches. -/
def Pc.Exposes (pc : Pc) (fd : ℕ) : Prop := pc = .won fd ∨ pc = .truncated fd ∨ pc = .written fd

variable {π ω : Type} {env : Processes π ω} {file file' : Inode ω} {o : ω}
  {self self' : SingleWriterLock} {move : Move} {fd : ℕ}

theorem Consistent.fd_eq_none_of_exposes (h : Consistent env file o self)
    (hpc : self.pc.Exposes fd) : self.fd = none := by
  rcases hpc with hpc | hpc | hpc
  · exact h.fd_eq_none (Or.inl hpc)
  · exact h.fd_eq_none (Or.inr (Or.inl hpc))
  · exact h.fd_eq_none (Or.inr (Or.inr (Or.inl hpc)))

/-- A move closes or changes only what the object knows. -/
theorem SingleWriterLock.Moves.unknown (h : Moves env o file self move file' self')
    {d : Description ω} (hd : file.table fd = some d) (hnot : ¬ self.Knows fd) :
    file'.table fd = some d ∧ ¬ self'.Knows fd := by
  rw [Knows, not_or, not_and] at hnot
  obtain ⟨hlocal, hstored⟩ := hnot
  cases h with
  | openFile hpc =>
      have hne : file.fresh ≠ fd := by
        rintro rfl
        rw [file.unused file.fresh le_rfl] at hd
        contradiction
      refine ⟨Inode.table_openFile_of_some o hd, ?_⟩
      simp_all [Knows, Pc.fd]
  | flockEx fd' hpc hgrant =>
      have hne : fd ≠ fd' := fun heq => hlocal (by rw [hpc, heq, Pc.fd])
      refine ⟨(Inode.table_flockEx_of_ne hgrant hne).trans hd, ?_⟩
      simp_all [Knows, Pc.fd]
  | closeRefused fd' outcome hpc =>
      have hne : fd ≠ fd' := fun heq => hlocal (by rw [hpc, heq, Pc.fd])
      refine ⟨(Inode.table_close_of_ne hne).trans hd, ?_⟩
      simp_all [Knows, Pc.fd]
  | write fd' hpc =>
      have hne : fd ≠ fd' := fun heq => hlocal (by rw [hpc, heq, Pc.fd])
      refine ⟨(Inode.table_write_of_ne _ hne).trans hd, ?_⟩
      simp_all [Knows, Pc.fd]
  | flockUn fd' hpc hfd =>
      have hne : fd ≠ fd' := fun heq => hstored (by rw [hfd, heq]) (by simp [hpc])
      refine ⟨(Inode.table_flockUn_of_ne hne).trans hd, ?_⟩
      simp_all [Knows, Pc.fd]
  | closeReleased fd' hpc hfd =>
      have hne : fd ≠ fd' := fun heq => hstored (by rw [hfd, heq]) (by simp [hpc])
      refine ⟨(Inode.table_close_of_ne hne).trans hd, ?_⟩
      simp_all [Knows, Pc.fd]
  | failHeld errno fd' hpc =>
      refine ⟨hd, ?_⟩
      rintro (hfd | ⟨hfd, -⟩)
      · contradiction
      · have hclosed := not_not.mp (hstored hfd)
        simp [hclosed] at hpc
  | _ =>
      refine ⟨hd, ?_⟩
      simp_all [Knows, Pc.fd]

/-- What is open after a move was open before it or has just been opened,
and only a failure while the lock is held forgets it. -/
theorem SingleWriterLock.Moves.known (h : Moves env o file self move file' self')
    (hconsistent : Consistent env file o self)
    (hknown : ∀ d, file.table fd = some d → d.owner = o → self.Knows fd)
    (hheld : ∀ errno, move = .osError errno → ¬ self.pc.Exposes fd) :
    ∀ d, file'.table fd = some d → d.owner = o → self'.Knows fd := by
  intro d hd howner
  cases h with
  | openFile hpc =>
      by_cases hne : fd = file.fresh
      · exact Or.inl (by rw [hne, Pc.fd])
      · rw [Inode.table_openFile_of_ne o hne] at hd
        have := hknown d hd howner
        simp_all [Knows, Pc.fd]
  | flockEx fd' hpc hgrant =>
      by_cases hne : fd = fd'
      · exact Or.inl (by rw [hne, Pc.fd])
      · rw [Inode.table_flockEx_of_ne hgrant hne] at hd
        have := hknown d hd howner
        simp_all [Knows, Pc.fd]
  | closeRefused fd' outcome hpc =>
      have hne : fd' ≠ fd := by
        rintro rfl
        rw [Inode.table_close] at hd
        contradiction
      rw [Inode.table_close_of_ne hne.symm] at hd
      have := hknown d hd howner
      simp_all [Knows, Pc.fd]
  | write fd' hpc =>
      by_cases hne : fd = fd'
      · exact Or.inl (by rw [hne, Pc.fd])
      · rw [Inode.table_write_of_ne _ hne] at hd
        have := hknown d hd howner
        simp_all [Knows, Pc.fd]
  | record fd' hpc =>
      have hnone := hconsistent.fd_eq_none (Or.inr (Or.inr (Or.inr hpc)))
      have := hknown d hd howner
      simp_all [Knows, Pc.fd]
  | flockUn fd' hpc hfd =>
      by_cases hne : fd = fd'
      · exact Or.inr ⟨by rw [hne]; exact hfd, by simp⟩
      · rw [Inode.table_flockUn_of_ne hne] at hd
        have := hknown d hd howner
        simp_all [Knows, Pc.fd]
  | closeReleased fd' hpc hfd =>
      have hne : fd' ≠ fd := by
        rintro rfl
        rw [Inode.table_close] at hd
        contradiction
      rw [Inode.table_close_of_ne hne.symm] at hd
      have := hknown d hd howner
      simp_all [Knows, Pc.fd]
  | failHeld errno fd' hpc =>
      -- The descriptor in the variable is `fd'`, and `_fd` is empty.
      have hnone := hconsistent.fd_eq_none_of_exposes hpc
      have hlocal : self.pc.fd = some fd' := by
        rcases hpc with hpc | hpc | hpc <;> rw [hpc, Pc.fd]
      rcases hknown d hd howner with hfd | ⟨hfd, -⟩
      · rw [hlocal, Option.some.injEq] at hfd
        exact absurd (hfd ▸ hpc) (hheld errno rfl)
      · rw [hnone] at hfd
        contradiction
  | _ =>
      have := hknown d hd howner
      simp_all [Knows, Pc.fd]

theorem SingleWriterLock.Moves.not_gone (h : Moves env o file self move file' self') :
    self.pc ≠ .gone ∧ self'.pc ≠ .gone := by
  cases h with
  | failHeld errno fd hpc =>
      refine ⟨fun hgone => ?_, by simp⟩
      simp [hgone] at hpc
  | _ => simp_all

/-! ### All objects -/

namespace Locks

/-- A descriptor of `o` that is open and that `o` has no variable for. -/
def Lost (s : Locks ω) (o : ω) (fd : ℕ) : Prop :=
  (∃ d, s.file.table fd = some d ∧ d.owner = o) ∧ ¬ (s.objects o).Knows fd

variable [DecidableEq π] [DecidableEq ω] {s t : Locks ω} {content : List Char}
  {acts : List (Action π ω)}

/-- In the run, a system call of `o` fails while its `acquire` holds the lock
through `fd`. -/
def Leaks (env : Processes π ω) (content : List Char) (acts : List (Action π ω)) (o : ω)
    (fd : ℕ) : Prop :=
  ∃ u errno, Fires (step env) (start content) acts u (.on o (.osError errno)) ∧
    (u.objects o).pc.Exposes fd

theorem table_exit {p : π} {d : Description ω} (h : step env s (.exit p) = some t) :
    t.file.table fd = some d ↔ s.file.table fd = some d ∧ env.home d.owner ≠ p := by
  cases h
  show (s.file.closeAll fun o => env.home o = p).table fd = some d ↔ _
  rw [Inode.table_closeAll, decide_eq_false_iff_not]

theorem objects_exit {p : π} (h : step env s (.exit p) = some t) (ho : env.home o ≠ p) :
    t.objects o = s.objects o := by
  cases h
  exact if_neg ho

theorem knows_preserved {a : Action π ω} (h : s.AllConsistent env)
    (hknown : ∀ d, s.file.table fd = some d → d.owner = o → (s.objects o).Knows fd)
    (hheld : ∀ errno, a = .on o (.osError errno) → ¬ (s.objects o).pc.Exposes fd)
    (hstep : step env s a = some t) :
    ∀ d, t.file.table fd = some d → d.owner = o → (t.objects o).Knows fd := by
  intro d hd howner
  cases a with
  | on o' move =>
      obtain ⟨file, self, hmove, rfl⟩ := step_on hstep
      show (Function.update s.objects o' self o).Knows fd
      by_cases ho : o = o'
      · subst ho
        rw [Function.update_self]
        refine (moves_of_objectStep hmove).known (h o) hknown ?_ d hd howner
        rintro errno rfl
        exact hheld errno rfl
      · rw [Function.update_of_ne ho]
        have hframe := ((h o').objectStep hmove).frame
        exact hknown d ((hframe fd d (howner ▸ ho)).mp hd) howner
  | exit p =>
      obtain ⟨hd, hstays⟩ := (table_exit hstep).mp hd
      rw [objects_exit hstep (howner ▸ hstays)]
      exact hknown d hd howner

/-- A locked descriptor of an object that does not know of it, unless the
object has ended. -/
def Stuck (s : Locks ω) (o : ω) (fd : ℕ) : Prop :=
  (∃ n, s.file.table fd = some ⟨o, true, n⟩) ∧ ¬ (s.objects o).Knows fd ∨
    (s.objects o).pc = .gone

theorem Stuck.preserved {a : Action π ω} (h : s.AllConsistent env) (hstuck : s.Stuck o fd)
    (hstep : step env s a = some t) : t.Stuck o fd := by
  cases a with
  | on o' move =>
      obtain ⟨file, self, hmove, rfl⟩ := step_on hstep
      by_cases ho : o = o'
      · subst ho
        have hmoves := moves_of_objectStep hmove
        rcases hstuck with ⟨⟨n, hd⟩, hnot⟩ | hgone
        · obtain ⟨hd', hnot'⟩ := hmoves.unknown hd hnot
          refine Or.inl ⟨⟨n, hd'⟩, ?_⟩
          simpa only [Function.update_self] using hnot'
        · exact absurd hgone hmoves.not_gone.1
      · simp only [Stuck, Function.update_of_ne ho]
        refine hstuck.imp_left ?_
        rintro ⟨⟨n, hd⟩, hnot⟩
        exact ⟨⟨n, (((h o').objectStep hmove).frame fd _ ho).mpr hd⟩, hnot⟩
  | exit p =>
      by_cases ho : env.home o = p
      · cases hstep
        exact Or.inr (by simp [ho])
      · rw [Stuck, objects_exit hstep ho]
        refine hstuck.imp_left ?_
        rintro ⟨⟨n, hd⟩, hnot⟩
        exact ⟨⟨n, (table_exit hstep).mpr ⟨hd, ho⟩⟩, hnot⟩

/-- The failure itself. -/
theorem stuck_of_osError {errno : Errno} (h : s.AllConsistent env)
    (hpc : (s.objects o).pc.Exposes fd) (hstep : step env s (.on o (.osError errno)) = some t) :
    t.Stuck o fd := by
  obtain ⟨file, self, hmove, rfl⟩ := step_on hstep
  have hself := h o
  generalize hobject : s.objects o = object at hself hmove hpc
  cases moves_of_objectStep hmove with
  | failOpen errno hopening => simp [Pc.Exposes, hopening] at hpc
  | failFlock errno fd' hopened => simp [Pc.Exposes, hopened] at hpc
  | failHeld errno fd' hheld =>
      refine Or.inl ⟨?_, ?_⟩
      · unfold Consistent at hself
        rcases hpc with hpc | hpc | hpc <;> rw [hpc] at hself
        · exact ⟨0, hself.1⟩
        · exact ⟨0, hself.1⟩
        · exact hself.1
      · simp [Knows, Pc.fd, hself.fd_eq_none_of_exposes hpc]

/-- The end of a process closes all its descriptors, and it opens no more. -/
theorem gone_preserved {a : Action π ω} (h : s.AllConsistent env)
    (hgone : (s.objects o).pc = .gone → ∀ fd d, s.file.table fd = some d → d.owner ≠ o)
    (hstep : step env s a = some t) :
    (t.objects o).pc = .gone → ∀ fd d, t.file.table fd = some d → d.owner ≠ o := by
  intro hpc fd d hd
  cases a with
  | on o' move =>
      obtain ⟨file, self, hmove, rfl⟩ := step_on hstep
      by_cases ho : o = o'
      · subst ho
        simp only [Function.update_self] at hpc
        exact absurd hpc (moves_of_objectStep hmove).not_gone.2
      · simp only [Function.update_of_ne ho] at hpc
        intro howner
        have hframe := ((h o').objectStep hmove).frame
        exact hgone hpc fd d ((hframe fd d (howner ▸ ho)).mp hd) howner
  | exit p =>
      obtain ⟨hd, hstays⟩ := (table_exit hstep).mp hd
      rintro rfl
      rw [objects_exit hstep hstays] at hpc
      exact hgone hpc fd d hd rfl

theorem AllConsistent.of_run (h : s.AllConsistent env) (hrun : exec (step env) s acts = some t) :
    t.AllConsistent env :=
  exec_invariant (fun _ _ _ hs hstep => hs.preserved hstep) h hrun

theorem gone_of_run (hrun : exec (step env) (start content) acts = some s)
    (hgone : (s.objects o).pc = .gone) : ∀ fd d, s.file.table fd = some d → d.owner ≠ o := by
  have hinv := exec_invariant (I := fun u : Locks ω => u.AllConsistent env ∧
      ((u.objects o).pc = .gone → ∀ fd d, u.file.table fd = some d → d.owner ≠ o))
    (fun u a v hu hstep => ⟨hu.1.preserved hstep, gone_preserved hu.1 hu.2 hstep⟩)
    ⟨allConsistent_start content, fun h => by contradiction⟩ hrun
  exact hinv.2 hgone

/-- A run in which `o` does not leak `fd` leaves it with a variable for it. -/
theorem knows_of_run (hrun : exec (step env) (start content) acts = some s)
    (hleaks : ¬ Leaks env content acts o fd) :
    ∀ d, s.file.table fd = some d → d.owner = o → (s.objects o).Knows fd := by
  have hinv := exec_invariant_of_fires
    (G := fun (u : Locks ω) a =>
      ∀ errno, a = .on o (.osError errno) → ¬ (u.objects o).pc.Exposes fd)
    (I := fun u : Locks ω => u.AllConsistent env ∧
      ∀ d, u.file.table fd = some d → d.owner = o → (u.objects o).Knows fd)
    (fun u a v hu hheld hstep => ⟨hu.1.preserved hstep, knows_preserved hu.1 hu.2 hheld hstep⟩)
    ⟨allConsistent_start content, fun d hd => by contradiction⟩
    (fun u a hfires errno ha hpc => ?_) hrun
  · exact hinv.2
  · exact hleaks ⟨u, errno, ha ▸ hfires, hpc⟩

theorem Leaks.stuck (hrun : exec (step env) (start content) acts = some s)
    (h : Leaks env content acts o fd) : s.Stuck o fd := by
  obtain ⟨u, errno, ⟨pre, ⟨post, rfl⟩, hu⟩, hpc⟩ := h
  rw [List.append_assoc, exec_append_of_eq_some hu, List.singleton_append,
    exec_cons_eq_some] at hrun
  obtain ⟨v, hstep, hrun⟩ := hrun
  have hconsistent := allConsistent_of_run hu
  have hinv := exec_invariant (I := fun w : Locks ω => w.AllConsistent env ∧ w.Stuck o fd)
    (fun w a x hw hstep => ⟨hw.1.preserved hstep, hw.2.preserved hw.1 hstep⟩)
    ⟨hconsistent.preserved hstep, stuck_of_osError hconsistent hpc hstep⟩ hrun
  exact hinv.2

/-- **The lost descriptors** of any run: exactly those an `acquire` leaked
in a process that has not ended, and each of them holds the lock. -/
theorem lost_iff (hrun : exec (step env) (start content) acts = some s) (o : ω) (fd : ℕ) :
    (s.Lost o fd ↔ Leaks env content acts o fd ∧ (s.objects o).pc ≠ .gone) ∧
      (s.Lost o fd → ∃ n, s.file.table fd = some ⟨o, true, n⟩) := by
  have hleaks : s.Lost o fd → Leaks env content acts o fd ∧ (s.objects o).pc ≠ .gone := by
    rintro ⟨⟨d, hd, howner⟩, hnot⟩
    refine ⟨?_, fun hgone => gone_of_run hrun hgone fd d hd howner⟩
    by_contra hleaks
    exact hnot (knows_of_run hrun hleaks d hd howner)
  have hstuck : Leaks env content acts o fd ∧ (s.objects o).pc ≠ .gone →
      (∃ n, s.file.table fd = some ⟨o, true, n⟩) ∧ ¬ (s.objects o).Knows fd := by
    rintro ⟨hleaks, hgone⟩
    exact (hleaks.stuck hrun).resolve_right hgone
  refine ⟨⟨hleaks, fun h => ?_⟩, fun h => (hstuck (hleaks h)).1⟩
  obtain ⟨⟨n, hd⟩, hnot⟩ := hstuck h
  exact ⟨⟨_, hd, rfl⟩, hnot⟩

end Locks

/-! ### When the lock can be had -/

/-- The object has been granted the lock, and neither gave it back nor
forgot it. -/
def SingleWriterLock.Holding (self : SingleWriterLock) : Prop :=
  self.Acquired ∨ ∃ fd, self.pc.Exposes fd ∨ self.pc = .synced fd

theorem Consistent.locked_of_holding (h : Consistent env file o self) (hholding : self.Holding) :
    ∃ fd n, file.table fd = some ⟨o, true, n⟩ := by
  rcases hholding with hacquired | ⟨fd, hpc⟩
  · obtain ⟨fd, hfd⟩ := Option.isSome_iff_exists.mp hacquired.1
    obtain ⟨⟨n, hd⟩, -⟩ := h.stored hacquired fd hfd
    exact ⟨fd, n, hd⟩
  · unfold Consistent at h
    rcases hpc with (hpc | hpc | hpc) | hpc <;> rw [hpc] at h
    · exact ⟨fd, 0, h.1⟩
    · exact ⟨fd, 0, h.1⟩
    · obtain ⟨⟨n, hd⟩, -⟩ := h
      exact ⟨fd, n, hd⟩
    · obtain ⟨⟨n, hd⟩, -⟩ := h
      exact ⟨fd, n, hd⟩

/-- A locked descriptor the object knows of makes it a holder. -/
theorem Consistent.holding_of_knows (h : Consistent env file o self) {n : ℕ}
    (hd : file.table fd = some ⟨o, true, n⟩) (hknows : self.Knows fd) : self.Holding := by
  rcases hknows with hlocal | ⟨hstored, hclosed⟩
  · cases hpc : self.pc with
    | opened fd' =>
        rw [hpc, Pc.fd, Option.some.injEq] at hlocal
        subst hlocal
        rw [Consistent, hpc] at h
        simp [hd] at h
    | refused fd' outcome =>
        rw [hpc, Pc.fd, Option.some.injEq] at hlocal
        subst hlocal
        rw [Consistent, hpc] at h
        simp [hd] at h
    | won fd' => exact Or.inr ⟨fd', Or.inl (Or.inl hpc)⟩
    | truncated fd' => exact Or.inr ⟨fd', Or.inl (Or.inr (Or.inl hpc))⟩
    | written fd' => exact Or.inr ⟨fd', Or.inl (Or.inr (Or.inr hpc))⟩
    | synced fd' => exact Or.inr ⟨fd', Or.inr hpc⟩
    | _ => simp [hpc, Pc.fd] at hlocal
  · refine Or.inl ⟨by simp [hstored], fun hunlocked => ?_, hclosed⟩
    rw [Consistent, hunlocked] at h
    obtain ⟨m, hm⟩ := h fd hstored
    simp [hd] at hm

namespace Locks

/-- A lock is free once the processes that have it have ended. -/
theorem free_of_table {file file' : Inode ω} {ps : List π}
    (htable : ∀ fd d, file'.table fd = some d ↔ file.table fd = some d ∧ env.home d.owner ∉ ps)
    (hps : ∀ fd d, file.table fd = some d → d.locked = true → env.home d.owner ∈ ps) :
    file'.Free := by
  intro fd d hd
  obtain ⟨hd, hnot⟩ := (htable fd d).mp hd
  by_contra hlocked
  exact hnot (hps fd d hd (eq_true_of_ne_false hlocked))

variable [DecidableEq π] [DecidableEq ω] {s t : Locks ω} {content : List Char}
  {acts : List (Action π ω)}

/-- **When the lock is free**: nobody holds it, and whoever leaked it is
gone. -/
theorem free_iff (hrun : exec (step env) (start content) acts = some s) :
    s.file.Free ↔ (∀ o, ¬ (s.objects o).Holding) ∧
      ∀ o fd, Leaks env content acts o fd → (s.objects o).pc = .gone := by
  have hconsistent := allConsistent_of_run hrun
  refine ⟨fun hfree => ⟨fun o hholding => ?_, fun o fd hleaks => ?_⟩, ?_⟩
  · obtain ⟨fd, n, hd⟩ := (hconsistent o).locked_of_holding hholding
    have := hfree fd _ hd
    contradiction
  · refine (hleaks.stuck hrun).resolve_left ?_
    rintro ⟨⟨n, hd⟩, -⟩
    have := hfree fd _ hd
    contradiction
  · rintro ⟨hholding, hleaks⟩ fd ⟨o, locked, n⟩ hd
    cases locked with
    | false => rfl
    | true =>
        refine absurd ((hconsistent o).holding_of_knows hd ?_) (hholding o)
        refine knows_of_run hrun (fun hleak => ?_) _ hd rfl
        exact gone_of_run hrun (hleaks o fd hleak) fd _ hd rfl

/-- **When `acquire` succeeds**, called in any state a run can lead to. -/
theorem acquire_succeeds_iff (hrun : exec (step env) (start content) acts = some s) (o : ω)
    (faults : Acquire.Faults) :
    Acquire.Succeeds env o faults ⟨s.file, (s.objects o).fd⟩ ↔
      (∀ call, faults call = none) ∧ (∀ o', ¬ (s.objects o').Holding) ∧
        ∀ o' fd, Leaks env content acts o' fd → (s.objects o').pc = .gone := by
  rw [Acquire.succeeds_iff, free_iff hrun]

/-! ### Recovery -/

/-- What is left when processes end. -/
theorem exec_exits (env : Processes π ω) (s : Locks ω) (ps : List π) :
    ∃ t, exec (step env) s (ps.map .exit) = some t ∧
      (∀ fd d, t.file.table fd = some d ↔ s.file.table fd = some d ∧ env.home d.owner ∉ ps) ∧
      ∀ o, env.home o ∉ ps → t.objects o = s.objects o := by
  induction ps generalizing s with
  | nil => exact ⟨s, rfl, by simp, by simp⟩
  | cons p ps ih =>
      obtain ⟨u, hu⟩ : ∃ u, step env s (.exit p) = some u := ⟨_, rfl⟩
      obtain ⟨t, ht, htable, hobjects⟩ := ih u
      refine ⟨t, ?_, fun fd d => ?_, fun o ho => ?_⟩
      · rw [List.map_cons, exec_cons, hu]
        exact ht
      · rw [htable, table_exit hu, List.mem_cons, not_or, and_assoc]
      · rw [List.mem_cons, not_or] at ho
        rw [hobjects o ho.2, objects_exit hu ho.1]

/-- The moves of one object, among the moves of all. -/
theorem exec_on (s : Locks ω) (o : ω) (moves : List Move) :
    exec (step env) s (moves.map (.on o)) =
      (exec (Acquire.step env o) (s.file, s.objects o) moves).map fun (file, self) =>
        { file := file, objects := Function.update s.objects o self } := by
  induction moves generalizing s with
  | nil => simp
  | cons move moves ih =>
      rw [List.map_cons, exec_cons, exec_cons, step, Acquire.step, Option.bind_map,
        Option.map_bind]
      congr 1
      funext ⟨file, self⟩
      simp [ih]

/-- An `acquire` that nothing interrupts, on a free lock. -/
theorem exec_acquire_free (env : Processes π ω) {last : Outcome}
    (hidle : (s.objects o).pc = .idle last) (hfree : s.file.Free) :
    ∃ t, exec (step env) s ((.acquire :: List.replicate 6 .advance).map (.on o)) = some t ∧
      (t.objects o).Acquired ∧ (t.objects o).pc = .idle .returned := by
  have hgranted : Acquire.Granted o (fun _ => none) ⟨s.file, (s.objects o).fd⟩ :=
    ⟨rfl, rfl, rfl, (Inode.grantable_openFile_iff o).mpr hfree⟩
  have hobject : s.objects o = ⟨(s.objects o).fd, .idle last⟩ := by rw [← hidle]
  obtain ⟨file, hmoves⟩ : ∃ file, exec (Acquire.step env o) (s.file, s.objects o)
      (.acquire :: List.replicate 6 .advance) =
        some (file, ⟨some s.file.fresh, .idle .returned⟩) := by
    rw [hobject]
    exact ⟨_, hgranted.exec_locked last [.advance, .advance, .advance, .advance]⟩
  refine ⟨⟨file, Function.update s.objects o ⟨some s.file.fresh, .idle .returned⟩⟩, ?_, ?_⟩
  · rw [exec_on, hmoves]
    rfl
  · simp [Acquired]

/-- And on one that is taken: the file is as before. -/
theorem exec_acquire_taken (env : Processes π ω) {last : Outcome}
    (hidle : (s.objects o).pc = .idle last) (htaken : ¬ s.file.Free) :
    ∃ t, exec (step env) s ((.acquire :: List.replicate 3 .advance).map (.on o)) = some t ∧
      (t.objects o).pc = .idle .locked ∧ t.file.table = s.file.table ∧
      t.file.content = s.file.content ∧ ∀ o', o' ≠ o → t.objects o' = s.objects o' := by
  have hrefused : ¬ (s.file.openFile o).Grantable s.file.fresh :=
    fun hgrant => htaken ((Inode.grantable_openFile_iff o).mp hgrant)
  have hobject : s.objects o = ⟨(s.objects o).fd, .idle last⟩ := by rw [← hidle]
  have hmoves : exec (Acquire.step env o) (s.file, s.objects o)
      (.acquire :: List.replicate 3 .advance) =
        some ((s.file.openFile o).close s.file.fresh, ⟨(s.objects o).fd, .idle .locked⟩) := by
    conv_lhs => rw [hobject]
    exact Acquire.exec_refused (w := ⟨s.file, (s.objects o).fd⟩) hrefused last
  refine ⟨⟨(s.file.openFile o).close s.file.fresh,
    Function.update s.objects o ⟨(s.objects o).fd, .idle .locked⟩⟩, ?_, ?_⟩
  · rw [exec_on, hmoves]
    rfl
  · exact ⟨by simp, Inode.table_close_openFile o, rfl, fun o' ho' => Function.update_of_ne ho' _ _⟩

/-- **Recovery.** Wherever a run is stopped, once the processes that hold
the lock have ended any object that is between its calls gets it. -/
theorem acquire_after_exits (hrun : exec (step env) (start content) acts = some s) (ps : List π)
    (hps : ∀ fd d, s.file.table fd = some d → d.locked = true → env.home d.owner ∈ ps)
    {last : Outcome} (hidle : (s.objects o).pc = .idle last) (ho : env.home o ∉ ps) :
    ∃ (moves : List Move) (t : Locks ω),
      exec (step env) s (ps.map .exit ++ moves.map (.on o)) = some t ∧
      (t.objects o).Acquired ∧ t.file.content = env.pidLine o := by
  obtain ⟨u, hu, htable, hobjects⟩ := exec_exits env s ps
  obtain ⟨t, ht, hacquired, -⟩ :=
    exec_acquire_free env (by rwa [hobjects o ho]) (free_of_table htable hps)
  have hexec := (exec_append_of_eq_some hu).trans ht
  have hconsistent := (allConsistent_of_run hrun).of_run hexec o
  exact ⟨_, t, hexec, hacquired, (hconsistent.holds hacquired).2⟩

/-- Two processes with a lock object each. -/
def twoProcesses : Processes Bool Bool where
  home := id
  getpid := fun p => if p then 2 else 1

/-- The `truncate` of the one raises `EIO`. -/
def leakingCalls : List (Action Bool Bool) :=
  .on false .acquire :: List.replicate 2 (.on false .advance) ++ [.on false (.osError (.other 5))]

/-- Nobody has the lock, and the `flock` of the other raises `EACCES` all the
same. -/
def deniedCalls : List (Action Bool Bool) :=
  [.on true .acquire, .on true .advance, .on true (.osError .EACCES), .on true .advance]

theorem lost_iff_of_leak : ∃ s,
    exec (step twoProcesses) (start []) leakingCalls = some s ∧
      (s.Lost false 0 ↔
        Leaks twoProcesses [] leakingCalls false 0 ∧ (s.objects false).pc ≠ .gone) ∧
      (s.Lost false 0 → ∃ n, s.file.table 0 = some ⟨false, true, n⟩) :=
  ⟨_, rfl, lost_iff rfl false 0⟩

theorem acquire_succeeds_iff_of_leak : ∃ s,
    exec (step twoProcesses) (start []) leakingCalls = some s ∧
      (Acquire.Succeeds twoProcesses true (fun _ => none) ⟨s.file, (s.objects true).fd⟩ ↔
        (∀ call : Acquire.Syscall, (fun _ => none : Acquire.Faults) call = none) ∧
          (∀ o, ¬ (s.objects o).Holding) ∧
          ∀ o fd, Leaks twoProcesses [] leakingCalls o fd → (s.objects o).pc = .gone) :=
  ⟨_, rfl, acquire_succeeds_iff rfl true _⟩

/-- The other gets the lock once the process of the one has ended. -/
theorem acquire_after_exits_of_leak : ∃ s,
    exec (step twoProcesses) (start []) leakingCalls = some s ∧
      ∃ (moves : List Move) (t : Locks Bool),
        exec (step twoProcesses) s ([false].map .exit ++ moves.map (.on true)) = some t ∧
          (t.objects true).Acquired ∧ t.file.content = twoProcesses.pidLine true := by
  have hrun : exec (step twoProcesses) (start []) leakingCalls = some _ := rfl
  refine ⟨_, hrun, acquire_after_exits hrun [false] ?_ (rfl : _ = Pc.idle .returned) (by decide)⟩
  intro fd d hd hlocked
  cases fd with
  | zero =>
      cases hd
      decide
  | succ fd => contradiction

end Locks

end DistributedMarket
