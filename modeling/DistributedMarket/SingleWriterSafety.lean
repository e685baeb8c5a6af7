import DistributedMarket.SingleWriter

/-!
At most one writer.

The step lemma is `Consistent.objectStep`: a move of an object touches only
its own descriptions, touches the content only while the object holds the
lock, and leaves the object consistent. With the frame of the others it
makes consistency of all objects an invariant of every run.
-/

namespace DistributedMarket

open Lib.Flock Lib.Runs SingleWriterLock

variable {π ω : Type} {env : Processes π ω} {file file' : Inode ω} {o o' : ω}
  {self self' : SingleWriterLock}

/-! ### One object -/

/-- What a move of `o` is seen to do. -/
structure Touches (env : Processes π ω) (o : ω) (file file' : Inode ω)
    (self' : SingleWriterLock) : Prop where
  frame : file.Frame o file'
  content : file'.content = file.content ∨ file.Holds o
  consistent : Consistent env file' o self'

/-- A move that leaves the file alone. -/
theorem Touches.of_consistent (h : Consistent env file o self') :
    Touches env o file file self' :=
  ⟨Inode.Frame.refl o file, Or.inl rfl, h⟩

/-- The descriptor in `_fd` is not another one of the object: that one is
not locked. -/
theorem Stored.keeps {stored : Option ℕ} (h : Stored env file o stored)
    (hother : ∀ fd n, file.table fd = some ⟨o, true, n⟩ → file'.table fd = some ⟨o, true, n⟩)
    (hcontent : file'.content = file.content) : Stored env file' o stored := by
  intro fd hfd
  obtain ⟨⟨n, hd⟩, hline⟩ := h fd hfd
  exact ⟨⟨n, hother fd n hd⟩, hcontent.trans hline⟩

theorem Consistent.openFile (h : Stored env file o self.fd) :
    Touches env o file (file.openFile o) { self with pc := .opened file.fresh } where
  frame := Inode.frame_openFile o
  content := Or.inl rfl
  consistent := by
    refine ⟨Inode.table_openFile o, h.keeps ?_ rfl⟩
    intro fd n hd
    exact Inode.table_openFile_of_some o hd

/-- The lock is granted only to an object that has none in `_fd`. -/
theorem Consistent.flockEx {fd : ℕ} (hd : file.table fd = some ⟨o, false, 0⟩)
    (h : Stored env file o self.fd) (hgrant : file.Grantable fd) :
    Touches env o file (file.flockEx fd hgrant) { self with pc := .won fd } where
  frame := Inode.frame_flockEx hgrant hd
  content := Or.inl rfl
  consistent := by
    refine ⟨Inode.table_flockEx hgrant hd, ?_⟩
    cases hfd : self.fd with
    | none => rfl
    | some fd' =>
        obtain ⟨⟨n, hd'⟩, -⟩ := h fd' hfd
        obtain rfl := hgrant.eq_of_locked hd' rfl
        simp [hd] at hd'

theorem Consistent.closeRefused {fd : ℕ} {outcome : Outcome}
    (hd : file.table fd = some ⟨o, false, 0⟩) (h : Stored env file o self.fd) :
    Touches env o file (file.close fd) { self with pc := .idle outcome } where
  frame := Inode.frame_close hd
  content := Or.inl rfl
  consistent := by
    show Stored env (file.close fd) o self.fd
    refine h.keeps ?_ rfl
    intro fd' n hd'
    have hne : fd' ≠ fd := by
      rintro rfl
      simp [hd] at hd'
    simp [Inode.close, Inode.modify, Inode.retable, Function.update_of_ne hne, hd']

theorem Consistent.writeLine {fd : ℕ} (hd : file.table fd = some ⟨o, true, 0⟩)
    (hfd : self.fd = none) (hempty : file.content = []) :
    Touches env o file (file.write fd (env.pidLine o)) { self with pc := .written fd } where
  frame := Inode.frame_write _ hd
  content := Or.inr ⟨fd, _, hd, rfl, rfl⟩
  consistent := ⟨⟨_, Inode.table_write _ hd⟩, hfd, Inode.content_write hd rfl hempty⟩

theorem Consistent.flockUn {fd : ℕ} (hfd : self.fd = some fd) (h : Stored env file o self.fd) :
    Touches env o file (file.flockUn fd) { self with pc := .unlocked } := by
  obtain ⟨⟨n, hd⟩, -⟩ := h fd hfd
  refine ⟨Inode.frame_flockUn hd, Or.inl rfl, ?_⟩
  intro fd' hfd'
  cases hfd.symm.trans hfd'
  exact ⟨n, Inode.table_flockUn hd⟩

/-- An object with a descriptor in `_fd` is not in the middle of taking the
lock. -/
theorem Consistent.fd_eq_none {fd : ℕ} (h : Consistent env file o self)
    (hpc : self.pc = .won fd ∨ self.pc = .truncated fd ∨ self.pc = .written fd ∨
      self.pc = .synced fd) : self.fd = none := by
  rcases hpc with hpc | hpc | hpc | hpc <;> rw [Consistent, hpc] at h
  · exact h.2
  · exact h.2.1
  · exact h.2.1
  · exact h.2.1

theorem Stored.of_none {stored : Option ℕ} (h : stored = none) : Stored env file o stored := by
  rintro fd hfd
  rw [h] at hfd
  contradiction

/-- The step lemma. -/
theorem Consistent.objectStep {move : Move} (h : Consistent env file o self)
    (hstep : self.objectStep env o file move = some (file', self')) :
    Touches env o file file' self' := by
  cases moves_of_objectStep hstep with
  | acquire last hpc =>
      rw [Consistent, hpc] at h
      exact Touches.of_consistent h
  | releaseNothing last hpc hfd =>
      rw [Consistent, hpc] at h
      exact Touches.of_consistent h
  | release last hpc hfd =>
      rw [Consistent, hpc] at h
      exact Touches.of_consistent h
  | openFile hpc =>
      rw [Consistent, hpc] at h
      exact Consistent.openFile h
  | flockEx fd hpc hgrant =>
      rw [Consistent, hpc] at h
      exact Consistent.flockEx h.1 h.2 hgrant
  | flockRefused fd hpc hrefused =>
      rw [Consistent, hpc] at h
      exact Touches.of_consistent h
  | closeRefused fd outcome hpc =>
      rw [Consistent, hpc] at h
      exact Consistent.closeRefused h.1 h.2
  | truncate fd hpc =>
      rw [Consistent, hpc] at h
      exact ⟨Inode.Frame.refl o file, Or.inr ⟨fd, _, h.1, rfl, rfl⟩, h.1, h.2, rfl⟩
  | write fd hpc =>
      rw [Consistent, hpc] at h
      exact Consistent.writeLine h.1 h.2.1 h.2.2
  | fsync fd hpc =>
      rw [Consistent, hpc] at h
      exact Touches.of_consistent h
  | record fd hpc =>
      rw [Consistent, hpc] at h
      apply Touches.of_consistent
      rintro fd' hfd'
      cases hfd'
      exact ⟨h.1, h.2.2⟩
  | flockUn fd hpc hfd =>
      rw [Consistent, hpc] at h
      exact Consistent.flockUn hfd h
  | closeReleased fd hpc hfd =>
      rw [Consistent, hpc] at h
      obtain ⟨n, hd⟩ := h fd hfd
      exact ⟨Inode.frame_close hd, Or.inl rfl, trivial⟩
  | clear hpc =>
      apply Touches.of_consistent
      rintro fd hfd
      contradiction
  | failOpen errno hpc =>
      rw [Consistent, hpc] at h
      exact Touches.of_consistent h
  | failFlock errno fd hpc =>
      rw [Consistent, hpc] at h
      exact Touches.of_consistent h
  | failHeld errno fd hpc =>
      -- The descriptor stays open with its lock, but not in `_fd`.
      have hnone : self.fd = none := by
        rcases hpc with hpc | hpc | hpc
        · exact h.fd_eq_none (Or.inl hpc)
        · exact h.fd_eq_none (Or.inr (Or.inl hpc))
        · exact h.fd_eq_none (Or.inr (Or.inr (Or.inl hpc)))
      exact Touches.of_consistent (.of_none hnone)

/-! ### All objects -/

namespace Locks

/-- Every object is consistent with the file. -/
def AllConsistent (env : Processes π ω) (s : Locks ω) : Prop :=
  ∀ o, Consistent env s.file o (s.objects o)

theorem allConsistent_start (content : List Char) :
    (start content : Locks ω).AllConsistent env := by
  intro o fd hfd
  contradiction

variable [DecidableEq π] [DecidableEq ω] {s t : Locks ω}

theorem step_on {move : Move} (h : step env s (.on o move) = some t) :
    ∃ file self, (s.objects o).objectStep env o s.file move = some (file, self) ∧
      t = ⟨file, Function.update s.objects o self⟩ := by
  obtain ⟨⟨file, self⟩, hmove, rfl⟩ := Option.map_eq_some_iff.mp h
  exact ⟨file, self, hmove, rfl⟩

/-- The end of a process closes what its own objects have opened. -/
theorem exit_keeps {p : π} (h : step env s (.exit p) = some t) (ho : env.home o ≠ p) :
    Keeps o s.file t.file := by
  cases h
  rintro fd d rfl hd
  show (s.file.closeAll fun o => env.home o = p).table fd = some d
  rw [Inode.table_closeAll]
  exact ⟨hd, decide_eq_false ho⟩

theorem AllConsistent.preserved {a : Action π ω} (h : s.AllConsistent env)
    (hstep : step env s a = some t) : t.AllConsistent env := by
  cases a with
  | on o' move =>
      obtain ⟨file, self, hmove, rfl⟩ := step_on hstep
      have htouches := (h o').objectStep hmove
      intro o
      show Consistent env file o (Function.update s.objects o' self o)
      by_cases ho : o = o'
      · subst ho
        rw [Function.update_self]
        exact htouches.consistent
      · rw [Function.update_of_ne ho]
        apply (h o).frame (.of_frame htouches.frame ho)
        -- Were the content touched, both objects would hold the lock.
        intro hholds
        rcases htouches.content with hsame | hholds'
        · exact hsame
        · exact absurd (hholds.unique hholds') ho
  | exit p =>
      intro o
      by_cases ho : env.home o = p
      · cases hstep
        simp [Consistent, ho]
      · have hkeeps := exit_keeps hstep ho
        cases hstep
        simp only [ho, if_false]
        exact (h o).frame hkeeps fun _ => rfl

theorem allConsistent_of_run {content : List Char} {acts : List (Action π ω)}
    (hrun : exec (step env) (start content) acts = some s) : s.AllConsistent env :=
  exec_invariant (fun _ _ _ hs hstep => hs.preserved hstep) (allConsistent_start content) hrun

end Locks

/-! ### Holding the lock -/

/-- `_fd` is set, and a `release` has not unlocked it yet. -/
def SingleWriterLock.Acquired (self : SingleWriterLock) : Prop :=
  self.fd.isSome ∧ self.pc ≠ .unlocked ∧ self.pc ≠ .closed

theorem Consistent.stored (h : Consistent env file o self) (hacquired : self.Acquired) :
    Stored env file o self.fd := by
  unfold Consistent at h
  cases hpc : self.pc with
  | idle last =>
      rw [hpc] at h
      exact h
  | opening =>
      rw [hpc] at h
      exact h
  | opened fd =>
      rw [hpc] at h
      exact h.2
  | refused fd outcome =>
      rw [hpc] at h
      exact h.2
  | won fd =>
      rw [hpc] at h
      exact .of_none h.2
  | truncated fd =>
      rw [hpc] at h
      exact .of_none h.2.1
  | written fd =>
      rw [hpc] at h
      exact .of_none h.2.1
  | synced fd =>
      rw [hpc] at h
      exact .of_none h.2.1
  | unlocking =>
      rw [hpc] at h
      exact h
  | gone =>
      rw [hpc] at h
      exact .of_none h
  | unlocked => exact absurd hpc hacquired.2.1
  | closed => exact absurd hpc hacquired.2.2

/-- An object that has acquired the lock holds it, and the file names its
process. -/
theorem Consistent.holds (h : Consistent env file o self) (hacquired : self.Acquired) :
    file.Holds o ∧ file.content = env.pidLine o := by
  obtain ⟨fd, hfd⟩ := Option.isSome_iff_exists.mp hacquired.1
  obtain ⟨⟨n, hd⟩, hline⟩ := h.stored hacquired fd hfd
  exact ⟨⟨fd, _, hd, rfl, rfl⟩, hline⟩

/-- A second `acquire` on an object that holds the lock is not granted it. -/
theorem Stored.not_grantable {fd : ℕ} (h : Stored env file o self.fd) (hsome : self.fd.isSome)
    (hd : file.table fd = some ⟨o, false, 0⟩) : ¬ file.Grantable fd := by
  intro hgrant
  obtain ⟨fd', hfd'⟩ := Option.isSome_iff_exists.mp hsome
  obtain ⟨⟨n, hd'⟩, -⟩ := h fd' hfd'
  obtain rfl := hgrant.eq_of_locked hd' rfl
  simp [hd] at hd'

/-- Whatever a holder is asked to do, short of the unlocking of its own
`release`, it stays the holder and the file stays as it is. -/
theorem Consistent.stays {move : Move} (h : Consistent env file o self)
    (hacquired : self.Acquired) (hstep : self.objectStep env o file move = some (file', self'))
    (hmove : self.pc = .unlocking → move ≠ .advance) :
    self'.Acquired ∧ self'.fd = self.fd ∧ file'.content = file.content := by
  have hstored := h.stored hacquired
  obtain ⟨hsome, hunlocked, hclosed⟩ := hacquired
  have hnot : self.fd ≠ none := Option.isSome_iff_ne_none.mp hsome
  cases moves_of_objectStep hstep with
  | flockEx fd hpc hgrant =>
      rw [Consistent, hpc] at h
      exact absurd hgrant (hstored.not_grantable hsome h.1)
  | truncate fd hpc => exact absurd (h.fd_eq_none (Or.inl hpc)) hnot
  | write fd hpc => exact absurd (h.fd_eq_none (Or.inr (Or.inl hpc))) hnot
  | fsync fd hpc => exact absurd (h.fd_eq_none (Or.inr (Or.inr (Or.inl hpc)))) hnot
  | record fd hpc => exact absurd (h.fd_eq_none (Or.inr (Or.inr (Or.inr hpc)))) hnot
  | flockUn fd hpc hfd => exact absurd rfl (hmove hpc)
  | closeReleased fd hpc hfd => exact absurd hpc hunlocked
  | clear hpc => exact absurd hpc hclosed
  | _ => exact ⟨⟨hsome, by simp, by simp⟩, rfl, rfl⟩

/-! ### The guarantees in a reachable state -/

namespace Locks

variable [DecidableEq π] [DecidableEq ω] {s t : Locks ω}

/-- The action unlocks or ends the holder `h`. -/
def Ends (env : Processes π ω) (s : Locks ω) (h : ω) : Action π ω → Prop
  | .on o move => o = h ∧ (s.objects h).pc = .unlocking ∧ move = .advance
  | .exit p => env.home h = p

/-- What holds between any two steps, and of any next step. -/
structure SingleWriter (env : Processes π ω) (s : Locks ω) : Prop where
  /-- At most one object holds the lock. -/
  exclusive : ∀ o o', s.file.Holds o → s.file.Holds o' → o = o'
  /-- Who has acquired the lock holds it, and the file names its process. -/
  holder : ∀ o, (s.objects o).Acquired → s.file.Holds o ∧ s.file.content = env.pidLine o
  /-- Until the holder unlocks or ends, nobody's step changes that. -/
  undisturbed : ∀ o a t, (s.objects o).Acquired → step env s a = some t → ¬ Ends env s o a →
    (t.objects o).Acquired ∧ (t.objects o).fd = (s.objects o).fd ∧ t.file.Holds o ∧
      t.file.content = s.file.content
  /-- An object that neither had the lock nor got it changed nothing for
  anybody. -/
  losing : ∀ o move t, step env s (.on o move) = some t → ¬ s.file.Holds o → ¬ t.file.Holds o →
    t.file.content = s.file.content ∧
      ∀ o', o' ≠ o → (t.file.Holds o' ↔ s.file.Holds o') ∧ t.objects o' = s.objects o'

theorem AllConsistent.undisturbed (h : s.AllConsistent env) {a : Action π ω}
    (hacquired : (s.objects o).Acquired) (hstep : step env s a = some t)
    (hends : ¬ Ends env s o a) :
    (t.objects o).Acquired ∧ (t.objects o).fd = (s.objects o).fd ∧
      t.file.content = s.file.content := by
  cases a with
  | on o' move =>
      obtain ⟨file, self, hmove, rfl⟩ := step_on hstep
      show (Function.update s.objects o' self o).Acquired ∧
        (Function.update s.objects o' self o).fd = (s.objects o).fd ∧ file.content = s.file.content
      by_cases ho : o = o'
      · subst ho
        rw [Function.update_self]
        apply (h o).stays hacquired hmove
        rintro hpc rfl
        exact hends ⟨rfl, hpc, rfl⟩
      · rw [Function.update_of_ne ho]
        refine ⟨hacquired, rfl, ?_⟩
        rcases ((h o').objectStep hmove).content with hsame | hholds
        · exact hsame
        · exact absurd (((h o).holds hacquired).1.unique hholds) ho
  | exit p =>
      have ho : env.home o ≠ p := hends
      cases hstep
      refine ⟨?_, ?_, rfl⟩
      · simpa [ho] using hacquired
      · simp [ho]

theorem AllConsistent.losing (h : s.AllConsistent env) {move : Move}
    (hstep : step env s (.on o move) = some t) (hnot : ¬ s.file.Holds o) :
    t.file.content = s.file.content ∧
      ∀ o', o' ≠ o → (t.file.Holds o' ↔ s.file.Holds o') ∧ t.objects o' = s.objects o' := by
  obtain ⟨file, self, hmove, rfl⟩ := step_on hstep
  have htouches := (h o).objectStep hmove
  refine ⟨htouches.content.resolve_right hnot, ?_⟩
  intro o' ho'
  exact ⟨htouches.frame.holds_iff ho', Function.update_of_ne ho' _ _⟩

theorem AllConsistent.singleWriter (h : s.AllConsistent env) : SingleWriter env s where
  exclusive := by
    intro o o' ho ho'
    exact ho.unique ho'
  holder := by
    intro o hacquired
    exact (h o).holds hacquired
  undisturbed := by
    intro o a t hacquired hstep hends
    obtain ⟨hacquired', hfd, hcontent⟩ := h.undisturbed hacquired hstep hends
    exact ⟨hacquired', hfd, ((h.preserved hstep o).holds hacquired').1, hcontent⟩
  losing := by
    intro o move t hstep hnot _
    exact h.losing hstep hnot

end Locks

end DistributedMarket
