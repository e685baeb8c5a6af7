import DistributedMarket.Lib.Flock
import DistributedMarket.Lib.Runs

/-!
The lock on the data directory.

A `SingleWriterLock` is its `_fd` and the point its current call has
reached; one step is one system call, or the assignment to `_fd` that ends
the call. Any number of objects in any number of processes take their steps
in any order, the system calls of `acquire` up to `fsync` may fail with any
number, and a process may end at any point. The calls of one object follow
each other.

`Consistent` says what the file looks like to an object at each point of
its calls. An object only touches its own descriptions, and the content only
while it holds the lock, so it is enough to follow one object through its
own calls (`Consistent.objectStep`) and to note that the others leave its
view alone (`Consistent.frame`).
-/

namespace DistributedMarket

open Lib.Flock Lib.Runs

/-- How the last call of an object ended: it returned, or raised
`DataDirectoryLocked`, or raised another exception. -/
inductive Outcome | returned | locked | raised
  deriving DecidableEq, Repr

/-- `exc.errno`. -/
inductive Errno | EACCES | EAGAIN | other (code : ℕ)
  deriving DecidableEq, Repr

/-- What `acquire` makes of an `OSError` of `flock`, whoever has the lock. -/
def Errno.outcome (errno : Errno) : Outcome :=
  if errno = .EACCES ∨ errno = .EAGAIN then .locked else .raised

theorem Errno.outcome_ne_returned (errno : Errno) : errno.outcome ≠ .returned := by
  unfold outcome
  split <;> simp

theorem Errno.outcome_eq_locked {errno : Errno} :
    errno.outcome = .locked ↔ errno = .EACCES ∨ errno = .EAGAIN := by
  unfold outcome
  split
  · next h => simp [h]
  · next h => simp [h]

theorem Errno.outcome_eq_raised {errno : Errno} :
    errno.outcome = .raised ↔ errno ≠ .EACCES ∧ errno ≠ .EAGAIN := by
  rw [← not_or, ← outcome_eq_locked]
  unfold outcome
  split <;> simp

/-- The point a call has reached. Each is named for the step that was last
taken. -/
inductive Pc
  | idle (last : Outcome)
  -- `acquire`
  | opening
  | opened (fd : ℕ)
  | refused (fd : ℕ) (outcome : Outcome)
  | won (fd : ℕ)
  | truncated (fd : ℕ)
  | written (fd : ℕ)
  | synced (fd : ℕ)
  -- `release`
  | unlocking
  | unlocked
  | closed
  -- its process has ended
  | gone
  deriving DecidableEq, Repr

/-- A lock object: its `_fd`, and where its current call is. -/
structure SingleWriterLock where
  fd : Option ℕ
  pc : Pc
  deriving DecidableEq, Repr

/-- What an object can do next: be called, take the next step of its call,
or have the system call of that step raise. -/
inductive Move | acquire | release | advance | osError (errno : Errno)
  deriving DecidableEq, Repr

inductive Action (π ω : Type)
  | on (o : ω) (move : Move)
  | exit (p : π)

/-- The processes the objects live in, and their numbers. -/
structure Processes (π ω : Type) where
  home : ω → π
  getpid : π → ℕ

variable {π ω : Type}

/-- What the process of `o` writes into the lock file. -/
def Processes.pidLine (env : Processes π ω) (o : ω) : List Char :=
  (toString (env.getpid (env.home o))).toList ++ ['\n']

namespace SingleWriterLock

/-- The next step of the current call. -/
def syscall (env : Processes π ω) (o : ω) (file : Inode ω) (self : SingleWriterLock) :
    Option (Inode ω × SingleWriterLock) :=
  match self.pc with
  | .opening => some (file.openFile o, { self with pc := .opened file.fresh })
  | .opened fd =>
      if h : file.Grantable fd then some (file.flockEx fd h, { self with pc := .won fd })
      else some (file, { self with pc := .refused fd .locked })
  | .refused fd outcome => some (file.close fd, { self with pc := .idle outcome })
  | .won fd => some (file.truncate, { self with pc := .truncated fd })
  | .truncated fd => some (file.write fd (env.pidLine o), { self with pc := .written fd })
  | .written fd => some (file, { self with pc := .synced fd })
  | .synced fd => some (file, { fd := some fd, pc := .idle .returned })
  | .unlocking => self.fd.map fun fd => (file.flockUn fd, { self with pc := .unlocked })
  | .unlocked => self.fd.map fun fd => (file.close fd, { self with pc := .closed })
  | .closed => some (file, { fd := none, pc := .idle .returned })
  | .idle _ | .gone => none

/-- The next system call of `acquire` raises an `OSError`. Only that of
`flock` is caught, to close the descriptor and to tell by its number whether
the directory is locked. -/
def osError (self : SingleWriterLock) (errno : Errno) : Option SingleWriterLock :=
  match self.pc with
  | .opening | .won _ | .truncated _ | .written _ => some { self with pc := .idle .raised }
  | .opened fd => some { self with pc := .refused fd errno.outcome }
  | _ => none

/-- One move of the object `o`. -/
def objectStep (env : Processes π ω) (o : ω) (file : Inode ω) (self : SingleWriterLock) :
    Move → Option (Inode ω × SingleWriterLock)
  | .acquire =>
      match self.pc with
      | .idle _ => some (file, { self with pc := .opening })
      | _ => none
  | .release =>
      match self.pc with
      | .idle _ =>
          if self.fd.isNone then some (file, { self with pc := .idle .returned })
          else some (file, { self with pc := .unlocking })
      | _ => none
  | .advance => syscall env o file self
  | .osError errno => (osError self errno).map fun self => (file, self)

/-- What one move can do, by the step it takes. -/
inductive Moves (env : Processes π ω) (o : ω) (file : Inode ω) (self : SingleWriterLock) :
    Move → Inode ω → SingleWriterLock → Prop
  | acquire (last : Outcome) (hpc : self.pc = .idle last) :
      Moves env o file self .acquire file { self with pc := .opening }
  | releaseNothing (last : Outcome) (hpc : self.pc = .idle last) (hfd : self.fd = none) :
      Moves env o file self .release file { self with pc := .idle .returned }
  | release (last : Outcome) (hpc : self.pc = .idle last) (hfd : self.fd ≠ none) :
      Moves env o file self .release file { self with pc := .unlocking }
  | openFile (hpc : self.pc = .opening) :
      Moves env o file self .advance (file.openFile o) { self with pc := .opened file.fresh }
  | flockEx (fd : ℕ) (hpc : self.pc = .opened fd) (hgrant : file.Grantable fd) :
      Moves env o file self .advance (file.flockEx fd hgrant) { self with pc := .won fd }
  | flockRefused (fd : ℕ) (hpc : self.pc = .opened fd) (hrefused : ¬ file.Grantable fd) :
      Moves env o file self .advance file { self with pc := .refused fd .locked }
  | closeRefused (fd : ℕ) (outcome : Outcome) (hpc : self.pc = .refused fd outcome) :
      Moves env o file self .advance (file.close fd) { self with pc := .idle outcome }
  | truncate (fd : ℕ) (hpc : self.pc = .won fd) :
      Moves env o file self .advance file.truncate { self with pc := .truncated fd }
  | write (fd : ℕ) (hpc : self.pc = .truncated fd) :
      Moves env o file self .advance (file.write fd (env.pidLine o))
        { self with pc := .written fd }
  | fsync (fd : ℕ) (hpc : self.pc = .written fd) :
      Moves env o file self .advance file { self with pc := .synced fd }
  | record (fd : ℕ) (hpc : self.pc = .synced fd) :
      Moves env o file self .advance file { fd := some fd, pc := .idle .returned }
  | flockUn (fd : ℕ) (hpc : self.pc = .unlocking) (hfd : self.fd = some fd) :
      Moves env o file self .advance (file.flockUn fd) { self with pc := .unlocked }
  | closeReleased (fd : ℕ) (hpc : self.pc = .unlocked) (hfd : self.fd = some fd) :
      Moves env o file self .advance (file.close fd) { self with pc := .closed }
  | clear (hpc : self.pc = .closed) :
      Moves env o file self .advance file { fd := none, pc := .idle .returned }
  | failOpen (errno : Errno) (hpc : self.pc = .opening) :
      Moves env o file self (.osError errno) file { self with pc := .idle .raised }
  | failFlock (errno : Errno) (fd : ℕ) (hpc : self.pc = .opened fd) :
      Moves env o file self (.osError errno) file { self with pc := .refused fd errno.outcome }
  | failHeld (errno : Errno) (fd : ℕ)
      (hpc : self.pc = .won fd ∨ self.pc = .truncated fd ∨ self.pc = .written fd) :
      Moves env o file self (.osError errno) file { self with pc := .idle .raised }

section

variable {env : Processes π ω} {o : ω} {file file' : Inode ω} {self self' : SingleWriterLock}

theorem moves_of_syscall (h : self.syscall env o file = some (file', self')) :
    Moves env o file self .advance file' self' := by
  unfold syscall at h
  split at h
  · next hpc =>
      cases h
      exact .openFile hpc
  · next fd hpc =>
      split at h
      · next hgrant =>
          cases h
          exact .flockEx fd hpc hgrant
      · next hrefused =>
          cases h
          exact .flockRefused fd hpc hrefused
  · next fd outcome hpc =>
      cases h
      exact .closeRefused fd outcome hpc
  · next fd hpc =>
      cases h
      exact .truncate fd hpc
  · next fd hpc =>
      cases h
      exact .write fd hpc
  · next fd hpc =>
      cases h
      exact .fsync fd hpc
  · next fd hpc =>
      cases h
      exact .record fd hpc
  · next hpc =>
      obtain ⟨fd, hfd, hmoved⟩ := Option.map_eq_some_iff.mp h
      cases hmoved
      exact .flockUn fd hpc hfd
  · next hpc =>
      obtain ⟨fd, hfd, hmoved⟩ := Option.map_eq_some_iff.mp h
      cases hmoved
      exact .closeReleased fd hpc hfd
  · next hpc =>
      cases h
      exact .clear hpc
  · contradiction
  · contradiction

theorem moves_of_osError {errno : Errno} (h : self.osError errno = some self') :
    Moves env o file self (.osError errno) file self' := by
  unfold osError at h
  split at h
  · next hpc =>
      cases h
      exact .failOpen errno hpc
  · next fd hpc =>
      cases h
      exact .failHeld errno fd (Or.inl hpc)
  · next fd hpc =>
      cases h
      exact .failHeld errno fd (Or.inr (Or.inl hpc))
  · next fd hpc =>
      cases h
      exact .failHeld errno fd (Or.inr (Or.inr hpc))
  · next fd hpc =>
      cases h
      exact .failFlock errno fd hpc
  · contradiction

/-- All that is known of a move; what follows never looks at `objectStep`
again. -/
theorem moves_of_objectStep {move : Move}
    (h : self.objectStep env o file move = some (file', self')) :
    Moves env o file self move file' self' := by
  cases move with
  | acquire =>
      simp only [objectStep] at h
      split at h
      · next last hpc =>
          cases h
          exact .acquire last hpc
      · contradiction
  | release =>
      simp only [objectStep] at h
      split at h
      · next last hpc =>
          split at h
          · next hfd =>
              cases h
              exact .releaseNothing last hpc (Option.isNone_iff_eq_none.mp hfd)
          · next hfd =>
              cases h
              exact .release last hpc fun hnone => hfd (Option.isNone_iff_eq_none.mpr hnone)
      · contradiction
  | advance => exact moves_of_syscall h
  | osError errno =>
      obtain ⟨moved, hmoved, heq⟩ := Option.map_eq_some_iff.mp h
      cases heq
      exact moves_of_osError hmoved

/-- Between its calls an object has no step to take. -/
theorem Moves.of_idle {move : Move} {last : Outcome} (h : Moves env o file self move file' self')
    (hpc : self.pc = .idle last) : move = .acquire ∨ move = .release := by
  cases h <;> simp_all

end

end SingleWriterLock

/-- The lock file and all the objects. -/
structure Locks (ω : Type) where
  file : Inode ω
  objects : ω → SingleWriterLock

namespace Locks

open SingleWriterLock

/-- Before anybody has called anything; the file may hold anything. -/
def start (content : List Char) : Locks ω where
  file := Inode.closed content
  objects := fun _ => ⟨none, .idle .returned⟩

def step [DecidableEq π] [DecidableEq ω] (env : Processes π ω) (s : Locks ω) :
    Action π ω → Option (Locks ω)
  | .on o move =>
      (objectStep env o s.file (s.objects o) move).map fun (file, self) =>
        { file := file, objects := Function.update s.objects o self }
  | .exit p =>
      some
        { file := s.file.closeAll fun o => env.home o = p
          objects := fun o => if env.home o = p then ⟨none, .gone⟩ else s.objects o }

end Locks

/-! ### What an object knows of the file -/

/-- The descriptor in `_fd` holds the lock, and the file names the holder. -/
def Stored (env : Processes π ω) (file : Inode ω) (o : ω) (stored : Option ℕ) : Prop :=
  ∀ fd, stored = some fd →
    (∃ n, file.table fd = some ⟨o, true, n⟩) ∧ file.content = env.pidLine o

/-- What holds at each point of the calls of `o`. -/
def Consistent (env : Processes π ω) (file : Inode ω) (o : ω) (self : SingleWriterLock) : Prop :=
  match self.pc with
  | .idle _ | .opening => Stored env file o self.fd
  | .opened fd | .refused fd _ =>
      file.table fd = some ⟨o, false, 0⟩ ∧ Stored env file o self.fd
  | .won fd => file.table fd = some ⟨o, true, 0⟩ ∧ self.fd = none
  | .truncated fd => file.table fd = some ⟨o, true, 0⟩ ∧ self.fd = none ∧ file.content = []
  | .written fd | .synced fd =>
      (∃ n, file.table fd = some ⟨o, true, n⟩) ∧ self.fd = none ∧
        file.content = env.pidLine o
  | .unlocking => Stored env file o self.fd
  | .unlocked => ∀ fd, self.fd = some fd → ∃ n, file.table fd = some ⟨o, false, n⟩
  | .closed => True
  | .gone => self.fd = none

section Frame

variable {env : Processes π ω} {file file' : Inode ω} {o o' : ω} {self self' : SingleWriterLock}

/-- Every description of `o` is still there. -/
def Keeps (o : ω) (file file' : Inode ω) : Prop :=
  ∀ fd d, d.owner = o → file.table fd = some d → file'.table fd = some d

theorem Keeps.of_frame (hframe : file.Frame o' file') (hne : o ≠ o') : Keeps o file file' := by
  rintro fd d rfl hd
  exact (hframe fd d hne).mpr hd

theorem Stored.frame {stored : Option ℕ} (h : Stored env file o stored)
    (hkeeps : Keeps o file file') (hcontent : file.Holds o → file'.content = file.content) :
    Stored env file' o stored := by
  intro fd hfd
  obtain ⟨⟨n, hd⟩, hline⟩ := h fd hfd
  refine ⟨⟨n, hkeeps fd _ rfl hd⟩, ?_⟩
  rw [hcontent ⟨fd, _, hd, rfl, rfl⟩, hline]

/-- Nothing an object knows depends on the descriptions of others, nor on
the content while it does not hold the lock. -/
theorem Consistent.frame (h : Consistent env file o self) (hkeeps : Keeps o file file')
    (hcontent : file.Holds o → file'.content = file.content) : Consistent env file' o self := by
  unfold Consistent at h ⊢
  cases hpc : self.pc with
  | idle last =>
      rw [hpc] at h
      exact h.frame hkeeps hcontent
  | opening =>
      rw [hpc] at h
      exact h.frame hkeeps hcontent
  | opened fd =>
      rw [hpc] at h
      exact ⟨hkeeps fd _ rfl h.1, h.2.frame hkeeps hcontent⟩
  | refused fd outcome =>
      rw [hpc] at h
      exact ⟨hkeeps fd _ rfl h.1, h.2.frame hkeeps hcontent⟩
  | won fd =>
      rw [hpc] at h
      exact ⟨hkeeps fd _ rfl h.1, h.2⟩
  | truncated fd =>
      rw [hpc] at h
      obtain ⟨hd, hfd, hempty⟩ := h
      exact ⟨hkeeps fd _ rfl hd, hfd, (hcontent ⟨fd, _, hd, rfl, rfl⟩).trans hempty⟩
  | written fd =>
      rw [hpc] at h
      obtain ⟨⟨n, hd⟩, hfd, hline⟩ := h
      exact ⟨⟨n, hkeeps fd _ rfl hd⟩, hfd, (hcontent ⟨fd, _, hd, rfl, rfl⟩).trans hline⟩
  | synced fd =>
      rw [hpc] at h
      obtain ⟨⟨n, hd⟩, hfd, hline⟩ := h
      exact ⟨⟨n, hkeeps fd _ rfl hd⟩, hfd, (hcontent ⟨fd, _, hd, rfl, rfl⟩).trans hline⟩
  | unlocking =>
      rw [hpc] at h
      exact h.frame hkeeps hcontent
  | unlocked =>
      rw [hpc] at h
      intro fd hfd
      obtain ⟨n, hd⟩ := h fd hfd
      exact ⟨n, hkeeps fd _ rfl hd⟩
  | closed => trivial
  | gone =>
      rw [hpc] at h
      exact h

end Frame

end DistributedMarket
