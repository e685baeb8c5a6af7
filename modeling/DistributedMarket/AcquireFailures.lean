import DistributedMarket.SingleWriterSafety
import Mathlib.Data.Set.Defs

/-!
What a failed `acquire` leaves behind.

The step model follows any number of objects, one step at a time. Here one
call of `acquire` is followed from its beginning to its end, with an oracle
that says which of its system calls raise an `OSError` and with what number.
The call is written as the code writes it, in a monad whose exceptions keep
the state they were raised in, and `acquire_exec` says that it is a run of
the moves of the object that ends as the call does.

`Ends` lists how a call can end. Only the failure of `flock` is cleaned up
after: once the lock is granted, an exception leaves the descriptor open and
locked, and nobody has a reference to it.
-/

namespace DistributedMarket

open Lib.Flock Lib.Runs

namespace Acquire

/-! ### The call -/

inductive Syscall | mkdir | openFile | flock | truncate | write | fsync
  deriving DecidableEq, Repr

/-- Which system calls raise an `OSError`, and with which number. -/
abbrev Faults := Syscall → Option Errno

inductive AcquireError | DataDirectoryLocked | OSError (errno : Errno)
  deriving DecidableEq, Repr

/-- How a call that raises it is said to have ended. -/
def AcquireError.outcome : AcquireError → Outcome
  | .DataDirectoryLocked => .locked
  | .OSError _ => .raised

/-- The lock file and the `_fd` of the object that is called. -/
structure World (ω : Type) where
  file : Inode ω
  fd : Option ℕ

abbrev Call (ω : Type) := EStateM AcquireError (World ω)

variable {π ω : Type}

def raiseOSError (faults : Faults) (call : Syscall) : Call ω Unit :=
  match faults call with
  | some errno => throw (.OSError errno)
  | none => pure ()

def onFile (f : Inode ω → Inode ω) : Call ω Unit := modify fun w => { w with file := f w.file }

/-- `os.open(self.path, os.O_RDWR | os.O_CREAT, 0o644)`. -/
def openFile (faults : Faults) (o : ω) : Call ω ℕ := do
  raiseOSError faults .openFile
  let w ← get
  onFile fun file => file.openFile o
  return w.file.fresh

/-- `fcntl.flock(fd, fcntl.LOCK_EX | fcntl.LOCK_NB)`. -/
def flockEx (faults : Faults) (fd : ℕ) : Call ω Unit := do
  raiseOSError faults .flock
  let w ← get
  if h : w.file.Grantable fd then set { w with file := w.file.flockEx fd h }
  else throw (.OSError .EAGAIN)

/-- The `try` statement. -/
def flockOrClose (faults : Faults) (fd : ℕ) : Call ω Unit := do
  try flockEx faults fd
  catch
    | .OSError errno =>
        onFile fun file => file.close fd
        if errno = .EACCES ∨ errno = .EAGAIN then throw .DataDirectoryLocked
        else throw (.OSError errno)
    | err => throw err

/-- The statements after it. -/
def record (env : Processes π ω) (o : ω) (faults : Faults) (fd : ℕ) : Call ω Unit := do
  raiseOSError faults .truncate
  onFile Inode.truncate
  raiseOSError faults .write
  onFile fun file => file.write fd (env.pidLine o)
  raiseOSError faults .fsync
  modify fun w => { w with fd := some fd }

def acquire (env : Processes π ω) (o : ω) (faults : Faults) : Call ω Unit := do
  raiseOSError faults .mkdir
  let fd ← openFile faults o
  flockOrClose faults fd
  record env o faults fd

/-! ### How it ends -/

section

variable {env : Processes π ω} {o : ω} {faults : Faults} {fd : ℕ} {w : World ω}

theorem bind_ok {α β : Type} {x : Call ω α} {f : α → Call ω β} {a : α} {w w' : World ω}
    (h : x w = .ok a w') : (x >>= f) w = f a w' := by
  show EStateM.bind x f w = f a w'
  rw [EStateM.bind, h]

theorem bind_error {α β : Type} {x : Call ω α} {f : α → Call ω β} {err : AcquireError}
    {w w' : World ω} (h : x w = .error err w') : (x >>= f) w = .error err w' := by
  show EStateM.bind x f w = .error err w'
  rw [EStateM.bind, h]

theorem raiseOSError_none {call : Syscall} (h : faults call = none) (w : World ω) :
    raiseOSError faults call w = .ok () w := by
  rw [raiseOSError, h]
  rfl

theorem raiseOSError_some {call : Syscall} {errno : Errno} (h : faults call = some errno)
    (w : World ω) : raiseOSError faults call w = .error (.OSError errno) w := by
  rw [raiseOSError, h]
  rfl

theorem onFile_apply (f : Inode ω → Inode ω) (w : World ω) :
    onFile f w = .ok () { w with file := f w.file } := rfl

theorem openFile_none (h : faults .openFile = none) :
    openFile faults o w = .ok w.file.fresh { w with file := w.file.openFile o } := by
  rw [openFile, bind_ok (raiseOSError_none h w)]
  rfl

theorem openFile_some {errno : Errno} (h : faults .openFile = some errno) :
    openFile faults o w = .error (.OSError errno) w := by
  rw [openFile, bind_error (raiseOSError_some h w)]

theorem flockEx_granted (hfault : faults .flock = none) (h : w.file.Grantable fd) :
    flockEx faults fd w = .ok () { w with file := w.file.flockEx fd h } := by
  rw [flockEx, bind_ok (raiseOSError_none hfault w)]
  show (if h : w.file.Grantable fd then _ else _ : Call ω Unit) w = _
  rw [dif_pos h]
  rfl

/-- `flock` raises an `OSError` with this number: it fails, or somebody has
the lock. -/
def FlockRaises (faults : Faults) (file : Inode ω) (fd : ℕ) (errno : Errno) : Prop :=
  faults .flock = some errno ∨ faults .flock = none ∧ ¬ file.Grantable fd ∧ errno = .EAGAIN

theorem exists_flockRaises (h : ¬ (faults .flock = none ∧ w.file.Grantable fd)) :
    ∃ errno, FlockRaises faults w.file fd errno := by
  cases hfault : faults .flock with
  | some errno => exact ⟨errno, Or.inl hfault⟩
  | none => exact ⟨.EAGAIN, Or.inr ⟨hfault, fun hgrant => h ⟨hfault, hgrant⟩, rfl⟩⟩

theorem flockEx_refused {errno : Errno} (h : FlockRaises faults w.file fd errno) :
    flockEx faults fd w = .error (.OSError errno) w := by
  rw [flockEx]
  rcases h with hfault | ⟨hfault, hrefused, rfl⟩
  · exact bind_error (raiseOSError_some hfault w)
  · rw [bind_ok (raiseOSError_none hfault w)]
    show (if h : w.file.Grantable fd then _ else _ : Call ω Unit) w = _
    rw [dif_neg hrefused]
    rfl

theorem flockOrClose_granted (hfault : faults .flock = none) (h : w.file.Grantable fd) :
    flockOrClose faults fd w = .ok () { w with file := w.file.flockEx fd h } := by
  unfold flockOrClose
  show (EStateM.tryCatch _ _ : Call ω Unit) w = _
  rw [EStateM.tryCatch, flockEx_granted hfault h]

/-- A failure of `flock` is the one that is cleaned up after, and the number
says what is raised. -/
theorem flockOrClose_refused {errno : Errno} (h : FlockRaises faults w.file fd errno) :
    ∃ err, flockOrClose faults fd w = .error err { w with file := w.file.close fd } ∧
      err.outcome = errno.outcome := by
  unfold flockOrClose Errno.outcome
  show ∃ err, (EStateM.tryCatch _ _ : Call ω Unit) w = _ ∧ _
  rw [EStateM.tryCatch, flockEx_refused h]
  show ∃ err, (if errno = .EACCES ∨ errno = .EAGAIN then _ else _ : Call ω Unit) _ = _ ∧ _
  split
  · exact ⟨.DataDirectoryLocked, rfl, rfl⟩
  · exact ⟨.OSError errno, rfl, rfl⟩

/-- The call got as far as the lock, and got it. -/
structure Granted (o : ω) (faults : Faults) (w : World ω) : Prop where
  mkdir : faults .mkdir = none
  openFile : faults .openFile = none
  flock : faults .flock = none
  grantable : (w.file.openFile o).Grantable w.file.fresh

/-- The file once the lock is granted. -/
def Granted.locked (h : Granted o faults w) : Inode ω :=
  (w.file.openFile o).flockEx w.file.fresh h.grantable

/-- How a call can end, by the last system call it got to. -/
inductive Ends (env : Processes π ω) (o : ω) (faults : Faults) (w : World ω) :
    EStateM.Result AcquireError (World ω) Unit → Prop
  | openFile (errno : Errno) (h : faults .mkdir ≠ none ∨ faults .openFile ≠ none) :
      Ends env o faults w (.error (.OSError errno) w)
  | flock (err : AcquireError) (errno : Errno) (herr : err.outcome = errno.outcome)
      (h : FlockRaises faults (w.file.openFile o) w.file.fresh errno) :
      Ends env o faults w (.error err { w with file := (w.file.openFile o).close w.file.fresh })
  | truncate (errno : Errno) (hgranted : Granted o faults w) (h : faults .truncate = some errno) :
      Ends env o faults w (.error (.OSError errno) { w with file := hgranted.locked })
  | write (errno : Errno) (hgranted : Granted o faults w) (h : faults .write = some errno) :
      Ends env o faults w (.error (.OSError errno) { w with file := hgranted.locked.truncate })
  | fsync (errno : Errno) (hgranted : Granted o faults w) (h : faults .fsync = some errno) :
      Ends env o faults w (.error (.OSError errno)
        { w with file := hgranted.locked.truncate.write w.file.fresh (env.pidLine o) })
  | returned (hgranted : Granted o faults w) (h : ∀ call, faults call = none) :
      Ends env o faults w (.ok ()
        { file := hgranted.locked.truncate.write w.file.fresh (env.pidLine o)
          fd := some w.file.fresh })

theorem Granted.ends_record (h : Granted o faults w) :
    Ends env o faults w (record env o faults w.file.fresh { w with file := h.locked }) := by
  unfold record
  cases htruncate : faults .truncate with
  | some errno =>
      rw [bind_error (raiseOSError_some htruncate _)]
      exact .truncate errno h htruncate
  | none =>
      rw [bind_ok (raiseOSError_none htruncate _), bind_ok (onFile_apply _ _)]
      cases hwrite : faults .write with
      | some errno =>
          rw [bind_error (raiseOSError_some hwrite _)]
          exact .write errno h hwrite
      | none =>
          rw [bind_ok (raiseOSError_none hwrite _), bind_ok (onFile_apply _ _)]
          cases hfsync : faults .fsync with
          | some errno =>
              rw [bind_error (raiseOSError_some hfsync _)]
              exact .fsync errno h hfsync
          | none =>
              rw [bind_ok (raiseOSError_none hfsync _)]
              refine .returned h fun call => ?_
              cases call with
              | mkdir => exact h.mkdir
              | openFile => exact h.openFile
              | flock => exact h.flock
              | truncate => exact htruncate
              | write => exact hwrite
              | fsync => exact hfsync

theorem ends (env : Processes π ω) (o : ω) (faults : Faults) (w : World ω) :
    Ends env o faults w (acquire env o faults w) := by
  unfold acquire
  cases hmkdir : faults .mkdir with
  | some errno =>
      rw [bind_error (raiseOSError_some hmkdir w)]
      exact .openFile errno (Or.inl (by simp [hmkdir]))
  | none =>
      rw [bind_ok (raiseOSError_none hmkdir w)]
      cases hopen : faults .openFile with
      | some errno =>
          rw [bind_error (openFile_some hopen)]
          exact .openFile errno (Or.inr (by simp [hopen]))
      | none =>
          rw [bind_ok (openFile_none hopen)]
          by_cases hflock : faults .flock = none ∧ (w.file.openFile o).Grantable w.file.fresh
          · rw [bind_ok (flockOrClose_granted hflock.1 hflock.2)]
            have hgranted : Granted o faults w := ⟨hmkdir, hopen, hflock.1, hflock.2⟩
            exact hgranted.ends_record
          · obtain ⟨errno, hraises⟩ := exists_flockRaises (w := ⟨w.file.openFile o, w.fd⟩) hflock
            obtain ⟨err, hflocked, herr⟩ := flockOrClose_refused hraises
            rw [bind_error hflocked]
            exact .flock err errno herr hraises

/-- All that is known of a call; what follows never looks at `acquire`
again. -/
theorem ends_of_eq {result : EStateM.Result AcquireError (World ω) Unit}
    (h : acquire env o faults w = result) : Ends env o faults w result :=
  h ▸ ends env o faults w

/-- The call returned. -/
def Succeeds (env : Processes π ω) (o : ω) (faults : Faults) (w : World ω) : Prop :=
  ∃ after, acquire env o faults w = .ok () after

theorem succeeds_iff :
    Succeeds env o faults w ↔ (∀ call, faults call = none) ∧ w.file.Free := by
  rw [← Inode.grantable_openFile_iff o]
  refine ⟨?_, ?_⟩
  · rintro ⟨after, hafter⟩
    cases ends_of_eq hafter with
    | returned hgranted h => exact ⟨h, hgranted.grantable⟩
  · rintro ⟨hnone, hgrantable⟩
    unfold Succeeds
    generalize hresult : acquire env o faults w = result
    cases ends_of_eq hresult with
    | openFile errno h => simp [hnone] at h
    | flock err errno herr h => simp [FlockRaises, hnone, hgrantable] at h
    | truncate errno hgranted h => simp [hnone] at h
    | write errno hgranted h => simp [hnone] at h
    | fsync errno hgranted h => simp [hnone] at h
    | returned hgranted h => exact ⟨_, rfl⟩

/-! ### What it leaves behind -/

/-- The descriptors of the lock file a process has open. -/
def openFds (env : Processes π ω) (p : π) (file : Inode ω) : Set ℕ :=
  {fd | ∃ d, file.table fd = some d ∧ env.home d.owner = p}

/-- Those of them that hold the lock. -/
def flocks (env : Processes π ω) (p : π) (file : Inode ω) : Set ℕ :=
  {fd | ∃ d, file.table fd = some d ∧ env.home d.owner = p ∧ d.locked = true}

/-- A call that took `before` to `after` left nothing behind: `_fd` is what
it was, the process has the descriptors open and holds the locks it had, and
whoever calls `acquire` now gets the lock if he would have got it then. -/
structure LeavesNothing (env : Processes π ω) (o : ω) (before after : World ω) : Prop where
  fd : after.fd = before.fd
  openFds : openFds env (env.home o) after.file = openFds env (env.home o) before.file
  flocks : flocks env (env.home o) after.file = flocks env (env.home o) before.file
  later : ∀ o' faults' stored,
    Succeeds env o' faults' ⟨after.file, stored⟩ ↔ Succeeds env o' faults' ⟨before.file, stored⟩

theorem leavesNothing_of_table {after : World ω} (hfd : after.fd = w.fd)
    (htable : after.file.table = w.file.table) : LeavesNothing env o w after where
  fd := hfd
  openFds := by rw [openFds, openFds, htable]
  flocks := by rw [flocks, flocks, htable]
  later := by
    intro o' faults' stored
    rw [succeeds_iff, succeeds_iff, Inode.Free, Inode.Free, htable]

/-- A system call fails while the call holds the lock. -/
structure FailsHeld (faults : Faults) (w : World ω) : Prop where
  mkdir : faults .mkdir = none
  openFile : faults .openFile = none
  flock : faults .flock = none
  free : w.file.Free
  held : faults .truncate ≠ none ∨ faults .write ≠ none ∨ faults .fsync ≠ none

theorem Granted.failsHeld (h : Granted o faults w)
    (hheld : faults .truncate ≠ none ∨ faults .write ≠ none ∨ faults .fsync ≠ none) :
    FailsHeld faults w :=
  ⟨h.mkdir, h.openFile, h.flock, (Inode.grantable_openFile_iff o).mp h.grantable, hheld⟩

theorem leavesNothing_of_not_failsHeld (h : ¬ FailsHeld faults w) {err : AcquireError}
    {after : World ω} (hafter : acquire env o faults w = .error err after) :
    LeavesNothing env o w after := by
  cases ends_of_eq hafter with
  | openFile errno h => exact leavesNothing_of_table rfl rfl
  | flock err errno herr h => exact leavesNothing_of_table rfl (Inode.table_close_openFile o)
  | truncate errno hgranted hfault =>
      exact absurd (hgranted.failsHeld (Or.inl (by simp [hfault]))) h
  | write errno hgranted hfault =>
      exact absurd (hgranted.failsHeld (Or.inr (Or.inl (by simp [hfault])))) h
  | fsync errno hgranted hfault =>
      exact absurd (hgranted.failsHeld (Or.inr (Or.inr (by simp [hfault])))) h

theorem Granted.table_locked (h : Granted o faults w) :
    h.locked.table w.file.fresh = some ⟨o, true, 0⟩ :=
  Inode.table_flockEx h.grantable (Inode.table_openFile o)

/-- A call that fails while it holds the lock raises, and its descriptor
stays open and locked. -/
theorem FailsHeld.leaks (h : FailsHeld faults w) (env : Processes π ω) (o : ω) :
    ∃ err after n, acquire env o faults w = .error err after ∧
      after.file.table w.file.fresh = some ⟨o, true, n⟩ := by
  have hgrantable := (Inode.grantable_openFile_iff o).mpr h.free
  generalize hresult : acquire env o faults w = result
  cases ends_of_eq hresult with
  | openFile errno hfault => simp [h.mkdir, h.openFile] at hfault
  | flock err errno herr hfault => simp [FlockRaises, h.flock, hgrantable] at hfault
  | truncate errno hgranted hfault => exact ⟨_, _, 0, rfl, hgranted.table_locked⟩
  | write errno hgranted hfault => exact ⟨_, _, 0, rfl, hgranted.table_locked⟩
  | fsync errno hgranted hfault =>
      exact ⟨_, _, _, rfl, Inode.table_write _ hgranted.table_locked⟩
  | returned hgranted hnone => simpa [hnone] using h.held

theorem not_leavesNothing_of_leak {after : World ω} {n : ℕ}
    (hleak : after.file.table w.file.fresh = some ⟨o, true, n⟩) :
    ¬ LeavesNothing env o w after := by
  intro h
  have hopen : w.file.fresh ∈ openFds env (env.home o) after.file := ⟨_, hleak, rfl⟩
  rw [h.openFds] at hopen
  obtain ⟨d, hd, -⟩ := hopen
  rw [w.file.unused w.file.fresh le_rfl] at hd
  contradiction

/-- An object that has the lock can be called again without harm. -/
theorem leavesNothing_of_stored (h : Stored env w.file o w.fd) (hfd : w.fd ≠ none)
    {err : AcquireError} {after : World ω} (hafter : acquire env o faults w = .error err after) :
    LeavesNothing env o w after := by
  refine leavesNothing_of_not_failsHeld (fun hfails => ?_) hafter
  obtain ⟨fd, hfd⟩ := Option.ne_none_iff_exists'.mp hfd
  obtain ⟨⟨n, hd⟩, -⟩ := h fd hfd
  have hunlocked := hfails.free fd _ hd
  contradiction

/-- From then on nobody gets the lock. -/
theorem FailsHeld.blocks (h : FailsHeld faults w) (env : Processes π ω) (o : ω) :
    ∃ err after, acquire env o faults w = .error err after ∧
      ∀ o' faults' stored, ¬ Succeeds env o' faults' ⟨after.file, stored⟩ := by
  obtain ⟨err, after, n, hafter, hleak⟩ := h.leaks env o
  refine ⟨err, after, hafter, fun o' faults' stored hsucceeds => ?_⟩
  have hunlocked := (succeeds_iff.mp hsucceeds).2 w.file.fresh _ hleak
  contradiction

/-- **When a failed `acquire` leaves nothing behind**: exactly when no system
call fails after the lock is granted. -/
theorem acquire_leavesNothing_iff (env : Processes π ω) (o : ω) (faults : Faults) (w : World ω) :
    (∀ err after, acquire env o faults w = .error err after → LeavesNothing env o w after) ↔
      ¬ FailsHeld faults w := by
  refine ⟨fun h hfails => ?_, fun h err after hafter => leavesNothing_of_not_failsHeld h hafter⟩
  obtain ⟨err, after, n, hafter, hleak⟩ := hfails.leaks env o
  exact not_leavesNothing_of_leak hleak (h err after hafter)

/-- A disk that is full: `fsync` raises `ENOSPC`. -/
def diskFull : Faults
  | .fsync => some (.other 28)
  | _ => none

/-- The first `acquire` on a full disk keeps its descriptor. -/
theorem acquire_diskFull_leaks :
    ¬ ∀ err after,
      acquire ⟨id, fun _ => 1⟩ () diskFull ⟨Inode.closed [], none⟩ = .error err after →
      LeavesNothing ⟨id, fun _ => 1⟩ () ⟨Inode.closed [], none⟩ after := by
  intro h
  have hfails : FailsHeld diskFull (⟨Inode.closed [], none⟩ : World Unit) :=
    ⟨rfl, rfl, rfl, fun fd d hd => by contradiction, Or.inr (Or.inr (by decide))⟩
  obtain ⟨err, after, n, hafter, hleak⟩ := hfails.leaks ⟨id, fun _ => 1⟩ ()
  exact not_leavesNothing_of_leak hleak (h err after hafter)

/-! ### The call among the moves -/

/-- One move of an object that is alone with the file. -/
def step (env : Processes π ω) (o : ω) (s : Inode ω × SingleWriterLock) (move : Move) :
    Option (Inode ω × SingleWriterLock) :=
  s.2.objectStep env o s.1 move

theorem exec_refused (h : ¬ (w.file.openFile o).Grantable w.file.fresh) (last : Outcome) :
    exec (step env o) (w.file, ⟨w.fd, .idle last⟩) [.acquire, .advance, .advance, .advance] =
      some ((w.file.openFile o).close w.file.fresh, ⟨w.fd, .idle .locked⟩) := by
  have hflock : step env o (w.file.openFile o, ⟨w.fd, .opened w.file.fresh⟩) .advance =
      some (w.file.openFile o, ⟨w.fd, .refused w.file.fresh .locked⟩) := dif_neg h
  show exec (step env o) (w.file.openFile o, ⟨w.fd, .opened w.file.fresh⟩) _ = _
  rw [exec_cons, hflock]
  rfl

theorem Granted.exec_locked (h : Granted o faults w) (last : Outcome) (moves : List Move) :
    exec (step env o) (w.file, ⟨w.fd, .idle last⟩) (.acquire :: .advance :: .advance :: moves) =
      exec (step env o) (h.locked, ⟨w.fd, .won w.file.fresh⟩) moves := by
  have hflock : step env o (w.file.openFile o, ⟨w.fd, .opened w.file.fresh⟩) .advance =
      some (h.locked, ⟨w.fd, .won w.file.fresh⟩) := dif_pos h.grantable
  show exec (step env o) (w.file.openFile o, ⟨w.fd, .opened w.file.fresh⟩) _ = _
  rw [exec_cons, hflock]
  rfl

/-- What a call does to the file and to `_fd`, a run of moves of the object
does, and it ends as the call does, where the object may be called again. -/
theorem acquire_exec (env : Processes π ω) (o : ω) (faults : Faults) (w : World ω)
    (last : Outcome) :
    (∀ err after, acquire env o faults w = .error err after →
      ∃ moves, exec (step env o) (w.file, ⟨w.fd, .idle last⟩) moves =
        some (after.file, ⟨after.fd, .idle err.outcome⟩)) ∧
    (∀ after, acquire env o faults w = .ok () after →
      ∃ moves, exec (step env o) (w.file, ⟨w.fd, .idle last⟩) moves =
        some (after.file, ⟨after.fd, .idle .returned⟩)) := by
  refine ⟨fun err after hafter => ?_, fun after hafter => ?_⟩
  · cases ends_of_eq hafter with
    | openFile errno h => exact ⟨[.acquire, .osError errno], rfl⟩
    | flock err errno herr h =>
        rw [herr]
        rcases h with hfault | ⟨-, hrefused, rfl⟩
        · exact ⟨[.acquire, .advance, .osError errno, .advance], rfl⟩
        · exact ⟨_, exec_refused hrefused last⟩
    | truncate errno hgranted h =>
        exact ⟨_, hgranted.exec_locked last [.osError errno]⟩
    | write errno hgranted h =>
        exact ⟨_, hgranted.exec_locked last [.advance, .osError errno]⟩
    | fsync errno hgranted h =>
        exact ⟨_, hgranted.exec_locked last [.advance, .advance, .osError errno]⟩
  · cases ends_of_eq hafter with
    | returned hgranted h =>
        exact ⟨_, hgranted.exec_locked last [.advance, .advance, .advance, .advance]⟩

/-- Whatever fails, the descriptor an object has in `_fd` keeps its lock and
the file the number of its process. -/
theorem stored_acquire (h : Stored env w.file o w.fd) :
    (∀ err after, acquire env o faults w = .error err after →
      Stored env after.file o after.fd) ∧
    (∀ after, acquire env o faults w = .ok () after → Stored env after.file o after.fd) := by
  have hrun := acquire_exec env o faults w .returned
  have hinvariant : ∀ {moves : List Move} {after : World ω} {outcome : Outcome},
      exec (step env o) (w.file, ⟨w.fd, .idle .returned⟩) moves =
        some (after.file, ⟨after.fd, .idle outcome⟩) → Stored env after.file o after.fd := by
    intro moves after outcome hexec
    exact exec_invariant (I := fun s : Inode ω × SingleWriterLock => Consistent env s.1 o s.2)
      (fun s move t hs hstep => (Consistent.objectStep hs hstep).consistent)
      (s := (w.file, ⟨w.fd, .idle .returned⟩)) h hexec
  refine ⟨fun err after hafter => ?_, fun after hafter => ?_⟩
  · obtain ⟨moves, hexec⟩ := hrun.1 err after hafter
    exact hinvariant hexec
  · obtain ⟨moves, hexec⟩ := hrun.2 after hafter
    exact hinvariant hexec

end

end Acquire

end DistributedMarket
