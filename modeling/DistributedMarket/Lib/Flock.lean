import Mathlib.Data.Nat.Init
import Mathlib.Data.Option.Basic
import Mathlib.Logic.Function.Basic

/-!
One file, its open file descriptions, and the advisory locks on it.

A lock belongs to an open file description, not to a process, and an
exclusive lock is granted to a description when no other one of the same
file holds it. That no two descriptions ever hold it together is a field of
`Inode`: each operation proves it of what it returns, so it is true of every
file any sequence of system calls can lead to.

Descriptions carry an owner, an arbitrary label by which a client tells its
descriptions from those of others. `Frame` says that an operation left
everybody else's alone. Handles are not reused here, which a program cannot
tell as long as it forgets a handle it has closed.
-/

namespace Lib.Flock

/-- An open file description. -/
structure Description (ω : Type*) where
  owner : ω
  locked : Bool
  offset : ℕ
  deriving DecidableEq

/-- A file and the descriptions that refer to it. -/
@[ext]
structure Inode (ω : Type*) where
  content : List Char
  table : ℕ → Option (Description ω)
  fresh : ℕ
  unused : ∀ fd, fresh ≤ fd → table fd = none
  exclusive : ∀ fd fd' d d', table fd = some d → table fd' = some d' →
    d.locked = true → d'.locked = true → fd = fd'

namespace Inode

variable {ω : Type*}

/-- The file before anybody opens it. -/
def closed (content : List Char) : Inode ω where
  content := content
  table := fun _ => none
  fresh := 0
  unused := by simp
  exclusive := by simp

/-- `open`, without truncation. The new description is the one at `fresh`. -/
def openFile (f : Inode ω) (o : ω) : Inode ω where
  content := f.content
  table := Function.update f.table f.fresh (some ⟨o, false, 0⟩)
  fresh := f.fresh + 1
  unused := by
    intro fd hfd
    rw [Function.update_of_ne (by omega)]
    exact f.unused fd (by omega)
  exclusive := by
    intro fd fd' d d' hd hd' hlocked hlocked'
    by_cases hfd : fd = f.fresh
    · subst hfd
      rw [Function.update_self] at hd
      cases hd
      contradiction
    · by_cases hfd' : fd' = f.fresh
      · subst hfd'
        rw [Function.update_self] at hd'
        cases hd'
        contradiction
      · rw [Function.update_of_ne hfd] at hd
        rw [Function.update_of_ne hfd'] at hd'
        exact f.exclusive fd fd' d d' hd hd' hlocked hlocked'

/-- No other description holds the lock. -/
def Grantable (f : Inode ω) (fd : ℕ) : Prop :=
  ∀ fd' < f.fresh, fd' ≠ fd → ∀ d ∈ f.table fd', d.locked = false

instance (f : Inode ω) (fd : ℕ) : Decidable (f.Grantable fd) :=
  inferInstanceAs (Decidable (∀ fd' < f.fresh, fd' ≠ fd → ∀ d ∈ f.table fd', d.locked = false))

theorem Grantable.eq_of_locked {f : Inode ω} {fd fd' : ℕ} {d : Description ω}
    (h : f.Grantable fd) (hd : f.table fd' = some d) (hlocked : d.locked = true) : fd' = fd := by
  by_contra hne
  have hlt : fd' < f.fresh := by
    by_contra hge
    rw [f.unused fd' (Nat.le_of_not_lt hge)] at hd
    contradiction
  have hfree := h fd' hlt hne d hd
  rw [hlocked] at hfree
  contradiction

/-- No description holds the lock. -/
def Free (f : Inode ω) : Prop := ∀ fd d, f.table fd = some d → d.locked = false

/-- `flock(fd, LOCK_EX | LOCK_NB)` where it is granted. -/
def flockEx (f : Inode ω) (fd : ℕ) (h : f.Grantable fd) : Inode ω where
  content := f.content
  table := Function.update f.table fd ((f.table fd).map fun d => { d with locked := true })
  fresh := f.fresh
  unused := by
    intro fd' hfd'
    by_cases hne : fd' = fd
    · subst hne
      rw [Function.update_self, f.unused fd' hfd', Option.map_none]
    · rw [Function.update_of_ne hne, f.unused fd' hfd']
  exclusive := by
    -- Whatever is locked now is `fd` itself or was locked before.
    have hself : ∀ fd' d, Function.update f.table fd
        ((f.table fd).map fun d => { d with locked := true }) fd' = some d →
        d.locked = true → fd' = fd := by
      intro fd' d hd hlocked
      by_cases hne : fd' = fd
      · exact hne
      · rw [Function.update_of_ne hne] at hd
        exact h.eq_of_locked hd hlocked
    intro fd' fd'' d d' hd hd' hlocked hlocked'
    rw [hself fd' d hd hlocked, hself fd'' d' hd' hlocked']

/-- Replace the table by one that locks nothing new. -/
def retable (f : Inode ω) (table : ℕ → Option (Description ω))
    (h : ∀ fd d', table fd = some d' →
      ∃ d, f.table fd = some d ∧ (d'.locked = true → d.locked = true)) : Inode ω where
  content := f.content
  table := table
  fresh := f.fresh
  unused := by
    intro fd hfd
    cases hd : table fd with
    | none => rfl
    | some d' =>
        obtain ⟨d, hd, -⟩ := h fd d' hd
        rw [f.unused fd hfd] at hd
        contradiction
  exclusive := by
    intro fd fd' d d' hd hd' hlocked hlocked'
    obtain ⟨e, he, hlock⟩ := h fd d hd
    obtain ⟨e', he', hlock'⟩ := h fd' d' hd'
    exact f.exclusive fd fd' e e' he he' (hlock hlocked) (hlock' hlocked')

/-- Replace one description by one that is locked only if it was. -/
def modify (f : Inode ω) (fd : ℕ) (g : Description ω → Option (Description ω))
    (hg : ∀ d d', g d = some d' → d'.locked = true → d.locked = true) : Inode ω :=
  f.retable (Function.update f.table fd ((f.table fd).bind g)) (by
    intro fd' d' hd'
    by_cases hne : fd' = fd
    · subst hne
      rw [Function.update_self, Option.bind_eq_some_iff] at hd'
      obtain ⟨d, hd, hgd⟩ := hd'
      exact ⟨d, hd, hg d d' hgd⟩
    · rw [Function.update_of_ne hne] at hd'
      exact ⟨d', hd', id⟩)

/-- `flock(fd, LOCK_UN)`. -/
def flockUn (f : Inode ω) (fd : ℕ) : Inode ω :=
  f.modify fd (fun d => some { d with locked := false }) (by
    rintro d d' hd hlocked
    cases hd
    contradiction)

/-- `close(fd)`, which drops the lock of the description. -/
def close (f : Inode ω) (fd : ℕ) : Inode ω := f.modify fd (fun _ => none) (by simp)

/-- The end of a process closes the descriptions of its owners. -/
def closeAll (f : Inode ω) (gone : ω → Bool) : Inode ω :=
  f.retable (fun fd => (f.table fd).filter fun d => !gone d.owner) (by
    intro fd d' hd'
    rw [Option.filter_eq_some_iff] at hd'
    exact ⟨d', hd'.1, id⟩)

/-- `ftruncate(fd, 0)`. The offsets stay where they are. -/
def truncate (f : Inode ω) : Inode ω := { f with content := [] }

/-- The content once `data` is written at `offset`; a gap reads as zeros. -/
def overwrite (content : List Char) (offset : ℕ) (data : List Char) : List Char :=
  content.take offset ++ List.replicate (offset - content.length) (Char.ofNat 0) ++ data ++
    content.drop (offset + data.length)

/-- `write(fd, data)`, all of it, at the offset of the description. -/
def write (f : Inode ω) (fd : ℕ) (data : List Char) : Inode ω :=
  { f.modify fd (fun d => some { d with offset := d.offset + data.length }) (by
      rintro d d' hd hlocked
      cases hd
      exact hlocked) with
    content := match f.table fd with
      | some d => overwrite f.content d.offset data
      | none => f.content }

/-! ### Who holds the lock -/

/-- A description of `o` holds the lock. -/
def Holds (f : Inode ω) (o : ω) : Prop :=
  ∃ fd d, f.table fd = some d ∧ d.owner = o ∧ d.locked = true

/-- **At most one owner holds the lock.** -/
theorem Holds.unique {f : Inode ω} {o o' : ω} (h : f.Holds o) (h' : f.Holds o') : o = o' := by
  obtain ⟨fd, d, hd, rfl, hlocked⟩ := h
  obtain ⟨fd', d', hd', rfl, hlocked'⟩ := h'
  obtain rfl := f.exclusive fd fd' d d' hd hd' hlocked hlocked'
  rw [hd, Option.some.injEq] at hd'
  rw [hd']

/-- Only a holder refuses. -/
theorem exists_holds_of_not_grantable {f : Inode ω} {fd : ℕ} (h : ¬ f.Grantable fd) :
    ∃ o, f.Holds o := by
  by_contra hnobody
  refine h fun fd' _ _ d hd => ?_
  by_contra hlocked
  exact hnobody ⟨d.owner, fd', d, hd, rfl, eq_true_of_ne_false hlocked⟩

/-- Only descriptions of `o` differ. -/
def Frame (o : ω) (f f' : Inode ω) : Prop :=
  ∀ fd d, d.owner ≠ o → (f'.table fd = some d ↔ f.table fd = some d)

theorem Frame.refl (o : ω) (f : Inode ω) : f.Frame o f := by
  intro fd d _
  exact Iff.rfl

theorem Frame.holds_iff {f f' : Inode ω} {o o' : ω} (h : f.Frame o f') (hne : o' ≠ o) :
    f'.Holds o' ↔ f.Holds o' := by
  refine ⟨?_, ?_⟩
  · rintro ⟨fd, d, hd, rfl, hlocked⟩
    exact ⟨fd, d, (h fd d hne).mp hd, rfl, hlocked⟩
  · rintro ⟨fd, d, hd, rfl, hlocked⟩
    exact ⟨fd, d, (h fd d hne).mpr hd, rfl, hlocked⟩

/-- A change at one handle, from nothing or a description of `o` to nothing
or a description of `o`. -/
theorem frame_of_update {f f' : Inode ω} {o : ω} {fd : ℕ} {entry : Option (Description ω)}
    (htable : f'.table = Function.update f.table fd entry)
    (hbefore : ∀ d, f.table fd = some d → d.owner = o)
    (hafter : ∀ d, entry = some d → d.owner = o) : f.Frame o f' := by
  intro fd' d hne
  rw [htable]
  by_cases hfd : fd' = fd
  · subst hfd
    rw [Function.update_self]
    refine ⟨?_, ?_⟩
    · intro hd
      exact absurd (hafter d hd) hne
    · intro hd
      exact absurd (hbefore d hd) hne
  · rw [Function.update_of_ne hfd]

/-! ### What each call does to the table -/

section

variable {f : Inode ω} {fd : ℕ} {d : Description ω}

theorem table_openFile (o : ω) : (f.openFile o).table f.fresh = some ⟨o, false, 0⟩ :=
  Function.update_self _ _ _

/-- A description that is there is not the one an `open` makes. -/
theorem table_openFile_of_some (o : ω) (hd : f.table fd = some d) :
    (f.openFile o).table fd = some d := by
  have hne : fd ≠ f.fresh := by
    rintro rfl
    rw [f.unused f.fresh (Nat.le_refl _)] at hd
    contradiction
  exact (Function.update_of_ne hne _ _).trans hd

/-- A new description is granted the lock if nobody has it. -/
theorem grantable_openFile_iff (o : ω) : (f.openFile o).Grantable f.fresh ↔ f.Free := by
  refine ⟨fun h fd d hd => ?_, fun h fd _ hne d hd => ?_⟩
  · have hlt : fd < f.fresh := by
      by_contra hge
      rw [f.unused fd (Nat.le_of_not_lt hge)] at hd
      contradiction
    exact h fd (Nat.lt_succ_of_lt hlt) (Nat.ne_of_lt hlt) d (table_openFile_of_some o hd)
  · exact h fd d ((Function.update_of_ne hne _ _).symm.trans hd)

/-- Closing the descriptor that was just opened undoes the `open`. -/
theorem table_close_openFile (o : ω) : ((f.openFile o).close f.fresh).table = f.table := by
  funext fd
  by_cases hne : fd = f.fresh
  · subst hne
    simp [close, modify, retable, f.unused f.fresh (Nat.le_refl _)]
  · simp [close, modify, retable, openFile, Function.update_of_ne hne]

theorem table_flockEx (h : f.Grantable fd) (hd : f.table fd = some d) :
    (f.flockEx fd h).table fd = some { d with locked := true } := by
  simp [flockEx, hd]

theorem table_flockUn (hd : f.table fd = some d) :
    (f.flockUn fd).table fd = some { d with locked := false } := by
  simp [flockUn, modify, retable, hd]

theorem table_write (data : List Char) (hd : f.table fd = some d) :
    (f.write fd data).table fd = some { d with offset := d.offset + data.length } := by
  simp [write, modify, retable, hd]

theorem table_modify_of_ne {fd' : ℕ} {g : Description ω → Option (Description ω)}
    {hg : ∀ d d', g d = some d' → d'.locked = true → d.locked = true} (hne : fd' ≠ fd) :
    (f.modify fd g hg).table fd' = f.table fd' :=
  Function.update_of_ne hne _ _

theorem table_close : (f.close fd).table fd = none := by
  simp [close, modify, retable]

theorem table_close_of_ne {fd' : ℕ} (hne : fd' ≠ fd) : (f.close fd).table fd' = f.table fd' :=
  table_modify_of_ne hne

theorem table_flockUn_of_ne {fd' : ℕ} (hne : fd' ≠ fd) : (f.flockUn fd).table fd' = f.table fd' :=
  table_modify_of_ne hne

theorem table_write_of_ne {fd' : ℕ} (data : List Char) (hne : fd' ≠ fd) :
    (f.write fd data).table fd' = f.table fd' :=
  Function.update_of_ne hne _ _

theorem table_flockEx_of_ne {fd' : ℕ} (h : f.Grantable fd) (hne : fd' ≠ fd) :
    (f.flockEx fd h).table fd' = f.table fd' :=
  Function.update_of_ne hne _ _

theorem table_openFile_of_ne {fd' : ℕ} (o : ω) (hne : fd' ≠ f.fresh) :
    (f.openFile o).table fd' = f.table fd' :=
  Function.update_of_ne hne _ _

/-- Written at the start of an empty file, the data are the file. -/
theorem content_write {data : List Char} (hd : f.table fd = some d) (hoffset : d.offset = 0)
    (hempty : f.content = []) : (f.write fd data).content = data := by
  simp [write, hd, overwrite, hoffset, hempty]

theorem frame_openFile (o : ω) : f.Frame o (f.openFile o) := by
  apply frame_of_update rfl
  · intro d hd
    rw [f.unused f.fresh (Nat.le_refl _)] at hd
    contradiction
  · rintro d hd
    cases hd
    rfl

/-- A change at the handle of a description. -/
theorem frame_of_update_some {f' : Inode ω} {entry : Option (Description ω)}
    (htable : f'.table = Function.update f.table fd entry) (hd : f.table fd = some d)
    (hafter : ∀ d', entry = some d' → d'.owner = d.owner) : f.Frame d.owner f' := by
  refine frame_of_update htable (fun e he => ?_) hafter
  rw [hd] at he
  cases he
  rfl

theorem frame_flockEx (h : f.Grantable fd) (hd : f.table fd = some d) :
    f.Frame d.owner (f.flockEx fd h) := by
  apply frame_of_update_some rfl hd
  intro d' hd'
  rw [hd] at hd'
  cases hd'
  rfl

theorem frame_modify {g : Description ω → Option (Description ω)}
    {hg : ∀ d d', g d = some d' → d'.locked = true → d.locked = true}
    (hd : f.table fd = some d) (howner : ∀ d', g d = some d' → d'.owner = d.owner) :
    f.Frame d.owner (f.modify fd g hg) := by
  apply frame_of_update_some rfl hd
  intro d' hd'
  rw [hd, Option.bind_some] at hd'
  exact howner d' hd'

theorem frame_flockUn (hd : f.table fd = some d) : f.Frame d.owner (f.flockUn fd) := by
  apply frame_modify hd
  intro d' hd'
  cases hd'
  rfl

theorem frame_close (hd : f.table fd = some d) : f.Frame d.owner (f.close fd) := by
  apply frame_modify hd
  intro d' hd'
  contradiction

theorem frame_write (data : List Char) (hd : f.table fd = some d) :
    f.Frame d.owner (f.write fd data) := by
  apply frame_of_update_some rfl hd
  intro d' hd'
  rw [hd] at hd'
  cases hd'
  rfl

theorem table_closeAll {gone : ω → Bool} :
    (f.closeAll gone).table fd = some d ↔ f.table fd = some d ∧ gone d.owner = false := by
  simp [closeAll, retable, Option.filter_eq_some_iff]

end

/-! ### The holder, and what each call does to it -/

/-- Who has the lock through `fd`. -/
def lockOwner (f : Inode ω) (fd : ℕ) : Option ω :=
  (f.table fd).bind fun d => if d.locked then some d.owner else none

/-- Who has the lock. -/
def holder (f : Inode ω) : Option ω := (List.range f.fresh).findSome? f.lockOwner

section

variable {f f' : Inode ω} {fd : ℕ} {d : Description ω} {o : ω}

theorem lockOwner_eq_some_iff :
    f.lockOwner fd = some o ↔ ∃ d, f.table fd = some d ∧ d.owner = o ∧ d.locked = true := by
  rw [lockOwner, Option.bind_eq_some_iff]
  refine exists_congr fun d => and_congr_right fun _ => ?_
  cases d.locked <;> simp

theorem holder_eq_some_iff : f.holder = some o ↔ f.Holds o := by
  have hsome : ∀ o, f.holder = some o → f.Holds o := by
    intro o h
    obtain ⟨fd, -, hfd⟩ := List.exists_of_findSome?_eq_some h
    exact ⟨fd, lockOwner_eq_some_iff.mp hfd⟩
  refine ⟨hsome o, fun h => ?_⟩
  cases hholder : f.holder with
  | some o' => rw [(hsome o' hholder).unique h]
  | none =>
      obtain ⟨fd, d, hd, howner⟩ := h
      have hlt : fd < f.fresh := by
        by_contra hge
        rw [f.unused fd (Nat.le_of_not_lt hge)] at hd
        contradiction
      have hnone := List.findSome?_eq_none_iff.mp hholder fd (List.mem_range.mpr hlt)
      rw [lockOwner_eq_some_iff.mpr ⟨d, hd, howner⟩] at hnone
      contradiction

theorem holder_eq_none_iff : f.holder = none ↔ f.Free := by
  rw [Option.eq_none_iff_forall_ne_some]
  refine ⟨fun h fd d hd => ?_, fun h o ho => ?_⟩
  · by_contra hlocked
    exact h d.owner (holder_eq_some_iff.mpr ⟨fd, d, hd, rfl, eq_true_of_ne_false hlocked⟩)
  · obtain ⟨fd, d, hd, -, hlocked⟩ := holder_eq_some_iff.mp ho
    rw [h fd d hd] at hlocked
    contradiction

/-- Where no description gets or loses the lock, nobody does. -/
theorem holder_congr (h : ∀ fd, f'.lockOwner fd = f.lockOwner fd) : f'.holder = f.holder := by
  have hholds : ∀ o, f'.Holds o ↔ f.Holds o := fun o =>
    exists_congr fun fd => by rw [← lockOwner_eq_some_iff, ← lockOwner_eq_some_iff, h fd]
  ext o
  rw [holder_eq_some_iff, holder_eq_some_iff, hholds]

/-- A change at one handle that does not lock or unlock. -/
theorem holder_of_update {entry : Option (Description ω)}
    (htable : f'.table = Function.update f.table fd entry)
    (hentry : (entry.bind fun d => if d.locked then some d.owner else none) = f.lockOwner fd) :
    f'.holder = f.holder := by
  apply holder_congr
  intro fd'
  rw [lockOwner, htable]
  by_cases hfd : fd' = fd
  · subst hfd
    rw [Function.update_self]
    exact hentry
  · rw [Function.update_of_ne hfd]
    rfl

theorem holder_openFile (o : ω) : (f.openFile o).holder = f.holder := by
  apply holder_of_update rfl
  simp [lockOwner, f.unused f.fresh (Nat.le_refl _)]

theorem holder_close (hd : f.table fd = some d) (hlocked : d.locked = false) :
    (f.close fd).holder = f.holder := by
  apply holder_of_update rfl
  simp [lockOwner, hd, hlocked]

theorem holder_write (data : List Char) (hd : f.table fd = some d) :
    (f.write fd data).holder = f.holder := by
  apply holder_of_update rfl
  simp [lockOwner, hd]

theorem holder_flockEx (h : f.Grantable fd) (hd : f.table fd = some d) :
    (f.flockEx fd h).holder = some d.owner :=
  holder_eq_some_iff.mpr ⟨fd, _, table_flockEx h hd, rfl, rfl⟩

/-- What is granted to a description that has no lock is a free lock. -/
theorem holder_of_grantable (h : f.Grantable fd) (hd : f.table fd = some d)
    (hlocked : d.locked = false) : f.holder = none := by
  refine holder_eq_none_iff.mpr fun fd' d' hd' => ?_
  by_contra hlocked'
  obtain rfl := h.eq_of_locked hd' (eq_true_of_ne_false hlocked')
  rw [hd, Option.some.injEq] at hd'
  exact hlocked' (hd' ▸ hlocked)

theorem holder_flockUn (hd : f.table fd = some d) (hlocked : d.locked = true) :
    (f.flockUn fd).holder = none := by
  refine holder_eq_none_iff.mpr fun fd' d' hd' => ?_
  by_cases hfd : fd' = fd
  · subst hfd
    rw [table_flockUn hd] at hd'
    cases hd'
    rfl
  · rw [table_flockUn_of_ne hfd] at hd'
    by_contra hlocked'
    exact hfd (f.exclusive fd' fd d' d hd' hd (eq_true_of_ne_false hlocked') hlocked)

theorem holder_closeAll (gone : ω → Bool) :
    (f.closeAll gone).holder = f.holder.filter fun o => !gone o := by
  ext o
  rw [Option.filter_eq_some_iff, holder_eq_some_iff, holder_eq_some_iff]
  refine ⟨?_, ?_⟩
  · rintro ⟨fd, d, hd, rfl, hlocked⟩
    obtain ⟨hd, hgone⟩ := table_closeAll.mp hd
    exact ⟨⟨fd, d, hd, rfl, hlocked⟩, by simp [hgone]⟩
  · rintro ⟨⟨fd, d, hd, rfl, hlocked⟩, hgone⟩
    exact ⟨fd, d, table_closeAll.mpr ⟨hd, by simpa using hgone⟩, rfl, hlocked⟩

end

end Inode

end Lib.Flock
