import Mathlib.Data.Nat.Notation
import Mathlib.Logic.Function.Basic

/-!
# Record locks of a process

POSIX record locks belong to a process and a file, not to a descriptor: locking a file
through a second descriptor adds nothing, unlocking it through any descriptor releases the
lock, and so does closing any descriptor of the file.  Only locks on whole files are
considered, so a lock is held or it is not.

## Main definitions

* `Proc` — the descriptors of a process with their files, and the files it has locked.
* `Proc.opened`, `Proc.locked`, `Proc.unlocked`, `Proc.closed` — what the calls do when they
  succeed.
* `Proc.Guards` — a descriptor is open, and its file is locked.

## Main results

* `Proc.Guards.unlocked`, `Proc.Guards.closed` — when a descriptor keeps guarding its file
  while another one is given up.
-/

namespace RecordLocks

variable {ι : Type*} [DecidableEq ι]

/-- A process: the file behind each open descriptor, and the files it has locked. -/
structure Proc (ι : Type*) where
  fds : ℕ → Option ι
  held : ι → Bool

/-- `open` returned the descriptor `fd` for the file `f`. -/
def Proc.opened (p : Proc ι) (fd : ℕ) (f : ι) : Proc ι :=
  { p with fds := Function.update p.fds fd (some f) }

/-- The file of a descriptor is locked. -/
def Proc.locked (p : Proc ι) (fd : ℕ) : Proc ι :=
  match p.fds fd with
  | none => p
  | some f => { p with held := Function.update p.held f true }

/-- The file of a descriptor is unlocked. -/
def Proc.unlocked (p : Proc ι) (fd : ℕ) : Proc ι :=
  match p.fds fd with
  | none => p
  | some f => { p with held := Function.update p.held f false }

/-- A descriptor is closed, and the process loses its lock on the file. -/
def Proc.closed (p : Proc ι) (fd : ℕ) : Proc ι :=
  match p.fds fd with
  | none => p
  | some f => ⟨Function.update p.fds fd none, Function.update p.held f false⟩

/-- The descriptor is open and the process holds the lock on its file. -/
def Proc.Guards (p : Proc ι) (fd : ℕ) : Prop := ∃ f, p.fds fd = some f ∧ p.held f = true

@[simp] theorem Proc.fds_locked (p : Proc ι) (fd : ℕ) : (p.locked fd).fds = p.fds := by
  unfold Proc.locked
  split <;> rfl

@[simp] theorem Proc.fds_unlocked (p : Proc ι) (fd : ℕ) : (p.unlocked fd).fds = p.fds := by
  unfold Proc.unlocked
  split <;> rfl

omit [DecidableEq ι] in
theorem Proc.Guards.fd_ne {p : Proc ι} {fd fd' : ℕ} (h : p.Guards fd') (hnone : p.fds fd = none) :
    fd' ≠ fd := by
  obtain ⟨f, hf, -⟩ := h
  rintro rfl
  rw [hnone] at hf
  cases hf

/-- Opening another descriptor and locking its file. -/
theorem Proc.Guards.opened_locked {p : Proc ι} {fd fd' : ℕ} (h : p.Guards fd') (hne : fd' ≠ fd)
    (f : ι) : ((p.opened fd f).locked fd).Guards fd' := by
  obtain ⟨g, hg, hheld⟩ := h
  refine ⟨g, by simpa [Proc.opened, Function.update_of_ne hne] using hg, ?_⟩
  simp only [Proc.locked, Proc.opened, Function.update_self]
  by_cases hgf : g = f
  · rw [hgf, Function.update_self]
  · rw [Function.update_of_ne hgf, hheld]

/-- A descriptor that was opened and locked guards its file. -/
theorem Proc.guards_opened_locked (p : Proc ι) (fd : ℕ) (f : ι) :
    ((p.opened fd f).locked fd).Guards fd := by
  refine ⟨f, by simp [Proc.opened], ?_⟩
  simp [Proc.locked, Proc.opened]

/-- A descriptor of another file is not affected when one is unlocked. -/
theorem Proc.Guards.unlocked {p : Proc ι} {fd fd' : ℕ} (h : p.Guards fd')
    (hne : p.fds fd' ≠ p.fds fd) : (p.unlocked fd).Guards fd' := by
  obtain ⟨g, hg, hheld⟩ := h
  refine ⟨g, by simpa using hg, ?_⟩
  unfold Proc.unlocked
  split
  next => exact hheld
  next f hf =>
    have hgf : g ≠ f := fun heq => hne (by rw [hg, hf, heq])
    simp only [Function.update_of_ne hgf, hheld]

/-- A descriptor of another file is not affected when one is closed. -/
theorem Proc.Guards.closed {p : Proc ι} {fd fd' : ℕ} (h : p.Guards fd')
    (hne : p.fds fd' ≠ p.fds fd) : (p.closed fd).Guards fd' := by
  have hfd : fd' ≠ fd := fun heq => hne (by rw [heq])
  obtain ⟨g, hg, hheld⟩ := h
  unfold Proc.closed
  split
  next => exact ⟨g, hg, hheld⟩
  next f hf =>
    have hgf : g ≠ f := fun heq => hne (by rw [hg, hf, heq])
    exact ⟨g, by simpa [Function.update_of_ne hfd] using hg, by
      simp only [Function.update_of_ne hgf, hheld]⟩

end RecordLocks
