import Mathlib

/-!
# Locks on open files

A directory gives names to files. A file is opened under its name and stays the same file when the name is removed or
given to another one. An exclusive lock belongs to an open file and ends when that file is closed.
-/
namespace FileLocks

variable {ν η : Type}

/-- The names of the files, the first file not used yet, and the handle that holds the lock of a file. -/
structure Disk (ν η : Type) where
  directory : ν → Option Nat
  next : Nat
  locks : Nat → Option η

namespace Disk

/-- Every file has one name, and new files are new. -/
structure WellFormed (disk : Disk ν η) : Prop where
  used : ∀ name file, disk.directory name = some file → file < disk.next
  injective : ∀ name other file, disk.directory name = some file → disk.directory other = some file → name = other

/-- The file of the name, which is created if there is none. -/
def openFile (disk : Disk ν η) (name : ν) : Nat := (disk.directory name).getD disk.next

def lock (disk : Disk ν η) (file : Nat) (handle : η) : Disk ν η :=
  { disk with locks := Function.update disk.locks file (some handle) }

/-- Every open file of a process that ends is closed. -/
def closeAll (disk : Disk ν η) (ended : η → Bool) : Disk ν η :=
  { disk with locks := fun file => (disk.locks file).filter fun handle => !ended handle }

variable {disk : Disk ν η}

@[simp] theorem lock_same : (disk.lock file handle).locks file = some handle := by simp [lock]

/-- A lock that is held keeps its owner when a free one is taken. -/
theorem lock_keeps (h : disk.locks file = some owner) (hf : disk.locks taken = none) :
    (disk.lock taken handle).locks file = some owner := by
  have hne : file ≠ taken := by
    rintro rfl
    rw [hf] at h
    cases h
  simpa [lock, Function.update_of_ne hne] using h

theorem closeAll_keeps (h : disk.locks file = some owner) (hl : ended owner = false) :
    (disk.closeAll ended).locks file = some owner := by
  simp [closeAll, h, hl]

section Names

variable [DecidableEq ν]

def create (disk : Disk ν η) (name : ν) : Disk ν η :=
  match disk.directory name with
  | some _ => disk
  | none => { disk with directory := Function.update disk.directory name (some disk.next), next := disk.next + 1 }

def unlink (disk : Disk ν η) (name : ν) : Disk ν η :=
  { disk with directory := Function.update disk.directory name none }

@[simp] theorem locks_create : (disk.create name).locks = disk.locks := by
  unfold create
  split <;> rfl

theorem create_same : (disk.create name).directory name = some (disk.openFile name) := by
  unfold create openFile
  cases h : disk.directory name with
  | none => simp
  | some file => simpa using h

/-- A name that is there keeps its file when another one is created. -/
theorem create_keeps (h : disk.directory other = some file) : (disk.create name).directory other = some file := by
  unfold create
  cases hn : disk.directory name with
  | none =>
    have hne : other ≠ name := by
      rintro rfl
      rw [hn] at h
      cases h
    simpa [Function.update_of_ne hne] using h
  | some _ => exact h

theorem unlink_keeps (h : disk.directory other = some file) (hne : other ≠ name) :
    (disk.unlink name).directory other = some file := by
  simpa [unlink, Function.update_of_ne hne] using h

theorem WellFormed.create (h : disk.WellFormed) (name : ν) : (disk.create name).WellFormed := by
  unfold Disk.create
  cases hn : disk.directory name with
  | some _ => exact h
  | none =>
    have hc : ∀ x file, Function.update disk.directory name (some disk.next) x = some file →
        (x = name ∧ file = disk.next) ∨ (x ≠ name ∧ disk.directory x = some file) := by
      intro x file ho
      by_cases he : x = name
      · subst he
        rw [Function.update_self] at ho
        exact .inl ⟨rfl, (Option.some.inj ho).symm⟩
      · rw [Function.update_of_ne he] at ho
        exact .inr ⟨he, ho⟩
    refine ⟨fun x file ho => ?_, fun first second file hf hs => ?_⟩
    · rcases hc x file ho with ⟨_, rfl⟩ | ⟨_, hold⟩
      · exact Nat.lt_succ_self _
      · exact Nat.lt_succ_of_lt (h.used x file hold)
    · rcases hc first file hf with ⟨rfl, rfl⟩ | ⟨_, hf⟩
      · rcases hc second _ hs with ⟨rfl, _⟩ | ⟨_, hs⟩
        · rfl
        · exact absurd (h.used second _ hs) (Nat.lt_irrefl _)
      · rcases hc second file hs with ⟨_, rfl⟩ | ⟨_, hs⟩
        · exact absurd (h.used first _ hf) (Nat.lt_irrefl _)
        · exact h.injective first second file hf hs

theorem WellFormed.unlink (h : disk.WellFormed) (name : ν) : (disk.unlink name).WellFormed := by
  have hold : ∀ x file, (disk.unlink name).directory x = some file → disk.directory x = some file := by
    intro x file ho
    by_cases he : x = name
    · subst he
      simp [Disk.unlink] at ho
    · simpa [Disk.unlink, Function.update_of_ne he] using ho
  exact ⟨fun x file ho => h.used x file (hold x file ho),
    fun first second file hf hs => h.injective first second file (hold _ _ hf) (hold _ _ hs)⟩

end Names

section Handles

variable [DecidableEq η]

/-- Closing an open file gives its lock back. -/
def close (disk : Disk ν η) (handle : η) : Disk ν η :=
  { disk with locks := fun file => if disk.locks file = some handle then none else disk.locks file }

theorem close_keeps (h : disk.locks file = some owner) (hne : owner ≠ handle) :
    (disk.close handle).locks file = some owner := by
  simp [close, h, hne]

end Handles

end Disk

end FileLocks
