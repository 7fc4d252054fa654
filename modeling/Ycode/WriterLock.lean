import Ycode.FileLocks
import Ycode.Runs

/-!
# The lock of a thread's writer

A writer holds the lock of a file that is named after its thread. Lock files are removed when a writer is done and
when a coordinator cleans up, so a file is opened, locked, closed and removed only under the lock of the coordination
file, which stays. Every process, coordinator and call may be interrupted between any two operations on the file
system, and a process may end at any point.
-/
namespace WriterLock

open FileLocks Runs

variable {τ : Type}

inductive LockPath (τ : Type) where
  | coordination
  | thread (id : τ)
  deriving DecidableEq

/-- A call has at most two files open: the coordination file and one lock file. -/
inductive Role where
  | coordination
  | file
  deriving DecidableEq

structure Handle where
  actor : Nat
  role : Role
  deriving DecidableEq

inductive AcquireError where
  | conflict
  | internal
  deriving DecidableEq

/-- How far a call of `acquire`, or the drop of the guard that it returned, has come. -/
inductive Stage (τ : Type) where
  | idle
  | crashed
  -- `acquire` has opened the coordination file
  | acquireWaiting (thread : τ) (coordination : Nat)
  | coordinating (thread : τ)
  -- the loop of `remove_stale_thread_locks`
  | cleaning (thread : τ)
  | inspecting (thread stale : τ) (file : Nat)
  | inspected (thread stale : τ) (file : Nat)
  | removing (thread stale : τ)
  -- `acquire` after the cleanup
  | opening (thread : τ)
  | opened (thread : τ) (file : Nat)
  | acquired (thread : τ) (file : Nat)
  | rejected (thread : τ) (error : AcquireError)
  -- the guard and its drop
  | guarded (thread : τ) (file : Nat)
  | dropWaiting (thread : τ) (file : Nat) (coordination : Nat)
  | dropping (thread : τ) (file : Nat)
  | closed (thread : τ)
  | unlinked (thread : τ)

/-- Which process runs a call, and with which coordinator. -/
structure Deployment where
  process : Nat → Nat
  coordinator : Nat → Nat

structure State (τ : Type) where
  disk : Disk (LockPath τ) Handle
  stage : Nat → Stage τ
  cleanupAttempted : Nat → Bool

/-- The next operation of a call. Where an operation may fail, the event says whether it does. -/
inductive Event (τ : Type) where
  | acquire (actor : Nat) (thread : τ)
  | lockCoordination (actor : Nat)
  | failToCoordinate (actor : Nat)
  | beginCleanup (actor : Nat)
  | inspect (actor : Nat) (stale : τ)
  | tryInspected (actor : Nat) (fails : Bool)
  | closeInspected (actor : Nat)
  | removeStale (actor : Nat) (fails : Bool)
  | endCleanup (actor : Nat)
  | openFile (actor : Nat) (fails : Bool)
  | tryLock (actor : Nat) (fails : Bool)
  | releaseCoordination (actor : Nat)
  | drop (actor : Nat)
  | closeFile (actor : Nat)
  | removeFile (actor : Nat) (fails : Bool)
  | crash (process : Nat)

section Steps

variable [DecidableEq τ]

def State.at (s : State τ) (actor : Nat) (stage : Stage τ) : State τ :=
  { s with stage := Function.update s.stage actor stage }

def State.on (s : State τ) (disk : Disk (LockPath τ) Handle) : State τ := { s with disk }

/-- An event that the stage of the call does not allow changes nothing. -/
def step (env : Deployment) (s : State τ) : Event τ → State τ
  | .acquire a thread =>
    match s.stage a with
    | .idle =>
      (s.on (s.disk.create .coordination)).at a (.acquireWaiting thread (s.disk.openFile .coordination))
    | _ => s
  | .lockCoordination a =>
    match s.stage a with
    | .acquireWaiting thread coordination =>
      match s.disk.locks coordination with
      | none => (s.on (s.disk.lock coordination ⟨a, .coordination⟩)).at a (.coordinating thread)
      | some _ => s
    | .dropWaiting thread file coordination =>
      match s.disk.locks coordination with
      | none => (s.on (s.disk.lock coordination ⟨a, .coordination⟩)).at a (.dropping thread file)
      | some _ => s
    | _ => s
  | .failToCoordinate a =>
    match s.stage a with
    | .acquireWaiting _ _ => s.at a .idle
    -- a drop that cannot coordinate returns, and the guard's file is closed with the guard
    | .guarded _ _ => (s.on (s.disk.close ⟨a, .file⟩)).at a .idle
    | .dropWaiting _ _ _ => (s.on (s.disk.close ⟨a, .file⟩)).at a .idle
    | _ => s
  | .beginCleanup a =>
    match s.stage a with
    | .coordinating thread =>
      if s.cleanupAttempted (env.coordinator a) then s.at a (.opening thread)
      else { s.at a (.cleaning thread) with
        cleanupAttempted := Function.update s.cleanupAttempted (env.coordinator a) true }
    | _ => s
  -- any name may come up in the listing of the directory
  | .inspect a stale =>
    match s.stage a with
    | .cleaning thread =>
      match s.disk.directory (.thread stale) with
      | some file => s.at a (.inspecting thread stale file)
      | none => s
    | _ => s
  | .tryInspected a fails =>
    match s.stage a with
    | .inspecting thread stale file =>
      if fails then s.at a (.cleaning thread)
      else match s.disk.locks file with
        | none => (s.on (s.disk.lock file ⟨a, .file⟩)).at a (.inspected thread stale file)
        | some _ => s.at a (.cleaning thread)
    | _ => s
  | .closeInspected a =>
    match s.stage a with
    | .inspected thread stale _ => (s.on (s.disk.close ⟨a, .file⟩)).at a (.removing thread stale)
    | _ => s
  | .removeStale a fails =>
    match s.stage a with
    | .removing thread stale =>
      if fails then s.at a (.cleaning thread)
      else (s.on (s.disk.unlink (.thread stale))).at a (.cleaning thread)
    | _ => s
  | .endCleanup a =>
    match s.stage a with
    | .cleaning thread => s.at a (.opening thread)
    | _ => s
  | .openFile a fails =>
    match s.stage a with
    | .opening thread =>
      if fails then s.at a (.rejected thread .internal)
      else (s.on (s.disk.create (.thread thread))).at a (.opened thread (s.disk.openFile (.thread thread)))
    | _ => s
  | .tryLock a fails =>
    match s.stage a with
    | .opened thread file =>
      if fails then s.at a (.rejected thread .internal)
      else match s.disk.locks file with
        | none => (s.on (s.disk.lock file ⟨a, .file⟩)).at a (.acquired thread file)
        | some _ => s.at a (.rejected thread .conflict)
    | _ => s
  | .releaseCoordination a =>
    match s.stage a with
    | .acquired thread file => (s.on (s.disk.close ⟨a, .coordination⟩)).at a (.guarded thread file)
    | .rejected _ _ => (s.on (s.disk.close ⟨a, .coordination⟩)).at a .idle
    | .unlinked _ => (s.on (s.disk.close ⟨a, .coordination⟩)).at a .idle
    | _ => s
  | .drop a =>
    match s.stage a with
    | .guarded thread file =>
      (s.on (s.disk.create .coordination)).at a (.dropWaiting thread file (s.disk.openFile .coordination))
    | _ => s
  | .closeFile a =>
    match s.stage a with
    | .dropping thread _ => (s.on (s.disk.close ⟨a, .file⟩)).at a (.closed thread)
    | _ => s
  | .removeFile a fails =>
    match s.stage a with
    | .closed thread =>
      if fails then s.at a (.unlinked thread)
      else (s.on (s.disk.unlink (.thread thread))).at a (.unlinked thread)
    | _ => s
  | .crash process =>
    { s with
      disk := s.disk.closeAll fun handle => env.process handle.actor = process
      stage := fun a => if env.process a = process then .crashed else s.stage a }

/-- No call has begun. Lock files of processes that have ended may be there. -/
structure Initial (s : State τ) : Prop where
  disk : s.disk.WellFormed
  idle : ∀ a, s.stage a = .idle

end Steps

namespace Stage

/-- The call holds the lock of the coordination file. -/
def coordinates : Stage τ → Bool
  | .coordinating _ | .cleaning _ | .inspecting _ _ _ | .inspected _ _ _ | .removing _ _ => true
  | .opening _ | .opened _ _ | .acquired _ _ | .rejected _ _ => true
  | .dropping _ _ | .closed _ | .unlinked _ => true
  | _ => false

/-- The coordination file whose lock the call waits for. -/
def waitsFor : Stage τ → Option Nat
  | .acquireWaiting _ coordination | .dropWaiting _ _ coordination => some coordination
  | _ => none

/-- The lock file that the call has open, and the thread it is named after. -/
def file : Stage τ → Option (τ × Nat)
  | .inspecting _ stale file | .inspected _ stale file => some (stale, file)
  | .opened thread file | .acquired thread file | .guarded thread file => some (thread, file)
  | .dropWaiting thread file _ | .dropping thread file => some (thread, file)
  | _ => none

/-- The lock file whose lock the call holds. -/
def holds : Stage τ → Option (τ × Nat)
  | .inspected _ stale file => some (stale, file)
  | .acquired thread file | .guarded thread file => some (thread, file)
  | .dropWaiting thread file _ | .dropping thread file => some (thread, file)
  | _ => none

/-- The thread whose lock file the call is about to remove. -/
def removes : Stage τ → Option τ
  | .removing _ stale => some stale
  | .closed thread => some thread
  | _ => none

/-- The guard that a call returned, or is about to return or to drop. -/
def guard : Stage τ → Option (τ × Nat)
  | .acquired thread file | .guarded thread file => some (thread, file)
  | .dropWaiting thread file _ | .dropping thread file => some (thread, file)
  | _ => none

theorem holds_of_guard {x : Stage τ} (h : x.guard = some held) : x.holds = some held := by
  cases x <;> simp_all [guard, holds]

theorem file_of_holds {x : Stage τ} (h : x.holds = some held) : x.file = some held := by
  cases x <;> simp_all [holds, file]

theorem holds_or_coordinates {x : Stage τ} (h : x.file = some he) : x.holds = some he ∨ x.coordinates = true := by
  cases x <;> simp_all [holds, file, coordinates]

theorem coordinates_of_removes {x : Stage τ} (h : x.removes = some thread) :
    x.coordinates = true ∧ x.holds = none := by
  cases x <;> simp_all [removes, coordinates, holds]

end Stage

end WriterLock
