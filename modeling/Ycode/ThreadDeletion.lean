import Mathlib

/-!
# Deleting threads while others fork, archive and unarchive them

Calls of one process take the lifecycle and writer locks of threads and then work on their rollouts, one file-system
operation at a time. A deletion first walks both directories for rollouts that continue the history of a thread it is
about to remove. A walk returns every entry that is in the directory from its beginning to its end; an entry that comes
or goes meanwhile may be returned or not.
-/
namespace ThreadDeletion

/-- `SESSIONS_SUBDIR` and `ARCHIVED_SESSIONS_SUBDIR` -/
inductive Place where
  | sessions
  | archived
  deriving DecidableEq, Repr

/-- A rollout, and when it came to its directory. -/
structure File (θ : Type) where
  thread : θ
  place : Place
  since : Nat
  deriving DecidableEq, Repr

/-- The rollouts, and the thread that `history_base` names in the metadata of each thread. -/
structure World (θ : Type) where
  base : θ → Option θ
  files : List (File θ)
  clock : Nat

variable {θ : Type} [DecidableEq θ]

namespace World

def isAt (world : World θ) (thread : θ) (place : Place) : Bool :=
  world.files.any fun file => file.thread = thread && file.place = place

/-- The thread has an active or archived rollout. -/
def has (world : World θ) (thread : θ) : Bool := world.files.any fun file => file.thread = thread

/-- `remove_file` -/
def remove (world : World θ) (thread : θ) (place : Place) : World θ :=
  { world with files := world.files.filter fun file => ¬(file.thread = thread ∧ file.place = place) }

def add (world : World θ) (thread : θ) (place : Place) : World θ :=
  if world.isAt thread place then world
  else { world with files := world.files ++ [⟨thread, place, world.clock⟩], clock := world.clock + 1 }

/-- `rename`; a rollout that is there already is replaced. -/
def rename (world : World θ) (thread : θ) (source target : Place) : World θ :=
  if world.isAt thread source then (world.remove thread source).add thread target else world

/-- The metadata of a new thread is written. -/
def create (world : World θ) (child : θ) (base : Option θ) : World θ :=
  { world.add child .sessions with base := fun thread => if thread = child then base else world.base thread }

end World

/-- The entries of the index, each with the thread its `history_base` names. -/
abbrev RolloutReferenceIndex (θ : Type) := List (θ × Option θ)

/-- `reference_count` -/
def referenceCount (index : RolloutReferenceIndex θ) (thread : θ) : Nat :=
  (index.filter fun entry => entry.1 ≠ thread ∧ entry.2 = some thread).length

/-- The entry of `internal_reference_counts`: references from children that are deleted as well. -/
def internalReferenceCount (index : RolloutReferenceIndex θ) (deletionSet : List θ) (thread : θ) : Nat :=
  (deletionSet.dedup.filter fun child => thread ≠ child ∧ thread ∈ deletionSet ∧ (child, some thread) ∈ index).length

/-- A walk of one directory. Entries that came after its beginning need not be returned. -/
structure Scan (θ : Type) where
  place : Place
  since : Nat
  index : RolloutReferenceIndex θ
  deriving DecidableEq, Repr

namespace Scan

def seen (scan : Scan θ) (thread : θ) : Bool := scan.index.any fun entry => entry.1 = thread

/-- A returned entry is read; a thread is entered once. -/
def visit (scan : Scan θ) (base : θ → Option θ) (thread : θ) : Scan θ :=
  if scan.seen thread then scan else { scan with index := scan.index ++ [(thread, base thread)] }

/-- Everything that was there all the time has been returned. -/
def complete (scan : Scan θ) (files : List (File θ)) : Bool :=
  files.all fun file => !(file.place = scan.place && file.since < scan.since) || scan.seen file.thread

end Scan

inductive Request (θ : Type) where
  | archiveThreads (threads : List θ)
  | unarchiveThread (thread : θ)
  | deleteThread (thread : θ)
  | deleteThreads (threads : List θ)
  deriving DecidableEq, Repr

namespace Request

def threads : Request θ → List θ
  | archiveThreads threads => threads
  | unarchiveThread thread => [thread]
  | deleteThread thread => [thread]
  | deleteThreads threads => threads

def isDelete : Request θ → Bool
  | archiveThreads _ => false
  | unarchiveThread _ => false
  | deleteThread _ => true
  | deleteThreads _ => true

/-- Where the rollouts are looked for. -/
def places : Request θ → List Place
  | archiveThreads _ => [.sessions]
  | unarchiveThread _ => [.archived]
  | deleteThread _ => [.sessions, .archived]
  | deleteThreads _ => [.sessions, .archived]

/-- The check on the references that were found. -/
def isAllowed (request : Request θ) (index : RolloutReferenceIndex θ) : Bool :=
  match request with
  | deleteThread thread => !(referenceCount index thread > 0)
  | deleteThreads threads =>
    threads.all fun thread => !(referenceCount index thread > internalReferenceCount index threads thread)
  | _ => true

/-- The operation on a rollout that was found. -/
def act (request : Request θ) (world : World θ) (thread : θ) (place : Place) : World θ :=
  match request with
  | archiveThreads _ => world.rename thread .sessions .archived
  | unarchiveThread _ => world.rename thread .archived .sessions
  | deleteThread _ => world.remove thread place
  | deleteThreads _ => world.remove thread place

end Request

/-- Where an archive, unarchive or delete call is. -/
inductive Stage (θ : Type) where
  /-- `lock_lifecycle` for the remaining threads -/
  | locking (remaining : List θ)
  /-- `lock` for the remaining threads -/
  | lockingWriters (remaining : List θ)
  /-- `scan_reference_index` -/
  | scanning (scan : Scan θ)
  /-- the rollouts of the remaining threads are still to be found -/
  | locating (remaining : List θ)
  /-- the rollouts of the thread were found at these places -/
  | acting (thread : θ) (places : List Place) (remaining : List θ)
  /-- `referenced_thread_error` -/
  | refused
  | finished
  deriving DecidableEq, Repr

/-- Where a fork is. -/
inductive ForkStage (θ : Type) where
  /-- `reserve_lifecycle` -/
  | waiting
  /-- the lineage has been resolved down to the thread -/
  | resolving (chain : List θ) (thread : θ)
  /-- the `PreparedFork` exists -/
  | prepared (chain : List θ)
  /-- the metadata of the child is durable -/
  | created
  /-- the reservation is dropped -/
  | finished
  deriving DecidableEq, Repr

/-- A call of the store. An exclusive call also remembers what it has removed. -/
inductive Call (θ : Type) where
  | exclusive (request : Request θ) (stage : Stage θ) (removed : List (θ × Place))
  | fork (source : θ) (stage : ForkStage θ)
  deriving DecidableEq, Repr

namespace Call

/-- The thread's `lifecycle` lock is held for writing. -/
def holdsExclusive (thread : θ) : Call θ → Bool
  | exclusive request stage _ =>
    match stage with
    | .locking remaining => thread ∈ request.threads && thread ∉ remaining
    | .refused => false
    | .finished => false
    | _ => thread ∈ request.threads
  | fork _ _ => false

/-- The thread's `lifecycle` lock is held for reading. -/
def holdsShared (thread : θ) : Call θ → Bool
  | exclusive _ _ _ => false
  | fork source stage =>
    match stage with
    | .waiting => false
    | .finished => false
    | _ => thread = source

def holdsLifecycle (thread : θ) (call : Call θ) : Bool := call.holdsExclusive thread || call.holdsShared thread

/-- The thread's `writer` lock is held; unarchiving does not take it. -/
def holdsWriter (thread : θ) : Call θ → Bool
  | exclusive (.unarchiveThread _) _ _ => false
  | exclusive request stage _ =>
    match stage with
    | .locking _ => false
    | .lockingWriters remaining => thread ∈ request.threads && thread ∉ remaining
    | .refused => false
    | .finished => false
    | _ => thread ∈ request.threads
  | fork _ _ => false

/-- The call has met the thread. -/
def names (thread : θ) : Call θ → Bool
  | exclusive request stage _ => thread ∈ request.threads ||
    match stage with
    | .scanning scan => scan.seen thread
    | _ => false
  | fork source stage => thread = source ||
    match stage with
    | .resolving chain next => thread ∈ chain || thread = next
    | .prepared chain => thread ∈ chain
    | _ => false

/-- A deletion that has not returned. -/
def isDeleting : Call θ → Bool
  | exclusive request stage _ => request.isDelete && stage ≠ .refused && stage ≠ .finished
  | fork _ _ => false

end Call

/-- The next operation of an archive, unarchive or delete call; `none` while it waits. -/
def advance (world : World θ) (others : List (Call θ)) (request : Request θ) : Stage θ → Option (World θ × Stage θ)
  | .locking [] =>
    match request with
    | .unarchiveThread thread => some (world, .locating [thread])
    | _ => some (world, .lockingWriters request.threads.dedup)
  | .locking (thread :: remaining) =>
    if others.any (·.holdsLifecycle thread) then none else some (world, .locking remaining)
  | .lockingWriters [] =>
    if request.isDelete then some (world, .scanning ⟨.sessions, world.clock, []⟩)
    else some (world, .locating request.threads)
  | .lockingWriters (thread :: remaining) =>
    if others.any (·.holdsWriter thread) then none else some (world, .lockingWriters remaining)
  | .scanning scan =>
    if scan.complete world.files then
      match scan.place with
      | .sessions => some (world, .scanning ⟨.archived, world.clock, scan.index⟩)
      | .archived => some (world, if request.isAllowed scan.index then .locating request.threads else .refused)
    else none
  | .locating [] => some (world, .finished)
  | .locating (thread :: remaining) =>
    let places := request.places.filter (world.isAt thread)
    -- the first thread must be there to be archived; the others are skipped
    if places = [] ∧ !request.isDelete ∧ remaining.length + 1 = request.threads.length then some (world, .finished)
    else some (world, .acting thread places remaining)
  | .acting _ [] remaining => some (world, .locating remaining)
  | .acting thread (place :: places) remaining =>
    some (request.act world thread place, .acting thread places remaining)
  | .refused => none
  | .finished => none

/-- The next operation of a fork; `none` while it waits. -/
def advanceFork (world : World θ) (others : List (Call θ)) (source : θ) : ForkStage θ → Option (ForkStage θ)
  | .waiting => if others.any (·.holdsExclusive source) then none else some (.resolving [] source)
  | .resolving chain thread =>
    if thread ∈ chain then some .finished
    else if others.any (·.holdsWriter thread) then none
    else if !world.has thread then some .finished
    else match world.base thread with
      | none => some (.prepared (chain ++ [thread]))
      | some base => some (.resolving (chain ++ [thread]) base)
  | _ => none

structure State (θ : Type) where
  world : World θ
  calls : List (Call θ)

inductive Action (θ : Type) where
  | request (request : Request θ)
  | requestFork (source : θ)
  /-- the call makes its next operation -/
  | proceed (index : Nat)
  /-- the walk of the call returns the rollout of the thread -/
  | visit (index : Nat) (thread : θ)
  /-- the child of the fork is written -/
  | create (index : Nat) (child : θ) (base : Option θ)
  /-- the fork fails, or is dropped -/
  | drop (index : Nat)
  deriving DecidableEq, Repr

/-- Where a request begins; without threads there is nothing to do. -/
def firstStage (request : Request θ) : Stage θ :=
  if request.threads = [] then .finished else .locking request.threads.dedup

/-- What a deletion has removed after its next operation. -/
def removedBy (request : Request θ) (stage : Stage θ) (removed : List (θ × Place)) : List (θ × Place) :=
  match stage with
  | .acting thread (place :: _) _ => if request.isDelete then (thread, place) :: removed else removed
  | _ => removed

/-- One operation of one call; `none` when the call cannot make it. -/
def next (state : State θ) : Action θ → Option (State θ)
  | .request request => some { state with calls := state.calls ++ [.exclusive request (firstStage request) []] }
  | .requestFork source => some { state with calls := state.calls ++ [.fork source .waiting] }
  | .proceed index =>
    match state.calls[index]? with
    | some (.exclusive request stage removed) =>
      (advance state.world (state.calls.eraseIdx index) request stage).map fun result =>
        ⟨result.1, state.calls.set index (.exclusive request result.2 (removedBy request stage removed))⟩
    | some (.fork source stage) =>
      (advanceFork state.world (state.calls.eraseIdx index) source stage).map fun result =>
        { state with calls := state.calls.set index (.fork source result) }
    | none => none
  | .visit index thread =>
    match state.calls[index]? with
    | some (.exclusive request (.scanning scan) removed) =>
      if state.world.isAt thread scan.place then
        some { state with
          calls := state.calls.set index (.exclusive request (.scanning (scan.visit state.world.base thread)) removed) }
      else none
    | _ => none
  | .create index child base =>
    match state.calls[index]? with
    | some (.fork source (.prepared chain)) =>
      if !state.world.has child && !state.calls.any (·.names child) && base.all (· ∈ chain) then
        some ⟨state.world.create child base, state.calls.set index (.fork source .created)⟩
      else none
    | _ => none
  | .drop index =>
    match state.calls[index]? with
    | some (.fork source stage) =>
      if stage = .waiting then none else some { state with calls := state.calls.set index (.fork source .finished) }
    | _ => none

def run (state : State θ) (actions : List (Action θ)) : Option (State θ) := actions.foldlM next state

/-- The scan of the call is under way and has not met the thread, though the thread continues one that the call is
about to delete. -/
def Call.awaits (world : World θ) (thread : θ) : Call θ → Bool
  | .exclusive request (.scanning scan) _ =>
    thread ∉ request.threads && (world.base thread).any (· ∈ request.threads) && !scan.seen thread
  | _ => false

/-- The operation does not take a rollout away, to the active ones or altogether, that the scan of a deletion has yet
to meet. -/
def undisturbed (state : State θ) : Action θ → Bool
  | .proceed index =>
    match state.calls[index]? with
    | some (.exclusive (.archiveThreads _) _ _) => true
    | some (.exclusive _ (.acting thread (_ :: _) _) _) => !state.calls.any (·.awaits state.world thread)
    | _ => true
  | _ => true

/-- All operations are such. -/
def runUndisturbed (state : State θ) : List (Action θ) → Bool
  | [] => true
  | action :: actions => undisturbed state action && (next state action).all (runUndisturbed · actions)

/-- A store before any call. -/
def initial (base : θ → Option θ) (rollouts : List (θ × Place)) : State θ where
  world := ⟨base, rollouts.map fun rollout => ⟨rollout.1, rollout.2, 0⟩, 1⟩
  calls := []

/-- Every rollout that continues a history finds a rollout of the thread it names. -/
def Grounded (world : World θ) : Prop :=
  ∀ thread base, world.has thread = true → world.base thread = some base → world.has base = true

end ThreadDeletion
