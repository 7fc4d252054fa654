import Ycode.Fallible
import Ycode.RolloutWriter

/-!
# Projecting a rollout to the history database

A pass reads the complete lines of a rollout after the stored position and turns them into steps; the steps, the new
position and the rows are written in one transaction. A line that cannot be projected stays pending until a later
ordinal shows whether it consumed one, and is read again by the next pass.
-/
namespace HistoryProjection

open RustStr (Str)
open RolloutWriter (RolloutLine)

def number (n : Nat) : Str := (toString n).toList

/-- The parts of a rollout line that are read by other libraries: JSON, timestamps, and the changes a line makes. -/
structure Formats (β ν τ ι κ : Type) where
  newline : β
  isAsciiWhitespace : β → Bool
  parseValue : List β → Option ν
  valueOrdinal : ν → Option Nat
  parseRolloutLine : ν → Option (RolloutLine τ ι)
  projectRolloutLine : RolloutLine τ ι → κ
  noChanges : κ
  /-- `started_at_ms` of the changed items -/
  startedAtMs : κ → List (Option Int)
  parseTimestamp : τ → Option Int

/-- `ProjectedRolloutLine` -/
structure ProjectedRolloutLine (κ : Type) where
  ordinal : Nat
  startByteOffset : Nat
  endByteOffset : Nat
  fallbackCreatedAtMs : Option Int
  changes : κ
  deriving DecidableEq, Repr

/-- `RolloutProjectionStep` -/
inductive RolloutProjectionStep (κ : Type) where
  | line (projection : ProjectedRolloutLine κ)
  | skippedOrdinalRange (startOrdinal endOrdinalExclusive : Nat)
  deriving DecidableEq, Repr

/-- The variables of the loop of `read_projection_steps`. -/
structure Cursor where
  nextOrdinal : Nat
  nextOffset : Nat
  pendingRejectedLineCount : Nat
  lineStartOffset : Nat
  deriving DecidableEq, Repr

namespace Cursor

/-- The cursor of a pass that starts at a stored position. -/
def start (ordinal offset : Nat) : Cursor := ⟨ordinal, offset, 0, offset⟩

/-- The position a pass stores: the lines after it are read again. -/
def checkpoint (cursor : Cursor) : Cursor := start cursor.nextOrdinal cursor.nextOffset

/-- A rejected line stays pending. -/
def reject (cursor : Cursor) (lineEndOffset : Nat) : Cursor :=
  { cursor with
    pendingRejectedLineCount := cursor.pendingRejectedLineCount + 1, lineStartOffset := lineEndOffset }

def blank (cursor : Cursor) (lineEndOffset : Nat) : Cursor :=
  { cursor with
    nextOffset := if cursor.pendingRejectedLineCount = 0 then lineEndOffset else cursor.nextOffset
    lineStartOffset := lineEndOffset }

end Cursor

/-- What every pass over the rollout of a thread knows: the thread's id, the ordinal of its first record and the
first ordinal that is not inherited from a parent. -/
structure Thread where
  id : Str
  initialOrdinal : Nat
  subagentHistoryStartOrdinal : Option Nat

variable {β ν τ ι κ δ : Type}

section Reading

variable (formats : Formats β ν τ ι κ) (thread : Thread)

def changesOf (line : RolloutLine τ ι) (ordinal : Nat) : κ :=
  if thread.subagentHistoryStartOrdinal.any (ordinal < ·) then formats.noChanges
  else formats.projectRolloutLine line

/-- The time stored with items that have none; `none` when it is needed and cannot be read. -/
def fallbackCreatedAtMs (line : RolloutLine τ ι) (changes : κ) : Option (Option Int) :=
  if (formats.startedAtMs changes).any Option.isNone then (formats.parseTimestamp line.timestamp).map some
  else some none

/-- A line with an ordinal that is not behind the cursor. -/
def projectLine (cursor : Cursor) (line : RolloutLine τ ι) (ordinal lineEndOffset : Nat) :
    Except Str (Cursor × List (RolloutProjectionStep κ)) :=
  let skippedOrdinalCount := ordinal - cursor.nextOrdinal
  if skippedOrdinalCount > cursor.pendingRejectedLineCount then
    .error ("thread history projection for ".toList ++ thread.id ++ " expected ordinal ".toList ++
      number cursor.nextOrdinal ++ ", got ".toList ++ number ordinal ++ "; ".toList ++
      number cursor.pendingRejectedLineCount ++ " rejected rollout lines cannot cover that gap".toList)
  else
    let changes := changesOf formats thread line ordinal
    match fallbackCreatedAtMs formats line changes with
    | none => .ok (cursor.reject lineEndOffset, [])
    | some fallback =>
      if ordinal + 1 < 2 ^ 64 then
        let skipped := if skippedOrdinalCount > 0 then
          [RolloutProjectionStep.skippedOrdinalRange cursor.nextOrdinal ordinal] else []
        .ok (.start (ordinal + 1) lineEndOffset,
          skipped ++ [.line ⟨ordinal, cursor.lineStartOffset, lineEndOffset, fallback, changes⟩])
      else .error "rollout ordinal exceeds SQLite integer range".toList

/-- One complete line, given without its newline. -/
def readLine (cursor : Cursor) (line : List β) : Except Str (Cursor × List (RolloutProjectionStep κ)) :=
  let lineBytes := line ++ [formats.newline]
  let lineEndOffset := cursor.lineStartOffset + lineBytes.length
  if 2 ^ 64 ≤ lineEndOffset then .error "durable rollout byte offset overflow".toList
  else if lineBytes.all formats.isAsciiWhitespace then .ok (cursor.blank lineEndOffset, [])
  else match formats.parseValue lineBytes with
    | none => .ok (cursor.reject lineEndOffset, [])
    | some value =>
      let line := formats.parseRolloutLine value
      match (line.bind RolloutLine.ordinal).or (formats.valueOrdinal value) with
      | none =>
        if line.isNone then .ok (cursor.reject lineEndOffset, [])
        else .error ("paginated rollout line for ".toList ++ thread.id ++ " is missing an ordinal".toList)
      | some ordinal =>
        if ordinal < cursor.nextOrdinal then
          .error ("thread history projection for ".toList ++ thread.id ++ " expected ordinal ".toList ++
            number cursor.nextOrdinal ++ ", got ".toList ++ number ordinal)
        else match line with
          | none => .ok (cursor.reject lineEndOffset, [])
          | some line => projectLine formats thread cursor line ordinal lineEndOffset

variable [DecidableEq β]

/-- `read_projection_steps`: the steps, and the cursor after the last complete line. Its `next_offset` is returned
with the steps; the transaction finds the ordinal again from the steps. -/
def readProjectionSteps (file : List β) (startOffset expectedOrdinal : Nat) :
    Except Str (Cursor × List (RolloutProjectionStep κ)) :=
  if file.length < startOffset then .error "durable rollout shrank before projection".toList
  else Fallible.fold (readLine formats thread) (.start expectedOrdinal startOffset)
    (LineFile.lines formats.newline (file.drop startOffset))

end Reading

/-- `sqlite_integer` -/
def sqliteInteger (value : Nat) (field : Str) : Except Str Nat :=
  if value < 2 ^ 63 then .ok value else .error (field ++ " exceeds SQLite integer range".toList)

/-- What the database holds for a thread: the position of its projection and its rows. -/
@[ext] structure Database (δ : Type) where
  projectionState : Option (Nat × Nat)
  rows : δ
  deriving DecidableEq, Repr

/-- The next byte offset and the next ordinal; a thread without a row starts at its first record. -/
def Database.position (database : Database δ) (initialOrdinal : Nat) : Nat × Nat :=
  database.projectionState.getD (0, initialOrdinal)

/-- One step of the loop of `apply_projection`. `apply_change_set` may fail. -/
def applyStep (threadId : Str) (applyChangeSet : δ → ProjectedRolloutLine κ → Except Str δ) (state : Nat × δ) :
    RolloutProjectionStep κ → Except Str (Nat × δ)
  | .line projection => do
    let ordinal ← sqliteInteger projection.ordinal "rollout ordinal".toList
    if ordinal ≠ state.1 then
      .error ("thread history projection for ".toList ++ threadId ++ " expected ordinal ".toList ++
        number state.1 ++ ", got ".toList ++ number ordinal)
    else
      let _ ← sqliteInteger projection.startByteOffset "rollout byte offset".toList
      let _ ← sqliteInteger projection.endByteOffset "rollout byte offset".toList
      let rows ← applyChangeSet state.2 projection
      if state.1 + 1 < 2 ^ 63 then .ok (state.1 + 1, rows)
      else .error "rollout ordinal exceeds SQLite integer range".toList
  | .skippedOrdinalRange startOrdinal endOrdinalExclusive => do
    let first ← sqliteInteger startOrdinal "rollout ordinal".toList
    if first ≠ state.1 then
      .error ("thread history projection for ".toList ++ threadId ++ " expected ordinal ".toList ++
        number state.1 ++ ", got ".toList ++ number first)
    else
      let last ← sqliteInteger endOrdinalExclusive "rollout ordinal".toList
      if last ≤ first then
        .error ("thread history projection for ".toList ++ threadId ++
          " has an empty skipped ordinal range".toList)
      else .ok (last, state.2)

/-- The loop of `apply_projection`. -/
def applySteps (threadId : Str) (applyChangeSet : δ → ProjectedRolloutLine κ → Except Str δ) (state : Nat × δ)
    (projections : List (RolloutProjectionStep κ)) : Except Str (Nat × δ) :=
  projections.foldlM (applyStep threadId applyChangeSet) state

/-- `apply_projection`: the database the transaction commits. A failure rolls the transaction back. -/
def applyProjection (threadId : Str) (applyChangeSet : δ → ProjectedRolloutLine κ → Except Str δ)
    (database : Database δ) (startOffset nextOffset initialOrdinal : Nat)
    (projections : List (RolloutProjectionStep κ)) : Except Str (Database δ) := do
  let initial ← sqliteInteger initialOrdinal "rollout ordinal".toList
  let position := database.position initial
  let start ← sqliteInteger startOffset "rollout byte offset".toList
  if position.1 ≠ start then
    .error ("thread history projection for ".toList ++ threadId ++ " is behind durable rollout".toList)
  else
    let result ← applySteps threadId applyChangeSet (position.2, database.rows) projections
    let next ← sqliteInteger nextOffset "rollout byte offset".toList
    .ok ⟨some (next, result.1), result.2⟩

section Passes

variable [DecidableEq β] (formats : Formats β ν τ ι κ) (thread : Thread)
  (applyChangeSet : δ → ProjectedRolloutLine κ → Except Str δ)

/-- `materialize_to_sqlite` on the content the rollout has at that moment: the steps it applies and the database it
leaves. -/
def materializeToSqlite (database : Database δ) (file : List β) :
    Except Str (List (RolloutProjectionStep κ) × Database δ) := do
  let position := database.position thread.initialOrdinal
  let read ← readProjectionSteps formats thread file position.1 position.2
  if read.2.isEmpty ∧ position.1 = read.1.nextOffset then .ok ([], database)
  else
    let database ← applyProjection thread.id applyChangeSet database position.1 read.1.nextOffset
      thread.initialOrdinal read.2
    .ok (read.2, database)

/-- A pass: the content of the rollout, and whether a file or database call fails in it. -/
structure Pass (β : Type) where
  file : List β
  fault : Option Str

/-- A pass that fails, by a fault or by itself, leaves the database as it was. -/
def runPass (database : Database δ) (pass : Pass β) : List (RolloutProjectionStep κ) × Database δ :=
  match pass.fault with
  | some _ => ([], database)
  | none =>
    match materializeToSqlite formats thread applyChangeSet database pass.file with
    | .error _ => ([], database)
    | .ok result => result

/-- The steps that all passes have applied, and the database after them. -/
def runPasses (database : Database δ) : List (Pass β) → List (RolloutProjectionStep κ) × Database δ
  | [] => ([], database)
  | pass :: passes =>
    let (steps, database) := runPass formats thread applyChangeSet database pass
    let (more, database) := runPasses database passes
    (steps ++ more, database)

end Passes

end HistoryProjection
