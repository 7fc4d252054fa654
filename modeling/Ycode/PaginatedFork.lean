import Ycode.HistoryProjection
import Ycode.ThreadLineage

/-!
# Forking a thread with a paginated history

A fork continues a thread up to a boundary: its latest record, the end of a turn or the beginning of a turn. The
position of the boundary comes from the projection of the rollouts, as an ordinal and as a byte offset. The base of the
fork is that position, or the end of the segment before it when nothing of its own segment is inherited.
-/
namespace PaginatedFork

open RustStr (Str)
open RolloutWriter (RolloutLine HistoryPosition)
open HistoryProjection ThreadLineage

/-- `TurnStatus` -/
inductive TurnStatus where
  | completed
  | interrupted
  | failed
  | inProgress
  deriving DecidableEq, Repr

/-- The fields of `ThreadHistoryTurnChange` that positions depend on. -/
structure TurnChange (υ : Type) where
  turnId : υ
  status : TurnStatus
  deriving DecidableEq, Repr

/-- The formats of rollout lines. Neither session metadata nor the empty change set has items without a time. -/
structure HistoryFormats (β ν τ ι κ υ : Type) extends Formats β ν τ ι κ where
  isSessionMeta : ι → Bool
  changedTurns : κ → List (TurnChange υ)
  sessionMeta_timed (line : RolloutLine τ ι) : isSessionMeta line.item = true →
    (startedAtMs (projectRolloutLine line)).any Option.isNone = false
  noChanges_timed : (startedAtMs noChanges).any Option.isNone = false

variable {β ν τ ι κ υ θ : Type} [DecidableEq β] [DecidableEq θ] (formats : HistoryFormats β ν τ ι κ υ)

/-- A line that parses, and its bytes. -/
structure Record (τ ι : Type) where
  ordinal : Option Nat
  startOffset : Nat
  endOffset : Nat
  line : RolloutLine τ ι
  deriving DecidableEq, Repr

def recordOf (startOffset : Nat) (line : List β) : Option (Record τ ι) :=
  let lineBytes := line ++ [formats.newline]
  if lineBytes.all formats.isAsciiWhitespace then none
  else (formats.parseValue lineBytes).bind fun value => (formats.parseRolloutLine value).map fun record =>
    ⟨record.ordinal.or (formats.valueOrdinal value), startOffset, startOffset + lineBytes.length, record⟩

def recordsFrom : Nat → List (List β) → List (Record τ ι)
  | _, [] => []
  | startOffset, line :: lines =>
    (recordOf formats startOffset line).toList ++ recordsFrom (startOffset + (line.length + 1)) lines

/-- The records of the complete lines. -/
def recordsOf (file : List β) : List (Record τ ι) := recordsFrom formats 0 (LineFile.lines formats.newline file)

/-- The records the scanner sees: it takes a last line without its newline as well. -/
def scannedRecords (file : List β) : List (Record τ ι) :=
  recordsFrom formats 0 (LineFile.lines formats.newline file ++ [LineFile.tail formats.newline file].filter (· ≠ []))

/-- What the reverse scan of a segment reads: it stops at the session metadata. -/
def afterMetadata (records : List (Record τ ι)) : List (Record τ ι) :=
  (records.reverse.takeWhile fun record => !formats.isSessionMeta record.line.item).reverse

/-- The records of a segment: those before its end byte offset, without the session metadata. -/
def segmentRecords (store : Store β θ) (segment : RolloutLineageSegment θ) : List (Record τ ι) :=
  match rolloutOf store segment.threadId with
  | none => []
  | some rollout =>
    afterMetadata formats (scannedRecords formats (match segment.cutoff with
      | none => rollout.file
      | some cutoff => rollout.file.take cutoff.endByteOffset))

/-- The records a lineage makes visible, the oldest first. -/
def visibleRecords (store : Store β θ) (segments : List (RolloutLineageSegment θ)) : List (Record τ ι) :=
  segments.flatMap (segmentRecords formats store)

variable [DecidableEq υ] (threadText : θ → Str) (turnText : υ → Str)

/-- The columns of `thread_turns` that positions depend on. -/
structure TurnRow (υ : Type) where
  turnId : υ
  rolloutOrdinal : Nat
  rolloutByteOffset : Option Nat
  rolloutEndOrdinal : Option Nat
  rolloutEndByteOffset : Option Nat
  status : TurnStatus
  deriving DecidableEq, Repr

/-- The insertion of `apply_change_set`; a turn that is there is updated while it is in progress. -/
def upsertTurn (projection : ProjectedRolloutLine κ) (rows : List (TurnRow υ)) (turn : TurnChange υ) :
    List (TurnRow υ) :=
  let terminalOrdinal := if turn.status = .inProgress then none else some projection.ordinal
  let terminalByteOffset := if turn.status = .inProgress then none else some projection.endByteOffset
  if rows.any (·.turnId = turn.turnId) then
    rows.map fun row =>
      if row.turnId = turn.turnId ∧ row.rolloutEndOrdinal = none ∧ row.status = .inProgress then
        { row with
          rolloutEndOrdinal := terminalOrdinal, rolloutEndByteOffset := terminalByteOffset, status := turn.status }
      else row
  else
    rows ++ [⟨turn.turnId, projection.ordinal, some projection.startByteOffset, terminalOrdinal, terminalByteOffset,
      turn.status⟩]

/-- The turns of `apply_change_set`. -/
def applyTurns (rows : List (TurnRow υ)) (projection : ProjectedRolloutLine κ) : Except Str (List (TurnRow υ)) :=
  .ok ((formats.changedTurns projection.changes).foldl (upsertTurn projection) rows)

/-- The ordinal of the session metadata of a rollout. -/
def initialOrdinal (rollout : Rollout β θ) : Nat :=
  (rollout.sessionMeta.historyBase.map HistoryPosition.endOrdinalExclusive).getD 0

/-- What the passes over a rollout know about it. -/
def threadOf (rollout : Rollout β θ) : Thread where
  id := threadText rollout.sessionMeta.id
  initialOrdinal := initialOrdinal rollout
  subagentHistoryStartOrdinal := rollout.sessionMeta.subagentHistoryStartOrdinal

/-- The projection of a rollout, up to date. -/
def projectionOf (rollout : Rollout β θ) : Except Str (Database (List (TurnRow υ))) :=
  (materializeToSqlite formats.toFormats (threadOf threadText rollout) (applyTurns formats) ⟨none, []⟩
    rollout.file).map Prod.snd

/-- The projection of the rollout of a thread. -/
def projectionOfThread (store : Store β θ) (thread : θ) : Except Str (Database (List (TurnRow υ))) :=
  match rolloutOf store thread with
  | none => .error (malformedLineage threadText thread "missing source rollout".toList)
  | some rollout => projectionOf formats threadText rollout

/-- `query_turn_row` -/
def queryTurnRow (store : Store β θ) (turnId : υ) (segment : RolloutLineageSegment θ) :
    Except Str (Option (TurnRow υ)) := do
  let _ ← segment.endOrdinal.elim (.ok 0) fun stop => sqliteInteger stop "rollout ordinal".toList
  let _ ← sqliteInteger segment.startOrdinal "rollout ordinal".toList
  let database ← projectionOfThread formats threadText store segment.threadId
  .ok (database.rows.find? fun row => row.turnId = turnId && segment.contains row.rolloutOrdinal)

/-- `find_turn` -/
def findTurn (store : Store β θ) (turnId : υ) : List (RolloutLineageSegment θ) → Except Str (θ × TurnRow υ)
  | [] => .error ("turn not found: ".toList ++ turnText turnId)
  | segment :: segments => do
    match ← queryTurnRow formats threadText store turnId segment with
    | some row => .ok (segment.threadId, row)
    | none => findTurn store turnId segments

/-- `find_source_turn` -/
def findSourceTurn (store : Store β θ) (lineage : List (RolloutLineageSegment θ)) (turnId : υ) :
    Except Str (θ × TurnRow υ) :=
  findTurn formats threadText turnText store turnId lineage

/-- `find_visible_turn` -/
def findVisibleTurn (store : Store β θ) (lineage : List (RolloutLineageSegment θ)) (turnId : υ) :
    Except Str (θ × TurnRow υ) :=
  findTurn formats threadText turnText store turnId lineage.reverse

def missingTurnPosition (turnId : υ) : Str :=
  "turn ".toList ++ turnText turnId ++ " does not have persisted rollout positions".toList

def invalidTurnPosition (turnId : υ) : Str := "invalid rollout position for turn ".toList ++ turnText turnId

/-- `ForkBoundary` -/
inductive ForkBoundary (υ : Type) where
  | latest
  | throughTurn (turnId : υ)
  | beforeTurn (turnId : υ)
  deriving DecidableEq, Repr

/-- The end of a turn. -/
def turnEnd (turnId : υ) (found : θ × TurnRow υ) : Except Str (HistoryPosition θ) :=
  if found.2.status = .inProgress then
    .error ("lastTurnId '".toList ++ turnText turnId ++ "' identifies an in-progress turn".toList)
  else match found.2.rolloutEndOrdinal, found.2.rolloutEndByteOffset with
    | some endOrdinal, some endByteOffset =>
      if endOrdinal + 1 < 2 ^ 64 then .ok ⟨found.1, endOrdinal + 1, endByteOffset⟩
      else .error (invalidTurnPosition turnText turnId)
    | _, _ => .error (missingTurnPosition turnText turnId)

/-- The beginning of a turn. -/
def turnStart (turnId : υ) (found : θ × TurnRow υ) : Except Str (HistoryPosition θ) :=
  if found.2.rolloutEndOrdinal = some found.2.rolloutOrdinal then
    .error ("turn ".toList ++ turnText turnId ++ " does not have a persisted start boundary".toList)
  else match found.2.rolloutByteOffset with
    | some byteOffset => .ok ⟨found.1, found.2.rolloutOrdinal, byteOffset⟩
    | none => .error (missingTurnPosition turnText turnId)

/-- The position of a boundary. -/
def boundaryPosition (store : Store β θ) (lineage : List (RolloutLineageSegment θ)) (latest : HistoryPosition θ) :
    ForkBoundary υ → Except Str (HistoryPosition θ)
  | .latest => .ok latest
  | .throughTurn turnId => findVisibleTurn formats threadText turnText store lineage turnId >>= turnEnd turnText turnId
  | .beforeTurn turnId => findSourceTurn formats threadText turnText store lineage turnId >>= turnStart turnText turnId

/-- The position lies beyond the end of its segment. -/
def exceeds (segment : RolloutLineageSegment θ) (position : HistoryPosition θ) : Bool :=
  segment.cutoff.any fun cutoff => cutoff.endOrdinalExclusive < position.endOrdinalExclusive ||
    cutoff.endByteOffset < position.endByteOffset

/-- The base of a fork at a position of the segment with the index. -/
def historyBaseAt (lineage : List (RolloutLineageSegment θ)) (index : Nat) (segment : RolloutLineageSegment θ)
    (position : HistoryPosition θ) : Option (HistoryPosition θ) :=
  if position.endOrdinalExclusive = segment.startOrdinal then
    if index = 0 then none else lineage[index - 1]?.bind RolloutLineageSegment.cutoff
  else some position

/-- The checks of `prepare` on a position, and the base that follows from it. -/
def forkAt (store : Store β θ) (lineage : List (RolloutLineageSegment θ)) (position : HistoryPosition θ) :
    Except Str (Option (HistoryPosition θ)) :=
  match lineage.findIdx? (·.threadId = position.threadId) with
  | none => .error "fork position is outside the source lineage".toList
  | some index =>
    match lineage[index]? with
    | none => .error "fork position is outside the source lineage".toList
    | some segment =>
      if exceeds segment position then .error "fork boundary exceeds inherited source history".toList
      else match historyBaseAt lineage index segment position with
        | none => .ok none
        | some base => do
          let _ ← truncateAt threadText store lineage base
          .ok (some base)

/-- The latest position of a thread whose projection is up to date. -/
def latestPosition (store : Store β θ) (thread : θ) : Except Str (HistoryPosition θ) := do
  let database ← projectionOfThread formats threadText store thread
  match database.projectionState with
  | none => .error ("missing projection state for paginated thread ".toList ++ threadText thread)
  | some (nextByteOffset, nextOrdinal) => .ok ⟨thread, nextOrdinal, nextByteOffset⟩

/-- `materialize_to_sqlite` on the ancestors, which boundaries at turns need. -/
def materializeAncestors (store : Store β θ) (lineage : List (RolloutLineageSegment θ)) :
    ForkBoundary υ → Except Str Unit
  | .latest => .ok ()
  | _ => lineage.dropLast.forM fun segment =>
      (projectionOfThread formats threadText store segment.threadId).map fun _ => ()

/-- `prepare`: the base of a fork of the thread at the boundary. -/
def prepare (store : Store β θ) (thread : θ) (boundary : ForkBoundary υ) : Except Str (Option (HistoryPosition θ)) := do
  let lineage ← resolveRolloutLineage threadText store thread
  materializeAncestors formats threadText store lineage boundary
  let latest ← latestPosition formats threadText store thread
  let position ← boundaryPosition formats threadText turnText store lineage latest boundary
  forkAt threadText store lineage position

end PaginatedFork
