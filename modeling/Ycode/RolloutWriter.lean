import Ycode.LineFile
import Ycode.RustStr

/-!
# The rollout writer

`rollout_writer` owns the file of one rollout. Items wait in `pending_items`; every barrier opens the file if it is
not open, writes the session metadata once and then the waiting items, one line each. After a failure the handle is
dropped and the barrier is tried once more. What the operating system answers is read from a sequence of calls, so
that every pattern of failures is some sequence.
-/
namespace RolloutWriter

open RustStr (Str)

/-- `ThreadHistoryMode` -/
inductive ThreadHistoryMode where
  | legacy
  | paginated
  deriving DecidableEq, Repr

/-- `HistoryPosition`: where a forked thread stops reading the rollout of the thread it continues. -/
structure HistoryPosition (θ : Type) where
  threadId : θ
  endOrdinalExclusive : Nat
  endByteOffset : Nat
  deriving DecidableEq, Repr

/-- `RolloutOrdinalState` -/
inductive RolloutOrdinalState where
  | legacy
  | paginated (next : Option Nat)
  deriving DecidableEq, Repr

namespace RolloutOrdinalState

def forNewRollout {θ : Type} (historyMode : ThreadHistoryMode) (historyBase : Option (HistoryPosition θ)) :
    RolloutOrdinalState :=
  match historyMode with
  | .legacy => .legacy
  | .paginated => .paginated (some ((historyBase.map HistoryPosition.endOrdinalExclusive).getD 0))

/-- `u64::checked_add(1)` -/
def checkedSucc (ordinal : Nat) : Option Nat := if ordinal + 1 < 2 ^ 64 then some (ordinal + 1) else none

def current : RolloutOrdinalState → Except Str (Option Nat)
  | .legacy => .ok none
  | .paginated none => .error "paginated rollout record ordinal overflow".toList
  | .paginated (some ordinal) => .ok (some ordinal)

def advance : RolloutOrdinalState → RolloutOrdinalState
  | .legacy => .legacy
  | .paginated none => .paginated none
  | .paginated (some ordinal) => .paginated (checkedSucc ordinal)

end RolloutOrdinalState

/-- `RolloutLine`: one record of the file. -/
structure RolloutLine (τ ι : Type) where
  timestamp : τ
  ordinal : Option Nat
  item : ι
  deriving DecidableEq, Repr

/-- The JSON text of a record: one line, and no proper beginning of it reads as a record. Reading it back gives the
item as it is persisted, without the fields that are not written. -/
structure Json (β τ ι : Type) where
  newline : β
  encode : RolloutLine τ ι → List β
  parse : List β → Option (RolloutLine τ ι)
  persisted : ι → ι
  encode_one_line (line : RolloutLine τ ι) : newline ∉ encode line
  parse_nil : parse [] = none
  parse_encode (line : RolloutLine τ ι) : parse (encode line) = some { line with item := persisted line.item }
  parse_cut (line : RolloutLine τ ι) {bytes : List β} (h : bytes <+: encode line) (hne : bytes ≠ encode line) :
    parse bytes = none

/-- What opening the file answers. The repair of the last line may have been written before the call fails. -/
inductive OpenAnswer where
  | opened
  | failed (error : Str)
  | failedAfterRepair (error : Str)

/-- What writing one line answers. A failed write may have left the beginning of the line. -/
inductive WriteAnswer where
  | written
  | failed (kept : Nat) (error : Str)

/-- What one call to the operating system finds: the outcome for each kind of call, the clock and the state of the
git repository. -/
structure Call (τ γ : Type) where
  onOpen : OpenAnswer
  onWrite : WriteAnswer
  onFlush : Except Str Unit
  timestamp : τ
  gitInfo : Option γ

/-- `RolloutWriterState` together with the file it writes. `writer` says that the handle is open and
`deferredLogFileInfo` that the file has not been created yet; `past` keeps every content the file has had and
`calls` counts the calls made so far. -/
structure RolloutWriterState (β μ ι : Type) where
  writer : Bool
  deferredLogFileInfo : Bool
  pendingItems : List ι
  sessionMeta : Option μ
  ordinalState : RolloutOrdinalState
  file : List β
  past : List (List β)
  calls : Nat
  deriving DecidableEq

variable {β τ μ γ ι : Type} [DecidableEq β] (json : Json β τ ι) (metaItem : μ → Option γ → ι)
  (system : Nat → Call τ γ)

namespace RolloutWriterState

def append (state : RolloutWriterState β μ ι) (bytes : List β) : RolloutWriterState β μ ι :=
  { state with file := state.file ++ bytes, past := state.past ++ [state.file ++ bytes] }

def called (state : RolloutWriterState β μ ι) : RolloutWriterState β μ ι :=
  { state with calls := state.calls + 1 }

/-- `ensure_rollout_is_newline_terminated` -/
def ensureRolloutIsNewlineTerminated (state : RolloutWriterState β μ ι) : RolloutWriterState β μ ι :=
  match state.file.getLast? with
  | none => state
  | some byte => if byte = json.newline then state else state.append [json.newline]

@[simp] theorem ensureRolloutIsNewlineTerminated_pendingItems (st : RolloutWriterState β μ ι) :
    (st.ensureRolloutIsNewlineTerminated json).pendingItems = st.pendingItems := by
  unfold ensureRolloutIsNewlineTerminated
  split
  · rfl
  · split <;> rfl

/-- `open_log_file` -/
def openLogFile (state : RolloutWriterState β μ ι) : Except Str Unit × RolloutWriterState β μ ι :=
  match (system state.calls).onOpen with
  | .opened => (.ok (), state.called.ensureRolloutIsNewlineTerminated json)
  | .failed error => (.error error, state.called)
  | .failedAfterRepair error => (.error error, state.called.ensureRolloutIsNewlineTerminated json)

/-- `JsonlWriter::write_rollout_item`: a failed write keeps at most a proper beginning of the JSON text. -/
def writeRolloutItem (state : RolloutWriterState β μ ι) (item : ι) (ordinal : Option Nat) :
    Except Str Unit × RolloutWriterState β μ ι :=
  let line := json.encode ⟨(system state.calls).timestamp, ordinal, item⟩
  match (system state.calls).onWrite with
  | .written => (.ok (), state.called.append (line ++ [json.newline]))
  | .failed kept error => (.error error, state.called.append (line.take (min kept (line.length - 1))))

def isDeferred (state : RolloutWriterState β μ ι) : Bool := !state.writer && state.deferredLogFileInfo

def enterRecoveryMode (state : RolloutWriterState β μ ι) : RolloutWriterState β μ ι :=
  { state with writer := false }

def ensureWriterOpen (state : RolloutWriterState β μ ι) : Except Str Unit × RolloutWriterState β μ ι :=
  if state.writer then (.ok (), state)
  else match state.openLogFile json system with
    | (.error error, state) => (.error error, state)
    | (.ok _, state) => (.ok (), { state with writer := true, deferredLogFileInfo := false })

/-- `write_session_meta` -/
def writeSessionMeta (state : RolloutWriterState β μ ι) (sessionMeta : μ) :
    Except Str Unit × RolloutWriterState β μ ι :=
  let item := metaItem sessionMeta (system state.calls).gitInfo
  if state.writer then
    match state.ordinalState.current with
    | .error error => (.error error, state)
    | .ok ordinal =>
      match state.writeRolloutItem json system item ordinal with
      | (.error error, state) => (.error error, state)
      | (.ok _, state) => (.ok (), { state with ordinalState := state.ordinalState.advance })
  else (.ok (), state)

def writeSessionMetaIfNeeded (state : RolloutWriterState β μ ι) : Except Str Unit × RolloutWriterState β μ ι :=
  match state.sessionMeta with
  | none => (.ok (), state)
  | some sessionMeta =>
    match state.writeSessionMeta json metaItem system sessionMeta with
    | (.error error, state) => (.error error, state)
    | (.ok _, state) => (.ok (), { state with sessionMeta := none })

/-- The loop of `write_pending_items_once`: how many items were written, and the first error. -/
def writeItems (state : RolloutWriterState β μ ι) :
    List ι → Nat × Except Str Unit × RolloutWriterState β μ ι
  | [] => (0, .ok (), state)
  | item :: items =>
    match state.ordinalState.current with
    | .error error => (0, .error error, state)
    | .ok ordinal =>
      match state.writeRolloutItem json system item ordinal with
      | (.error error, state) => (0, .error error, state)
      | (.ok _, state) =>
        let (count, result) := writeItems { state with ordinalState := state.ordinalState.advance } items
        (count + 1, result)

def writePendingItemsOnce (state : RolloutWriterState β μ ι) : Except Str Unit × RolloutWriterState β μ ι :=
  if state.writer then
    let (count, result, state) := state.writeItems json system state.pendingItems
    (result, { state with pendingItems := state.pendingItems.drop count })
  else (.error "rollout writer is not open".toList, state)

/-- The flush that ends `write_pending_once`. -/
def flushWriter (state : RolloutWriterState β μ ι) : Except Str Unit × RolloutWriterState β μ ι :=
  if state.writer then ((system state.calls).onFlush, state.called) else (.ok (), state)

def writePendingOnce (state : RolloutWriterState β μ ι) : Except Str Unit × RolloutWriterState β μ ι :=
  match state.ensureWriterOpen json system with
  | (.error error, state) => (.error error, state)
  | (.ok _, state) =>
    match state.writeSessionMetaIfNeeded json metaItem system with
    | (.error error, state) => (.error error, state)
    | (.ok _, state) =>
      match state.writePendingItemsOnce json system with
      | (.error error, state) => (.error error, state)
      | (.ok _, state) => state.flushWriter system

def writePendingWithRecovery (state : RolloutWriterState β μ ι) : Except Str Unit × RolloutWriterState β μ ι :=
  match state.writePendingOnce json metaItem system with
  | (.ok _, state) => (.ok (), state)
  | (.error _, state) =>
    match state.enterRecoveryMode.writePendingOnce json metaItem system with
    | (.ok _, state) => (.ok (), state)
    | (.error error, state) => (.error error, state.enterRecoveryMode)

def addItems (state : RolloutWriterState β μ ι) (items : List ι) : RolloutWriterState β μ ι :=
  { state with pendingItems := state.pendingItems ++ items }

def persist (state : RolloutWriterState β μ ι) : Except Str Unit × RolloutWriterState β μ ι :=
  state.writePendingWithRecovery json metaItem system

def flush (state : RolloutWriterState β μ ι) : Except Str Unit × RolloutWriterState β μ ι :=
  if state.isDeferred && state.pendingItems.isEmpty then (.ok (), state)
  else state.writePendingWithRecovery json metaItem system

def shutdown (state : RolloutWriterState β μ ι) : Except Str Unit × RolloutWriterState β μ ι :=
  if state.isDeferred && state.pendingItems.isEmpty then (.ok (), state)
  else state.writePendingWithRecovery json metaItem system

def flushIfMaterialized (state : RolloutWriterState β μ ι) : RolloutWriterState β μ ι :=
  if state.isDeferred then state
  else match state.flush json metaItem system with
    | (.error _, state) => state.enterRecoveryMode
    | (.ok _, state) => state

end RolloutWriterState

/-- `RolloutCmd` -/
inductive RolloutCmd (ι : Type) where
  | addItems (items : List ι)
  | persist
  | flush
  | shutdown
  deriving DecidableEq, Repr

namespace RolloutCmd

/-- The items a command hands to the writer. -/
def items : RolloutCmd ι → List ι
  | .addItems items => items
  | _ => []

end RolloutCmd

open RolloutWriterState

/-- One command: what is sent back on its `ack` channel, and the writer after it. -/
def process (state : RolloutWriterState β μ ι) :
    RolloutCmd ι → Option (Except Str Unit) × RolloutWriterState β μ ι
  | .addItems items => (none, (state.addItems items).flushIfMaterialized json metaItem system)
  | .persist => let (result, state) := state.persist json metaItem system; (some result, state)
  | .flush => let (result, state) := state.flush json metaItem system; (some result, state)
  | .shutdown => let (result, state) := state.shutdown json metaItem system; (some result, state)

/-- A shutdown that succeeds ends the loop. -/
def stops : RolloutCmd ι → Option (Except Str Unit) → Bool
  | .shutdown, some (.ok _) => true
  | _, _ => false

/-- A command the loop has taken: its answer and the writer after it. -/
structure Processed (β μ ι : Type) where
  command : RolloutCmd ι
  ack : Option (Except Str Unit)
  state : RolloutWriterState β μ ι

/-- `rollout_writer`: the commands it takes, in order. -/
def rolloutWriter (state : RolloutWriterState β μ ι) : List (RolloutCmd ι) → List (Processed β μ ι)
  | [] => []
  | command :: commands =>
    let (ack, next) := process json metaItem system state command
    ⟨command, ack, next⟩ :: if stops command ack then [] else rolloutWriter next commands

/-- The writer `RolloutRecorder::new` starts for `RolloutRecorderParams::Create`. -/
def newRollout {θ : Type} (historyMode : ThreadHistoryMode) (historyBase : Option (HistoryPosition θ))
    (sessionMeta : μ) : RolloutWriterState β μ ι where
  writer := false
  deferredLogFileInfo := true
  pendingItems := []
  sessionMeta := some sessionMeta
  ordinalState := .forNewRollout historyMode historyBase
  file := []
  past := []
  calls := 0

end RolloutWriter
