import Ycode.KeyedTable
import Ycode.PaginatedFork
import Ycode.ThreadItems

/-!
# The turns of a thread

`ThreadHistoryBuilder` reads a rollout item by item and keeps the turns a client sees: the finished
ones and the one still open. A turn is opened by its start event, by a review item that names it, or
implicitly by the first event that needs one. While changes are collected, every handler also
records the items and turns it changed; a batch of rollout items yields one change set.
-/
namespace ThreadHistory

open RustStr RolloutReplay ThreadItems KeyedTable
open PaginatedFork (TurnStatus)
open ThreadItems (EventMsg RolloutItem TurnItem)

structure TurnError where
  message : Str
  codexErrorInfo : Option CodexErrorInfo
  additionalDetails : Option Str
  deriving DecidableEq

structure Turn (V : Type) where
  id : Str
  items : List (ThreadItem V)
  error : Option TurnError
  status : TurnStatus
  startedAt : Option Int
  completedAt : Option Int
  durationMs : Option Int

/-- The turn that is still open. Finishing it keeps the fields of `Turn`. -/
structure PendingTurn (V : Type) extends Turn V where
  openedExplicitly : Bool
  sawCompaction : Bool
  rolloutStartIndex : Nat

structure ThreadHistoryItemChange (V : Type) where
  turnId : Str
  item : ThreadItem V
  startedAtMs : Option Int
  completedAtMs : Option Int

structure ThreadHistoryTurnChange where
  turnId : Str
  status : TurnStatus
  error : Option TurnError
  startedAt : Option Int
  completedAt : Option Int
  durationMs : Option Int
  deriving DecidableEq

structure ThreadHistoryChangeSet (V : Type) where
  changedItems : List (ThreadHistoryItemChange V) := []
  changedTurns : List ThreadHistoryTurnChange := []
  removedTurnIds : List Str := []

/-- `ThreadHistoryTurnChange::from_turn`, and `from_pending_turn` on the turn still open. -/
def Turn.change {V : Type} (turn : Turn V) : ThreadHistoryTurnChange where
  turnId := turn.id
  status := turn.status
  error := turn.error
  startedAt := turn.startedAt
  completedAt := turn.completedAt
  durationMs := turn.durationMs

structure ThreadHistoryBuilder (V : Type) where
  turns : List (Turn V) := []
  currentTurn : Option (PendingTurn V) := none
  nextItemIndex : Nat := 1
  currentRolloutIndex : Nat := 0
  nextRolloutIndex : Nat := 0
  activeChangeSet : Option (ThreadHistoryChangeSet V) := none

variable {J V : Type}

namespace ThreadHistoryBuilder

def recordChangedItem (turnId : Str) (item : ThreadItem V) (b : ThreadHistoryBuilder V) : ThreadHistoryBuilder V :=
  { b with activeChangeSet := b.activeChangeSet.map fun changes =>
      { changes with changedItems := changes.changedItems ++ [⟨turnId, item, none, none⟩] } }

def recordChangedTurn (turn : ThreadHistoryTurnChange) (b : ThreadHistoryBuilder V) : ThreadHistoryBuilder V :=
  { b with activeChangeSet := b.activeChangeSet.map fun changes =>
      { changes with changedTurns := changes.changedTurns ++ [turn] } }

def recordRemovedTurnIds (removedTurnIds : List Str) (b : ThreadHistoryBuilder V) : ThreadHistoryBuilder V :=
  { b with activeChangeSet := b.activeChangeSet.map fun changes =>
      { changes with removedTurnIds := changes.removedTurnIds ++ removedTurnIds } }

end ThreadHistoryBuilder

/-- `turns.iter_mut().find(..)`: change the first element with a property. -/
def modifyFirst {α : Type} (p : α → Bool) (f : α → α) : List α → List α
  | [] => []
  | x :: xs => if p x then f x :: xs else x :: modifyFirst p f xs

def upsertTurnItem (items : List (ThreadItem V)) (item : ThreadItem V) : List (ThreadItem V) :=
  match items.findIdx? (·.id = item.id) with
  | some existingItemIndex => items.set existingItemIndex item
  | none => items ++ [item]

def itemId (index : Nat) : Str := "item-".toList ++ (toString index).toList

def rolloutTurnId (index : Nat) : Str := "rollout-".toList ++ (toString index).toList

/-- `apply_abort`, and the same three assignments on a finished turn. -/
def applyAbort (completedAt durationMs : Option Int) (turn : Turn V) : Turn V :=
  { turn with status := .interrupted, completedAt, durationMs }

/-- `apply_completion`, and the same assignments on a finished turn. -/
def applyCompletion (terminalError : Option TurnError) (completedAt durationMs : Option Int) (turn : Turn V) :
    Turn V :=
  match terminalError with
  | some error => { turn with status := .failed, error := some error, completedAt, durationMs }
  | none =>
    if turn.status = .completed ∨ turn.status = .inProgress then
      { turn with status := .completed, completedAt, durationMs }
    else { turn with completedAt, durationMs }

def turnErrorOf (event : ErrorEvent) : TurnError := ⟨event.message, event.codexErrorInfo, none⟩

namespace ThreadHistoryBuilder

def finishCurrentTurn (b : ThreadHistoryBuilder V) : ThreadHistoryBuilder V :=
  match b.currentTurn with
  | some turn =>
    if turn.items.isEmpty && !turn.openedExplicitly && !turn.sawCompaction then { b with currentTurn := none }
    else { b with turns := b.turns ++ [turn.toTurn], currentTurn := none }
  | none => b

def newTurn (C : Conversions V) (id : Option Str) (b : ThreadHistoryBuilder V) : PendingTurn V where
  id := id.getD (if b.nextRolloutIndex = 0 then C.nowV7 else rolloutTurnId b.currentRolloutIndex)
  items := []
  error := none
  status := .completed
  startedAt := none
  completedAt := none
  durationMs := none
  openedExplicitly := false
  sawCompaction := false
  rolloutStartIndex := b.currentRolloutIndex

/-- Make a new turn the current one. -/
def openTurn (turn : PendingTurn V) (b : ThreadHistoryBuilder V) : ThreadHistoryBuilder V :=
  { b.recordChangedTurn turn.change with currentTurn := some turn }

def ensureTurn (C : Conversions V) (b : ThreadHistoryBuilder V) : PendingTurn V × ThreadHistoryBuilder V :=
  match b.currentTurn with
  | some turn => (turn, b)
  | none => (b.newTurn C none, b.openTurn (b.newTurn C none))

/-- Replace the items of the current turn and record one of them as changed. -/
def setItems (turn : PendingTurn V) (items : List (ThreadItem V)) (item : ThreadItem V)
    (b : ThreadHistoryBuilder V) : ThreadHistoryBuilder V :=
  { b with currentTurn := some { turn with items } }.recordChangedItem turn.id item

def pushItemInCurrentTurn (C : Conversions V) (item : ThreadItem V) (b : ThreadHistoryBuilder V) :
    ThreadHistoryBuilder V :=
  let opened := b.ensureTurn C
  opened.2.setItems opened.1 (opened.1.items ++ [item]) item

def upsertItemInCurrentTurn (C : Conversions V) (item : ThreadItem V) (b : ThreadHistoryBuilder V) :
    ThreadHistoryBuilder V :=
  let opened := b.ensureTurn C
  opened.2.setItems opened.1 (upsertTurnItem opened.1.items item) item

/-- An item for an unknown turn is dropped. -/
def upsertItemInTurnId (turnId : Str) (item : ThreadItem V) (b : ThreadHistoryBuilder V) : ThreadHistoryBuilder V :=
  match b.currentTurn.filter (·.id = turnId) with
  | some turn => b.setItems turn (upsertTurnItem turn.items item) item
  | none =>
    if b.turns.any (·.id = turnId) then
      let upsert := fun turn : Turn V => { turn with items := upsertTurnItem turn.items item }
      { b with turns := modifyFirst (·.id = turnId) upsert b.turns }.recordChangedItem turnId item
    else b

def nextItemId (b : ThreadHistoryBuilder V) : Str × ThreadHistoryBuilder V :=
  (itemId b.nextItemIndex, { b with nextItemIndex := b.nextItemIndex + 1 })

def updateCurrent (f : Turn V → Turn V) (turn : PendingTurn V) (b : ThreadHistoryBuilder V) :
    ThreadHistoryBuilder V :=
  { b with currentTurn := some { turn with toTurn := f turn.toTurn } }.recordChangedTurn (f turn.toTurn).change

def updateFinished (f : Turn V → Turn V) (turn : Turn V) (b : ThreadHistoryBuilder V) : ThreadHistoryBuilder V :=
  { b with turns := modifyFirst (·.id = turn.id) f b.turns }.recordChangedTurn (f turn).change

/-- The turn that an abort or a completion applies to: the one it names, open or finished, or else the open one. -/
def targetOf (turnId : Option Str) (b : ThreadHistoryBuilder V) : Option (PendingTurn V ⊕ Turn V) :=
  match turnId.bind fun id => b.currentTurn.filter (·.id = id) with
  | some turn => some (.inl turn)
  | none =>
    match turnId.bind fun id => b.turns.find? (·.id = id) with
    | some turn => some (.inr turn)
    | none => b.currentTurn.map .inl

variable (C : Conversions V)

/-- A user message does not join an implicit turn, except one that has only been compacted so far. -/
def closeImplicitTurn (b : ThreadHistoryBuilder V) : ThreadHistoryBuilder V :=
  if b.currentTurn.any fun turn => !turn.openedExplicitly && !(turn.sawCompaction && turn.items.isEmpty) then
    b.finishCurrentTurn
  else b

def handleUserMessage (payload : UserMessageEvent V) (b : ThreadHistoryBuilder V) : ThreadHistoryBuilder V :=
  let next := b.closeImplicitTurn.nextItemId
  next.2.pushItemInCurrentTurn C (.userMessage next.1 payload.clientId (buildUserInputs C payload))

def handleAgentMessage (text : Str) (phase memoryCitation : Option V) (b : ThreadHistoryBuilder V) :
    ThreadHistoryBuilder V :=
  if text = [] then b
  else
    let next := b.nextItemId
    next.2.pushItemInCurrentTurn C (.agentMessage next.1 text phase memoryCitation)

/-- Reasoning goes to the reasoning item that the turn ends with, or to a new one. -/
def growReasoning (grow : ThreadItem V → Option (ThreadItem V)) (fresh : Str → ThreadItem V)
    (b : ThreadHistoryBuilder V) : ThreadHistoryBuilder V :=
  let opened := b.ensureTurn C
  match opened.1.items.getLast?.bind grow with
  | some item => opened.2.setItems opened.1 (opened.1.items.dropLast ++ [item]) item
  | none =>
    let next := opened.2.nextItemId
    next.2.pushItemInCurrentTurn C (fresh next.1)

def pushSummary (text : Str) : ThreadItem V → Option (ThreadItem V)
  | .reasoning id summary content => some (.reasoning id (summary ++ [text]) content)
  | _ => none

def pushContent (text : Str) : ThreadItem V → Option (ThreadItem V)
  | .reasoning id summary content => some (.reasoning id summary (content ++ [text]))
  | _ => none

def handleAgentReasoning (text : Str) (b : ThreadHistoryBuilder V) : ThreadHistoryBuilder V :=
  if text = [] then b else b.growReasoning C (pushSummary text) (fun id => .reasoning id [text] [])

def handleAgentReasoningRawContent (text : Str) (b : ThreadHistoryBuilder V) : ThreadHistoryBuilder V :=
  if text = [] then b else b.growReasoning C (pushContent text) (fun id => .reasoning id [] [text])

/-- A review item that names no known turn opens it. -/
def upsertReviewModeItem (turnId : Option Str) (item : ThreadItem V) (b : ThreadHistoryBuilder V) :
    ThreadHistoryBuilder V :=
  match turnId with
  | none => b.upsertItemInCurrentTurn C item
  | some turnId =>
    let currentTurnMatches := b.currentTurn.any (·.id = turnId)
    let b :=
      if !currentTurnMatches && !b.turns.any (·.id = turnId) then
        let b := b.finishCurrentTurn
        b.openTurn (b.newTurn C (some turnId))
      else b
    b.upsertItemInTurnId turnId item

def isReviewModeItem : TurnItem V → Bool
  | .enteredReviewMode .. => true
  | .exitedReviewMode .. => true
  | _ => false

/-- Of the kinds that `threadItemFrom` converts, only an empty plan is left out. -/
def isEmptyPlan : TurnItem V → Bool
  | .plan _ text => text.isEmpty
  | _ => false

def handleMaterializedItemLifecycle (turnId : Str) (item : TurnItem V) (b : ThreadHistoryBuilder V) :
    ThreadHistoryBuilder V :=
  match threadItemFrom C item with
  | none => b
  | some threadItem =>
    if isEmptyPlan item then b
    else if isReviewModeItem item then b.upsertReviewModeItem C (some turnId) threadItem
    else b.upsertItemInTurnId turnId threadItem

def handleItemStarted (turnId : Str) (item : TurnItem V) (b : ThreadHistoryBuilder V) : ThreadHistoryBuilder V :=
  b.handleMaterializedItemLifecycle C turnId item

def handleItemCompleted (turnId : Str) (item : TurnItem V) (b : ThreadHistoryBuilder V) : ThreadHistoryBuilder V :=
  b.handleMaterializedItemLifecycle C turnId item

def handleWebSearchBegin (callId : Str) (b : ThreadHistoryBuilder V) : ThreadHistoryBuilder V :=
  b.upsertItemInCurrentTurn C (.webSearch ⟨callId, [], none, none⟩)

def handleWebSearchEnd (callId query : Str) (action : V) (results : Option (List V))
    (b : ThreadHistoryBuilder V) : ThreadHistoryBuilder V :=
  b.upsertItemInCurrentTurn C (.webSearch ⟨callId, query, some (C.webSearchActionFromCore action), results⟩)

def handleExecCommandBegin (turnId : Str) (run : CommandRun V) (b : ThreadHistoryBuilder V) :
    ThreadHistoryBuilder V :=
  b.upsertItemInTurnId turnId (buildCommandExecutionBeginItem C run)

def handleExecCommandEnd (turnId : Str) (run : CommandRun V) (aggregatedOutput : Str) (exitCode : Int)
    (durationMillis : Nat) (status : ExecCommandStatus) (b : ThreadHistoryBuilder V) : ThreadHistoryBuilder V :=
  b.upsertItemInTurnId turnId (buildCommandExecutionEndItem C run aggregatedOutput exitCode durationMillis status)

/-- Patch and tool events of old rollouts have an empty turn id. -/
def upsertItemInNamedTurn (turnId : Str) (item : ThreadItem V) (b : ThreadHistoryBuilder V) :
    ThreadHistoryBuilder V :=
  if turnId = [] then b.upsertItemInCurrentTurn C item else b.upsertItemInTurnId turnId item

def handlePatchApplyBegin (callId turnId : Str) (changes : List (Str × FileChange)) (b : ThreadHistoryBuilder V) :
    ThreadHistoryBuilder V :=
  b.upsertItemInNamedTurn C turnId (buildFileChangeBeginItem callId changes)

def handlePatchApplyEnd (callId turnId : Str) (changes : List (Str × FileChange)) (status : CorePatchApplyStatus)
    (b : ThreadHistoryBuilder V) : ThreadHistoryBuilder V :=
  b.upsertItemInNamedTurn C turnId (buildFileChangeEndItem callId changes status)

def handleDynamicToolCallRequest (turnId : Str) (call : ToolCall V) (b : ThreadHistoryBuilder V) :
    ThreadHistoryBuilder V :=
  b.upsertItemInNamedTurn C turnId
    (.dynamicToolCall call.callId call.toolNamespace call.tool call.arguments .inProgress none none none)

def handleDynamicToolCallResponse (turnId : Str) (call : ToolCall V)
    (contentItems : List DynamicToolCallOutputContentItem) (success : Bool) (durationMillis : Nat)
    (b : ThreadHistoryBuilder V) : ThreadHistoryBuilder V :=
  b.upsertItemInNamedTurn C turnId
    (.dynamicToolCall call.callId call.toolNamespace call.tool call.arguments
      (if success then .completed else .failed) (some contentItems) (some success) (millisToI64 durationMillis))

def handleViewImageToolCall (callId : Str) (path : V) (b : ThreadHistoryBuilder V) : ThreadHistoryBuilder V :=
  b.upsertItemInCurrentTurn C (.imageView callId (C.legacyAppPathString path))

def handleImageGenerationBegin (callId : Str) (b : ThreadHistoryBuilder V) : ThreadHistoryBuilder V :=
  b.upsertItemInCurrentTurn C (.imageGeneration ⟨callId, [], none, [], none, none⟩)

def handleImageGenerationEnd (callId status : Str) (revisedPrompt : Option Str) (result : Str)
    (transparentBackground : Option Bool) (savedPath : Option Str) (b : ThreadHistoryBuilder V) :
    ThreadHistoryBuilder V :=
  b.upsertItemInCurrentTurn C
    (.imageGeneration ⟨callId, status, revisedPrompt, result, transparentBackground, savedPath⟩)

def handleCollabAgentSpawnBegin (callId senderThreadId prompt model : Str) (reasoningEffort : V)
    (b : ThreadHistoryBuilder V) : ThreadHistoryBuilder V :=
  b.upsertItemInCurrentTurn C (.collabAgentToolCall callId .spawnAgent .inProgress senderThreadId []
    (some prompt) (some model) (some reasoningEffort) [])

def handleCollabAgentSpawnEnd (callId senderThreadId : Str) (newThreadId : Option Str) (prompt model : Str)
    (reasoningEffort : V) (status : AgentStatus) (b : ThreadHistoryBuilder V) : ThreadHistoryBuilder V :=
  b.upsertItemInCurrentTurn C (.collabAgentToolCall callId .spawnAgent
    (if status.isFailure || newThreadId.isNone then .failed else .completed) senderThreadId newThreadId.toList
    (some prompt) (some model) (some reasoningEffort)
    (newThreadId.toList.map fun receiver => (receiver, collabAgentState status)))

/-- The end of a call to one agent reports the agent's state. -/
def endCollabCall (tool : CollabAgentTool) (callId senderThreadId receiverThreadId : Str) (prompt : Option Str)
    (status : AgentStatus) (b : ThreadHistoryBuilder V) : ThreadHistoryBuilder V :=
  b.upsertItemInCurrentTurn C (.collabAgentToolCall callId tool status.toCallStatus senderThreadId
    [receiverThreadId] prompt none none [(receiverThreadId, collabAgentState status)])

def beginCollabCall (tool : CollabAgentTool) (callId senderThreadId : Str) (receiverThreadIds : List Str)
    (prompt : Option Str) (b : ThreadHistoryBuilder V) : ThreadHistoryBuilder V :=
  b.upsertItemInCurrentTurn C (.collabAgentToolCall callId tool .inProgress senderThreadId receiverThreadIds
    prompt none none [])

def handleCollabAgentInteractionBegin (callId senderThreadId receiverThreadId prompt : Str)
    (b : ThreadHistoryBuilder V) : ThreadHistoryBuilder V :=
  b.beginCollabCall C .sendInput callId senderThreadId [receiverThreadId] (some prompt)

def handleCollabAgentInteractionEnd (callId senderThreadId receiverThreadId prompt : Str) (status : AgentStatus)
    (b : ThreadHistoryBuilder V) : ThreadHistoryBuilder V :=
  b.endCollabCall C .sendInput callId senderThreadId receiverThreadId (some prompt) status

def handleSubAgentActivity (eventId : Str) (kind : V) (agentThreadId agentPath : Str)
    (b : ThreadHistoryBuilder V) : ThreadHistoryBuilder V :=
  b.upsertItemInCurrentTurn C (.subAgentActivity eventId (C.subAgentActivityKind kind) agentThreadId agentPath)

def handleCollabWaitingBegin (callId senderThreadId : Str) (receiverThreadIds : List Str)
    (b : ThreadHistoryBuilder V) : ThreadHistoryBuilder V :=
  b.beginCollabCall C .wait callId senderThreadId receiverThreadIds none

def handleCollabWaitingEnd (callId senderThreadId : Str) (statuses : List (Str × AgentStatus))
    (b : ThreadHistoryBuilder V) : ThreadHistoryBuilder V :=
  b.upsertItemInCurrentTurn C (.collabAgentToolCall callId .wait
    (if statuses.any (·.2.isFailure) then .failed else .completed) senderThreadId
    ((statuses.map Prod.fst).mergeSort fun s t => decide (s ≤ t)) none none none
    (statuses.map fun (thread, status) => (thread, collabAgentState status)))

def handleCollabCloseBegin (callId senderThreadId receiverThreadId : Str) (b : ThreadHistoryBuilder V) :
    ThreadHistoryBuilder V :=
  b.beginCollabCall C .closeAgent callId senderThreadId [receiverThreadId] none

def handleCollabCloseEnd (callId senderThreadId receiverThreadId : Str) (status : AgentStatus)
    (b : ThreadHistoryBuilder V) : ThreadHistoryBuilder V :=
  b.endCollabCall C .closeAgent callId senderThreadId receiverThreadId none status

def handleCollabResumeBegin (callId senderThreadId receiverThreadId : Str) (b : ThreadHistoryBuilder V) :
    ThreadHistoryBuilder V :=
  b.beginCollabCall C .resumeAgent callId senderThreadId [receiverThreadId] none

def handleCollabResumeEnd (callId senderThreadId receiverThreadId : Str) (status : AgentStatus)
    (b : ThreadHistoryBuilder V) : ThreadHistoryBuilder V :=
  b.endCollabCall C .resumeAgent callId senderThreadId receiverThreadId none status

def handleContextCompacted (b : ThreadHistoryBuilder V) : ThreadHistoryBuilder V :=
  let next := b.nextItemId
  next.2.pushItemInCurrentTurn C (.contextCompaction next.1)

/-- A review event without an item id takes the next generated one. -/
def reviewItemId (itemId : Option Str) (b : ThreadHistoryBuilder V) : Str × ThreadHistoryBuilder V :=
  match itemId with
  | some id => (id, b)
  | none => b.nextItemId

def handleEnteredReviewMode (userFacingHint turnId itemId : Option Str) (b : ThreadHistoryBuilder V) :
    ThreadHistoryBuilder V :=
  let review := userFacingHint.getD "Review requested.".toList
  let next := b.reviewItemId itemId
  next.2.upsertReviewModeItem C turnId (.enteredReviewMode next.1 review)

def handleExitedReviewMode (turnId itemId : Option Str) (reviewOutput : Option V) (b : ThreadHistoryBuilder V) :
    ThreadHistoryBuilder V :=
  let review := reviewOutputText C reviewOutput
  let next := b.reviewItemId itemId
  next.2.upsertReviewModeItem C turnId (.exitedReviewMode next.1 review)

def handleError (payload : ErrorEvent) (b : ThreadHistoryBuilder V) : ThreadHistoryBuilder V :=
  if !payload.affectsTurnStatus then b
  else
    match b.currentTurn with
    | some turn =>
      b.updateCurrent (fun turn => { turn with status := .failed, error := some (turnErrorOf payload) }) turn
    | none => b

def handleTurnAborted (turnId : Option Str) (completedAt durationMs : Option Int) (b : ThreadHistoryBuilder V) :
    ThreadHistoryBuilder V :=
  match b.targetOf turnId with
  | some (.inl turn) => b.updateCurrent (applyAbort completedAt durationMs) turn
  | some (.inr turn) => b.updateFinished (applyAbort completedAt durationMs) turn
  | none => b

def handleTurnStarted (turnId : Str) (startedAt : Option Int) (b : ThreadHistoryBuilder V) :
    ThreadHistoryBuilder V :=
  let b := b.finishCurrentTurn
  b.openTurn { b.newTurn C (some turnId) with status := .inProgress, startedAt, openedExplicitly := true }

def handleTurnComplete (turnId : Str) (error : Option ErrorEvent) (completedAt durationMs : Option Int)
    (b : ThreadHistoryBuilder V) : ThreadHistoryBuilder V :=
  let completion := applyCompletion (error.map turnErrorOf) completedAt durationMs
  match b.targetOf (some turnId) with
  | some (.inl turn) => (b.updateCurrent completion turn).finishCurrentTurn
  | some (.inr turn) => b.updateFinished completion turn
  | none => b

def handleCompacted (b : ThreadHistoryBuilder V) : ThreadHistoryBuilder V :=
  let opened := b.ensureTurn C
  { opened.2 with currentTurn := some { opened.1 with sawCompaction := true } }

def handleThreadRollback (numTurns : UInt32) (b : ThreadHistoryBuilder V) : ThreadHistoryBuilder V :=
  let b := b.finishCurrentTurn
  let n := numTurns.toNat
  let removedTurnIds :=
    if n ≥ b.turns.length then b.turns.map Turn.id
    else if n = 0 then []
    else (b.turns.drop (b.turns.length - n)).map Turn.id
  let turns := if n ≥ b.turns.length then [] else b.turns.take (b.turns.length - n)
  let itemCount := (turns.map (·.items.length)).sum
  { b.recordRemovedTurnIds removedTurnIds with turns, nextItemIndex := min (itemCount + 1) i64Max }

def handleEvent (b : ThreadHistoryBuilder V) : EventMsg V → ThreadHistoryBuilder V
  | .userMessage payload => b.handleUserMessage C payload
  | .agentMessage message phase memoryCitation =>
    b.handleAgentMessage C message phase (memoryCitation.map C.memoryCitationFromCore)
  | .agentReasoning text => b.handleAgentReasoning C text
  | .agentReasoningRawContent text => b.handleAgentReasoningRawContent C text
  | .webSearchBegin callId => b.handleWebSearchBegin C callId
  | .webSearchEnd callId query action results => b.handleWebSearchEnd C callId query action results
  | .execCommandBegin turnId run => b.handleExecCommandBegin C turnId run
  | .execCommandEnd turnId run output exitCode duration status =>
    b.handleExecCommandEnd C turnId run output exitCode duration status
  | .guardianAssessment => b
  | .applyPatchApprovalRequest => b
  | .patchApplyBegin callId turnId changes => b.handlePatchApplyBegin C callId turnId changes
  | .patchApplyEnd callId turnId changes status => b.handlePatchApplyEnd C callId turnId changes status
  | .dynamicToolCallRequest turnId call => b.handleDynamicToolCallRequest C turnId call
  | .dynamicToolCallResponse turnId call contentItems success duration =>
    b.handleDynamicToolCallResponse C turnId call contentItems success duration
  | .viewImageToolCall callId path => b.handleViewImageToolCall C callId path
  | .imageGenerationBegin callId => b.handleImageGenerationBegin C callId
  | .imageGenerationEnd callId status prompt result background path =>
    b.handleImageGenerationEnd C callId status prompt result background path
  | .collabAgentSpawnBegin callId sender prompt model effort =>
    b.handleCollabAgentSpawnBegin C callId sender prompt model effort
  | .collabAgentSpawnEnd callId sender newThread prompt model effort status =>
    b.handleCollabAgentSpawnEnd C callId sender newThread prompt model effort status
  | .collabAgentInteractionBegin callId sender receiver prompt =>
    b.handleCollabAgentInteractionBegin C callId sender receiver prompt
  | .collabAgentInteractionEnd callId sender receiver prompt status =>
    b.handleCollabAgentInteractionEnd C callId sender receiver prompt status
  | .subAgentActivity eventId kind thread path => b.handleSubAgentActivity C eventId kind thread path
  | .collabWaitingBegin callId sender receivers => b.handleCollabWaitingBegin C callId sender receivers
  | .collabWaitingEnd callId sender statuses => b.handleCollabWaitingEnd C callId sender statuses
  | .collabCloseBegin callId sender receiver => b.handleCollabCloseBegin C callId sender receiver
  | .collabCloseEnd callId sender receiver status => b.handleCollabCloseEnd C callId sender receiver status
  | .collabResumeBegin callId sender receiver => b.handleCollabResumeBegin C callId sender receiver
  | .collabResumeEnd callId sender receiver status => b.handleCollabResumeEnd C callId sender receiver status
  | .contextCompacted => b.handleContextCompacted C
  | .enteredReviewMode hint turnId itemId => b.handleEnteredReviewMode C hint turnId itemId
  | .exitedReviewMode turnId itemId output => b.handleExitedReviewMode C turnId itemId output
  | .itemStarted turnId item => b.handleItemStarted C turnId item
  | .itemCompleted turnId item => b.handleItemCompleted C turnId item
  | .error payload => b.handleError payload
  | .tokenCount => b
  | .threadRolledBack numTurns => b.handleThreadRollback numTurns
  | .turnAborted turnId completedAt durationMs => b.handleTurnAborted turnId completedAt durationMs
  | .turnStarted turnId startedAt => b.handleTurnStarted C turnId startedAt
  | .turnComplete turnId error completedAt durationMs => b.handleTurnComplete turnId error completedAt durationMs
  | .other => b

/-- `handle_rollout_item` behind its first two lines. -/
def dispatch (b : ThreadHistoryBuilder V) : RolloutItem J V → ThreadHistoryBuilder V
  | .eventMsg event => b.handleEvent C event
  | .compacted _ => b.handleCompacted C
  | .responseItem _ => b
  | .interAgentCommunication _ => b
  | .interAgentCommunicationMetadata _ => b
  | .turnContext _ => b
  | .worldState _ => b
  | .sessionMeta _ => b

def advance (b : ThreadHistoryBuilder V) : ThreadHistoryBuilder V :=
  { b with currentRolloutIndex := b.nextRolloutIndex, nextRolloutIndex := b.nextRolloutIndex + 1 }

def handleRolloutItem (b : ThreadHistoryBuilder V) (item : RolloutItem J V) : ThreadHistoryBuilder V :=
  b.advance.dispatch C item

def finish (b : ThreadHistoryBuilder V) : List (Turn V) := b.finishCurrentTurn.turns

/-- `collect_changes` around the handling of one rollout item. -/
def handleRolloutItemWithChanges (b : ThreadHistoryBuilder V) (item : RolloutItem J V) :
    ThreadHistoryChangeSet V × ThreadHistoryBuilder V :=
  let b := { b with activeChangeSet := some {} }.handleRolloutItem C item
  (b.activeChangeSet.getD {}, { b with activeChangeSet := none })

end ThreadHistoryBuilder

def buildTurnsFromRolloutItems (C : Conversions V) (items : List (RolloutItem J V)) : List (Turn V) :=
  (items.foldl (ThreadHistoryBuilder.handleRolloutItem C) {}).finish

def itemKey (change : ThreadHistoryItemChange V) : Str × Str := (change.turnId, change.item.id)

structure ThreadHistoryChangeAccumulator (V : Type) where
  changedItems : SlotTable (ThreadHistoryItemChange V) (Str × Str) := {}
  changedTurns : SlotTable ThreadHistoryTurnChange Str := {}
  removedTurnIds : List Str := []
  removedTurnIndexes : List (Str × Nat) := []

namespace ThreadHistoryChangeAccumulator

def pushItemChange (acc : ThreadHistoryChangeAccumulator V) (change : ThreadHistoryItemChange V) :
    ThreadHistoryChangeAccumulator V :=
  { acc with changedItems := acc.changedItems.put itemKey change }

def pushTurnChange (acc : ThreadHistoryChangeAccumulator V) (change : ThreadHistoryTurnChange) :
    ThreadHistoryChangeAccumulator V :=
  { acc with changedTurns := acc.changedTurns.put ThreadHistoryTurnChange.turnId change }

def pushRemovedTurnId (acc : ThreadHistoryChangeAccumulator V) (turnId : Str) : ThreadHistoryChangeAccumulator V :=
  let acc :=
    if (acc.removedTurnIndexes.lookup turnId).isSome then acc
    else { acc with removedTurnIndexes := (turnId, acc.removedTurnIds.length) :: acc.removedTurnIndexes
                    removedTurnIds := acc.removedTurnIds ++ [turnId] }
  { acc with changedTurns := acc.changedTurns.drop turnId
             changedItems := acc.changedItems.dropWhere (·.1 = turnId) }

def push (acc : ThreadHistoryChangeAccumulator V) (changes : ThreadHistoryChangeSet V) :
    ThreadHistoryChangeAccumulator V :=
  let acc := changes.removedTurnIds.foldl pushRemovedTurnId acc
  let acc := changes.changedItems.foldl pushItemChange acc
  changes.changedTurns.foldl pushTurnChange acc

def finish (acc : ThreadHistoryChangeAccumulator V) : ThreadHistoryChangeSet V where
  changedItems := acc.changedItems.rows
  changedTurns := acc.changedTurns.rows
  removedTurnIds := acc.removedTurnIds

end ThreadHistoryChangeAccumulator

/-- The loop of `handle_rollout_items_with_changes`. -/
def accumulate (C : Conversions V) (state : ThreadHistoryChangeAccumulator V × ThreadHistoryBuilder V)
    (item : RolloutItem J V) : ThreadHistoryChangeAccumulator V × ThreadHistoryBuilder V :=
  let handled := state.2.handleRolloutItemWithChanges C item
  (state.1.push handled.1, handled.2)

def handleRolloutItemsWithChanges (C : Conversions V) (b : ThreadHistoryBuilder V) (items : List (RolloutItem J V)) :
    ThreadHistoryChangeSet V × ThreadHistoryBuilder V :=
  let result := items.foldl (accumulate C) ({}, b)
  (result.1.finish, result.2)

end ThreadHistory
