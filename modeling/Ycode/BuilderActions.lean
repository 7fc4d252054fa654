import Ycode.HistoryChanges

/-!
# What a rollout item does to the turns

The handlers of the builder do one of a few things: add an item with a generated id, grow the last
reasoning, write an item with an id of its own, open, mark or close a turn, take turns back. An
`Action` names one of these, with the item it adds; every rollout item is one action.
-/
namespace BuilderActions

open RustStr ThreadItems ThreadHistory
open ThreadItems (EventMsg RolloutItem TurnItem)

variable {J V : Type} (C : Conversions V)

inductive Action (V : Type) where
  | skip
  | push (make : Str → ThreadItem V) (named : ∀ id, (make id).id = id)
  | say (make : Str → ThreadItem V) (named : ∀ id, (make id).id = id)
  | reason (grow : ThreadItem V → Option (ThreadItem V)) (fresh : Str → ThreadItem V)
      (grown : ∀ item item', grow item = some item' → item'.id = item.id) (named : ∀ id, (fresh id).id = id)
  | upsertCurrent (item : ThreadItem V)
  | upsertIn (turnId : Str) (item : ThreadItem V)
  | review (turnId : Option Str) (item : ThreadItem V)
  | reviewNext (turnId : Option Str) (make : Str → ThreadItem V) (named : ∀ id, (make id).id = id)
  | fail (error : TurnError)
  | abort (turnId : Option Str) (completedAt durationMs : Option Int)
  | start (turnId : Str) (startedAt : Option Int)
  | complete (turnId : Str) (error : Option ErrorEvent) (completedAt durationMs : Option Int)
  | compact
  | rollBack (numTurns : UInt32)

/-- Add an item under the next generated id. -/
def pushNext (make : Str → ThreadItem V) (b : ThreadHistoryBuilder V) : ThreadHistoryBuilder V :=
  b.nextItemId.2.pushItemInCurrentTurn C (make b.nextItemId.1)

def failCurrent (error : TurnError) (b : ThreadHistoryBuilder V) : ThreadHistoryBuilder V :=
  match b.currentTurn with
  | some turn => b.updateCurrent (fun turn => { turn with status := .failed, error := some error }) turn
  | none => b

def perform (b : ThreadHistoryBuilder V) : Action V → ThreadHistoryBuilder V
  | .skip => b
  | .push make _ => pushNext C make b
  | .say make _ => pushNext C make b.closeImplicitTurn
  | .reason grow fresh _ _ => b.growReasoning C grow fresh
  | .upsertCurrent item => b.upsertItemInCurrentTurn C item
  | .upsertIn turnId item => b.upsertItemInTurnId turnId item
  | .review turnId item => b.upsertReviewModeItem C turnId item
  | .reviewNext turnId make _ => b.nextItemId.2.upsertReviewModeItem C turnId (make b.nextItemId.1)
  | .fail error => failCurrent error b
  | .abort turnId completedAt durationMs => b.handleTurnAborted turnId completedAt durationMs
  | .start turnId startedAt => b.handleTurnStarted C turnId startedAt
  | .complete turnId error completedAt durationMs => b.handleTurnComplete turnId error completedAt durationMs
  | .compact => b.handleCompacted C
  | .rollBack numTurns => b.handleThreadRollback numTurns

theorem pushSummary_id (text : Str) (item item' : ThreadItem V)
    (h : ThreadHistoryBuilder.pushSummary text item = some item') : item'.id = item.id := by
  cases item <;> cases h
  rfl

theorem pushContent_id (text : Str) (item item' : ThreadItem V)
    (h : ThreadHistoryBuilder.pushContent text item = some item') : item'.id = item.id := by
  cases item <;> cases h
  rfl

/-- An item for a turn that old rollouts leave unnamed. -/
def upsertNamed (turnId : Str) (item : ThreadItem V) : Action V :=
  if turnId = [] then .upsertCurrent item else .upsertIn turnId item

/-- A review item, under its own id or a generated one. -/
def reviewItem (turnId itemId : Option Str) (make : Str → ThreadItem V) (named : ∀ id, (make id).id = id) : Action V :=
  match itemId with
  | some id => .review turnId (make id)
  | none => .reviewNext turnId make named

def lifecycle (turnId : Str) (item : TurnItem V) : Action V :=
  match threadItemFrom C item with
  | none => .skip
  | some threadItem =>
    if ThreadHistoryBuilder.isEmptyPlan item then .skip
    else if ThreadHistoryBuilder.isReviewModeItem item then .review (some turnId) threadItem
    else .upsertIn turnId threadItem

def beginCollab (tool : CollabAgentTool) (callId sender : Str) (receivers : List Str) (prompt : Option Str) : Action V :=
  .upsertCurrent (.collabAgentToolCall callId tool .inProgress sender receivers prompt none none [])

def endCollab (tool : CollabAgentTool) (callId sender receiver : Str) (prompt : Option Str) (status : AgentStatus) :
    Action V :=
  .upsertCurrent (.collabAgentToolCall callId tool status.toCallStatus sender [receiver] prompt none none
    [(receiver, collabAgentState status)])

def actionOfEvent : EventMsg V → Action V
  | .userMessage payload => .say (fun id => .userMessage id payload.clientId (buildUserInputs C payload)) fun _ => rfl
  | .agentMessage message phase memoryCitation =>
    if message = [] then .skip
    else .push (fun id => .agentMessage id message phase (memoryCitation.map C.memoryCitationFromCore)) fun _ => rfl
  | .agentReasoning text =>
    if text = [] then .skip
    else .reason (ThreadHistoryBuilder.pushSummary text) (fun id => .reasoning id [text] []) (pushSummary_id text)
      fun _ => rfl
  | .agentReasoningRawContent text =>
    if text = [] then .skip
    else .reason (ThreadHistoryBuilder.pushContent text) (fun id => .reasoning id [] [text]) (pushContent_id text)
      fun _ => rfl
  | .webSearchBegin callId => .upsertCurrent (.webSearch ⟨callId, [], none, none⟩)
  | .webSearchEnd callId query action results =>
    .upsertCurrent (.webSearch ⟨callId, query, some (C.webSearchActionFromCore action), results⟩)
  | .execCommandBegin turnId run => .upsertIn turnId (buildCommandExecutionBeginItem C run)
  | .execCommandEnd turnId run output exitCode duration status =>
    .upsertIn turnId (buildCommandExecutionEndItem C run output exitCode duration status)
  | .guardianAssessment => .skip
  | .applyPatchApprovalRequest => .skip
  | .patchApplyBegin callId turnId changes => upsertNamed turnId (buildFileChangeBeginItem callId changes)
  | .patchApplyEnd callId turnId changes status => upsertNamed turnId (buildFileChangeEndItem callId changes status)
  | .dynamicToolCallRequest turnId call =>
    upsertNamed turnId
      (.dynamicToolCall call.callId call.toolNamespace call.tool call.arguments .inProgress none none none)
  | .dynamicToolCallResponse turnId call contentItems success duration =>
    upsertNamed turnId (.dynamicToolCall call.callId call.toolNamespace call.tool call.arguments
      (if success then .completed else .failed) (some contentItems) (some success) (millisToI64 duration))
  | .viewImageToolCall callId path => .upsertCurrent (.imageView callId (C.legacyAppPathString path))
  | .imageGenerationBegin callId => .upsertCurrent (.imageGeneration ⟨callId, [], none, [], none, none⟩)
  | .imageGenerationEnd callId status prompt result background path =>
    .upsertCurrent (.imageGeneration ⟨callId, status, prompt, result, background, path⟩)
  | .collabAgentSpawnBegin callId sender prompt model effort =>
    .upsertCurrent (.collabAgentToolCall callId .spawnAgent .inProgress sender [] (some prompt) (some model)
      (some effort) [])
  | .collabAgentSpawnEnd callId sender newThread prompt model effort status =>
    .upsertCurrent (.collabAgentToolCall callId .spawnAgent
      (if status.isFailure || newThread.isNone then .failed else .completed) sender newThread.toList
      (some prompt) (some model) (some effort)
      (newThread.toList.map fun receiver => (receiver, collabAgentState status)))
  | .collabAgentInteractionBegin callId sender receiver prompt =>
    beginCollab .sendInput callId sender [receiver] (some prompt)
  | .collabAgentInteractionEnd callId sender receiver prompt status =>
    endCollab .sendInput callId sender receiver (some prompt) status
  | .subAgentActivity eventId kind thread path =>
    .upsertCurrent (.subAgentActivity eventId (C.subAgentActivityKind kind) thread path)
  | .collabWaitingBegin callId sender receivers => beginCollab .wait callId sender receivers none
  | .collabWaitingEnd callId sender statuses =>
    .upsertCurrent (.collabAgentToolCall callId .wait
      (if statuses.any (·.2.isFailure) then .failed else .completed) sender
      ((statuses.map Prod.fst).mergeSort fun s t => decide (s ≤ t)) none none none
      (statuses.map fun (thread, status) => (thread, collabAgentState status)))
  | .collabCloseBegin callId sender receiver => beginCollab .closeAgent callId sender [receiver] none
  | .collabCloseEnd callId sender receiver status => endCollab .closeAgent callId sender receiver none status
  | .collabResumeBegin callId sender receiver => beginCollab .resumeAgent callId sender [receiver] none
  | .collabResumeEnd callId sender receiver status => endCollab .resumeAgent callId sender receiver none status
  | .contextCompacted => .push .contextCompaction fun _ => rfl
  | .enteredReviewMode hint turnId itemId =>
    reviewItem turnId itemId (fun id => .enteredReviewMode id (hint.getD "Review requested.".toList)) fun _ => rfl
  | .exitedReviewMode turnId itemId output =>
    reviewItem turnId itemId (fun id => .exitedReviewMode id (reviewOutputText C output)) fun _ => rfl
  | .itemStarted turnId item => lifecycle C turnId item
  | .itemCompleted turnId item => lifecycle C turnId item
  | .error payload => if !payload.affectsTurnStatus then .skip else .fail (turnErrorOf payload)
  | .tokenCount => .skip
  | .threadRolledBack numTurns => .rollBack numTurns
  | .turnAborted turnId completedAt durationMs => .abort turnId completedAt durationMs
  | .turnStarted turnId startedAt => .start turnId startedAt
  | .turnComplete turnId error completedAt durationMs => .complete turnId error completedAt durationMs
  | .other => .skip

def actionOf : RolloutItem J V → Action V
  | .eventMsg event => actionOfEvent C event
  | .compacted _ => .compact
  | _ => .skip

theorem perform_upsertNamed : perform C b (upsertNamed turnId item) = b.upsertItemInNamedTurn C turnId item := by
  rw [upsertNamed, ThreadHistoryBuilder.upsertItemInNamedTurn]
  split <;> rfl

theorem perform_lifecycle :
    perform C b (lifecycle C turnId item) = b.handleMaterializedItemLifecycle C turnId item := by
  rw [lifecycle, ThreadHistoryBuilder.handleMaterializedItemLifecycle]
  cases threadItemFrom C item with
  | none => rfl
  | some threadItem =>
    dsimp only
    split
    · rfl
    · split <;> rfl

theorem handleEvent_eq : b.handleEvent C event = perform C b (actionOfEvent C event) := by
  cases event with
  | agentMessage msg phase memoryCitation =>
    rw [ThreadHistoryBuilder.handleEvent, ThreadHistoryBuilder.handleAgentMessage, actionOfEvent]
    split <;> rfl
  | agentReasoning text =>
    rw [ThreadHistoryBuilder.handleEvent, ThreadHistoryBuilder.handleAgentReasoning, actionOfEvent]
    split <;> rfl
  | agentReasoningRawContent text =>
    rw [ThreadHistoryBuilder.handleEvent, ThreadHistoryBuilder.handleAgentReasoningRawContent, actionOfEvent]
    split <;> rfl
  | patchApplyBegin callId tid chs => exact (perform_upsertNamed C ..).symm
  | patchApplyEnd callId tid chs status => exact (perform_upsertNamed C ..).symm
  | dynamicToolCallRequest tid call => exact (perform_upsertNamed C ..).symm
  | dynamicToolCallResponse tid call contentItems success duration => exact (perform_upsertNamed C ..).symm
  | enteredReviewMode hi tid itemId => cases itemId <;> rfl
  | exitedReviewMode tid itemId output => cases itemId <;> rfl
  | itemStarted tid item => exact (perform_lifecycle C ..).symm
  | itemCompleted tid item => exact (perform_lifecycle C ..).symm
  | error pl =>
    rw [ThreadHistoryBuilder.handleEvent, ThreadHistoryBuilder.handleError, actionOfEvent]
    split <;> rfl
  | _ => rfl

theorem dispatch_eq : b.dispatch C item = perform C b (actionOf C item) := by
  cases item with
  | eventMsg ev => exact handleEvent_eq C
  | _ => rfl

/-- The id that an item brings along, if it has one of its own. -/
def suppliedId : Action V → Option Str
  | .upsertCurrent item => some item.id
  | .upsertIn _ item => some item.id
  | .review _ item => some item.id
  | _ => none

/-- Whether an action goes to the current turn, whichever that is. -/
def needsTurn : Action V → Bool
  | .push .. => true
  | .say .. => true
  | .reason .. => true
  | .upsertCurrent _ => true
  | .review none _ => true
  | .reviewNext none .. => true
  | .compact => true
  | _ => false

/-- The id under which an action opens a turn without asking whether there is one already. -/
def opens (b : ThreadHistoryBuilder V) : Action V → Option Str
  | .start turnId _ => some turnId
  | .say .. => if b.closeImplicitTurn.currentTurn.isNone then some (b.newTurn C none).id else none
  | action => if needsTurn action && b.currentTurn.isNone then some (b.newTurn C none).id else none

/-- The builder without the changes it is collecting. -/
def untrack (b : ThreadHistoryBuilder V) : ThreadHistoryBuilder V := { b with activeChangeSet := none }

theorem untrack_currentTurn : (untrack b).currentTurn = b.currentTurn := rfl

theorem untrack_turns : (untrack b).turns = b.turns := rfl

theorem untrack_finishCurrentTurn : untrack b.finishCurrentTurn = (untrack b).finishCurrentTurn := by
  obtain ⟨ts, cur, ni, cr, nr, chs⟩ := b
  cases cur with
  | none => rfl
  | some turn =>
    simp only [untrack, ThreadHistoryBuilder.finishCurrentTurn]
    split <;> rfl

theorem untrack_closeImplicitTurn : untrack b.closeImplicitTurn = (untrack b).closeImplicitTurn := by
  rw [ThreadHistoryBuilder.closeImplicitTurn, ThreadHistoryBuilder.closeImplicitTurn]
  change _ = if b.currentTurn.any _ = true then (untrack b).finishCurrentTurn else untrack b
  split
  · exact untrack_finishCurrentTurn
  · rfl

theorem untrack_ensureTurn : (untrack b).ensureTurn C = ((b.ensureTurn C).1, untrack (b.ensureTurn C).2) := by
  obtain ⟨ts, cur, ni, cr, nr, chs⟩ := b
  cases cur <;> rfl

theorem untrack_pushItem : untrack (b.pushItemInCurrentTurn C item) = (untrack b).pushItemInCurrentTurn C item := by
  simp only [ThreadHistoryBuilder.pushItemInCurrentTurn, untrack_ensureTurn]
  rfl

theorem untrack_upsertCurrent :
    untrack (b.upsertItemInCurrentTurn C item) = (untrack b).upsertItemInCurrentTurn C item := by
  simp only [ThreadHistoryBuilder.upsertItemInCurrentTurn, untrack_ensureTurn]
  rfl

theorem untrack_upsertIn :
    untrack (b.upsertItemInTurnId turnId item) = (untrack b).upsertItemInTurnId turnId item := by
  simp only [ThreadHistoryBuilder.upsertItemInTurnId, untrack_currentTurn, untrack_turns]
  cases b.currentTurn.filter fun turn => decide (turn.id = turnId) with
  | some turn => rfl
  | none =>
    by_cases hk : (b.turns.any fun turn => decide (turn.id = turnId)) = true
    · rw [if_pos hk]
      exact (if_pos hk).symm
    · rw [if_neg hk]
      exact (if_neg hk).symm

theorem untrack_review :
    untrack (b.upsertReviewModeItem C tid item) = (untrack b).upsertReviewModeItem C tid item := by
  cases tid with
  | none => exact untrack_upsertCurrent C
  | some tid =>
    simp only [ThreadHistoryBuilder.upsertReviewModeItem]
    rw [untrack_upsertIn]
    change _ = ThreadHistoryBuilder.upsertItemInTurnId tid item
      (if (!b.currentTurn.any _ && !b.turns.any _) = true then _ else untrack b)
    split
    · rw [← untrack_finishCurrentTurn]; rfl
    · rfl

theorem untrack_growReasoning : untrack (b.growReasoning C grow fresh) = (untrack b).growReasoning C grow fresh := by
  simp only [ThreadHistoryBuilder.growReasoning, untrack_ensureTurn]
  cases (b.ensureTurn C).1.items.getLast?.bind grow with
  | some item => rfl
  | none => exact untrack_pushItem C

/-- Collecting changes has no influence on the turns. -/
theorem untrack_perform : untrack (perform C b action) = perform C (untrack b) action := by
  cases action with
  | skip => rfl
  | push make named => exact untrack_pushItem C
  | say make named =>
    simp only [perform, pushNext]
    rw [untrack_pushItem, ← untrack_closeImplicitTurn]
    rfl
  | reason grow fresh grown named => exact untrack_growReasoning C
  | upsertCurrent item => exact untrack_upsertCurrent C
  | upsertIn tid item => exact untrack_upsertIn
  | review tid item => exact untrack_review C
  | reviewNext tid make named => exact untrack_review C
  | fail err =>
    obtain ⟨ts, cur, ni, cr, nr, chs⟩ := b
    cases cur <;> rfl
  | abort tid completedAt durationMs =>
    simp only [perform, ThreadHistoryBuilder.handleTurnAborted]
    rw [show (untrack b).targetOf tid = b.targetOf tid from rfl]
    cases b.targetOf tid with
    | none => rfl
    | some target => cases target <;> rfl
  | start tid startedAt =>
    simp only [perform, ThreadHistoryBuilder.handleTurnStarted, ← untrack_finishCurrentTurn]
    rfl
  | complete tid err completedAt durationMs =>
    simp only [perform, ThreadHistoryBuilder.handleTurnComplete]
    rw [show (untrack b).targetOf (some tid) = b.targetOf (some tid) from rfl]
    cases b.targetOf (some tid) with
    | none => rfl
    | some target =>
      cases target with
      | inl turn => exact untrack_finishCurrentTurn
      | inr turn => rfl
  | compact =>
    simp only [perform, ThreadHistoryBuilder.handleCompacted, untrack_ensureTurn]
    rfl
  | rollBack n =>
    simp only [perform, ThreadHistoryBuilder.handleThreadRollback, ← untrack_finishCurrentTurn]
    rfl

end BuilderActions
