import Ycode.RolloutReplay

/-!
# Thread items and the events they are built from

Clients see a turn as a list of items: messages, reasoning, commands, file changes, tool calls. The
rollout records events, and the functions below turn the payload of an event into the item shown
for it. Values that are only carried along or converted by another module are of one type `V`.
-/
namespace ThreadItems

open RustStr Transcript RolloutReplay

inductive UserInput (V : Type) where
  | text (text : Str) (textElements : List V)
  | image (url : Str) (detail : Option V)
  | localImage (path : Str) (detail : Option V)
  | audio (url : Str)
  | localAudio (path : Str)

inductive CommandExecutionStatus where
  | inProgress | completed | failed | declined
  deriving DecidableEq

inductive PatchApplyStatus where
  | inProgress | completed | failed | declined
  deriving DecidableEq

inductive DynamicToolCallStatus where
  | inProgress | completed | failed
  deriving DecidableEq

inductive DynamicToolCallOutputContentItem where
  | inputText (text : Str)
  | inputImage (imageUrl : Str)
  | inputAudio (audioUrl : Str)
  deriving DecidableEq

inductive CollabAgentTool where
  | spawnAgent | sendInput | resumeAgent | wait | closeAgent
  deriving DecidableEq

inductive CollabAgentToolCallStatus where
  | inProgress | completed | failed
  deriving DecidableEq

inductive CollabAgentStatus where
  | pendingInit | running | interrupted | completed | errored | shutdown | notFound
  deriving DecidableEq

structure CollabAgentState where
  status : CollabAgentStatus
  message : Option Str
  deriving DecidableEq

inductive PatchChangeKind where
  | add
  | delete
  | update (movePath : Option Str)
  deriving DecidableEq

structure FileUpdateChange where
  path : Str
  kind : PatchChangeKind
  diff : Str
  deriving DecidableEq

structure WebSearchItem (V : Type) where
  id : Str
  query : Str
  action : Option V
  results : Option (List V)

structure ImageGenerationItem where
  id : Str
  status : Str
  revisedPrompt : Option Str
  result : Str
  transparentBackground : Option Bool
  savedPath : Option Str

inductive ThreadItem (V : Type) where
  | userMessage (id : Str) (clientId : Option Str) (content : List (UserInput V))
  | agentMessage (id text : Str) (phase memoryCitation : Option V)
  | plan (id text : Str)
  | reasoning (id : Str) (summary content : List Str)
  | commandExecution (id command : Str) (cwd : V) (processId : Option Str) (source : V)
      (status : CommandExecutionStatus) (commandActions : List V) (aggregatedOutput : Option Str)
      (exitCode durationMs : Option Int)
  | fileChange (id : Str) (changes : List FileUpdateChange) (status : PatchApplyStatus)
  | dynamicToolCall (id : Str) (toolNamespace : Option Str) (tool : Str) (arguments : V)
      (status : DynamicToolCallStatus) (contentItems : Option (List DynamicToolCallOutputContentItem))
      (success : Option Bool) (durationMs : Option Int)
  | collabAgentToolCall (id : Str) (tool : CollabAgentTool) (status : CollabAgentToolCallStatus)
      (senderThreadId : Str) (receiverThreadIds : List Str) (prompt model : Option Str)
      (reasoningEffort : Option V) (agentsStates : List (Str × CollabAgentState))
  | subAgentActivity (id : Str) (kind : V) (agentThreadId agentPath : Str)
  | webSearch (item : WebSearchItem V)
  | imageView (id : Str) (path : V)
  | sleep (id : Str) (durationMs : Nat)
  | imageGeneration (item : ImageGenerationItem)
  | enteredReviewMode (id review : Str)
  | exitedReviewMode (id review : Str)
  | contextCompaction (id : Str)
  | nativeCodeMode (id runId : Str) (phase : V) (text : Str)

variable {V : Type}

def ThreadItem.id : ThreadItem V → Str
  | .userMessage id _ _ => id
  | .agentMessage id _ _ _ => id
  | .plan id _ => id
  | .reasoning id _ _ => id
  | .commandExecution id .. => id
  | .fileChange id _ _ => id
  | .dynamicToolCall id .. => id
  | .collabAgentToolCall id .. => id
  | .subAgentActivity id _ _ _ => id
  | .imageView id _ => id
  | .enteredReviewMode id _ => id
  | .exitedReviewMode id _ => id
  | .contextCompaction id => id
  | .nativeCodeMode id _ _ _ => id
  | .webSearch item => item.id
  | .sleep id _ => id
  | .imageGeneration item => item.id

inductive NonSteerableTurnKind where
  | compact
  deriving DecidableEq

inductive CodexErrorInfo where
  | contextWindowExceeded
  | sessionBudgetExceeded
  | usageLimitExceeded
  | serverOverloaded
  | cyberPolicy
  | httpConnectionFailed (httpStatusCode : Option Nat)
  | responseStreamConnectionFailed (httpStatusCode : Option Nat)
  | internalServerError
  | unauthorized
  | badRequest
  | sandboxError
  | responseStreamDisconnected (httpStatusCode : Option Nat)
  | responseTooManyFailedAttempts (httpStatusCode : Option Nat)
  | activeTurnNotSteerable (turnKind : NonSteerableTurnKind)
  | threadRollbackFailed
  | other
  deriving DecidableEq

structure ErrorEvent where
  message : Str
  codexErrorInfo : Option CodexErrorInfo

inductive AgentStatus where
  | pendingInit
  | running
  | interrupted
  | completed (message : Option Str)
  | errored (message : Str)
  | shutdown
  | notFound
  deriving DecidableEq

inductive ExecCommandStatus where
  | completed | failed | declined
  deriving DecidableEq

inductive CorePatchApplyStatus where
  | completed | failed | declined
  deriving DecidableEq

inductive FileChange where
  | add (content : Str)
  | delete (content : Str)
  | update (unifiedDiff : Str) (movePath : Option Str)
  deriving DecidableEq

structure UserMessageEvent (V : Type) where
  clientId : Option Str
  message : Str
  images : Option (List Str)
  imageDetails : List (Option V)
  localImages : List Str
  localImageDetails : List (Option V)
  audio : Option (List Str)
  localAudio : List Str
  textElements : List V

/-- A command as an event or a core item records it. -/
structure CommandRun (V : Type) where
  callId : Str
  processId : Option Str
  command : List Str
  cwd : V
  parsedCmd : List V
  source : V

structure ToolCall (V : Type) where
  callId : Str
  toolNamespace : Option Str
  tool : Str
  arguments : V

inductive ExtensionItem (V : Type) where
  | imageGeneration (item : ImageGenerationItem)
  | sleep (id : Str) (durationMs : Nat)
  | webSearch (item : WebSearchItem V)

/-- An item of the core protocol. Of the kinds that the history does not take from it only the kind is kept. -/
inductive TurnItem (V : Type) where
  | plan (id text : Str)
  | commandExecution (run : CommandRun V) (status : CommandExecutionStatus) (aggregatedOutput : Option Str)
      (exitCode : Option Int) (durationMillis : Option Nat)
  | dynamicToolCall (call : ToolCall V) (status : DynamicToolCallStatus)
      (contentItems : Option (List DynamicToolCallOutputContentItem)) (success : Option Bool)
      (durationMillis : Option Nat)
  | collabAgentToolCall (id : Str) (tool : CollabAgentTool) (status : CollabAgentToolCallStatus)
      (senderThreadId : Str) (receiverThreadIds : List Str) (prompt model : Option Str)
      (reasoningEffort : Option V) (agentsStates : List (Str × AgentStatus))
  | subAgentActivity (id : Str) (kind : V) (agentThreadId agentPath : Str)
  | extension (item : ExtensionItem V)
  | nativeCodeMode (id runId : Str) (phase : V) (text : Str)
  | enteredReviewMode (id userFacingHint : Str)
  | exitedReviewMode (id : Str) (reviewOutput : Option V)
  | userMessage
  | agentMessage
  | reasoning
  | webSearch
  | imageView
  | imageGeneration
  | fileChange
  | contextCompaction

inductive EventMsg (V : Type) where
  | userMessage (payload : UserMessageEvent V)
  | agentMessage (message : Str) (phase memoryCitation : Option V)
  | agentReasoning (text : Str)
  | agentReasoningRawContent (text : Str)
  | webSearchBegin (callId : Str)
  | webSearchEnd (callId query : Str) (action : V) (results : Option (List V))
  | execCommandBegin (turnId : Str) (run : CommandRun V)
  | execCommandEnd (turnId : Str) (run : CommandRun V) (aggregatedOutput : Str) (exitCode : Int)
      (durationMillis : Nat) (status : ExecCommandStatus)
  | guardianAssessment
  | applyPatchApprovalRequest
  | patchApplyBegin (callId turnId : Str) (changes : List (Str × FileChange))
  | patchApplyEnd (callId turnId : Str) (changes : List (Str × FileChange)) (status : CorePatchApplyStatus)
  | dynamicToolCallRequest (turnId : Str) (call : ToolCall V)
  | dynamicToolCallResponse (turnId : Str) (call : ToolCall V)
      (contentItems : List DynamicToolCallOutputContentItem) (success : Bool) (durationMillis : Nat)
  | viewImageToolCall (callId : Str) (path : V)
  | imageGenerationBegin (callId : Str)
  | imageGenerationEnd (callId status : Str) (revisedPrompt : Option Str) (result : Str)
      (transparentBackground : Option Bool) (savedPath : Option Str)
  | collabAgentSpawnBegin (callId senderThreadId prompt model : Str) (reasoningEffort : V)
  | collabAgentSpawnEnd (callId senderThreadId : Str) (newThreadId : Option Str) (prompt model : Str)
      (reasoningEffort : V) (status : AgentStatus)
  | collabAgentInteractionBegin (callId senderThreadId receiverThreadId prompt : Str)
  | collabAgentInteractionEnd (callId senderThreadId receiverThreadId prompt : Str) (status : AgentStatus)
  | subAgentActivity (eventId : Str) (kind : V) (agentThreadId agentPath : Str)
  | collabWaitingBegin (callId senderThreadId : Str) (receiverThreadIds : List Str)
  | collabWaitingEnd (callId senderThreadId : Str) (statuses : List (Str × AgentStatus))
  | collabCloseBegin (callId senderThreadId receiverThreadId : Str)
  | collabCloseEnd (callId senderThreadId receiverThreadId : Str) (status : AgentStatus)
  | collabResumeBegin (callId senderThreadId receiverThreadId : Str)
  | collabResumeEnd (callId senderThreadId receiverThreadId : Str) (status : AgentStatus)
  | contextCompacted
  | enteredReviewMode (userFacingHint turnId itemId : Option Str)
  | exitedReviewMode (turnId itemId : Option Str) (reviewOutput : Option V)
  | itemStarted (turnId : Str) (item : TurnItem V)
  | itemCompleted (turnId : Str) (item : TurnItem V)
  | error (payload : ErrorEvent)
  | tokenCount
  | threadRolledBack (numTurns : UInt32)
  | turnAborted (turnId : Option Str) (completedAt durationMs : Option Int)
  | turnStarted (turnId : Str) (startedAt : Option Int)
  | turnComplete (turnId : Str) (error : Option ErrorEvent) (completedAt durationMs : Option Int)
  | other

inductive RolloutItem (J V : Type) where
  | sessionMeta (line : SessionMetaLine)
  | responseItem (item : ResponseItem)
  | interAgentCommunication (communication : InterAgentCommunication)
  | interAgentCommunicationMetadata (triggerTurn : Bool)
  | compacted (item : CompactedItem)
  | turnContext (item : TurnContextItem)
  | worldState (item : WorldStateItem J)
  | eventMsg (event : EventMsg V)

def CodexErrorInfo.affectsTurnStatus : CodexErrorInfo → Bool
  | .threadRollbackFailed => false
  | .activeTurnNotSteerable _ => false
  | _ => true

def ErrorEvent.affectsTurnStatus (event : ErrorEvent) : Bool :=
  event.codexErrorInfo.all CodexErrorInfo.affectsTurnStatus

/-- The functions of other modules that the items are built with. -/
structure Conversions (V : Type) where
  memoryCitationFromCore : V → V
  textElementFromCore : V → V
  webSearchActionFromCore : V → V
  legacyAppPathString : V → V
  commandExecutionSource : V → V
  subAgentActivityKind : V → V
  nativeCodeModePhase : V → V
  shlexJoin : List Str → Str
  redactSecrets : Str → Str
  commandActionsForPathUri : List V → V → List V
  renderReviewOutputText : V → Str
  /-- What `Uuid::now_v7` yields. -/
  nowV7 : Str

variable (C : Conversions V)

def i64Max : Nat := 2 ^ 63 - 1

/-- `i64::try_from(duration.as_millis()).ok()` -/
def millisToI64 (millis : Nat) : Option Int := if millis ≤ i64Max then some millis else none

def reviewFallbackMessage : Str := "Reviewer failed to output a response.".toList

def reviewOutputText (output : Option V) : Str :=
  (output.map C.renderReviewOutputText).getD reviewFallbackMessage

def mapPatchChangeKind : FileChange → PatchChangeKind
  | .add _ => .add
  | .delete _ => .delete
  | .update _ movePath => .update movePath

def formatFileChangeDiff : FileChange → Str
  | .add content => content
  | .delete content => content
  | .update unifiedDiff (some path) => unifiedDiff ++ "\n\nMoved to: ".toList ++ path
  | .update unifiedDiff none => unifiedDiff

def convertPatchChanges (changes : List (Str × FileChange)) : List FileUpdateChange :=
  (changes.map fun (path, change) =>
    { path, kind := mapPatchChangeKind change, diff := formatFileChangeDiff change }).mergeSort
    fun a b => decide (a.path ≤ b.path)

def CorePatchApplyStatus.toV2 : CorePatchApplyStatus → PatchApplyStatus
  | .completed => .completed
  | .failed => .failed
  | .declined => .declined

def ExecCommandStatus.toV2 : ExecCommandStatus → CommandExecutionStatus
  | .completed => .completed
  | .failed => .failed
  | .declined => .declined

def buildFileChangeBeginItem (callId : Str) (changes : List (Str × FileChange)) : ThreadItem V :=
  .fileChange callId (convertPatchChanges changes) .inProgress

def buildFileChangeEndItem (callId : Str) (changes : List (Str × FileChange)) (status : CorePatchApplyStatus) :
    ThreadItem V :=
  .fileChange callId (convertPatchChanges changes) status.toV2

/-- The item shown for a command; `CommandExecutionPresentation` redacts its text. -/
def commandExecutionItem (run : CommandRun V) (status : CommandExecutionStatus)
    (aggregatedOutput : Option Str) (exitCode durationMs : Option Int) : ThreadItem V :=
  .commandExecution run.callId (C.redactSecrets (C.shlexJoin run.command)) (C.legacyAppPathString run.cwd)
    run.processId (C.commandExecutionSource run.source) status
    (C.commandActionsForPathUri run.parsedCmd run.cwd) aggregatedOutput exitCode durationMs

def buildCommandExecutionBeginItem (run : CommandRun V) : ThreadItem V :=
  commandExecutionItem C run .inProgress none none none

def buildCommandExecutionEndItem (run : CommandRun V) (aggregatedOutput : Str) (exitCode : Int)
    (durationMillis : Nat) (status : ExecCommandStatus) : ThreadItem V :=
  commandExecutionItem C run status.toV2 (if aggregatedOutput = [] then none else some aggregatedOutput)
    (some exitCode) (some (min durationMillis i64Max : Nat))

def collabAgentState : AgentStatus → CollabAgentState
  | .pendingInit => ⟨.pendingInit, none⟩
  | .running => ⟨.running, none⟩
  | .interrupted => ⟨.interrupted, none⟩
  | .completed message => ⟨.completed, message⟩
  | .errored message => ⟨.errored, some message⟩
  | .shutdown => ⟨.shutdown, none⟩
  | .notFound => ⟨.notFound, none⟩

/-- `matches!(status, AgentStatus::Errored(_) | AgentStatus::NotFound)` -/
def AgentStatus.isFailure : AgentStatus → Bool
  | .errored _ => true
  | .notFound => true
  | _ => false

def AgentStatus.toCallStatus (status : AgentStatus) : CollabAgentToolCallStatus :=
  if status.isFailure then .failed else .completed

/-- `ThreadItem::from` on the kinds of items that the history takes over. -/
def threadItemFrom : TurnItem V → Option (ThreadItem V)
  | .plan id text => some (.plan id text)
  | .commandExecution run status aggregatedOutput exitCode durationMillis =>
    some (commandExecutionItem C run status (aggregatedOutput.filter (· ≠ [])) exitCode
      (durationMillis.bind millisToI64))
  | .dynamicToolCall call status contentItems success durationMillis =>
    some (.dynamicToolCall call.callId call.toolNamespace call.tool call.arguments status contentItems success
      (durationMillis.bind millisToI64))
  | .collabAgentToolCall id tool status sender receivers prompt model effort states =>
    some (.collabAgentToolCall id tool status sender receivers prompt model effort
      (states.map fun (thread, status) => (thread, collabAgentState status)))
  | .subAgentActivity id kind agentThreadId agentPath =>
    some (.subAgentActivity id (C.subAgentActivityKind kind) agentThreadId agentPath)
  | .extension (.imageGeneration item) => some (.imageGeneration item)
  | .extension (.sleep id durationMs) => some (.sleep id durationMs)
  | .extension (.webSearch item) => some (.webSearch item)
  | .nativeCodeMode id runId phase text => some (.nativeCodeMode id runId (C.nativeCodeModePhase phase) text)
  | .enteredReviewMode id userFacingHint => some (.enteredReviewMode id userFacingHint)
  | .exitedReviewMode id reviewOutput => some (.exitedReviewMode id (reviewOutputText C reviewOutput))
  | _ => none

/-- `build_user_inputs`: the detail of the image at an index is the one recorded at that index, if any. -/
def buildUserInputs (payload : UserMessageEvent V) : List (UserInput V) :=
  (if trim payload.message = [] then []
    else [.text payload.message (payload.textElements.map C.textElementFromCore)]) ++
  (payload.images.getD []).zipIdx.map (fun (url, idx) => .image url (payload.imageDetails[idx]?).join) ++
  payload.localImages.zipIdx.map (fun (path, idx) => .localImage path (payload.localImageDetails[idx]?).join) ++
  (payload.audio.getD []).map .audio ++
  payload.localAudio.map .localAudio

end ThreadItems
