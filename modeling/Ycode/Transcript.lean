import Ycode.RustStr

/-!
# The items of a conversation

A transcript is a list of response items. Two questions are asked of an item again and again:
whether it is context that the program injected itself, under a developer or a user role, and
whether it is an instruction that starts a new turn.
-/
namespace Transcript

open RustStr

/-- A `serde_json::Value` that no function here looks into, as its text. -/
abbrev JsonText := Str

inductive ImageDetail where
  | auto | low | high | original
  deriving DecidableEq, Repr

inductive ContentItem where
  | inputText (text : Str)
  | inputImage (imageUrl : Str) (detail : Option ImageDetail)
  | inputAudio (audioUrl : Str)
  | outputText (text : Str)
  deriving DecidableEq, Repr

inductive AgentMessageInputContent where
  | inputText (text : Str)
  | encryptedContent (encryptedContent : Str)
  deriving DecidableEq, Repr

inductive FunctionCallOutputContentItem where
  | inputText (text : Str)
  | inputImage (imageUrl : Str) (detail : Option ImageDetail)
  | inputAudio (audioUrl : Str)
  | encryptedContent (encryptedContent : Str)
  deriving DecidableEq, Repr

inductive FunctionCallOutputBody where
  | text (content : Str)
  | contentItems (items : List FunctionCallOutputContentItem)
  deriving DecidableEq, Repr

structure FunctionCallOutputPayload where
  body : FunctionCallOutputBody
  success : Option Bool
  deriving DecidableEq, Repr

inductive MessagePhase where
  | commentary | finalAnswer
  deriving DecidableEq, Repr

/-- `InternalChatMessageMetadataPassthrough` -/
structure Passthrough where
  turnId : Option Str
  executedToolCalls : Option (List JsonText)
  deriving DecidableEq, Repr

inductive ResponseItem where
  | additionalTools (id : Option Str) (role : Str) (tools : List JsonText)
  | message (id : Option Str) (role : Str) (content : List ContentItem) (phase : Option MessagePhase)
      (metadata : Option Passthrough)
  | agentMessage (id : Option Str) (author recipient : Str) (content : List AgentMessageInputContent)
      (metadata : Option Passthrough)
  | reasoning (id : Option Str) (summary : List Str) (content : Option (List JsonText))
      (encryptedContent : Option Str) (metadata : Option Passthrough)
  | localShellCall (id callId : Option Str) (status action : JsonText) (metadata : Option Passthrough)
  | functionCall (id : Option Str) (name : Str) (space : Option Str) (arguments : Str)
      (encryptedFunctionArgs : Option (List Str)) (callId : Str) (metadata : Option Passthrough)
  | toolSearchCall (id callId status : Option Str) (execution : Str) (arguments : JsonText)
      (metadata : Option Passthrough)
  | functionCallOutput (id : Option Str) (callId : Str) (output : FunctionCallOutputPayload)
      (metadata : Option Passthrough)
  | customToolCall (id status : Option Str) (callId name : Str) (space : Option Str) (input : Str)
      (metadata : Option Passthrough)
  | customToolCallOutput (id : Option Str) (callId : Str) (name : Option Str)
      (output : FunctionCallOutputPayload) (metadata : Option Passthrough)
  | toolSearchOutput (id callId : Option Str) (status execution : Str) (tools : List JsonText)
      (metadata : Option Passthrough)
  | webSearchCall (id status : Option Str) (action : Option JsonText) (metadata : Option Passthrough)
  | imageGenerationCall (id : Option Str) (status : Str) (revisedPrompt : Option Str) (result : Str)
      (metadata : Option Passthrough)
  | compaction (id : Option Str) (encryptedContent : Str) (metadata : Option Passthrough)
  | compactionTrigger
  | contextCompaction (id encryptedContent : Option Str) (metadata : Option Passthrough)
  | other

structure InterAgentCommunication where
  id : Option Str
  author : Str
  recipient : Str
  otherRecipients : List Str
  content : Str
  encryptedContent : Option Str
  metadata : Option Passthrough
  triggerTurn : Bool

def InterAgentCommunication.toModelInputItem (c : InterAgentCommunication) : ResponseItem :=
  let content := match c.encryptedContent with
    | some encrypted =>
      let messageType := if c.triggerTurn then "NEW_TASK".toList else "MESSAGE".toList
      [.inputText ("Message Type: ".toList ++ messageType ++ "\nTask name: ".toList ++ c.recipient ++
          "\nSender: ".toList ++ c.author ++ "\nPayload:\n".toList),
        .encryptedContent encrypted]
    | none => [.inputText c.content]
  .agentMessage c.id c.author c.recipient content c.metadata

/-- The first characters of a text are the marker, in either case. -/
def startsWithMarker (text marker : Str) : Bool := eqIgnoreAsciiCase (text.take marker.length) marker

/-- The last characters of a text are the marker, in either case. -/
def endsWithMarker (text marker : Str) : Bool :=
  eqIgnoreAsciiCase (text.drop (text.length - marker.length)) marker

def matchesMarkedText (startMarker endMarker text : Str) : Bool :=
  if startMarker = [] ∨ endMarker = [] then false
  else
    let trimmed := trimStart text
    startsWithMarker trimmed startMarker && endsWithMarker (trimEnd trimmed) endMarker

/-- The fragments that are recognised by their two markers alone. -/
def markedFragments : List (Str × Str) :=
  [("# AGENTS.md instructions".toList, "</INSTRUCTIONS>".toList),
   ("<environment_context>".toList, "</environment_context>".toList),
   ("<skill>".toList, "</skill>".toList),
   ("<user_shell_command>".toList, "</user_shell_command>".toList),
   ("<turn_aborted>".toList, "</turn_aborted>".toList),
   ("<subagent_notification>".toList, "</subagent_notification>".toList)]

/-- `AdditionalContextUserFragment::matches_text` -/
def matchesAdditionalContext (text : Str) : Bool :=
  match stripPrefix (trim text) "<external_".toList with
  | none => false
  | some rest =>
    match splitOnce ">".toList rest with
    | none => false
    | some (key, valueAndClose) => endsWith valueAndClose ("</external_".toList ++ key ++ ">".toList)

def matchesLegacyGoalContext (text : Str) : Bool :=
  startsWith text "<goal_context>".toList && endsWith text "</goal_context>".toList

def isValidSource : Str → Bool
  | [] => false
  | first :: chars => first.isLower && chars.all fun ch => ch.isLower || ch.isDigit || ch == '_'

/-- `InternalModelContextFragment::matches_text` -/
def matchesInternalModelContext (text : Str) : Bool :=
  let trimmed := trim text
  if matchesLegacyGoalContext trimmed then true
  else
    match (stripPrefix trimmed "<codex_internal_context".toList).bind
        (stripPrefix · " source=\"".toList) with
    | none => false
    | some rest =>
      match splitOnce "\">".toList rest with
      | none => false
      | some (source, bodyAndClose) =>
        isValidSource source && endsWith bodyAndClose "</codex_internal_context>".toList

def matchesLegacyUnifiedExecProcessLimitWarning (text : Str) : Bool :=
  startsWith (trim text)
    "Warning: The maximum number of unified exec processes you can keep open is".toList

def matchesLegacyApplyPatchExecCommandWarning (text : Str) : Bool :=
  startsWith (trim text) "Warning: apply_patch was requested via ".toList &&
    endsWith (trim text) "Use the apply_patch tool instead of exec_command.".toList

def matchesLegacyModelMismatchWarning (text : Str) : Bool :=
  startsWith (trim text)
    "Warning: Your account was flagged for potentially high-risk cyber activity".toList

def isStandardContextualUserText (text : Str) : Bool :=
  markedFragments.any (fun (startMarker, endMarker) => matchesMarkedText startMarker endMarker text) ||
    matchesAdditionalContext text || matchesInternalModelContext text ||
    matchesLegacyUnifiedExecProcessLimitWarning text ||
    matchesLegacyApplyPatchExecCommandWarning text || matchesLegacyModelMismatchWarning text

def isContextualUserFragment : ContentItem → Bool
  | .inputText text => isStandardContextualUserText text
  | _ => false

def isContextualUserMessageContent (message : List ContentItem) : Bool := message.any isContextualUserFragment

def contextualDeveloperPrefixes : List Str :=
  ["<model_switch>".toList, "<apps_instructions>".toList, "<agent_settings>".toList,
   "<multi_agent_mode>".toList, "<environments_instructions>".toList, "<git_attribution>".toList,
   "<realtime_conversation>".toList, "<skills_instructions>".toList, "<tools>".toList,
   "<personality_spec>".toList, "<token_budget>".toList, "<context_window>".toList,
   "<context_window_guidance>".toList, "<rollout_budget>".toList]

def isContextualDevFragment : ContentItem → Bool
  | .inputText text => contextualDeveloperPrefixes.any (startsWithMarker (trimStart text))
  | _ => false

def isContextualDevMessageContent (message : List ContentItem) : Bool := message.any isContextualDevFragment

/-- `InterAgentCommunication::is_message_content`, given whether a text deserialises as an
inter-agent communication. -/
def isMessageContent (isCommunication : Str → Bool) : List ContentItem → Bool
  | [.inputText text] => isCommunication text
  | [.outputText text] => isCommunication text
  | _ => false

def isUserTurnBoundary (isCommunication : Str → Bool) : ResponseItem → Bool
  | .agentMessage .. => true
  | .message _ role content _ _ =>
    (role == "user".toList && !isContextualUserMessageContent content) ||
      (role == "assistant".toList && isMessageContent isCommunication content)
  | _ => false

/-- A message that the program injected as context for a turn. -/
def isContextual : ResponseItem → Bool
  | .message _ role content _ _ =>
    (role == "developer".toList && isContextualDevMessageContent content) ||
      (role == "user".toList && isContextualUserMessageContent content)
  | _ => false

/-- Injected context never starts a turn. -/
theorem not_boundary_of_contextual (h : isContextual item = true) :
    isUserTurnBoundary isCommunication item = false := by
  cases item with
  | message id role txt phase md =>
    simp only [isContextual, Bool.or_eq_true, Bool.and_eq_true, beq_iff_eq] at h
    cases h with
    | inl h => simp [isUserTurnBoundary, h.1]
    | inr h => simp [isUserTurnBoundary, h.1, h.2]
  | _ => simp [isContextual] at h

end Transcript
