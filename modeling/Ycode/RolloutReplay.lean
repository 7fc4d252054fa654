import Ycode.History

/-!
# Rebuilding a session from its rollout

A rollout is the persisted record of a thread. It is read twice: newest to oldest, to find the
newest surviving checkpoint and the settings to resume with, and then oldest to newest from that
checkpoint, to materialise the history. The first reading groups items into turn segments; a
rollback marker makes it skip the next segments that count as user turns.
-/
namespace RolloutReplay

open RustStr Transcript History

abbrev Uuid := BitVec 128

structure TurnContextItem where
  turnId : Option Str
  model : Str
  compHash : Option Str
  realtimeActive : Option Bool
  /-- The fields that the replay only carries along. -/
  rest : JsonText

structure PreviousTurnSettings where
  model : Str
  compHash : Option Str
  realtimeActive : Option Bool
  deriving DecidableEq

structure CompactedItem where
  message : Str
  replacementHistory : Option (List ResponseItem)
  windowNumber : Option Nat
  firstWindowId : Option Str
  previousWindowId : Option Str
  windowId : Option Str

structure WorldStateItem (J : Type) where
  full : Bool
  state : J

structure SessionContextWindow where
  windowId : Str

structure SessionMetaLine where
  contextWindow : Option SessionContextWindow

inductive TurnItem where
  | userMessage
  | other
  deriving DecidableEq

inductive EventMsg where
  | threadRolledBack (numTurns : UInt32)
  | turnStarted (turnId : Str)
  | turnComplete (turnId : Str)
  | turnAborted (turnId : Option Str)
  | userMessage
  | itemCompleted (turnId : Str) (item : TurnItem)
  | other

inductive RolloutItem (J : Type) where
  | sessionMeta (line : SessionMetaLine)
  | responseItem (item : ResponseItem)
  | interAgentCommunication (communication : InterAgentCommunication)
  | interAgentCommunicationMetadata (triggerTurn : Bool)
  | compacted (item : CompactedItem)
  | turnContext (item : TurnContextItem)
  | worldState (item : WorldStateItem J)
  | eventMsg (event : EventMsg)

/-- The functions of other modules that the replay calls, besides those of the history: parsing a
UUID, and restoring and patching a world-state snapshot. -/
structure Env (J W : Type) extends Host where
  parseUuid : Str → Option Uuid
  snapshotFromValue : J → Option W
  applyMergePatch : W → J → Option W

variable {J W : Type}

structure ReconstructedWindow where
  number : Nat
  firstId : Option Uuid
  previousId : Option Uuid
  id : Option Uuid
  deriving DecidableEq

inductive TurnReferenceContextItem where
  | neverSet
  | cleared
  | latest (item : TurnContextItem)

/-- An item of the world-state replay: a compaction, or a persisted snapshot or patch. -/
inductive WorldStateRecord (J : Type) where
  | compacted
  | worldState (item : WorldStateItem J)

structure ActiveReplaySegment (J : Type) where
  turnId : Option Str := none
  countsAsUserTurn : Bool := false
  previousTurnSettings : Option PreviousTurnSettings := none
  referenceContextItem : TurnReferenceContextItem := .neverSet
  worldStateReplay : List (WorldStateRecord J) := []
  baseReplacementHistory : Option (List ResponseItem) := none
  window : Option ReconstructedWindow := none

def TurnReferenceContextItem.isNeverSet : TurnReferenceContextItem → Bool
  | .neverSet => true
  | _ => false

def TurnReferenceContextItem.isCleared : TurnReferenceContextItem → Bool
  | .cleared => true
  | _ => false

def turnIdsAreCompatible (activeTurnId itemTurnId : Option Str) : Bool :=
  activeTurnId.all fun turnId => itemTurnId.all (· == turnId)

/-- The version nibble of a UUID. -/
def versionNum (uuid : Uuid) : Nat := (uuid.extractLsb' 76 4).toNat

def parseUuidV7 (E : Env J W) (value : Str) : Option Uuid :=
  (E.parseUuid value).filter fun uuid => versionNum uuid == 7

def reconstructedWindowFromSessionContextWindow (E : Env J W) (window : SessionContextWindow) :
    Option ReconstructedWindow :=
  (parseUuidV7 E window.windowId).map fun id => ⟨0, some id, none, some id⟩

def windowOfCompacted (E : Env J W) (compacted : CompactedItem) : Option ReconstructedWindow :=
  compacted.windowNumber.map fun number =>
    ⟨number, compacted.firstWindowId.bind (parseUuidV7 E), compacted.previousWindowId.bind (parseUuidV7 E),
      compacted.windowId.bind (parseUuidV7 E)⟩

def noteCompacted (E : Env J W) (segment : ActiveReplaySegment J) (compacted : CompactedItem) :
    ActiveReplaySegment J :=
  { segment with
    worldStateReplay := segment.worldStateReplay ++ [.compacted]
    window := segment.window.or (windowOfCompacted E compacted)
    referenceContextItem :=
      if segment.referenceContextItem.isNeverSet then .cleared else segment.referenceContextItem
    baseReplacementHistory := segment.baseReplacementHistory.or compacted.replacementHistory }

def noteTurnContext (segment : ActiveReplaySegment J) (ctx : TurnContextItem) : ActiveReplaySegment J :=
  let segment := { segment with turnId := segment.turnId.or ctx.turnId }
  if turnIdsAreCompatible segment.turnId ctx.turnId then
    { segment with
      previousTurnSettings := some ⟨ctx.model, ctx.compHash, ctx.realtimeActive⟩
      referenceContextItem :=
        if segment.referenceContextItem.isNeverSet then .latest ctx else segment.referenceContextItem }
  else segment

/-- What an item inside a turn adds to the segment that is being collected. Most items open a
segment when there is none; events without meaning for the replay do not. -/
def noteItem (E : Env J W) (active : Option (ActiveReplaySegment J)) :
    RolloutItem J → Option (ActiveReplaySegment J)
  | .compacted compacted => some (noteCompacted E (active.getD {}) compacted)
  | .eventMsg (.turnComplete turnId) =>
    let segment := active.getD {}
    some { segment with turnId := segment.turnId.or (some turnId) }
  | .eventMsg (.turnAborted turnId) =>
    match active with
    | some segment => some { segment with turnId := segment.turnId.or turnId }
    | none => turnId.map fun turnId => { turnId := some turnId }
  | .eventMsg .userMessage => some { active.getD {} with countsAsUserTurn := true }
  | .turnContext ctx => some (noteTurnContext (active.getD {}) ctx)
  | .worldState item =>
    let segment := active.getD {}
    some { segment with worldStateReplay := segment.worldStateReplay ++ [.worldState item] }
  | .responseItem item =>
    let segment := active.getD {}
    some { segment with countsAsUserTurn := segment.countsAsUserTurn || isBoundary E.toHost item }
  | .interAgentCommunication _ => some { active.getD {} with countsAsUserTurn := true }
  | .eventMsg _ => active
  | .sessionMeta _ => active
  | .interAgentCommunicationMetadata _ => active

/-- A replacement history that becomes the base of its segment moves the replayed suffix. -/
def movesSuffix (active : Option (ActiveReplaySegment J)) : RolloutItem J → Bool
  | .compacted compacted =>
    (active.getD {}).baseReplacementHistory.isNone && compacted.replacementHistory.isSome
  | _ => false

/-- The variables of the newest-to-oldest loop. The suffix to replay is `none` while it is still
the whole rollout. -/
structure ReplayState (J : Type) where
  baseReplacementHistory : Option (List ResponseItem) := none
  previousTurnSettings : Option PreviousTurnSettings := none
  referenceContextItem : TurnReferenceContextItem := .neverSet
  worldStateReplay : List (WorldStateRecord J) := []
  window : Option ReconstructedWindow := none
  pendingRollbackTurns : Nat := 0
  rolloutSuffix : Option (List (RolloutItem J)) := none
  activeSegment : Option (ActiveReplaySegment J) := none

def finalizeActiveSegment (segment : ActiveReplaySegment J) (s : ReplayState J) : ReplayState J :=
  if s.pendingRollbackTurns > 0 then
    { s with pendingRollbackTurns :=
        if segment.countsAsUserTurn then s.pendingRollbackTurns - 1 else s.pendingRollbackTurns }
  else
    { s with
      worldStateReplay := s.worldStateReplay ++ segment.worldStateReplay
      baseReplacementHistory := s.baseReplacementHistory.or segment.baseReplacementHistory
      window := s.window.or segment.window
      previousTurnSettings :=
        if s.previousTurnSettings.isNone && segment.countsAsUserTurn then segment.previousTurnSettings
        else s.previousTurnSettings
      referenceContextItem :=
        if s.referenceContextItem.isNeverSet &&
            (segment.countsAsUserTurn || segment.referenceContextItem.isCleared) then
          segment.referenceContextItem
        else s.referenceContextItem }

/-- The segment that a `TurnStarted` closes. -/
def closedBy (s : ReplayState J) (turnId : Str) : Option (ActiveReplaySegment J) :=
  s.activeSegment.filter fun segment => turnIdsAreCompatible segment.turnId (some turnId)

/-- One step of the newest-to-oldest loop; `newer` are the items behind the observed one. -/
def observe (E : Env J W) (newer : List (RolloutItem J)) (item : RolloutItem J) (s : ReplayState J) :
    ReplayState J :=
  match item with
  | .eventMsg (.threadRolledBack numTurns) =>
    { s with pendingRollbackTurns := saturatingAdd s.pendingRollbackTurns numTurns.toNat }
  | .eventMsg (.turnStarted turnId) =>
    match closedBy s turnId with
    | some segment => finalizeActiveSegment segment { s with activeSegment := none }
    | none => s
  | item =>
    { s with
      activeSegment := noteItem E s.activeSegment item
      rolloutSuffix := if movesSuffix s.activeSegment item then some newer else s.rolloutSuffix }

/-- The checkpoint and both settings are known: older items cannot change the result. -/
def settled (s : ReplayState J) : Bool :=
  s.baseReplacementHistory.isSome && s.previousTurnSettings.isSome && !s.referenceContextItem.isNeverSet

def reverseScan (E : Env J W) (s : ReplayState J) (newer : List (RolloutItem J)) :
    List (RolloutItem J) → ReplayState J
  | [] => s
  | item :: older =>
    let s := observe E newer item s
    if settled s then s else reverseScan E s (item :: newer) older

/-- A segment that no `TurnStarted` closed is finalised when the loop is over. -/
def finalizeLeftover (s : ReplayState J) : ReplayState J :=
  match s.activeSegment with
  | some segment => finalizeActiveSegment segment { s with activeSegment := none }
  | none => s

def scanRollout (E : Env J W) (rollout : List (RolloutItem J)) : ReplayState J :=
  finalizeLeftover (reverseScan E {} [] rollout.reverse)

structure ForwardState where
  history : List ResponseItem
  sawLegacyCompactionWithoutReplacementHistory : Bool

def forwardStep (E : Env J W) (s : ForwardState) : RolloutItem J → ForwardState
  | .responseItem item => { s with history := recordItems E.toHost s.history [item] }
  | .interAgentCommunication communication =>
    { s with history := recordItems E.toHost s.history [communication.toModelInputItem] }
  | .compacted compacted =>
    match compacted.replacementHistory with
    | some replacement => { s with history := replacement }
    | none => ⟨buildCompactedHistory E.toHost [] (collectUserMessages s.history) compacted.message, true⟩
  | .eventMsg (.threadRolledBack numTurns) =>
    { s with history := dropLastNUserTurns E.toHost numTurns.toNat s.history }
  | .eventMsg _ => s
  | .turnContext _ => s
  | .worldState _ => s
  | .sessionMeta _ => s
  | .interAgentCommunicationMetadata _ => s

def forwardReplay (E : Env J W) (s : ForwardState) (items : List (RolloutItem J)) : ForwardState :=
  items.foldl (forwardStep E) s

def worldStateStep (E : Env J W) (baseline : Option W) : WorldStateRecord J → Option W
  | .compacted => none
  | .worldState item =>
    if item.full then E.snapshotFromValue item.state
    else baseline.bind fun snapshot => E.applyMergePatch snapshot item.state

/-- The records were collected newest first. -/
def worldStateBaseline (E : Env J W) (records : List (WorldStateRecord J)) : Option W :=
  records.reverse.foldl (worldStateStep E) none

structure RolloutReconstruction (W : Type) where
  history : List ResponseItem
  previousTurnSettings : Option PreviousTurnSettings
  referenceContextItem : Option TurnContextItem
  worldStateBaseline : Option W
  windowNumber : Nat
  firstWindowId : Option Uuid
  previousWindowId : Option Uuid
  windowId : Option Uuid

def isCompacted : RolloutItem J → Bool
  | .compacted _ => true
  | _ => false

def isLegacyCompactionWithoutWindowNumber : RolloutItem J → Bool
  | .compacted compacted => compacted.windowNumber.isNone
  | _ => false

def initialWindow (E : Env J W) (rollout : List (RolloutItem J)) : Option ReconstructedWindow :=
  if rollout.any isLegacyCompactionWithoutWindowNumber then none
  else rollout.findSome? fun
    | .sessionMeta line => line.contextWindow.bind (reconstructedWindowFromSessionContextWindow E)
    | _ => none

def fallbackWindowNumber (rollout : List (RolloutItem J)) : Nat := min (rollout.countP isCompacted) (2 ^ 64 - 1)

def latestReference : TurnReferenceContextItem → Option TurnContextItem
  | .latest item => some item
  | _ => none

def reconstructHistoryFromRollout (E : Env J W) (rollout : List (RolloutItem J)) :
    RolloutReconstruction W :=
  let s := scanRollout E rollout
  let forward := forwardReplay E ⟨s.baseReplacementHistory.getD [], false⟩ (s.rolloutSuffix.getD rollout)
  let window := (s.window.or (initialWindow E rollout)).getD ⟨fallbackWindowNumber rollout, none, none, none⟩
  { history := forward.history
    previousTurnSettings := s.previousTurnSettings
    referenceContextItem :=
      if forward.sawLegacyCompactionWithoutReplacementHistory then none
      else latestReference s.referenceContextItem
    worldStateBaseline := worldStateBaseline E s.worldStateReplay
    windowNumber := window.number
    firstWindowId := window.firstId
    previousWindowId := window.previousId
    windowId := window.id }

end RolloutReplay
