import Ycode.NoiseRelay
import Ycode.Runs

/-!
# The loop of the multiplexed relay

One websocket carries many virtual streams. A handshake frame starts a check of the harness key; the stream
becomes active when the check succeeds. Frames, finished checks and close notices come in any order, and a peer
may use a stream id again.
-/
namespace RelayLoop

open RustStr MessageFraming OrderedCiphertext NoiseRelay

inductive Body where
  | data (seq segmentIndex segmentCount : Nat) (payload : Bytes)
  | ackFrame
  | resume
  | reset (reason : Str)
  | heartbeat
  | handshake (payload : Bytes)

structure RelayMessageFrame where
  version : Nat
  streamId : Str
  body : Option Body

inductive RelayFrameBodyKind where
  | data | ack | resume | reset | heartbeat | handshake
  deriving DecidableEq

def relayMessageFrameVersion : Nat := 1

def RelayMessageFrame.handshake (streamId : Str) (payload : Bytes) : RelayMessageFrame :=
  { version := relayMessageFrameVersion, streamId, body := some (.handshake payload) }

def RelayMessageFrame.reset (streamId reason : Str) : RelayMessageFrame :=
  { version := relayMessageFrameVersion, streamId, body := some (.reset reason) }

def validate (frame : RelayMessageFrame) : Except Str RelayFrameBodyKind :=
  if frame.version ≠ relayMessageFrameVersion then
    .error ("unsupported relay message frame version ".toList ++ (toString frame.version).toList)
  else if trim frame.streamId = [] then .error "relay message frame is missing stream_id".toList
  else match frame.body with
    | some (.data _ segmentIndex segmentCount payload) =>
      if segmentIndex ≠ 0 ∨ segmentCount ≠ 1 ∨ payload = [] then
        .error "relay data message frame is missing required fields".toList
      else .ok .data
    | some .ackFrame => .ok .ack
    | some .resume => .ok .resume
    | some (.reset reason) =>
      if reason = [] then .error "relay reset message frame is missing reason".toList else .ok .reset
    | some .heartbeat => .ok .heartbeat
    | some (.handshake payload) =>
      if payload = [] then .error "relay handshake message frame is missing payload".toList else .ok .handshake
    | none => .error "relay message frame is missing body".toList

def intoData (frame : RelayMessageFrame) : Except Str RelayData :=
  match validate frame, frame.body with
  | .error message, _ => .error message
  | .ok .data, some (.data seq _ _ payload) => .ok { seq, payload }
  | .ok _, _ => .error "expected relay data message frame".toList

def intoHandshakePayload (frame : RelayMessageFrame) : Except Str Bytes :=
  match validate frame, frame.body with
  | .error message, _ => .error message
  | .ok .handshake, some (.handshake payload) => .ok payload
  | .ok _, _ => .error "expected relay handshake message frame".toList

section Handshakes

def asBytes (text : Str) : Bytes := (String.ofList text).toUTF8.toList

def fromUtf8 (bytes : Bytes) : Option Str := (String.fromUTF8? ⟨bytes.toArray⟩).map String.toList

def prologueDomain : Bytes := asBytes "codex-exec-server-relay-noise/v1".toList

/-- Each part follows its length, in eight bytes. -/
def prologuePart (part : Bytes) : Bytes := toBeBytes (part.length / 2 ^ 32) ++ toBeBytes part.length ++ part

def noiseChannelPrologue (environmentId executorRegistrationId streamId : Str) : Bytes :=
  prologuePart prologueDomain ++ prologuePart (asBytes environmentId) ++
    prologuePart (asBytes executorRegistrationId) ++ prologuePart (asBytes streamId)

structure NoiseChannelPublicKey where
  suite : Str
  x25519PublicKey : Str
  mlkem768PublicKey : Str
  deriving DecidableEq

/-- What the first message of a handshake gives: the state to complete, the authenticated key of the harness and
the authorization that came with it. -/
structure PendingResponderHandshake (η : Type) where
  handshake : η
  initiatorPublicKey : NoiseChannelPublicKey
  payload : Bytes

/-- One executor, with its side of the handshake. -/
structure Executor (η ρ : Type) where
  environmentId : Str
  executorRegistrationId : Str
  readRequest : Bytes → Bytes → Except Str (PendingResponderHandshake η)
  complete : η → Except Str (ρ × Bytes)

end Handshakes

section Source

def noiseRelayResetReason : Str := "noise_relay_protocol_error".toList
def maxActiveNoiseRelayStreams : Nat := 128
def maxFailedNoiseHandshakes : Nat := 8
def maxHarnessKeyAuthorizationBytes : Nat := 4096
def maxPendingHandshakeValidations : Nat := 32

inductive RendezvousDisconnectReason where
  | peerClose | readError | writeError | pongTimeout | localShutdown

/-- A stream after its handshake, with the id of the instance. -/
structure VirtualStream (ρ : Type) extends NoiseVirtualStream ρ where
  instanceId : Nat

def spawnNoiseVirtualStream {ρ : Type} (instanceId : Nat) (transport : ρ) : VirtualStream ρ :=
  { NoiseVirtualStream.new transport with instanceId }

structure ClosedNoiseVirtualStream where
  streamId : Str
  instanceId : Nat

structure PendingHandshake (η : Type) where
  validationId : Nat
  handshake : η

/-- A running check of a key, with the arguments that it was started with. -/
structure HarnessKeyValidation where
  streamId : Str
  validationId : Nat
  harnessPublicKey : NoiseChannelPublicKey
  authorization : Str
  deriving DecidableEq

inductive Message where
  | binary (frame : Except Str RelayMessageFrame)
  | close | pong | ping | text | failed

/-- What the loop can be woken by. `queued` says whether the reply can be queued at once, and `room` how many
messages the stream's queue can take. -/
inductive Event where
  | writerDone (reason : RendezvousDisconnectReason)
  | closedStream (closed : ClosedNoiseVirtualStream)
  | validationDone (task : HarnessKeyValidation) (result : Except Str Unit) (queued : Bool)
  | validationFailed (task : HarnessKeyValidation)
  | incoming (message : Message) (room : Nat)

structure Relay (η ρ : Type) where
  streams : List (Str × VirtualStream ρ)
  pendingHandshakes : List (Str × PendingHandshake η)
  validationTasks : List HarnessKeyValidation
  failedHandshakes : Nat
  nextValidationId : Nat
  outgoing : List RelayMessageFrame
  disconnected : Option RendezvousDisconnectReason

def start {η ρ : Type} : Relay η ρ :=
  { streams := [], pendingHandshakes := [], validationTasks := [], failedHandshakes := 0, nextValidationId := 0,
    outgoing := [], disconnected := none }

variable {μ σ η ρ : Type} (codec : JsonCodec μ) (channel : NoiseChannel σ ρ) (executor : Executor η ρ)

/-- The loop ends: the streams are disconnected and the running checks aborted. -/
def disconnect (relay : Relay η ρ) (reason : RendezvousDisconnectReason) : Relay η ρ :=
  { relay with streams := [], pendingHandshakes := [], validationTasks := [], disconnected := some reason }

def sendReset (relay : Relay η ρ) (streamId : Str) : Relay η ρ :=
  { relay with outgoing := relay.outgoing ++ [.reset streamId noiseRelayResetReason] }

/-- A failed attempt is charged; the loop ends when the budget is used up. -/
def chargeFailure (relay : Relay η ρ) : Relay η ρ :=
  let relay := { relay with failedHandshakes := relay.failedHandshakes + 1 }
  if relay.failedHandshakes ≥ maxFailedNoiseHandshakes then disconnect relay .localShutdown else relay

def removeStream (relay : Relay η ρ) (streamId : Str) : Relay η ρ :=
  { relay with streams := SortedMap.erase streamId relay.streams }

def removePending (relay : Relay η ρ) (streamId : Str) : Relay η ρ :=
  { relay with pendingHandshakes := SortedMap.erase streamId relay.pendingHandshakes }

def streamClosed (relay : Relay η ρ) (closed : ClosedNoiseVirtualStream) : Relay η ρ :=
  match SortedMap.get closed.streamId relay.streams with
  | none => relay
  | some stream => if stream.instanceId = closed.instanceId then removeStream relay closed.streamId else relay

/-- The key is authorized: complete the handshake and open the stream. -/
def activate (relay : Relay η ρ) (task : HarnessKeyValidation) (pending : PendingHandshake η) (queued : Bool) :
    Relay η ρ :=
  if relay.streams.length ≥ maxActiveNoiseRelayStreams then sendReset relay task.streamId
  else match executor.complete pending.handshake with
    | .error _ => chargeFailure (sendReset relay task.streamId)
    | .ok (transport, response) =>
      if queued then
        { relay with
          outgoing := relay.outgoing ++ [.handshake task.streamId response]
          streams := SortedMap.insert task.streamId (spawnNoiseVirtualStream task.validationId transport)
            relay.streams }
      else disconnect relay .localShutdown

def validated (relay : Relay η ρ) (task : HarnessKeyValidation) (result : Except Str Unit) (queued : Bool) :
    Relay η ρ :=
  match SortedMap.get task.streamId relay.pendingHandshakes with
  | none => relay
  | some pending =>
    -- the stream id may have been used again while the check ran
    if pending.validationId = task.validationId then
      match result with
      | .error _ => chargeFailure (sendReset (removePending relay task.streamId) task.streamId)
      | .ok () => activate executor (removePending relay task.streamId) task pending queued
    else relay

/-- A check that did not return: all pending handshakes are given up. -/
def validationLost (relay : Relay η ρ) : Relay η ρ :=
  { relay with
    pendingHandshakes := []
    outgoing := relay.outgoing ++ relay.pendingHandshakes.map fun entry => .reset entry.1 noiseRelayResetReason }

def authorizationOf (payload : Bytes) : Option Str :=
  match fromUtf8 payload with
  | some authorization => if payload.length ≤ maxHarnessKeyAuthorizationBytes then some authorization else none
  | none => none

/-- A readable request is pending until its key is checked. -/
def spawnValidation (relay : Relay η ρ) (streamId : Str) (pending : PendingResponderHandshake η)
    (authorization : Str) : Relay η ρ :=
  { relay with
    nextValidationId := relay.nextValidationId + 1
    pendingHandshakes := SortedMap.insert streamId
      { validationId := relay.nextValidationId, handshake := pending.handshake } relay.pendingHandshakes
    validationTasks := relay.validationTasks ++ [{
      streamId
      validationId := relay.nextValidationId
      harnessPublicKey := pending.initiatorPublicKey
      authorization }] }

def handshakeFrame (relay : Relay η ρ) (frame : RelayMessageFrame) : Relay η ρ :=
  let streamId := frame.streamId
  if (SortedMap.get streamId relay.streams).isSome then sendReset relay streamId
  else if (SortedMap.get streamId relay.pendingHandshakes).isSome then
    chargeFailure (sendReset (removePending relay streamId) streamId)
  else if relay.streams.length ≥ maxActiveNoiseRelayStreams then sendReset relay streamId
  else if relay.validationTasks.length ≥ maxPendingHandshakeValidations then sendReset relay streamId
  else match intoHandshakePayload frame with
    | .error _ => sendReset relay streamId
    | .ok request =>
      let prologue := noiseChannelPrologue executor.environmentId executor.executorRegistrationId streamId
      match executor.readRequest prologue request with
      | .error _ => chargeFailure (sendReset relay streamId)
      | .ok pending =>
        match authorizationOf pending.payload with
        | none => chargeFailure (sendReset relay streamId)
        | some authorization => spawnValidation relay streamId pending authorization

def receiveInto (stream : VirtualStream ρ) (data : RelayData) (room : Nat) : Except Str (VirtualStream ρ) :=
  match receiveData codec channel stream.toNoiseVirtualStream data with
  | .error message => .error message
  | .ok (reader, messages) =>
    if messages.length ≤ room then .ok { stream with toNoiseVirtualStream := reader }
    else .error "Noise virtual stream inbound queue is full or closed".toList

def dataFrame (relay : Relay η ρ) (frame : RelayMessageFrame) (room : Nat) : Relay η ρ :=
  let streamId := frame.streamId
  match SortedMap.get streamId relay.streams with
  | none =>
    let canceled := (SortedMap.get streamId relay.pendingHandshakes).isSome
    let relay := sendReset (removePending relay streamId) streamId
    if canceled then chargeFailure relay else relay
  | some stream =>
    match intoData frame with
    | .error _ => sendReset (removeStream relay streamId) streamId
    | .ok data =>
      match receiveInto codec channel stream data room with
      | .error _ => sendReset (removeStream relay streamId) streamId
      | .ok stream => { relay with streams := SortedMap.insert streamId stream relay.streams }

def processFrame (relay : Relay η ρ) (frame : RelayMessageFrame) (room : Nat) : Relay η ρ :=
  match validate frame with
  | .error _ => relay
  | .ok .handshake => handshakeFrame executor relay frame
  | .ok .data => dataFrame codec channel relay frame room
  | .ok .reset => removeStream (removePending relay frame.streamId) frame.streamId
  | .ok .ack => relay
  | .ok .resume => relay
  | .ok .heartbeat => relay

/-- One turn of the loop. Only a running check can finish. -/
def step (relay : Relay η ρ) (event : Event) : Relay η ρ :=
  if relay.disconnected.isSome then relay
  else match event with
    | .writerDone reason => disconnect relay reason
    | .closedStream closed => streamClosed relay closed
    | .validationDone task result queued =>
      if task ∈ relay.validationTasks then
        validated executor { relay with validationTasks := relay.validationTasks.erase task } task result queued
      else relay
    | .validationFailed task =>
      if task ∈ relay.validationTasks then
        validationLost { relay with validationTasks := relay.validationTasks.erase task }
      else relay
    | .incoming (.binary (.ok frame)) room => processFrame codec channel executor relay frame room
    | .incoming (.binary (.error _)) _ => relay
    | .incoming .close _ => disconnect relay .peerClose
    | .incoming .failed _ => disconnect relay .readError
    | .incoming .pong _ => relay
    | .incoming .ping _ => relay
    | .incoming .text _ => relay

/-- The loop after a list of events. -/
def reached (events : List Event) : Relay η ρ := Runs.run (step codec channel executor) start events

theorem reached_append (evs later : List Event) :
    reached codec channel executor (evs ++ later) =
      Runs.run (step codec channel executor) (reached codec channel executor evs) later :=
  Runs.run_append ..

theorem step_stopped (h : relay.disconnected.isSome) : step codec channel executor relay event = relay :=
  if_pos h

end Source

end RelayLoop
