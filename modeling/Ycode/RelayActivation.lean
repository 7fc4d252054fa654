import Ycode.RelayMoves

/-!
# A stream is activated by its own handshake

The history of a pending handshake is the frame that opened it, with no frame for the stream since. The check
that activates the stream was started for that handshake, with the key and the authorization it carried. Ids are
given out once, so what comes late for an earlier instance finds nothing to change.
-/
namespace RelayActivation

open RustStr MessageFraming NoiseRelay RelayLoop RelayMoves List

variable {μ σ η ρ : Type} (codec : JsonCodec μ) (channel : NoiseChannel σ ρ) (executor : Executor η ρ)

/-- The check belongs to the pending handshake: both come from one handshake frame, and no frame for the stream
was processed since. -/
structure Own (events : List Event) (id : Str) (pending : PendingHandshake η) (task : HarnessKeyValidation)
    (before : List Event) (frame : RelayMessageFrame) (room : Nat) (between : List Event) (request : Bytes)
    (parsed : PendingResponderHandshake η) : Prop where
  split : events = before ++ .incoming (.binary (.ok frame)) room :: between
  handshake : validate frame = .ok .handshake
  stream : frame.streamId = id
  payload : intoHandshakePayload frame = .ok request
  readable : executor.readRequest (noiseChannelPrologue executor.environmentId
    executor.executorRegistrationId id) request = .ok parsed
  state : pending.handshake = parsed.handshake
  fresh : pending.validationId = (reached codec channel executor before).nextValidationId
  untouched : ∀ event ∈ between, ¬Touches id event
  task_streamId : task.streamId = id
  task_validationId : task.validationId = pending.validationId
  task_key : task.harnessPublicKey = parsed.initiatorPublicKey
  task_authorization : authorizationOf parsed.payload = some task.authorization

def IsOwn (events : List Event) (id : Str) (pending : PendingHandshake η) (task : HarnessKeyValidation) : Prop :=
  ∃ before frame room between request parsed,
    Own codec channel executor events id pending task before frame room between request parsed

def History (events : List Event) (relay : Relay η ρ) : Prop :=
  ∀ id pending, SortedMap.get id relay.pendingHandshakes = some pending →
    ∀ task ∈ relay.validationTasks, task.validationId = pending.validationId →
      IsOwn codec channel executor events id pending task

variable {codec channel executor}

theorem IsOwn.extend {evs : List Event} {id : Str} {pend : PendingHandshake η} {task : HarnessKeyValidation}
    {ev : Event} (h : IsOwn codec channel executor evs id pend task) (hevent : ¬Touches id ev) :
    IsOwn codec channel executor (evs ++ [ev]) id pend task := by
  obtain ⟨pre, frame, room, between, req, parsed, hown⟩ := h
  refine ⟨pre, frame, room, between ++ [ev], req, parsed, { hown with split := ?_, untouched := ?_ }⟩
  · rw [hown.split, append_assoc]
    rfl
  · intro x ho
    rcases mem_append.mp ho with he | hl
    · exact hown.untouched x he
    · rwa [mem_singleton.mp hl]

variable {relay : Relay η ρ}

/-- A handshake that is still pending after a turn was opened by it, or was pending before and not touched. -/
theorem pending_cases (hi : Inv relay) {id : Str} {pend : PendingHandshake η}
    (h : SortedMap.get id (step codec channel executor relay event).pendingHandshakes = some pend) :
    (SortedMap.get id relay.pendingHandshakes = some pend ∧ ¬Touches id event ∧
      ∀ task ∈ (step codec channel executor relay event).validationTasks,
        task ∈ relay.validationTasks ∨ task.validationId = relay.nextValidationId) ∨
    ∃ frame room req parsed authorization, event = .incoming (.binary (.ok frame)) room ∧
      validate frame = .ok .handshake ∧ frame.streamId = id ∧ intoHandshakePayload frame = .ok req ∧
      executor.readRequest (noiseChannelPrologue executor.environmentId executor.executorRegistrationId id)
        req = .ok parsed ∧
      authorizationOf parsed.payload = some authorization ∧
      step codec channel executor relay event = spawnValidation relay id parsed authorization := by
  cases step_moves executor codec channel hi.stopped with
  | drops hd =>
    have hb := SortedMap.get_of_sublist hi.pendingSorted hd.pending h
    refine .inl ⟨hb, fun ht => ?_, fun task hm => .inl (hd.tasks.subset hm)⟩
    rcases hd.touched id ht with hnone | hactive
    · rw [h] at hnone
      cases hnone
    · rw [hi.apart id pend hb] at hactive
      cases hactive
  | received x stream stream' htouched hc _ hn =>
    rw [hn] at h ⊢
    refine .inl ⟨h, fun ht => ?_, fun task hm => .inl hm⟩
    have hnone := hi.apart id pend h
    rw [htouched id ht, hc] at hnone
    cases hnone
  | opened frame room req parsed authorization _ he hv hp _ _ _ hr ha hn =>
    by_cases hid : frame.streamId = id
    · subst hid
      exact .inr ⟨frame, room, req, parsed, authorization, he, hv, rfl, hp, hr, ha, hn⟩
    · rw [hn] at h ⊢
      rw [spawnValidation, SortedMap.get_insert, if_neg hid] at h
      refine .inl ⟨h, fun ht => ?_, fun task hm => ?_⟩
      · rw [he] at ht
        exact hid ht.1
      · rcases mem_append.mp hm with ho | hnew
        · exact .inl ho
        · exact .inr (by rw [mem_singleton.mp hnew])
  | activated task _ tr resp he _ _ _ _ _ hn =>
    rw [hn] at h ⊢
    refine .inl ⟨SortedMap.get_of_sublist hi.pendingSorted filter_sublist h, fun ht => ?_,
      fun task hm => .inl (mem_of_mem_erase hm)⟩
    rw [he] at ht
    exact ht

theorem history_step (hrelay : relay = reached codec channel executor events) (hi : Inv relay)
    (h : History codec channel executor events relay) :
    History codec channel executor (events ++ [event]) (step codec channel executor relay event) := by
  intro id pend hpending task htask hv
  rcases pending_cases hi hpending with ⟨hb, hu, ht⟩ | ho
  · rcases ht task htask with hold | hnew
    · exact (h id pend hb task hold hv).extend hu
    · have := hi.pendingIssued id pend hb
      omega
  · obtain ⟨frame, room, req, parsed, auth, he, hvalid, hid, hp, hr, ha, hn⟩ := ho
    rw [hn] at hpending htask
    rw [spawnValidation, SortedMap.get_insert, if_pos rfl] at hpending
    cases hpending
    rcases mem_append.mp htask with hold | hnew
    · exact absurd hv (Nat.ne_of_lt (hi.taskIssued task hold))
    · obtain rfl := mem_singleton.mp hnew
      refine ⟨events, frame, room, [], req, parsed, ?_⟩
      constructor
      case split => rw [he]
      case handshake => exact hvalid
      case stream => exact hid
      case payload => exact hp
      case readable => exact hr
      case state => rfl
      case fresh => rw [hrelay]
      case untouched => simp
      case task_streamId => rfl
      case task_validationId => rfl
      case task_key => rfl
      case task_authorization => exact ha

theorem history_reached (evs : List Event) :
    History codec channel executor evs (reached codec channel executor evs) := by
  induction evs using List.reverseRecOn with
  | nil =>
    intro id pend hp
    cases hp
  | append_singleton evs ev ih =>
    rw [reached_append]
    exact history_step rfl (inv_reached codec channel executor evs) ih

/-- The id was given out, and the stream has moved on from it. -/
structure Superseded (relay : Relay η ρ) (id : Str) (instanceId : Nat) : Prop where
  issued : instanceId < relay.nextValidationId
  stream : ∀ stream, SortedMap.get id relay.streams = some stream → stream.instanceId ≠ instanceId
  pending : ∀ pending, SortedMap.get id relay.pendingHandshakes = some pending → pending.validationId ≠ instanceId

/-- A result of the instance's check, or a notice that the instance was closed. -/
def ComesFrom (id : Str) (instanceId : Nat) : Event → Prop
  | .closedStream closed => closed.streamId = id ∧ closed.instanceId = instanceId
  | .validationDone task _ _ => task.streamId = id ∧ task.validationId = instanceId
  | _ => False

variable {id : Str}

theorem Superseded.step (hi : Inv relay) (h : Superseded relay id instanceId) (ev : Event) :
    Superseded (step codec channel executor relay ev) id instanceId := by
  cases step_moves executor codec channel hi.stopped with
  | drops hd =>
    refine ⟨hd.next ▸ h.issued, fun stream hg => h.stream stream ?_, fun pend hg => h.pending pend ?_⟩
    · exact SortedMap.get_of_sublist hi.streamsSorted hd.streams hg
    · exact SortedMap.get_of_sublist hi.pendingSorted hd.pending hg
  | received x stream stream' _ hc hs hn =>
    rw [hn]
    refine ⟨h.issued, fun found hg => ?_, h.pending⟩
    rw [SortedMap.get_insert] at hg
    split at hg
    · rename_i he
      cases hg
      rw [hs]
      exact h.stream stream (he ▸ hc)
    · exact h.stream found hg
  | opened frame room req parsed auth _ _ _ _ _ _ _ _ _ hn =>
    rw [hn]
    refine ⟨Nat.lt_succ_of_lt h.issued, h.stream, fun found hg => ?_⟩
    rw [spawnValidation, SortedMap.get_insert] at hg
    split at hg
    · cases hg
      exact Nat.ne_of_gt h.issued
    · exact h.pending found hg
  | activated task pend tr resp _ _ hw ho _ _ hn =>
    rw [hn]
    refine ⟨h.issued, fun found hg => ?_, fun found hg => h.pending found ?_⟩
    · rw [SortedMap.get_insert] at hg
      split at hg
      · rename_i he
        cases hg
        exact ho ▸ h.pending pend (he ▸ hw)
      · exact h.stream found hg
    · exact SortedMap.get_of_sublist hi.pendingSorted filter_sublist hg

theorem Superseded.run (hi : Inv relay) (h : Superseded relay id instanceId) (evs : List Event) :
    Superseded (Runs.run (RelayLoop.step codec channel executor) relay evs) id instanceId :=
  (Runs.invariant (p := fun relay => Inv relay ∧ Superseded relay id instanceId)
    (fun _ ev both => ⟨both.1.step codec channel executor ev, both.2.step both.1 ev⟩) ⟨hi, h⟩ evs).2

theorem Superseded.inert (h : Superseded relay id instanceId) {ev : Event} (he : ComesFrom id instanceId ev) :
    (RelayLoop.step codec channel executor relay ev).streams = relay.streams ∧
      (RelayLoop.step codec channel executor relay ev).pendingHandshakes = relay.pendingHandshakes := by
  by_cases hend : relay.disconnected.isSome
  · rw [step_stopped _ _ _ hend]
    exact ⟨rfl, rfl⟩
  · cases ev with
    | closedStream closed =>
      obtain ⟨rfl, rfl⟩ := he
      have hk : streamClosed relay closed = relay := by
        unfold streamClosed
        split
        · rfl
        · rename_i stream ha
          rw [if_neg (h.stream stream ha)]
      rw [RelayLoop.step, if_neg hend]
      simp only [hk, and_self]
    | validationDone task res queued =>
      obtain ⟨rfl, rfl⟩ := he
      have hk : ∀ other : Relay η ρ, other.pendingHandshakes = relay.pendingHandshakes →
          validated executor other task res queued = other := by
        intro other heq
        unfold validated
        rw [heq]
        split
        · rfl
        · rename_i pend hp
          rw [if_neg (h.pending pend hp)]
      rw [RelayLoop.step, if_neg hend]
      split
      · rw [hk { relay with validationTasks := relay.validationTasks.erase task } rfl]
        exact ⟨rfl, rfl⟩
      · exact ⟨rfl, rfl⟩
    | _ => exact he.elim

/-- The turn makes the stream active: it was not active before, or as another instance. -/
def BecomesActive (relay relay' : Relay η ρ) (id : Str) (stream : VirtualStream ρ) : Prop :=
  SortedMap.get id relay'.streams = some stream ∧
    ∀ old, SortedMap.get id relay.streams = some old → old.instanceId ≠ stream.instanceId

theorem activated_cases (hi : Inv relay) {id : Str} {stream : VirtualStream ρ}
    (h : BecomesActive relay (step codec channel executor relay event) id stream) :
    ∃ task pend resp, event = .validationDone task (.ok ()) true ∧ task ∈ relay.validationTasks ∧
      task.streamId = id ∧ SortedMap.get id relay.pendingHandshakes = some pend ∧
      task.validationId = pend.validationId ∧ stream.instanceId = pend.validationId ∧
      executor.complete pend.handshake = .ok (stream.transport, resp) := by
  obtain ⟨ha, ho⟩ := h
  cases step_moves executor codec channel hi.stopped with
  | drops hd => exact absurd rfl (ho stream (SortedMap.get_of_sublist hi.streamsSorted hd.streams ha))
  | received cur found found' _ hu hs hn =>
    rw [hn, SortedMap.get_insert] at ha
    split at ha
    · rename_i heq
      cases ha
      exact absurd hs.symm (ho found (heq ▸ hu))
    · exact absurd rfl (ho stream ha)
  | opened frame room req parsed auth _ _ _ _ _ _ _ _ _ hn =>
    rw [hn] at ha
    exact absurd rfl (ho stream ha)
  | activated task pend tr resp he hr hw hown _ hc hn =>
    rw [hn, SortedMap.get_insert] at ha
    split at ha
    · rename_i heq
      cases ha
      subst heq
      exact ⟨task, pend, resp, he, hr, rfl, hw, hown.symm, hown.symm, hc⟩
    · exact absurd rfl (ho stream ha)

variable (codec channel executor)

/-- In every run, a stream becomes active only by a successful check of its own pending handshake; what comes
from an instance that the stream has moved on from changes no stream and no pending handshake; and active and
pending streams stay within their limits. -/
theorem activated_by_own_handshake (events : List Event) :
    (∀ event id stream,
      BecomesActive (reached codec channel executor events)
        (reached codec channel executor (events ++ [event])) id stream →
      ∃ task pending response, event = .validationDone task (.ok ()) true ∧
        SortedMap.get id (reached codec channel executor events).pendingHandshakes = some pending ∧
        task.validationId = pending.validationId ∧ stream.instanceId = pending.validationId ∧
        executor.complete pending.handshake = .ok (stream.transport, response) ∧
        IsOwn codec channel executor events id pending task) ∧
    (∀ later event id instanceId, Superseded (reached codec channel executor events) id instanceId →
      ComesFrom id instanceId event →
      (reached codec channel executor (events ++ later ++ [event])).streams =
        (reached codec channel executor (events ++ later)).streams ∧
      (reached codec channel executor (events ++ later ++ [event])).pendingHandshakes =
        (reached codec channel executor (events ++ later)).pendingHandshakes) ∧
    (reached codec channel executor events).streams.length ≤ maxActiveNoiseRelayStreams ∧
    (reached codec channel executor events).pendingHandshakes.length ≤ maxPendingHandshakeValidations ∧
    (reached codec channel executor events).streams.length +
      (reached codec channel executor events).pendingHandshakes.length ≤
      maxActiveNoiseRelayStreams + maxPendingHandshakeValidations := by
  have hi := inv_reached codec channel executor events
  refine ⟨?_, ?_, hi.streamsLe, hi.pendingLe, Nat.add_le_add hi.streamsLe hi.pendingLe⟩
  · intro event id stream hb
    rw [reached_append] at hb
    obtain ⟨task, pending, response, he, hr, _, hw, ho, hn, hc⟩ := activated_cases hi hb
    exact ⟨task, pending, response, he, hw, ho, hn, hc, history_reached events id pending hw task hr ho⟩
  · intro later event id instanceId hs he
    rw [reached_append codec channel executor (events ++ later), reached_append]
    exact (hs.run hi later).inert he

/-- In every run no stream is active and pending at once, a pending handshake has a running check of its own, and a loop
that has stopped leaves none pending. -/
theorem pending_apart (events : List Event) :
    let relay := reached codec channel executor events
    (∀ id pending, SortedMap.get id relay.pendingHandshakes = some pending → SortedMap.get id relay.streams = none ∧
      ∃ task ∈ relay.validationTasks, task.streamId = id ∧ task.validationId = pending.validationId) ∧
    (relay.disconnected.isSome → relay.pendingHandshakes = []) := by
  intro relay
  have hi := inv_reached codec channel executor events
  exact ⟨fun id pending hp => ⟨hi.apart id pending hp, hi.checked id pending hp⟩, hi.stopped⟩

/-- An executor whose handshake carries nothing, to show a stream opening. -/
def openExecutor : Executor Unit Nat where
  environmentId := []
  executorRegistrationId := []
  readRequest _ _ := .ok ⟨(), ⟨[], [], []⟩, []⟩
  complete _ := .ok (0, [])

def openingFrame : Event := .incoming (.binary (.ok (.handshake "a".toList [1]))) 0

def openingCheck : Event := .validationDone ⟨"a".toList, 0, ⟨[], [], []⟩, []⟩ (.ok ()) true

theorem opens_after_check : BecomesActive (reached flagCodec countingChannel openExecutor [openingFrame])
    (reached flagCodec countingChannel openExecutor ([openingFrame] ++ [openingCheck])) "a".toList
    (spawnNoiseVirtualStream 0 0) := by
  refine ⟨by rfl, ?_⟩
  intro old ho
  cases ho

/-- A second handshake of a stream takes the first one away. -/
theorem superseded_by_second_handshake :
    Superseded (reached flagCodec countingChannel openExecutor [openingFrame, openingFrame]) "a".toList 0 := by
  refine ⟨by decide, fun stream h => ?_, fun pending h => ?_⟩
  · cases h
  · cases h

/-- The check opens the stream of its own handshake; behind a second handshake the same check opens nothing. -/
theorem opened_stream_is_own :
    (∃ task pending, IsOwn flagCodec countingChannel openExecutor [openingFrame] "a".toList pending task) ∧
      (reached flagCodec countingChannel openExecutor ([openingFrame, openingFrame] ++ [openingCheck])).streams = [] ∧
      (reached flagCodec countingChannel openExecutor [openingFrame]).streams.length ≤ maxActiveNoiseRelayStreams := by
  obtain ⟨hown, -, hlimit, -⟩ := activated_by_own_handshake flagCodec countingChannel openExecutor [openingFrame]
  obtain ⟨-, hlate, -⟩ :=
    activated_by_own_handshake flagCodec countingChannel openExecutor [openingFrame, openingFrame]
  obtain ⟨task, pending, _, _, _, _, _, _, ho⟩ := hown _ _ _ opens_after_check
  have hstreams := (hlate [] openingCheck _ _ superseded_by_second_handshake ⟨rfl, rfl⟩).1
  exact ⟨⟨task, pending, ho⟩, hstreams, hlimit⟩

end RelayActivation
