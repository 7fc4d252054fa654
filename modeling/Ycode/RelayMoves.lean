import Ycode.RelayLoop

/-!
# What a turn of the relay loop can do

A turn drops streams and pending handshakes, reads data into an active stream, opens one handshake or activates
one stream. The books of the loop are kept by each of these.
-/
namespace RelayMoves

open RustStr MessageFraming OrderedCiphertext NoiseRelay RelayLoop List

section Moves

/-- A handshake, data or reset frame for the stream. -/
def Touches (streamId : Str) : Event → Prop
  | .incoming (.binary (.ok frame)) _ =>
    frame.streamId = streamId ∧
      (validate frame = .ok .handshake ∨ validate frame = .ok .data ∨ validate frame = .ok .reset)
  | _ => False

variable {μ σ η ρ : Type}

/-- A turn that opens nothing: streams, pending handshakes and running checks can only go. A frame for a stream
that is not active ends its pending handshake, and a check that ends leaves no handshake waiting for it. -/
structure Drops (relay : Relay η ρ) (event : Event) (relay' : Relay η ρ) : Prop where
  streams : relay'.streams.Sublist relay.streams
  pending : relay'.pendingHandshakes.Sublist relay.pendingHandshakes
  tasks : relay'.validationTasks.Sublist relay.validationTasks
  next : relay'.nextValidationId = relay.nextValidationId
  touched : ∀ id, Touches id event → SortedMap.get id relay'.pendingHandshakes = none ∨
    (SortedMap.get id relay.streams).isSome
  running : ∀ task ∈ relay.validationTasks, task ∈ relay'.validationTasks ∨
    ∀ pending, SortedMap.get task.streamId relay'.pendingHandshakes = some pending →
      pending.validationId ≠ task.validationId
  stopped : relay'.disconnected.isSome → relay'.pendingHandshakes = [] ∨ relay.disconnected.isSome

variable {relay relay' : Relay η ρ}

theorem Drops.idle (h : ∀ id, Touches id event → SortedMap.get id relay.pendingHandshakes = none ∨
    (SortedMap.get id relay.streams).isSome) : Drops relay event relay where
  streams := List.Sublist.refl _
  pending := List.Sublist.refl _
  tasks := List.Sublist.refl _
  next := rfl
  touched := h
  running := fun _ hm => .inl hm
  stopped := .inr

theorem Drops.sendReset (h : Drops relay event relay') (id : Str) : Drops relay event (sendReset relay' id) :=
  ⟨h.streams, h.pending, h.tasks, h.next, h.touched, h.running, h.stopped⟩

theorem Drops.disconnect (h : relay'.nextValidationId = relay.nextValidationId)
    (reason : RendezvousDisconnectReason) : Drops relay event (disconnect relay' reason) where
  streams := nil_sublist _
  pending := nil_sublist _
  tasks := nil_sublist _
  next := h
  touched := fun _ _ => .inl rfl
  running := fun _ _ => .inr fun _ hg => by cases hg
  stopped := fun _ => .inl rfl

theorem Drops.chargeFailure (h : Drops relay event relay') : Drops relay event (chargeFailure relay') := by
  unfold RelayLoop.chargeFailure
  simp only
  split
  · refine .disconnect ?_ _
    exact h.next
  · exact ⟨h.streams, h.pending, h.tasks, h.next, h.touched, h.running, h.stopped⟩

theorem Drops.removeStream (h : Drops relay event relay') (id : Str) : Drops relay event (removeStream relay' id) :=
  ⟨filter_sublist.trans h.streams, h.pending, h.tasks, h.next, h.touched, h.running, h.stopped⟩

/-- A frame for the stream ends the pending handshake. -/
theorem Drops.removePending {id : Str} (h : ∀ x, Touches x event → x = id) :
    Drops relay event (removePending relay id) where
  streams := List.Sublist.refl _
  pending := filter_sublist
  tasks := List.Sublist.refl _
  next := rfl
  touched := by
    intro x ho
    rw [h x ho]
    exact .inl (by rw [RelayLoop.removePending, SortedMap.get_erase, if_pos rfl])
  running := fun _ hm => .inl hm
  stopped := .inr

variable (executor : Executor η ρ)

/-- Everything one turn of the loop can do. -/
inductive Moves (relay : Relay η ρ) (event : Event) (relay' : Relay η ρ) : Prop where
  | drops (h : Drops relay event relay')
  | received (id : Str) (stream stream' : VirtualStream ρ) (touched : ∀ other, Touches other event → other = id)
      (current : SortedMap.get id relay.streams = some stream) (sameInstance : stream'.instanceId = stream.instanceId)
      (next : relay' = { relay with streams := SortedMap.insert id stream' relay.streams })
  | opened (frame : RelayMessageFrame) (room : Nat) (request : Bytes) (pending : PendingResponderHandshake η)
      (authorization : Str) (live : relay.disconnected = none) (frameEvent : event = .incoming (.binary (.ok frame)) room)
      (valid : validate frame = .ok .handshake) (payload : intoHandshakePayload frame = .ok request)
      (inactive : SortedMap.get frame.streamId relay.streams = none)
      (free : SortedMap.get frame.streamId relay.pendingHandshakes = none)
      (room : relay.validationTasks.length < maxPendingHandshakeValidations)
      (readable : executor.readRequest (noiseChannelPrologue executor.environmentId
        executor.executorRegistrationId frame.streamId) request = .ok pending)
      (authorized : authorizationOf pending.payload = some authorization)
      (next : relay' = spawnValidation relay frame.streamId pending authorization)
  | activated (task : HarnessKeyValidation) (pending : PendingHandshake η) (transport : ρ) (response : Bytes)
      (doneEvent : event = .validationDone task (.ok ()) true) (running : task ∈ relay.validationTasks)
      (waiting : SortedMap.get task.streamId relay.pendingHandshakes = some pending)
      (own : pending.validationId = task.validationId)
      (room : relay.streams.length < maxActiveNoiseRelayStreams)
      (completed : executor.complete pending.handshake = .ok (transport, response))
      (next : relay' = { relay with
        validationTasks := relay.validationTasks.erase task
        pendingHandshakes := SortedMap.erase task.streamId relay.pendingHandshakes
        outgoing := relay.outgoing ++ [.handshake task.streamId response]
        streams := SortedMap.insert task.streamId (spawnNoiseVirtualStream task.validationId transport)
          relay.streams })

theorem handshakeFrame_moves (hl : relay.disconnected = none) (hv : validate frame = .ok .handshake) :
    Moves executor relay (.incoming (.binary (.ok frame)) room) (handshakeFrame executor relay frame) := by
  have ht : ∀ x, Touches x (.incoming (.binary (.ok frame)) room) → x = frame.streamId :=
    fun x ho => ho.1.symm
  unfold handshakeFrame
  simp only
  split
  · rename_i hc
    exact .drops (.sendReset (.idle fun x ho => .inr (ht x ho ▸ hc)) _)
  · rename_i hi
    split
    · exact .drops (.chargeFailure (.sendReset (.removePending ht) _))
    · rename_i hf
      rw [Option.not_isSome_iff_eq_none] at hi hf
      have hidle : Drops relay (.incoming (.binary (.ok frame)) room) relay :=
        .idle fun x ho => .inl (ht x ho ▸ hf)
      split
      · exact .drops (.sendReset hidle _)
      · split
        · exact .drops (.sendReset hidle _)
        · rename_i hroom
          split
          · exact .drops (.sendReset hidle _)
          · rename_i req hr
            split
            · exact .drops (.chargeFailure (.sendReset hidle _))
            · rename_i pend hp
              split
              · exact .drops (.chargeFailure (.sendReset hidle _))
              · rename_i auth ha
                exact .opened frame room req pend auth hl rfl hv hr hi hf
                  (Nat.not_le.mp hroom) hp ha rfl

theorem receiveInto_instanceId {stream stream' : VirtualStream ρ}
    {data : RelayData} (h : receiveInto codec channel stream data room = .ok stream') :
    stream'.instanceId = stream.instanceId := by
  unfold receiveInto at h
  split at h
  · cases h
  · split at h
    · cases h
      rfl
    · cases h

variable (codec : JsonCodec μ) (channel : NoiseChannel σ ρ)

theorem dataFrame_moves :
    Moves executor relay (.incoming (.binary (.ok frame)) room) (dataFrame codec channel relay frame room) := by
  have ht : ∀ x, Touches x (.incoming (.binary (.ok frame)) room) → x = frame.streamId :=
    fun x ho => ho.1.symm
  unfold dataFrame
  simp only
  split
  · have hc : Drops relay (.incoming (.binary (.ok frame)) room)
        (sendReset (removePending relay frame.streamId) frame.streamId) := .sendReset (.removePending ht) _
    split
    · exact .drops (.chargeFailure hc)
    · exact .drops hc
  · rename_i stream ha
    have hi : Drops relay (.incoming (.binary (.ok frame)) room) relay :=
      .idle fun x ho => .inr (by rw [ht x ho, ha]; rfl)
    split
    · exact .drops (.sendReset (.removeStream hi _) _)
    · split
      · exact .drops (.sendReset (.removeStream hi _) _)
      · rename_i stream' hr
        exact .received frame.streamId stream stream' ht ha (receiveInto_instanceId hr) rfl

theorem processFrame_moves (hl : relay.disconnected = none) :
    Moves executor relay (.incoming (.binary (.ok frame)) room)
      (processFrame codec channel executor relay frame room) := by
  have ht : ∀ x, Touches x (.incoming (.binary (.ok frame)) room) → x = frame.streamId :=
    fun x ho => ho.1.symm
  have hi : (∀ kind ∈ [RelayFrameBodyKind.handshake, .data, .reset], validate frame ≠ .ok kind) →
      Drops relay (.incoming (.binary (.ok frame)) room) relay := by
    intro hk
    refine .idle fun x ho => ?_
    rcases ho.2 with h | h | h
    all_goals exact absurd h (hk _ (by simp))
  unfold processFrame
  split
  · rename_i h
    exact .drops (hi (by simp [h]))
  · rename_i h
    exact handshakeFrame_moves executor hl h
  · exact dataFrame_moves executor codec channel
  · exact .drops (.removeStream (.removePending ht) _)
  all_goals
    rename_i h
    exact .drops (hi (by simp [h]))

/-- The check is over and nothing waits for it. -/
theorem drops_finished (h : ∀ id, ¬Touches id event)
    (hs : ∀ pending, SortedMap.get task.streamId relay.pendingHandshakes = some pending →
      pending.validationId ≠ task.validationId) :
    Drops relay event { relay with validationTasks := relay.validationTasks.erase task } where
  streams := List.Sublist.refl _
  pending := List.Sublist.refl _
  tasks := erase_sublist
  next := rfl
  touched := fun id hid => absurd hid (h id)
  running := by
    intro x ho
    by_cases he : x = task
    · exact .inr (he ▸ hs)
    · exact .inl ((mem_erase_of_ne he).mpr ho)
  stopped := .inr

/-- The check is over and so is the handshake. -/
theorem drops_refused (h : ∀ id, ¬Touches id event) :
    Drops relay event (removePending { relay with validationTasks := relay.validationTasks.erase task }
      task.streamId) where
  streams := List.Sublist.refl _
  pending := filter_sublist
  tasks := erase_sublist
  next := rfl
  touched := fun id hid => absurd hid (h id)
  running := by
    intro x ho
    by_cases he : x = task
    · refine .inr fun pending hg => ?_
      rw [he, removePending, SortedMap.get_erase, if_pos rfl] at hg
      cases hg
    · exact .inl ((mem_erase_of_ne he).mpr ho)
  stopped := .inr

theorem validated_moves (hi : task ∈ relay.validationTasks) :
    Moves executor relay (.validationDone task result queued)
      (validated executor { relay with validationTasks := relay.validationTasks.erase task } task result queued) := by
  have hu : ∀ id, ¬Touches id (.validationDone task result queued) := fun _ => id
  have hr : Drops relay (.validationDone task result queued) (removePending
      { relay with validationTasks := relay.validationTasks.erase task } task.streamId) := drops_refused hu
  unfold validated
  split
  · rename_i hn
    exact .drops (drops_finished hu (by simp [hn]))
  · rename_i pend hw
    split
    · rename_i hown
      cases result with
      | error msg => exact .drops (.chargeFailure (.sendReset hr _))
      | ok _ =>
        simp only
        unfold activate
        split
        · exact .drops (.sendReset hr _)
        · rename_i hroom
          split
          · exact .drops (.chargeFailure (.sendReset hr _))
          · rename_i tr resp hc
            cases queued with
            | false => exact .drops (.disconnect rfl _)
            | true =>
              exact .activated task pend tr resp rfl hi hw hown (Nat.not_le.mp hroom)
                hc rfl
    · rename_i hs
      refine .drops (drops_finished hu fun x ho => ?_)
      cases hw.symm.trans ho
      exact hs

theorem drops_lost : Drops relay (.validationFailed task)
    (validationLost { relay with validationTasks := relay.validationTasks.erase task }) where
  streams := List.Sublist.refl _
  pending := nil_sublist _
  tasks := erase_sublist
  next := rfl
  touched := fun _ _ => .inl rfl
  running := fun _ _ => .inr fun _ hg => by cases hg
  stopped := .inr

theorem drops_closed : Drops relay (.closedStream closed) (streamClosed relay closed) := by
  have hi : Drops relay (.closedStream closed) relay := .idle fun _ hid => hid.elim
  unfold streamClosed
  split
  · exact hi
  · split
    · exact .removeStream hi _
    · exact hi

theorem step_moves (hs : relay.disconnected.isSome → relay.pendingHandshakes = []) :
    Moves executor relay event (step codec channel executor relay event) := by
  unfold step
  split
  · rename_i he
    exact .drops (.idle fun id _ => .inl (by rw [hs he]; rfl))
  · have hi : (∀ id, ¬Touches id event) → Moves executor relay event relay :=
      fun h => .drops (.idle fun id hid => absurd hid (h id))
    split
    · exact .drops (.disconnect rfl _)
    · exact .drops (drops_closed)
    · split
      · exact validated_moves executor ‹_›
      · exact hi fun _ => id
    · split
      · exact .drops (drops_lost)
      · exact hi fun _ => id
    · exact processFrame_moves executor codec channel (Option.not_isSome_iff_eq_none.mp ‹_›)
    · exact hi fun _ => id
    · exact .drops (.disconnect rfl _)
    · exact .drops (.disconnect rfl _)
    all_goals exact hi fun _ => id

end Moves

variable {μ σ η ρ : Type} (codec : JsonCodec μ) (channel : NoiseChannel σ ρ) (executor : Executor η ρ)

/-- What holds whenever the loop waits for its next event. -/
structure Inv (relay : Relay η ρ) : Prop where
  streamsSorted : SortedMap.Sorted relay.streams
  pendingSorted : SortedMap.Sorted relay.pendingHandshakes
  streamIssued : ∀ id stream, SortedMap.get id relay.streams = some stream →
    stream.instanceId < relay.nextValidationId
  pendingIssued : ∀ id pending, SortedMap.get id relay.pendingHandshakes = some pending →
    pending.validationId < relay.nextValidationId
  apart : ∀ id pending, SortedMap.get id relay.pendingHandshakes = some pending →
    SortedMap.get id relay.streams = none
  checked : ∀ id pending, SortedMap.get id relay.pendingHandshakes = some pending →
    ∃ task ∈ relay.validationTasks, task.streamId = id ∧ task.validationId = pending.validationId
  taskIssued : ∀ task ∈ relay.validationTasks, task.validationId < relay.nextValidationId
  tasksLe : relay.validationTasks.length ≤ maxPendingHandshakeValidations
  streamsLe : relay.streams.length ≤ maxActiveNoiseRelayStreams
  stopped : relay.disconnected.isSome → relay.pendingHandshakes = []

theorem inv_start : Inv (start : Relay η ρ) where
  streamsSorted := List.Pairwise.nil
  pendingSorted := List.Pairwise.nil
  streamIssued := by simp [start]
  pendingIssued := by simp [start]
  apart := by simp [start]
  checked := by simp [start]
  taskIssued := by simp [start]
  tasksLe := Nat.zero_le _
  streamsLe := Nat.zero_le _
  stopped := by simp [start]

theorem Drops.inv (h : Drops relay event relay') (hi : Inv relay) : Inv relay' := by
  have hs : ∀ id stream, SortedMap.get id relay'.streams = some stream →
      SortedMap.get id relay.streams = some stream :=
    fun _ _ => SortedMap.get_of_sublist hi.streamsSorted h.streams
  have hp : ∀ id pend, SortedMap.get id relay'.pendingHandshakes = some pend →
      SortedMap.get id relay.pendingHandshakes = some pend :=
    fun _ _ => SortedMap.get_of_sublist hi.pendingSorted h.pending
  constructor
  case streamsSorted => exact hi.streamsSorted.sublist h.streams
  case pendingSorted => exact hi.pendingSorted.sublist h.pending
  case streamIssued => exact fun id stream hg => h.next ▸ hi.streamIssued id stream (hs id stream hg)
  case pendingIssued => exact fun id pend hg => h.next ▸ hi.pendingIssued id pend (hp id pend hg)
  case apart =>
    intro id pend hg
    have hn := hi.apart id pend (hp id pend hg)
    rw [Option.eq_none_iff_forall_ne_some] at hn ⊢
    exact fun stream ha => hn stream (hs id stream ha)
  case checked =>
    intro id pend hg
    obtain ⟨task, hm, rfl, hid⟩ := hi.checked id pend (hp id pend hg)
    rcases h.running task hm with hstill | ho
    · exact ⟨task, hstill, rfl, hid⟩
    · exact absurd hid.symm (ho pend hg)
  case taskIssued => exact fun task hm => h.next ▸ hi.taskIssued task (h.tasks.subset hm)
  case tasksLe => exact h.tasks.length_le.trans hi.tasksLe
  case streamsLe => exact h.streams.length_le.trans hi.streamsLe
  case stopped =>
    intro he
    rcases h.stopped he with hnil | hb
    · exact hnil
    · exact sublist_nil.mp (hi.stopped hb ▸ h.pending)

theorem Inv.receive (hi : Inv relay) {id : Str} {stream stream' : VirtualStream ρ}
    (hc : SortedMap.get id relay.streams = some stream) (hs : stream'.instanceId = stream.instanceId) :
    Inv { relay with streams := SortedMap.insert id stream' relay.streams } where
  streamsSorted := hi.streamsSorted.insert id stream'
  pendingSorted := hi.pendingSorted
  streamIssued := by
    intro x found hg
    rw [SortedMap.get_insert] at hg
    split at hg
    · cases hg
      rw [hs]
      exact hi.streamIssued id stream hc
    · exact hi.streamIssued x found hg
  pendingIssued := hi.pendingIssued
  apart := by
    intro x pend hg
    have hn := hi.apart x pend hg
    rw [SortedMap.get_insert, if_neg]
    · exact hn
    · rintro rfl
      rw [hc] at hn
      cases hn
  checked := hi.checked
  taskIssued := hi.taskIssued
  tasksLe := hi.tasksLe
  streamsLe := by
    rw [SortedMap.length_insert_of_some hi.streamsSorted hc]
    exact hi.streamsLe
  stopped := hi.stopped

theorem Inv.spawnValidation (hi : Inv relay) {id : Str} (hl : relay.disconnected = none)
    (hc : SortedMap.get id relay.streams = none)
    (hr : relay.validationTasks.length < maxPendingHandshakeValidations) (pend : PendingResponderHandshake η)
    (auth : Str) : Inv (spawnValidation relay id pend auth) where
  streamsSorted := hi.streamsSorted
  pendingSorted := hi.pendingSorted.insert ..
  streamIssued := fun x stream hg => Nat.lt_succ_of_lt (hi.streamIssued x stream hg)
  pendingIssued := by
    intro x found hg
    rw [RelayLoop.spawnValidation, SortedMap.get_insert] at hg
    split at hg
    · cases hg
      exact Nat.lt_succ_self _
    · exact Nat.lt_succ_of_lt (hi.pendingIssued x found hg)
  apart := by
    intro x found hg
    rw [RelayLoop.spawnValidation, SortedMap.get_insert] at hg
    split at hg
    · rename_i heq
      exact heq ▸ hc
    · exact hi.apart x found hg
  checked := by
    intro x found hg
    rw [RelayLoop.spawnValidation, SortedMap.get_insert] at hg
    split at hg
    · rename_i heq
      cases hg
      exact ⟨_, mem_append_right _ (mem_singleton_self _), heq, rfl⟩
    · obtain ⟨task, hm, hid, hv⟩ := hi.checked x found hg
      exact ⟨task, mem_append_left _ hm, hid, hv⟩
  taskIssued := by
    intro task hm
    rcases mem_append.mp hm with ho | hn
    · exact Nat.lt_succ_of_lt (hi.taskIssued task ho)
    · rw [mem_singleton.mp hn]
      exact Nat.lt_succ_self _
  tasksLe := by
    rw [RelayLoop.spawnValidation, length_append]
    exact hr
  streamsLe := hi.streamsLe
  stopped := fun he => by rw [RelayLoop.spawnValidation, hl] at he; cases he

theorem Inv.activate (hi : Inv relay) {task : HarnessKeyValidation}
    (hw : SortedMap.get task.streamId relay.pendingHandshakes = some pending)
    (ho : pending.validationId = task.validationId)
    (hr : relay.streams.length < maxActiveNoiseRelayStreams) (tr : ρ) (outgoing : List RelayMessageFrame) :
    Inv { relay with
      validationTasks := relay.validationTasks.erase task
      pendingHandshakes := SortedMap.erase task.streamId relay.pendingHandshakes
      outgoing
      streams := SortedMap.insert task.streamId (spawnNoiseVirtualStream task.validationId tr)
        relay.streams } where
  streamsSorted := hi.streamsSorted.insert ..
  pendingSorted := hi.pendingSorted.erase _
  streamIssued := by
    intro x stream hg
    rw [SortedMap.get_insert] at hg
    split at hg
    · cases hg
      exact ho ▸ hi.pendingIssued task.streamId pending hw
    · exact hi.streamIssued x stream hg
  pendingIssued := fun x found hg => hi.pendingIssued x found
    (SortedMap.get_of_sublist hi.pendingSorted filter_sublist hg)
  apart := by
    intro x found hg
    rw [SortedMap.get_erase] at hg
    split at hg
    · cases hg
    · rename_i hne
      rw [SortedMap.get_insert, if_neg hne]
      exact hi.apart x found hg
  checked := by
    intro x found hg
    rw [SortedMap.get_erase] at hg
    split at hg
    · cases hg
    · rename_i hne
      obtain ⟨running, hm, hid, hv⟩ := hi.checked x found hg
      refine ⟨running, (mem_erase_of_ne ?_).mpr hm, hid, hv⟩
      rintro rfl
      exact hne hid
  taskIssued := fun x hm => hi.taskIssued x (mem_of_mem_erase hm)
  tasksLe := erase_sublist.length_le.trans hi.tasksLe
  streamsLe := by
    rw [(ReorderBuffer.insert_perm (hi.apart _ _ hw)).length_eq]
    exact hr
  stopped := fun he => by rw [hi.stopped he]; rfl

theorem Inv.step (hi : Inv relay) (ev : Event) : Inv (step codec channel executor relay ev) := by
  cases step_moves executor codec channel hi.stopped with
  | drops h => exact h.inv hi
  | received id stream stream' _ hc hs hn => exact hn ▸ hi.receive hc hs
  | opened frame room req pend auth hl _ _ _ ht _ hr _ _ hn =>
    exact hn ▸ hi.spawnValidation hl ht hr pend auth
  | activated task pend tr resp _ _ hw ho hr _ hn => exact hn ▸ hi.activate hw ho hr tr _

theorem inv_reached (evs : List Event) : Inv (reached codec channel executor evs) :=
  Runs.invariant (fun _ ev hi => hi.step codec channel executor ev) inv_start evs

/-- Every pending handshake has a check of its own, so there are no more of them than checks. -/
theorem Inv.pendingLe (hi : Inv relay) : relay.pendingHandshakes.length ≤ maxPendingHandshakeValidations := by
  have hn : (relay.pendingHandshakes.map (·.1)).Nodup := by
    rw [nodup_iff_pairwise_ne, pairwise_map]
    exact hi.pendingSorted.imp fun hlt => ne_of_lt hlt
  have hs : relay.pendingHandshakes.map (·.1) ⊆ relay.validationTasks.map (·.streamId) := by
    intro id hid
    obtain ⟨e, he, rfl⟩ := mem_map.mp hid
    obtain ⟨task, hm, ht, _⟩ := hi.checked _ _ (SortedMap.get_of_mem hi.pendingSorted he)
    exact mem_map.mpr ⟨task, hm, ht⟩
  have hle := (subperm_of_subset hn hs).length_le
  rw [length_map, length_map] at hle
  exact hle.trans hi.tasksLe

end RelayMoves
