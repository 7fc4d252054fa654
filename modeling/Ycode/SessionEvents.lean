import Ycode.LocalProcess
import Ycode.ReorderBuffer

/-!
# The client's view of a remote process

Notifications of one process come from different tasks of the server and arrive in any order. The session
keeps early events until their predecessors are published, and after a reconnect it fills its gaps from the
server's retained output.
-/
namespace SessionEvents

open RustStr LocalProcess List

def maxPendingProcessEvents : Nat := 256

def maxPendingProcessEventBytes : Nat := 1024 * 1024

/-- The ordered events behind the lock, and the log of everything published to subscribers. -/
structure SessionState where
  lastPublishedSeq : Nat
  exitPublished : Bool
  closedPublished : Bool
  pending : List (Nat × ExecProcessEvent)
  pendingBytes : Nat
  failure : Option Str
  events : List ExecProcessEvent

def SessionState.new : SessionState :=
  { lastPublishedSeq := 0, exitPublished := false, closedPublished := false, pending := [], pendingBytes := 0,
    failure := none, events := [] }

def isExited (event : ExecProcessEvent) : Bool := event.exitCode?.isSome

def pendingProcessEventBytes : ExecProcessEvent → Nat
  | .output chunk => chunk.chunk.length
  | .failed message => (message.map (·.utf8Size)).sum
  | .exited _ _ => 0
  | .closed _ => 0

def bufferEntriesText : Str :=
  "process event reorder buffer exceeds ".toList ++ (toString maxPendingProcessEvents).toList ++ " entries".toList

def eventBytesText : Str :=
  "process event exceeds ".toList ++ (toString maxPendingProcessEventBytes).toList ++ " bytes".toList

def bufferBytesText : Str :=
  "process event reorder buffer exceeds ".toList ++ (toString maxPendingProcessEventBytes).toList ++ " bytes".toList

def insertPending (state : SessionState) (event : ExecProcessEvent) : Except Str SessionState :=
  match event.seq with
  | none => .error "cannot reorder an unsequenced process event".toList
  | some seq =>
    if (SortedMap.get seq state.pending).isSome then .ok state
    else
      let closesGap := seq = state.lastPublishedSeq + 1
      if ¬closesGap ∧ state.pending.length ≥ maxPendingProcessEvents then .error bufferEntriesText
      else if pendingProcessEventBytes event > maxPendingProcessEventBytes then .error eventBytesText
      else if ¬closesGap ∧ state.pendingBytes + pendingProcessEventBytes event > maxPendingProcessEventBytes then
        .error bufferBytesText
      else .ok { state with
        pending := SortedMap.insert seq event state.pending
        pendingBytes := state.pendingBytes + pendingProcessEventBytes event }

/-- Publishes the next event, which was pending. -/
def publishNext (state : SessionState) (event : ExecProcessEvent) : SessionState :=
  { state with
    pending := SortedMap.erase (state.lastPublishedSeq + 1) state.pending
    pendingBytes := state.pendingBytes - pendingProcessEventBytes event
    lastPublishedSeq := state.lastPublishedSeq + 1
    exitPublished := state.exitPublished || isExited event
    closedPublished := state.closedPublished || event.isClosed
    events := state.events ++ [event] }

def publishReady (state : SessionState) : SessionState × Bool :=
  match _h : SortedMap.get (state.lastPublishedSeq + 1) state.pending with
  | none => (state, false)
  | some event =>
    let (state, publishedClosed) := publishReady (publishNext state event)
    (state, event.isClosed || publishedClosed)
termination_by state.pending.length
decreasing_by exact ReorderBuffer.length_erase_lt _h

/-- A section that keeps its changes when it fails. -/
abbrev Outcome (α : Type) := EStateM.Result Str SessionState α

def Outcome.state {α : Type} : Outcome α → SessionState
  | .ok _ state => state
  | .error _ state => state

def insertAndPublish (state : SessionState) (event : ExecProcessEvent) : Outcome Bool :=
  match insertPending state event with
  | .error message => .error message state
  | .ok state => .ok (publishReady state).2 (publishReady state).1

def publishOrderedEvent (state : SessionState) (event : ExecProcessEvent) : Outcome Bool :=
  match event.seq with
  | none => .ok false { state with events := state.events ++ [event] }
  | some seq =>
    if state.failure.isSome ∨ state.closedPublished ∨ seq ≤ state.lastPublishedSeq then .ok false state
    else insertAndPublish state event

def setFailure (state : SessionState) (message : Str) : SessionState :=
  if state.failure.isSome ∨ state.closedPublished then state
  else { state with
    failure := some message, pending := [], pendingBytes := 0, events := state.events ++ [.failed message] }

/-- A notification: what it publishes, and the failure of the session when it cannot be kept. -/
def handleNotification (state : SessionState) (event : ExecProcessEvent) : SessionState :=
  match publishOrderedEvent state event with
  | .ok _ state => state
  | .error message state => setFailure state message

def noExitCodeText : Str := "recovering exited process did not include its exit code".toList

def recoveryGapError (targetSeq : Nat) : Str :=
  "process events are no longer retained while recovering through sequence ".toList ++ (toString targetSeq).toList

/-- The gap before a recovered chunk is taken for the exit; returns whether `closed` got published and whether
the exit is known now. -/
def fillExitGap (exited : Bool) (exitCode : Option Int) (exitKnown : Bool) (chunkSeq : Nat) (state : SessionState) :
    Outcome (Bool × Bool) :=
  if exited ∧ ¬exitKnown ∧ chunkSeq > state.lastPublishedSeq + 1 then
    match exitCode with
    | none => .error noExitCodeText state
    | some exitCode =>
      match insertAndPublish state (.exited (state.lastPublishedSeq + 1) exitCode) with
      | .error message state => .error message state
      | .ok publishedClosed state => .ok (publishedClosed, true) state
  else .ok (false, exitKnown) state

def recoverChunk (chunk : ProcessOutputChunk) (state : SessionState) : Outcome Bool :=
  if chunk.seq > state.lastPublishedSeq then insertAndPublish state (.output chunk) else .ok false state

def recoverChunks (targetSeq : Nat) (exited : Bool) (exitCode : Option Int) :
    List ProcessOutputChunk → Bool → Bool → SessionState → Outcome (Bool × Bool)
  | [], publishedClosed, exitKnown, state => .ok (publishedClosed, exitKnown) state
  | chunk :: chunks, publishedClosed, exitKnown, state =>
    if chunk.seq > targetSeq then
      .error ("recovered process output sequence ".toList ++ (toString chunk.seq).toList ++
        " exceeds target sequence ".toList ++ (toString targetSeq).toList) state
    else match fillExitGap exited exitCode exitKnown chunk.seq state with
      | .error message state => .error message state
      | .ok (atExit, exitKnown) state =>
        match recoverChunk chunk state with
        | .error message state => .error message state
        | .ok atChunk state =>
          recoverChunks targetSeq exited exitCode chunks (publishedClosed || atExit || atChunk) exitKnown state

def closedPending (targetSeq : Nat) (state : SessionState) : Bool :=
  (SortedMap.get targetSeq state.pending).any (·.isClosed)

def recoverClosed (targetSeq : Nat) (closed : Bool) (state : SessionState) : Outcome Unit :=
  if closed ∧ ¬state.closedPublished ∧ ¬closedPending targetSeq state then
    match insertPending state (.closed targetSeq) with
    | .error message => .error message state
    | .ok state => .ok () state
  else .ok () state

/-- The numbers that wait, from the first unpublished one up to the target. -/
def retainedSeqs (targetSeq : Nat) (state : SessionState) : List Nat :=
  (state.pending.map (·.1)).filter fun seq => state.lastPublishedSeq + 1 ≤ seq ∧ seq ≤ targetSeq

def missingCount (targetSeq : Nat) (state : SessionState) : Nat :=
  let retainedCount := if state.lastPublishedSeq + 1 ≤ targetSeq then (retainedSeqs targetSeq state).length else 0
  targetSeq - state.lastPublishedSeq - retainedCount

def firstMissing (expected : Nat) : List Nat → Nat
  | [] => expected
  | seq :: seqs => if seq ≠ expected then expected else firstMissing (expected + 1) seqs

def firstMissingSeq (targetSeq : Nat) (state : SessionState) : Nat :=
  firstMissing (state.lastPublishedSeq + 1) (retainedSeqs targetSeq state)

def recoverExit (targetSeq : Nat) (exited : Bool) (exitCode : Option Int) (exitKnown : Bool) (state : SessionState) :
    Outcome Unit :=
  if exited ∧ ¬exitKnown then
    if missingCount targetSeq state ≠ 1 then .error (recoveryGapError targetSeq) state
    else match exitCode with
      | none => .error noExitCodeText state
      | some exitCode =>
        match insertPending state (.exited (firstMissingSeq targetSeq state) exitCode) with
        | .error message => .error message state
        | .ok state => .ok () state
  else if missingCount targetSeq state ≠ 0 then .error (recoveryGapError targetSeq) state
  else .ok () state

def exitPending (targetSeq : Nat) (state : SessionState) : Bool :=
  state.pending.any fun entry => entry.1 ≤ targetSeq ∧ isExited entry.2

def closeConflicts (targetSeq : Nat) (chunks : List ProcessOutputChunk) (state : SessionState) : Bool :=
  (SortedMap.get targetSeq state.pending).any (!·.isClosed) || chunks.any (·.seq = targetSeq)

def recoverEvents (response : ReadResponse) (state : SessionState) : Outcome Bool :=
  match response.failure with
  | some message => .error ("process failed while recovering: ".toList ++ message) state
  | none =>
    let targetSeq := response.nextSeq - 1
    if state.failure.isSome ∨ state.closedPublished ∨ targetSeq ≤ state.lastPublishedSeq then .ok false state
    else if response.closed ∧ closeConflicts targetSeq response.chunks state then
      .error ("process close sequence ".toList ++ (toString targetSeq).toList ++
        " conflicts with recovered output".toList) state
    else match recoverChunks targetSeq response.exited response.exitCode response.chunks false
        (state.exitPublished || exitPending targetSeq state) state with
      | .error message state => .error message state
      | .ok (publishedClosed, exitKnown) state =>
        match recoverClosed targetSeq response.closed state with
        | .error message state => .error message state
        | .ok _ state =>
          match recoverExit targetSeq response.exited response.exitCode exitKnown state with
          | .error message state => .error message state
          | .ok _ state => .ok (publishedClosed || (publishReady state).2) (publishReady state).1

open ReorderBuffer

/-- The event with a number; the first one has number one. -/
def eventAt (events : List ExecProcessEvent) : Nat → Option ExecProcessEvent
  | 0 => none
  | i + 1 => events[i]?

/-- The session has published the first events of the server's sequence, and a failure after them; the events
that wait belong to the rest of it. -/
structure Faithful (events : List ExecProcessEvent) (state : SessionState) : Prop where
  log : state.events = events.take state.lastPublishedSeq ++ (state.failure.map .failed).toList
  last_le : state.lastPublishedSeq ≤ events.length
  exitPublished : state.exitPublished = (events.take state.lastPublishedSeq).any isExited
  closedPublished : state.closedPublished = (events.take state.lastPublishedSeq).any (·.isClosed)
  sorted : SortedMap.Sorted state.pending
  pending : ∀ seq event, SortedMap.get seq state.pending = some event →
    state.lastPublishedSeq < seq ∧ eventAt events seq = some event
  bytes : state.pendingBytes = waiting pendingProcessEventBytes state.pending
  open_or_closed : state.failure = none ∨ state.closedPublished = false

/-- Nothing that waits is ready. -/
def Settled (state : SessionState) : Prop := SortedMap.get (state.lastPublishedSeq + 1) state.pending = none

theorem faithful_new (evs : List ExecProcessEvent) : Faithful evs SessionState.new where
  log := rfl
  last_le := Nat.zero_le _
  exitPublished := rfl
  closedPublished := rfl
  sorted := List.Pairwise.nil
  pending := by simp [SessionState.new]
  bytes := rfl
  open_or_closed := .inl rfl

theorem publishReady_none
    (h : SortedMap.get (state.lastPublishedSeq + 1) state.pending = none) : publishReady state = (state, false) := by
  rw [publishReady]
  split
  · rfl
  · rename_i hs
    rw [h] at hs
    cases hs

theorem publishReady_some (h : SortedMap.get (state.lastPublishedSeq + 1) state.pending = some event) :
    publishReady state = ((publishReady (publishNext state event)).1,
      event.isClosed || (publishReady (publishNext state event)).2) := by
  rw [publishReady]
  split
  · rename_i hn
    rw [h] at hn
    cases hn
  · rename_i hs
    rw [h] at hs
    cases hs
    rfl

/-- The state after the release of a run of events. -/
def publishRun (state : SessionState) (released : List ExecProcessEvent) (rest : List (Nat × ExecProcessEvent)) :
    SessionState :=
  { state with
    pending := rest
    pendingBytes := state.pendingBytes - BoundedQueue.total pendingProcessEventBytes released
    lastPublishedSeq := state.lastPublishedSeq + released.length
    exitPublished := state.exitPublished || released.any isExited
    closedPublished := state.closedPublished || released.any (·.isClosed)
    events := state.events ++ released }

/-- The loop drains the buffer. -/
theorem publishReady_eq (st : SessionState) :
    (publishReady st).1 = publishRun st (drain (st.lastPublishedSeq + 1) st.pending).1
      (drain (st.lastPublishedSeq + 1) st.pending).2 := by
  induction hn : st.pending.length using Nat.strong_induction_on generalizing st with
  | _ n ih =>
    cases hg : SortedMap.get (st.lastPublishedSeq + 1) st.pending with
    | none =>
      rw [publishReady_none hg, drain_none hg]
      simp [publishRun]
    | some ev =>
      rw [publishReady_some hg, drain_some hg, ih _ (hn ▸ length_erase_lt hg) (publishNext st ev) rfl]
      simp only [publishRun, publishNext, length_cons, BoundedQueue.total_cons, any_cons, Nat.sub_sub,
        Bool.or_assoc, append_assoc, singleton_append]
      congr 1
      omega

/-- What a call that publishes makes of the state: it moves on past numbers that waited or that it was given,
and leaves the rest of the buffer alone. -/
structure Moves (given : Nat → Prop) (before after : SessionState) : Prop where
  last_le : before.lastPublishedSeq ≤ after.lastPublishedSeq
  had : ∀ seq, before.lastPublishedSeq < seq → seq ≤ after.lastPublishedSeq →
    given seq ∨ SortedMap.get seq before.pending ≠ none
  kept : ∀ seq, after.lastPublishedSeq < seq → ¬given seq →
    SortedMap.get seq after.pending = SortedMap.get seq before.pending
  failure : after.failure = before.failure
  log : before.events <+: after.events

theorem publishReady_moves (hs : SortedMap.Sorted state.pending) :
    Moves (fun _ => False) state (publishReady state).1 := by
  rw [publishReady_eq]
  have hd := drain_drained (state.lastPublishedSeq + 1) hs
  generalize (drain (state.lastPublishedSeq + 1) state.pending).1 = released at hd ⊢
  refine ⟨Nat.le_add_right _ _, fun seq hl hh => .inr ?_, fun seq hseq _ => ?_, rfl, prefix_append ..⟩
  · have hi : seq - (state.lastPublishedSeq + 1) < released.length := by
      simp only [publishRun] at hh
      omega
    have hw := hd.waited _ _ (getElem?_eq_getElem hi)
    rw [show state.lastPublishedSeq + 1 + (seq - (state.lastPublishedSeq + 1)) = seq by omega] at hw
    simp [hw]
  · simp only [publishRun] at hseq ⊢
    rw [hd.kept, if_neg (by omega)]

theorem Faithful.publishReady (h : Faithful events state) (hlive : state.failure = none) :
    Faithful events (publishReady state).1 ∧ Settled (SessionEvents.publishReady state).1 := by
  rw [publishReady_eq]
  have hd := drain_drained (state.lastPublishedSeq + 1) h.sorted
  have hw := waiting_drain pendingProcessEventBytes (state.lastPublishedSeq + 1) h.sorted
  generalize (drain (state.lastPublishedSeq + 1) state.pending).1 = released at hd hw ⊢
  have ht : events.take (state.lastPublishedSeq + released.length) =
      events.take state.lastPublishedSeq ++ released := by
    refine take_released fun i item hi => ?_
    have ha := (h.pending _ _ (hd.waited i item hi)).2
    rwa [Nat.add_right_comm] at ha
  have hle : state.lastPublishedSeq + released.length ≤ events.length := by
    have hl := congrArg List.length ht
    rw [length_append, length_take, length_take, Nat.min_eq_left h.last_le] at hl
    omega
  constructor
  · constructor
    · simp [publishRun, h.log, hlive, ht]
    · exact hle
    · simp only [publishRun, h.exitPublished, ht, any_append]
    · simp only [publishRun, h.closedPublished, ht, any_append]
    · exact hd.sorted
    · intro seq ev hg
      simp only [publishRun] at hg ⊢
      rw [hd.kept] at hg
      split at hg
      · cases hg
      · obtain ⟨hlast, ha⟩ := h.pending seq ev hg
        exact ⟨by omega, ha⟩
    · simp only [publishRun, h.bytes, hw]
      omega
    · exact .inl hlive
  · have hs := hd.stopped
    rwa [Nat.add_right_comm] at hs

/-- The new entry keeps the bytes of the buffer right. -/
theorem insertPending_cases (hseq : event.seq = some seq) (h : insertPending state event = .ok state') :
    (state' = state ∧ SortedMap.get seq state.pending ≠ none) ∨
    (SortedMap.get seq state.pending = none ∧ state' = { state with
      pending := SortedMap.insert seq event state.pending
      pendingBytes := state.pendingBytes + pendingProcessEventBytes event }) := by
  simp only [insertPending, hseq] at h
  split at h
  · rename_i hs
    cases h
    exact .inl ⟨rfl, by simpa [Option.isSome_iff_ne_none] using hs⟩
  · rename_i hn
    refine .inr ⟨by simpa using hn, ?_⟩
    split at h
    · cases h
    · split at h
      · cases h
      · split at h
        · cases h
        · cases h
          rfl

theorem insertPending_moves (hseq : event.seq = some seq) (h : insertPending state event = .ok state') :
    Moves (· = seq) state state' ∧ state'.lastPublishedSeq = state.lastPublishedSeq ∧
      state'.events = state.events ∧ SortedMap.get seq state'.pending ≠ none := by
  rcases insertPending_cases hseq h with ⟨rfl, hs⟩ | ⟨hn, rfl⟩
  · exact ⟨⟨Nat.le_refl _, by omega, fun _ _ _ => rfl, rfl, prefix_refl _⟩, rfl, rfl, hs⟩
  · refine ⟨⟨Nat.le_refl _, by simp only; omega, fun x _ ho => ?_, rfl, prefix_refl _⟩, rfl, rfl, ?_⟩
    · simp only [SortedMap.get_insert, if_neg (Ne.symm ho)]
    · simp [SortedMap.get_insert]

theorem Faithful.insertPending (hf : Faithful events state) (hs : event.seq = some seq)
    (hl : state.lastPublishedSeq < seq) (ha : eventAt events seq = some event)
    (h : insertPending state event = .ok state') : Faithful events state' := by
  rcases insertPending_cases hs h with ⟨rfl, _⟩ | ⟨hn, rfl⟩
  · exact hf
  · refine ⟨hf.log, hf.last_le, hf.exitPublished, hf.closedPublished, hf.sorted.insert seq event, ?_, ?_,
      hf.open_or_closed⟩
    · intro key waiting hg
      simp only [SortedMap.get_insert] at hg
      split at hg
      · rename_i hk
        cases hg
        subst hk
        exact ⟨hl, ha⟩
      · exact hf.pending key waiting hg
    · simp only [waiting_insert pendingProcessEventBytes hn, hf.bytes]

theorem Moves.trans (ha : Moves p a b) (hbc : Moves q b c) :
    Moves (fun seq => p seq ∨ q seq) a c where
  last_le := ha.last_le.trans hbc.last_le
  had seq hl hh := by
    by_cases hb : seq ≤ b.lastPublishedSeq
    · exact (ha.had seq hl hb).imp_left .inl
    · rcases hbc.had seq (by omega) hh with hq | hg
      · exact .inl (.inr hq)
      · by_cases hp : p seq
        · exact .inl (.inl hp)
        · rw [ha.kept seq (by omega) hp] at hg
          exact .inr hg
  kept seq hs hn := by
    obtain ⟨hp, hq⟩ := not_or.mp hn
    rw [hbc.kept seq hs hq, ha.kept seq (lt_of_le_of_lt hbc.last_le hs) hp]
  failure := hbc.failure.trans ha.failure
  log := ha.log.trans hbc.log

/-- An event of the server's sequence that is kept and published as far as possible. -/
theorem Faithful.insertAndPublish (hf : Faithful events state)
    (hlive : state.failure = none) (hseq : event.seq = some seq)
    (hl : state.lastPublishedSeq < seq) (ha : eventAt events seq = some event)
    (h : insertAndPublish state event = .ok published state') :
    Faithful events state' ∧ Settled state' ∧ Moves (· = seq) state state' ∧
      (seq ≤ state'.lastPublishedSeq ∨ SortedMap.get seq state'.pending ≠ none) := by
  unfold SessionEvents.insertAndPublish at h
  split at h
  · cases h
  · rename_i inserted hi
    cases h
    obtain ⟨hm, _, _, ht⟩ := insertPending_moves hseq hi
    have hfi := hf.insertPending hseq hl ha hi
    obtain ⟨hfp, hs⟩ := hfi.publishReady (hm.failure.trans hlive)
    have hr := publishReady_moves hfi.sorted
    refine ⟨hfp, hs, ?_, ?_⟩
    · have htrans := hm.trans hr
      simpa only [or_false] using htrans
    · by_cases hd : seq ≤ (SessionEvents.publishReady inserted).1.lastPublishedSeq
      · exact .inl hd
      · rw [hr.kept seq (by omega) (by simp)]
        exact .inr ht

theorem insertAndPublish_error (h : insertAndPublish state event = .error message state') : state' = state := by
  unfold insertAndPublish at h
  split at h
  · cases h
    rfl
  · cases h

end SessionEvents
