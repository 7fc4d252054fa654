import Ycode.SessionEvents

/-!
# Recovering missed process events

A response of the server does not say which number the exit has. The session takes the first gap before a
recovered chunk for it. That is right unless the gap is output that the server has evicted; then an exit is
published in its place, and the order of events is lost.
-/
namespace EventRecovery

open RustStr LocalProcess SessionEvents
open List hiding after count

/-- The events of a process: numbered without a gap, one exit, `closed` at the end. -/
structure ServerSequence (events : List ExecProcessEvent) : Prop where
  numbered : Numbered events
  oneExit : (exits events).length = 1
  closedLast : ∃ before seq, events = before ++ [.closed seq] ∧ hasClosed before = false

/-- The events of a completed run are such a sequence. -/
theorem serverSequence_of_completed (tty : Bool) (actions : List LocalProcess.Action)
    (h : (Runs.run LocalProcess.step (spawn tty) actions).completed) :
    ServerSequence (Runs.run LocalProcess.step (spawn tty) actions).events := by
  have hc := run_consistent tty actions
  have hclosed : hasClosed (Runs.run LocalProcess.step (spawn tty) actions).events := by
    rcases hc.live with hclosed | ⟨pipe, hp⟩ | he
    · exact hclosed
    · exact absurd (h.1 pipe) hp
    · exact absurd h.2 he
  refine ⟨hc.numbered, ?_, (hc.last hclosed).2.2⟩
  rw [hc.oneExit, h.2]
  rfl

theorem eventAt_seq (h : Numbered events) (ha : eventAt events seq = some event) : event.seq = some seq := by
  cases seq with
  | zero => cases ha
  | succ i =>
    have hm : (events.map (·.seq))[i]? = some event.seq := by
      rw [getElem?_map, show events[i]? = some event from ha]
      rfl
    obtain ⟨hi, _⟩ := List.getElem?_eq_some_iff.mp (show events[i]? = some event from ha)
    rw [h, getElem?_map, getElem?_range hi] at hm
    exact (Option.some.inj hm).symm

theorem eventAt_mem (ha : eventAt events seq = some event) : event ∈ events := by
  cases seq with
  | zero => cases ha
  | succ i => exact mem_of_getElem? ha

theorem eventAt_of_mem (h : Numbered events)
    (hm : event ∈ events) : ∃ seq, event.seq = some seq ∧ eventAt events seq = some event := by
  obtain ⟨i, hi⟩ := mem_iff_getElem?.mp hm
  have ha : eventAt events (i + 1) = some event := hi
  exact ⟨i + 1, eventAt_seq h ha, ha⟩

theorem eventAt_take (hle : seq ≤ count) : eventAt (events.take count) seq = eventAt events seq := by
  cases seq with
  | zero => rfl
  | succ i => exact getElem?_take_of_lt hle

theorem exits_ne_nil (hm : event ∈ events) (he : isExited event) : exits events ≠ [] := by
  obtain ⟨code, hc⟩ := Option.isSome_iff_exists.mp he
  exact ne_nil_of_mem (mem_filterMap.mpr ⟨event, hm, hc⟩)

/-- Where the exit stands in the sequence. -/
structure ExitAt (events : List ExecProcessEvent) (seq : Nat) (exitCode : Int) : Prop where
  at_seq : eventAt events seq = some (.exited seq exitCode)
  only : ∀ other event, eventAt events other = some event → isExited event → other = seq

theorem ServerSequence.no_second_exit (h : ServerSequence events)
    (hi : eventAt events i = some first) (hj : eventAt events j = some second)
    (hf : isExited first) (hs : isExited second) : ¬i < j := by
  intro hlt
  have ho := h.oneExit
  rw [← take_append_drop i events, exits, filterMap_append, length_append] at ho
  have hl : exits (events.take i) ≠ [] := by
    have ha : eventAt (events.take i) i = some first := (eventAt_take (Nat.le_refl i)).trans hi
    exact exits_ne_nil (eventAt_mem ha) hf
  have hr : exits (events.drop i) ≠ [] := by
    cases j with
    | zero => cases hj
    | succ j =>
      refine exits_ne_nil (mem_of_getElem? (i := j - i) ?_) hs
      rw [getElem?_drop, show i + (j - i) = j by omega]
      exact hj
  have hl := length_pos_of_ne_nil hl
  have hr := length_pos_of_ne_nil hr
  unfold exits at hl hr
  omega

theorem ServerSequence.exitAt (h : ServerSequence events) : ∃ seq exitCode, ExitAt events seq exitCode := by
  have hne : exits events ≠ [] := by
    intro hn
    have hone := h.oneExit
    rw [hn] at hone
    cases hone
  obtain ⟨exitCode, hc⟩ := exists_mem_of_ne_nil _ hne
  obtain ⟨ev, hm, hevent⟩ := mem_filterMap.mp hc
  cases ev with
  | exited seq code =>
    cases hevent
    obtain ⟨at_seq, hs, ha⟩ := eventAt_of_mem h.numbered hm
    cases hs
    refine ⟨seq, exitCode, ha, fun x ev ho he => ?_⟩
    have hl := h.no_second_exit ho ha he rfl
    have hh := h.no_second_exit ha ho rfl he
    omega
  | _ => cases hevent

theorem ServerSequence.closedAt (h : ServerSequence events) :
    eventAt events events.length = some (.closed events.length) := by
  obtain ⟨pre, seq, he, _⟩ := h.closedLast
  have hn := h.numbered
  rw [he] at hn
  have hs := (numbered_append.mp hn).2
  simp only [ExecProcessEvent.seq, Option.some.injEq] at hs
  rw [he, hs, length_append, length_singleton]
  simp [eventAt]

theorem ServerSequence.closed_only (h : ServerSequence events)
    (ha : eventAt events seq = some event) (hc : event.isClosed) :
    seq = events.length := by
  obtain ⟨before, last, he, hb⟩ := h.closedLast
  cases seq with
  | zero => cases ha
  | succ i =>
    rw [he, length_append, length_singleton]
    rw [he] at ha
    by_cases hi : i < before.length
    · have hm : event ∈ before := mem_of_getElem? ((getElem?_append_left hi).symm.trans ha)
      have hany : hasClosed before = true := any_eq_true.mpr ⟨event, hm, hc⟩
      rw [hb] at hany
      cases hany
    · obtain ⟨hlt, _⟩ := List.getElem?_eq_some_iff.mp (show (before ++ [_])[i]? = some event from ha)
      rw [length_append, length_singleton] at hlt
      omega

theorem eventAt_published (h : published <+: events)
    (hle : seq ≤ published.length) : eventAt published seq = eventAt events seq := by
  rw [prefix_iff_eq_take.mp h, eventAt_take hle]

theorem mem_published (hn : Numbered published) (h : published <+: events) (hm : event ∈ published) :
    ∃ seq, seq ≤ published.length ∧ event.seq = some seq ∧ eventAt events seq = some event := by
  obtain ⟨seq, hs, ha⟩ := eventAt_of_mem hn hm
  have hle := (hn.seq_le hm hs).2
  exact ⟨seq, hle, hs, (eventAt_published h hle).symm.trans ha⟩

/-- Every exit among the published events is the one of the sequence. -/
theorem ExitAt.of_published
    (hexit : ExitAt events exitSeq exitCode) (hn : Numbered published) (h : published <+: events)
    (hm : code ∈ exits published) : exitSeq ≤ published.length ∧ code = exitCode := by
  obtain ⟨ev, he, hsome⟩ := mem_filterMap.mp hm
  obtain ⟨seq, hle, _, ha⟩ := mem_published hn h he
  have hs := hexit.only seq ev ha (by rw [isExited, hsome]; rfl)
  rw [hs, hexit.at_seq] at ha
  cases ha
  cases hsome
  exact ⟨hs ▸ hle, rfl⟩

theorem ExitAt.head_exits
    (hexit : ExitAt events exitSeq exitCode) (hn : Numbered published) (h : published <+: events) :
    (exits published).head? = if exitSeq ≤ published.length then some exitCode else none := by
  cases he : exits published with
  | nil =>
    rw [if_neg]
    · rfl
    · intro hle
      have ha := (eventAt_published h hle).trans hexit.at_seq
      exact exits_ne_nil (eventAt_mem ha) rfl he
  | cons code codes =>
    obtain ⟨hle, rfl⟩ := hexit.of_published hn h (he ▸ mem_cons_self)
    rw [if_pos hle, head?_cons]

/-- A process of the server when it has published a part of the sequence. -/
def Serves (events : List ExecProcessEvent) (process : RunningProcess) : Prop :=
  ∃ tty actions, (Runs.run LocalProcess.step (spawn tty) actions).process = some process ∧
    (Runs.run LocalProcess.step (spawn tty) actions).events <+: events

/-- What a response tells about the sequence. -/
structure Snapshot (events : List ExecProcessEvent) (exitSeq : Nat) (exitCode : Int) (response : ReadResponse) :
    Prop where
  failure : response.failure = none
  sorted : response.chunks.Pairwise fun a b => a.seq < b.seq
  chunks : ∀ chunk ∈ response.chunks, chunk.seq ≤ response.nextSeq - 1 ∧
    eventAt events chunk.seq = some (.output chunk) ∧ chunk.chunk.length ≤ maxPendingProcessEventBytes
  exited : response.exited = true ↔ exitSeq ≤ response.nextSeq - 1
  exitCode : response.exited = true → response.exitCode = some exitCode
  closed : response.closed = true → response.nextSeq - 1 = events.length

/-- A retained chunk is small enough to wait for its turn. -/
theorem chunk_le_of_fits {proc : RunningProcess}
    (hf : BoundedQueue.Fits chunkLen retainedOutputBytesPerProcess retainedOutputChunksPerProcess
      (proc.output, proc.retainedBytes)) (ho : chunk ∈ proc.output) :
    chunk.chunk.length ≤ maxPendingProcessEventBytes := by
  have hle := BoundedQueue.total_le_of_sublist chunkLen (singleton_sublist.mpr ho)
  have hl : BoundedQueue.total chunkLen proc.output ≤ retainedOutputBytesPerProcess := hf.total_items_le
  simp only [BoundedQueue.total_cons, BoundedQueue.total_nil, chunkLen] at hle
  simp only [maxPendingProcessEventBytes, retainedOutputBytesPerProcess] at hl ⊢
  omega

theorem execRead_snapshot (h : ServerSequence events)
    (hexit : ExitAt events exitSeq exitCode) {proc : RunningProcess} (hv : Serves events proc)
    (afterSeq : Nat) : Snapshot events exitSeq exitCode (execRead (some afterSeq) none proc) := by
  obtain ⟨tty, acts, hp, hs⟩ := hv
  obtain ⟨hnext, hr, hf, hcode, hclosed, _⟩ := (run_consistent tty acts).entry proc hp
  have hn := (run_consistent tty acts).numbered
  generalize (Runs.run LocalProcess.step (spawn tty) acts).events = published at *
  have ht : (execRead (some afterSeq) none proc).nextSeq - 1 = published.length := by
    simp [execRead, hnext]
  have hx := hcode.trans (hexit.head_exits hn hs)
  have hc := execRead_chunks afterSeq hf
  have hsorted := hn.outputs_sorted.sublist hr.sublist
  constructor
  · rfl
  · rw [hc]
    exact hsorted.sublist filter_sublist
  · intro c hchunk
    rw [hc] at hchunk
    have ho := mem_of_mem_filter hchunk
    obtain ⟨ev, he, hsome⟩ := mem_filterMap.mp (hr.mem ho)
    cases ev with
    | output c' =>
      cases hsome
      obtain ⟨seq, hle, hseq, hw⟩ := mem_published hn hs he
      cases hseq
      exact ⟨ht ▸ hle, hw, chunk_le_of_fits hf ho⟩
    | _ => cases hsome
  · rw [ht]
    simp only [execRead, hx]
    by_cases hle : exitSeq ≤ published.length <;> simp [hle]
  · simp only [execRead, hx]
    split <;> simp
  · intro hd
    have ha : hasClosed published = true := hclosed ▸ hd
    obtain ⟨ev, he, hi⟩ := any_eq_true.mp ha
    obtain ⟨seq, hle, _, hw⟩ := mem_published hn hs he
    have hlast := h.closed_only hw hi
    have hl := hs.length_le
    omega

theorem publishReady_log (st : SessionState) : st.events <+: (publishReady st).1.events := by
  rw [publishReady_eq]
  exact prefix_append ..

theorem insertPending_log (h : insertPending state event = .ok state') : state'.events = state.events := by
  cases hs : event.seq with
  | none =>
    simp only [insertPending, hs] at h
    cases h
  | some seq => exact (insertPending_moves hs h).2.2.1

theorem insertAndPublish_log (state : SessionState) (ev : ExecProcessEvent) :
    state.events <+: (insertAndPublish state ev).state.events := by
  unfold insertAndPublish
  split
  · exact prefix_refl _
  · rename_i inserted hi
    rw [← insertPending_log hi]
    exact publishReady_log inserted

theorem fillExitGap_log (exited : Bool) (code : Option Int) (exitKnown : Bool) (chunkSeq : Nat)
    (state : SessionState) :
    state.events <+: (fillExitGap exited code exitKnown chunkSeq state).state.events := by
  unfold fillExitGap
  split
  · cases code with
    | none => exact prefix_refl _
    | some code =>
      have hl := insertAndPublish_log state (.exited (state.lastPublishedSeq + 1) code)
      simp only
      split <;> (rename_i h; rw [h] at hl; exact hl)
  · exact prefix_refl _

theorem recoverChunk_log (c : ProcessOutputChunk) (state : SessionState) :
    state.events <+: (recoverChunk c state).state.events := by
  unfold recoverChunk
  split
  · exact insertAndPublish_log state _
  · exact prefix_refl _

theorem recoverChunks_log (targetSeq : Nat) (exited : Bool) (code : Option Int) (cs : List ProcessOutputChunk)
    (publishedClosed exitKnown : Bool) (st : SessionState) :
    st.events <+: (recoverChunks targetSeq exited code cs publishedClosed exitKnown st).state.events := by
  induction cs generalizing publishedClosed exitKnown st with
  | nil => exact prefix_refl _
  | cons c cs ih =>
    rw [recoverChunks]
    split
    · exact prefix_refl _
    · have hf := fillExitGap_log exited code exitKnown c.seq st
      split
      · rename_i h
        rw [h] at hf
        exact hf
      · rename_i filled h
        rw [h] at hf
        have hc := recoverChunk_log c filled
        split
        · rename_i h
          rw [h] at hc
          exact hf.trans hc
        · rename_i h
          rw [h] at hc
          exact (hf.trans hc).trans (ih ..)

theorem recoverClosed_log (targetSeq : Nat) (closed : Bool) (st : SessionState) :
    (recoverClosed targetSeq closed st).state.events = st.events := by
  unfold recoverClosed
  split
  · split
    · rfl
    · rename_i h
      exact insertPending_log h
  · rfl

theorem recoverExit_log (targetSeq : Nat) (exited : Bool) (code : Option Int) (exitKnown : Bool)
    (st : SessionState) : (recoverExit targetSeq exited code exitKnown st).state.events = st.events := by
  unfold recoverExit
  split
  · split
    · rfl
    · cases code with
      | none => rfl
      | some code =>
        simp only
        split
        · rfl
        · rename_i h
          exact insertPending_log h
  · split <;> rfl

/-- The rest of the recovery only adds to what the chunks have published. -/
theorem recoverEvents_log (hf : response.failure = none)
    (hl : ¬(state.failure.isSome ∨ state.closedPublished ∨ response.nextSeq - 1 ≤ state.lastPublishedSeq))
    (ho : ¬(response.closed ∧ closeConflicts (response.nextSeq - 1) response.chunks state)) :
    (recoverChunks (response.nextSeq - 1) response.exited response.exitCode response.chunks false
        (state.exitPublished || exitPending (response.nextSeq - 1) state) state).state.events <+:
      (recoverEvents response state).state.events := by
  unfold recoverEvents
  simp only [hf, if_neg hl, if_neg ho]
  split
  · rename_i h
    rw [h]
    exact prefix_refl _
  · rename_i recovered h
    rw [h]
    have hc := recoverClosed_log (response.nextSeq - 1) response.closed recovered
    split
    · rename_i h
      rw [h] at hc
      exact hc ▸ prefix_refl _
    · rename_i exitKnown _ _ closed h
      rw [h] at hc
      have he := recoverExit_log (response.nextSeq - 1) response.exited response.exitCode exitKnown closed
      split
      · rename_i h
        rw [h] at he
        exact (he.trans hc) ▸ prefix_refl _
      · rename_i final h
        rw [h] at he
        have hr := publishReady_log final
        have hs : final.events = recovered.events := he.trans hc
        rw [hs] at hr
        exact hr

variable {exited exitKnown : Bool}

/-- A faithful state of a live session, with nothing ready. -/
structure Good (events : List ExecProcessEvent) (state : SessionState) : Prop where
  faithful : Faithful events state
  settled : Settled state
  live : state.failure = none

/-- The exit is neither published nor waiting. -/
def Lacks (exitSeq : Nat) (state : SessionState) : Prop :=
  state.lastPublishedSeq < exitSeq ∧ SortedMap.get exitSeq state.pending = none

/-- Below a recovered chunk, nothing that the session lacks precedes the exit. -/
def Bridged (exitSeq : Nat) (chunks : List ProcessOutputChunk) (state : SessionState) : Prop :=
  ∀ chunk ∈ chunks, ∀ seq, state.lastPublishedSeq < seq → seq < chunk.seq →
    SortedMap.get seq state.pending = none → (∀ other ∈ chunks, other.seq ≠ seq) → exitSeq ≤ seq

/-- A chunk of the sequence that fits the buffer. -/
structure GoodChunk (events : List ExecProcessEvent) (targetSeq : Nat) (chunk : ProcessOutputChunk) : Prop where
  le : chunk.seq ≤ targetSeq
  at_seq : eventAt events chunk.seq = some (.output chunk)
  bytes : chunk.chunk.length ≤ maxPendingProcessEventBytes

theorem Good.insertAndPublish (h : Good events state)
    (hseq : event.seq = some seq) (hl : state.lastPublishedSeq < seq) (ha : eventAt events seq = some event) :
    Good events (insertAndPublish state event).state := by
  cases hi : SessionEvents.insertAndPublish state event with
  | error msg st' =>
    rw [insertAndPublish_error hi] at *
    exact h
  | ok published st' =>
    obtain ⟨hf, hs, hm, _⟩ := h.faithful.insertAndPublish h.live hseq hl ha hi
    exact ⟨hf, hs, hm.failure.trans h.live⟩

/-- The next event is always accepted, and published at once. -/
theorem insertAndPublish_next (hs : Settled state) (hseq : event.seq = some (state.lastPublishedSeq + 1))
    (hb : pendingProcessEventBytes event ≤ maxPendingProcessEventBytes) :
    ∃ published st', insertAndPublish state event = .ok published st' ∧ state.events ++ [event] <+: st'.events := by
  have hi : insertPending state event = .ok { state with
      pending := SortedMap.insert (state.lastPublishedSeq + 1) event state.pending
      pendingBytes := state.pendingBytes + pendingProcessEventBytes event } := by
    have hn : (SortedMap.get (state.lastPublishedSeq + 1) state.pending).isSome = false := by
      rw [show SortedMap.get (state.lastPublishedSeq + 1) state.pending = none from hs]
      rfl
    simp [insertPending, hseq, hn, Nat.not_lt.mpr hb]
  generalize hk : SortedMap.insert (state.lastPublishedSeq + 1) event state.pending = kept at hi
  refine ⟨_, _, by rw [insertAndPublish, hi], ?_⟩
  have hg : SortedMap.get (state.lastPublishedSeq + 1) kept = some event := by simp [← hk, SortedMap.get_insert]
  rw [publishReady_some hg]
  exact publishReady_log (publishNext { state with
    pending := kept, pendingBytes := state.pendingBytes + pendingProcessEventBytes event } event)

theorem output_ne_exit (he : ExitAt events exitSeq exitCode)
    (hc : GoodChunk events targetSeq chunk) : chunk.seq ≠ exitSeq := by
  intro heq
  have ha := hc.at_seq
  rw [heq, he.at_seq] at ha
  cases ha

/-- Recovering output leaves the exit missing and the gaps where they were. -/
theorem Lacks.moves (h : Lacks exitSeq before) (hne : given ≠ exitSeq)
    (hm : Moves (· = given) before after) : Lacks exitSeq after := by
  have hl : after.lastPublishedSeq < exitSeq := by
    by_contra hge
    rcases hm.had exitSeq h.1 (by omega) with he | hg
    · exact hne he.symm
    · exact hg h.2
  exact ⟨hl, (hm.kept exitSeq hl (Ne.symm hne)).trans h.2⟩

theorem Bridged.moves (h : Bridged exitSeq (c :: chunks) before) (hm : Moves (· = c.seq) before after)
    (ht : c.seq ≤ after.lastPublishedSeq ∨ SortedMap.get c.seq after.pending ≠ none) :
    Bridged exitSeq chunks after := by
  intro later hl seq hlow hh hg ho
  have hne : seq ≠ c.seq := by
    rintro rfl
    rcases ht with hle | hs
    · omega
    · exact hs hg
  refine h later (mem_cons_of_mem _ hl) seq (lt_of_le_of_lt hm.last_le hlow) hh ?_ ?_
  · rw [← hm.kept seq hlow hne, hg]
  · rw [forall_mem_cons]
    exact ⟨Ne.symm hne, ho⟩

theorem Bridged.skip (h : Bridged exitSeq (c :: chunks) state) (hle : c.seq ≤ state.lastPublishedSeq) :
    Bridged exitSeq chunks state := by
  intro later hl seq hlow hh hg ho
  refine h later (mem_cons_of_mem _ hl) seq hlow hh hg ?_
  rw [forall_mem_cons]
  exact ⟨by omega, ho⟩

/-- A gap that the session has before a chunk of the next number, it has after it. -/
theorem Bridged.of_moves (h : Bridged exitSeq chunks after) (hm : Moves (· = c.seq) before after)
    (hle : c.seq ≤ before.lastPublishedSeq + 1) : Bridged exitSeq (c :: chunks) before := by
  intro later hl seq hlow hh hg ho
  obtain ⟨hne, ho⟩ := forall_mem_cons.mp ho
  have hlast : after.lastPublishedSeq < seq := by
    by_contra hge
    rcases hm.had seq hlow (by omega) with he | hs
    · exact hne he.symm
    · exact hs hg
  rcases mem_cons.mp hl with rfl | hl
  · omega
  · exact h later hl seq hlast hh ((hm.kept seq hlast (Ne.symm hne)).trans hg) ho

theorem Bridged.of_skip (h : Bridged exitSeq chunks state) (hle : c.seq ≤ state.lastPublishedSeq) :
    Bridged exitSeq (c :: chunks) state := by
  intro later hl seq hlow hh hg ho
  rcases mem_cons.mp hl with rfl | hl
  · omega
  · exact h later hl seq hlow hh hg (forall_mem_cons.mp ho).2

/-- The first gap below the chunks is the exit. -/
theorem Bridged.exit_next
    (h : Bridged exitSeq (c :: chunks) state) (hs : Settled state) (hl : Lacks exitSeq state)
    (hr : (c :: chunks).Pairwise fun a b => a.seq < b.seq)
    (hg : c.seq > state.lastPublishedSeq + 1) : exitSeq = state.lastPublishedSeq + 1 := by
  have hle := h c mem_cons_self (state.lastPublishedSeq + 1) (Nat.lt_succ_self _) hg hs (by
    rw [forall_mem_cons]
    refine ⟨by omega, fun x ho => ?_⟩
    have := (pairwise_cons.mp hr).1 x ho
    omega)
  have := hl.1
  omega

theorem fillExitGap_skip (h : ¬(exited ∧ ¬exitKnown ∧ chunkSeq > state.lastPublishedSeq + 1)) (code : Option Int) :
    fillExitGap exited code exitKnown chunkSeq state = .ok (false, exitKnown) state := by
  unfold fillExitGap
  rw [if_neg h]

theorem fillExitGap_guess (h : exited ∧ ¬exitKnown ∧ chunkSeq > state.lastPublishedSeq + 1) (code : Int) :
    fillExitGap exited (some code) exitKnown chunkSeq state =
      match insertAndPublish state (.exited (state.lastPublishedSeq + 1) code) with
      | .error message state => .error message state
      | .ok publishedClosed state => .ok (publishedClosed, true) state := by
  exact if_pos h

theorem recoverChunk_good (hc : GoodChunk events targetSeq chunk) (hg : Good events state) :
    match recoverChunk chunk state with
    | .error _ st' => Good events st'
    | .ok _ st' => Good events st' ∧ (st' = state ∧ chunk.seq ≤ state.lastPublishedSeq ∨
        Moves (· = chunk.seq) state st' ∧
          (chunk.seq ≤ st'.lastPublishedSeq ∨ SortedMap.get chunk.seq st'.pending ≠ none)) := by
  unfold recoverChunk
  by_cases hn : chunk.seq > state.lastPublishedSeq
  · rw [if_pos hn]
    cases hi : insertAndPublish state (.output chunk) with
    | error msg st' =>
      rw [insertAndPublish_error hi]
      exact hg
    | ok published st' =>
      obtain ⟨hf, hs, hm, ht⟩ := hg.faithful.insertAndPublish hg.live rfl hn hc.at_seq hi
      exact ⟨⟨hf, hs, hm.failure.trans hg.live⟩, .inr ⟨hm, ht⟩⟩
  · rw [if_neg hn]
    exact ⟨hg, .inl ⟨rfl, Nat.not_lt.mp hn⟩⟩

/-- With the exit's number right, a gap that is taken for the exit is the exit. -/
theorem fillExitGap_good (hexit : ExitAt events exitSeq exitCode) (hc : exited = true → code = some exitCode)
    (hs : (c :: chunks).Pairwise fun a b => a.seq < b.seq) (hg : Good events state)
    (hu : exited = true → exitKnown = false → Lacks exitSeq state ∧ Bridged exitSeq (c :: chunks) state) :
    match fillExitGap exited code exitKnown c.seq state with
    | .error _ st' => Good events st'
    | .ok (_, exitKnown') st' =>
      Good events st' ∧ (exitKnown' = false → st' = state ∧ exitKnown = false) := by
  by_cases hgap : exited = true ∧ ¬exitKnown = true ∧ c.seq > state.lastPublishedSeq + 1
  · obtain ⟨he, hk, ha⟩ := hgap
    obtain ⟨hl, hb⟩ := hu he (by simpa using hk)
    have hn := hb.exit_next hg.settled hl hs ha
    have hat : eventAt events (state.lastPublishedSeq + 1) =
        some (.exited (state.lastPublishedSeq + 1) exitCode) := hn ▸ hexit.at_seq
    have hf := hg.insertAndPublish rfl (Nat.lt_succ_self _) hat
    rw [hc he, fillExitGap_guess ⟨he, hk, ha⟩]
    cases hi : insertAndPublish state (.exited (state.lastPublishedSeq + 1) exitCode) with
    | error msg st' =>
      rw [hi] at hf
      exact hf
    | ok published filled =>
      rw [hi] at hf
      exact ⟨hf, fun hfalse => (nomatch hfalse)⟩
  · rw [fillExitGap_skip hgap]
    exact ⟨hg, fun hk => ⟨rfl, hk⟩⟩

/-- With the exit's number right, the loop over the chunks keeps the session faithful. -/
theorem recoverChunks_good (hexit : ExitAt events exitSeq exitCode) (hcode : exited = true → code = some exitCode)
    (hh : ∀ c ∈ cs, GoodChunk events targetSeq c)
    (hs : cs.Pairwise fun a b => a.seq < b.seq) (publishedClosed exitKnown : Bool)
    (hgood : Good events state)
    (hu : exited = true → exitKnown = false → Lacks exitSeq state ∧ Bridged exitSeq cs state) :
    match recoverChunks targetSeq exited code cs publishedClosed exitKnown state with
    | .error _ st' => Good events st'
    | .ok (_, exitKnown') st' =>
      Good events st' ∧ (exited = true → exitKnown' = false → Lacks exitSeq st') := by
  induction cs generalizing publishedClosed exitKnown state with
  | nil => exact ⟨hgood, fun he hk => (hu he hk).1⟩
  | cons c cs ih =>
    obtain ⟨hc, hrest⟩ := forall_mem_cons.mp hh
    have hfill := fillExitGap_good hexit hcode hs hgood hu
    rw [recoverChunks, if_neg (Nat.not_lt.mpr hc.le)]
    cases hf : fillExitGap exited code exitKnown c.seq state with
    | error msg st' =>
      rw [hf] at hfill
      exact hfill
    | ok res filled =>
      rw [hf] at hfill
      obtain ⟨hg, hsame⟩ := hfill
      have hstep := recoverChunk_good hc hg
      simp only
      cases hr : recoverChunk c filled with
      | error msg st' =>
        rw [hr] at hstep
        exact hstep
      | ok atChunk st' =>
        rw [hr] at hstep
        refine ih hrest (pairwise_cons.mp hs).2 _ _ hstep.1 fun hx hknown => ?_
        obtain ⟨rfl, ho⟩ := hsame hknown
        obtain ⟨hl, hb⟩ := hu hx ho
        rcases hstep.2 with ⟨rfl, hle⟩ | ⟨hm, ht⟩
        · exact ⟨hl, hb.skip hle⟩
        · exact ⟨hl.moves (output_ne_exit hexit hc) hm, hb.moves hm ht⟩

/-- The published events that carry a number. -/
def sequenced (log : List ExecProcessEvent) : List ExecProcessEvent := log.filter (·.seq.isSome)

theorem sequenced_take (h : Numbered events) : sequenced (events.take count) = events.take count := by
  refine filter_eq_self.mpr fun ev hm => ?_
  obtain ⟨seq, hs, _⟩ := eventAt_of_mem h (mem_of_mem_take hm)
  rw [hs]
  rfl

/-- A log that starts with an exit out of place is no part of the sequence. -/
theorem wrong_exit (hn : Numbered events) (he : ExitAt events exitSeq exitCode)
    (hg : Good events state) (hw : exitSeq ≠ state.lastPublishedSeq + 1)
    (hlog : state.events ++ [.exited (state.lastPublishedSeq + 1) code] <+: log) :
    ¬sequenced log <+: events := by
  intro hb
  have hs : state.events = events.take state.lastPublishedSeq := by
    rw [hg.faithful.log, hg.live]
    exact append_nil _
  have hp : events.take state.lastPublishedSeq ++ [.exited (state.lastPublishedSeq + 1) code] <+: events := by
    have hf : sequenced (state.events ++ [.exited (state.lastPublishedSeq + 1) code]) <+: sequenced log :=
      hlog.filter _
    have hp := hf.trans hb
    rw [sequenced, filter_append, ← sequenced, hs, sequenced_take hn] at hp
    exact hp
  obtain ⟨rest, hr⟩ := hp
  have ha : eventAt events (state.lastPublishedSeq + 1) = some (.exited (state.lastPublishedSeq + 1) code) := by
    have hl : (events.take state.lastPublishedSeq).length = state.lastPublishedSeq :=
      length_take_of_le hg.faithful.last_le
    rw [eventAt, ← hr, append_assoc, getElem?_append_right (by omega), hl, Nat.sub_self]
    rfl
  exact hw (he.only _ _ ha rfl).symm

/-- A chunk that leaves no gap is taken in without an error. -/
theorem recoverChunk_next (hc : GoodChunk events targetSeq chunk)
    (hg : Good events state) (hle : chunk.seq ≤ state.lastPublishedSeq + 1) :
    ∃ atChunk state', recoverChunk chunk state = .ok atChunk state' := by
  unfold recoverChunk
  split
  · have hs : (ExecProcessEvent.output chunk).seq = some (state.lastPublishedSeq + 1) := congrArg some (by omega)
    obtain ⟨published, state', hi, _⟩ := insertAndPublish_next hg.settled hs hc.bytes
    exact ⟨published, state', hi⟩
  · exact ⟨false, state, rfl⟩

/-- When evicted output precedes the exit, the loop over the chunks publishes an exit in its place. -/
theorem recoverChunks_broken (hn : Numbered events) (he : ExitAt events exitSeq exitCode)
    (hh : ∀ c ∈ cs, GoodChunk events targetSeq c)
    (publishedClosed : Bool) (hgood : Good events state) (hl : Lacks exitSeq state)
    (hnot : ¬Bridged exitSeq cs state) :
    ¬sequenced (recoverChunks targetSeq true (some exitCode) cs publishedClosed false state).state.events <+:
      events := by
  induction cs generalizing publishedClosed state with
  | nil => exact absurd (by simp [Bridged]) hnot
  | cons c cs ih =>
    obtain ⟨hc, hrest⟩ := forall_mem_cons.mp hh
    rw [recoverChunks, if_neg (Nat.not_lt.mpr hc.le)]
    by_cases ha : c.seq > state.lastPublishedSeq + 1
    · -- the gap is not the exit, as something earlier than the exit is missing
      have hw : exitSeq ≠ state.lastPublishedSeq + 1 := by
        intro heq
        refine hnot fun _ _ seq hlow _ _ _ => ?_
        omega
      have hs : (ExecProcessEvent.exited (state.lastPublishedSeq + 1) exitCode).seq = some _ := rfl
      obtain ⟨published, filled, hi, hlog⟩ := insertAndPublish_next hgood.settled hs (Nat.zero_le _)
      rw [fillExitGap_guess ⟨rfl, by simp, ha⟩, hi]
      refine wrong_exit hn he hgood hw (hlog.trans ?_)
      simp only
      have hg := recoverChunk_log c filled
      cases hr : recoverChunk c filled with
      | error msg st' =>
        rw [hr] at hg
        exact hg
      | ok atChunk st' =>
        rw [hr] at hg
        exact hg.trans (recoverChunks_log ..)
    · rw [fillExitGap_skip (fun hguess => ha hguess.2.2)]
      simp only
      have hstep := recoverChunk_good hc hgood
      obtain ⟨atChunk, st', hr⟩ := recoverChunk_next hc hgood (Nat.not_lt.mp ha)
      rw [hr] at hstep ⊢
      obtain ⟨hg', hmoved⟩ := hstep
      rcases hmoved with ⟨rfl, hle⟩ | ⟨hm, _⟩
      · exact ih hrest _ hgood hl fun hb => hnot (hb.of_skip hle)
      · exact ih hrest _ hg' (hl.moves (output_ne_exit he hc) hm)
          fun hb => hnot (hb.of_moves hm (Nat.not_lt.mp ha))

end EventRecovery
