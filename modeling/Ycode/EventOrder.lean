import Ycode.EventRecovery

/-!
# The order of published process events

A recovery keeps the order exactly when no output that the server has evicted and the session lacks
precedes the exit. Between recoveries, every notification keeps it.
-/
namespace EventOrder

open RustStr LocalProcess SessionEvents EventRecovery
open List hiding after count

theorem mem_retainedSeqs :
    seq ∈ retainedSeqs targetSeq state ↔
      state.lastPublishedSeq < seq ∧ seq ≤ targetSeq ∧ SortedMap.get seq state.pending ≠ none := by
  have hk : seq ∈ state.pending.map (·.1) ↔ SortedMap.get seq state.pending ≠ none := by
    rw [ne_eq, SortedMap.get_eq_none, not_forall]
    simp
  simp only [retainedSeqs, mem_filter, hk, decide_eq_true_eq, Nat.succ_le_iff]
  exact ⟨fun h => ⟨h.2.1, h.2.2, h.1⟩, fun h => ⟨h.2.2, h.1, h.2.1⟩⟩

theorem retainedSeqs_sorted (h : SortedMap.Sorted state.pending) :
    (retainedSeqs targetSeq state).Pairwise (· < ·) :=
  (pairwise_map.mpr h).sublist filter_sublist

/-- When one number is missing up to the target, any two that are missing are the same. -/
theorem missing_unique (hs : SortedMap.Sorted state.pending) (ho : missingCount targetSeq state = 1)
    (ha : state.lastPublishedSeq < a ∧ a ≤ targetSeq ∧ SortedMap.get a state.pending = none)
    (hb : state.lastPublishedSeq < b ∧ b ≤ targetSeq ∧ SortedMap.get b state.pending = none) : a = b := by
  by_contra hne
  have hn : (a :: b :: retainedSeqs targetSeq state).Nodup := by
    rw [nodup_cons, nodup_cons, mem_cons, not_or, mem_retainedSeqs, mem_retainedSeqs]
    exact ⟨⟨hne, fun h => h.2.2 ha.2.2⟩, fun h => h.2.2 hb.2.2, (retainedSeqs_sorted hs).imp fun h => Nat.ne_of_lt h⟩
  have hu : (a :: b :: retainedSeqs targetSeq state) ⊆
      List.range' (state.lastPublishedSeq + 1) (targetSeq - state.lastPublishedSeq) := by
    intro seq hseq
    rw [mem_range'_1]
    simp only [mem_cons, mem_retainedSeqs] at hseq
    rcases hseq with rfl | rfl | hseq <;> omega
  have hl := (subperm_of_subset hn hu).length_le
  rw [length_cons, length_cons, length_range'] at hl
  simp only [missingCount] at ho
  rw [if_pos (by omega)] at ho
  omega

theorem firstMissing_spec (hs : seqs.Pairwise (· < ·)) (hle : ∀ seq ∈ seqs, expected ≤ seq) :
    expected ≤ firstMissing expected seqs ∧ firstMissing expected seqs ∉ seqs ∧
      firstMissing expected seqs ≤ expected + seqs.length := by
  induction seqs generalizing expected with
  | nil => simp [firstMissing]
  | cons seq seqs ih =>
    obtain ⟨hf, hr⟩ := pairwise_cons.mp hs
    rw [firstMissing]
    split
    · rename_i hne
      refine ⟨Nat.le_refl _, fun hm => ?_, Nat.le_add_right _ _⟩
      have hseq := hle seq mem_cons_self
      rcases mem_cons.mp hm with he | hm
      · exact hne he.symm
      · have := hf expected hm
        omega
    · rename_i he
      obtain rfl : seq = expected := not_not.mp he
      obtain ⟨hl, hn, hh⟩ : seq + 1 ≤ firstMissing (seq + 1) seqs ∧ _ := ih hr hf
      refine ⟨by omega, fun hm => ?_, by rw [length_cons]; omega⟩
      rcases mem_cons.mp hm with he | hm
      · omega
      · exact hn hm

/-- When one number is missing, the first missing one is up to the target. -/
theorem firstMissingSeq_spec (hs : SortedMap.Sorted state.pending) (ho : missingCount targetSeq state = 1) :
    state.lastPublishedSeq < firstMissingSeq targetSeq state ∧ firstMissingSeq targetSeq state ≤ targetSeq ∧
      SortedMap.get (firstMissingSeq targetSeq state) state.pending = none := by
  have ha : ∀ seq ∈ retainedSeqs targetSeq state, state.lastPublishedSeq + 1 ≤ seq :=
    fun seq hseq => (mem_retainedSeqs.mp hseq).1
  obtain ⟨hl, hn, hh⟩ := firstMissing_spec (retainedSeqs_sorted hs) ha
  have hle : firstMissingSeq targetSeq state ≤ targetSeq := by
    simp only [missingCount] at ho
    by_cases ht : state.lastPublishedSeq + 1 ≤ targetSeq
    · rw [if_pos ht] at ho
      unfold firstMissingSeq
      omega
    · omega
  refine ⟨hl, hle, ?_⟩
  by_contra hsome
  exact hn (mem_retainedSeqs.mpr ⟨hl, hle, hsome⟩)

theorem missingCount_eq_zero (hn : targetSeq = state.lastPublishedSeq + 1)
    (ht : SortedMap.get targetSeq state.pending ≠ none) : missingCount targetSeq state = 0 := by
  have hm : targetSeq ∈ retainedSeqs targetSeq state := mem_retainedSeqs.mpr ⟨by omega, Nat.le_refl _, ht⟩
  have hp := length_pos_of_mem hm
  simp only [missingCount]
  rw [if_pos (by omega)]
  omega

/-- The state between the loop over the chunks and the last release: `closed` may be ready at the target. -/
structure Closing (events : List ExecProcessEvent) (targetSeq : Nat) (state : SessionState) : Prop where
  faithful : Faithful events state
  live : state.failure = none
  settled : Settled state ∨
    targetSeq = state.lastPublishedSeq + 1 ∧ SortedMap.get targetSeq state.pending ≠ none

theorem recoverClosed_good (h : ServerSequence events) (hexit : ExitAt events exitSeq exitCode)
    (hc : closed = true → targetSeq = events.length) (hg : Good events state) :
    match recoverClosed targetSeq closed state with
    | .error _ st' => Good events st'
    | .ok _ st' => Closing events targetSeq st' ∧ (Lacks exitSeq state → Lacks exitSeq st') := by
  unfold recoverClosed
  by_cases hi : closed ∧ ¬state.closedPublished ∧ ¬closedPending targetSeq state
  · rw [if_pos hi]
    obtain ⟨hd, ho, _⟩ := hi
    obtain rfl := hc hd
    -- `closed` is not published, so the target is still ahead
    have hlast : state.lastPublishedSeq < events.length := by
      refine lt_of_le_of_ne hg.faithful.last_le fun he => ho ?_
      rw [hg.faithful.closedPublished, he, take_length]
      exact any_eq_true.mpr ⟨_, eventAt_mem h.closedAt, rfl⟩
    cases hr : insertPending state (.closed events.length) with
    | error msg => exact hg
    | ok st' =>
      have hseq : (ExecProcessEvent.closed events.length).seq = some events.length := rfl
      obtain ⟨hm, hs, _, ht⟩ := insertPending_moves hseq hr
      refine ⟨⟨hg.faithful.insertPending hseq hlast h.closedAt hr, hm.failure.trans hg.live, ?_⟩,
        fun hl => hl.moves ?_ hm⟩
      · by_cases hn : events.length = state.lastPublishedSeq + 1
        · exact .inr ⟨hs ▸ hn, ht⟩
        · refine .inl ?_
          unfold Settled
          rw [hm.kept _ (Nat.lt_succ_self _) (by rw [hs]; exact Ne.symm hn), hs]
          exact hg.settled
      · intro he
        have ha := hexit.at_seq
        rw [← he, h.closedAt] at ha
        cases ha
  · rw [if_neg hi]
    exact ⟨⟨hg.faithful, hg.live, .inl hg.settled⟩, id⟩

theorem recoverExit_good (hexit : ExitAt events exitSeq exitCode) (exitKnown : Bool)
    (hcode : exited = true → code = some exitCode) (hr : exited = true → exitSeq ≤ targetSeq)
    (hc : Closing events targetSeq state)
    (hu : exited = true → exitKnown = false → Lacks exitSeq state) :
    match recoverExit targetSeq exited code exitKnown state with
    | .error _ st' => Good events st'
    | .ok _ st' => Faithful events st' ∧ st'.failure = none := by
  unfold recoverExit
  by_cases hg : exited ∧ ¬exitKnown
  · rw [if_pos hg]
    obtain ⟨he, hk⟩ := hg
    have hl := hu he (by simpa using hk)
    have hle := hr he
    have hs : Settled state := by
      rcases hc.settled with hs | ⟨hn, ht⟩
      · exact hs
      · have heq : exitSeq = targetSeq := by
          have := hl.1
          omega
        exact absurd (heq ▸ hl.2) ht
    have hgood : Good events state := ⟨hc.faithful, hs, hc.live⟩
    by_cases ho : missingCount targetSeq state = 1
    swap
    · rw [if_pos ho]
      exact hgood
    · rw [if_neg (not_not.mpr ho)]
      have hf := firstMissingSeq_spec hc.faithful.sorted ho
      have heq := missing_unique hc.faithful.sorted ho hf ⟨hl.1, hle, hl.2⟩
      rw [hcode he, heq]
      simp only
      cases hi : insertPending state (.exited exitSeq exitCode) with
      | error msg => exact hgood
      | ok st' =>
        have hseq : (ExecProcessEvent.exited exitSeq exitCode).seq = some exitSeq := rfl
        exact ⟨hc.faithful.insertPending hseq hl.1 hexit.at_seq hi,
          (insertPending_moves hseq hi).1.failure.trans hc.live⟩
  · rw [if_neg hg]
    by_cases hm : missingCount targetSeq state ≠ 0
    · rw [if_pos hm]
      rcases hc.settled with hs | ⟨hn, ht⟩
      · exact ⟨hc.faithful, hs, hc.live⟩
      · exact absurd (missingCount_eq_zero hn ht) hm
    · rw [if_neg hm]
      exact ⟨hc.faithful, hc.live⟩

section Step

/-- What holds between the calls. -/
structure Kept (events : List ExecProcessEvent) (state : SessionState) : Prop where
  faithful : Faithful events state
  settled : Settled state

theorem kept_of_good (h : Good events state) : Kept events state := ⟨h.faithful, h.settled⟩

theorem setFailure_kept (h : Kept events state) : Kept events (setFailure state message) := by
  unfold setFailure
  split
  · exact h
  · rename_i ho
    obtain ⟨hl, hc⟩ := not_or.mp ho
    have hlog : state.events = events.take state.lastPublishedSeq := by
      rw [h.faithful.log, show state.failure = none by simpa using hl]
      exact append_nil _
    refine ⟨⟨by simp [hlog], h.faithful.last_le, h.faithful.exitPublished, h.faithful.closedPublished,
      List.Pairwise.nil, by simp, rfl, .inr (by simpa using hc)⟩, rfl⟩

theorem handleNotification_kept (hn : Numbered events) (h : Kept events state) (hm : event ∈ events) :
    Kept events (handleNotification state event) := by
  obtain ⟨seq, hs, ha⟩ := eventAt_of_mem hn hm
  have hp : Kept events (publishOrderedEvent state event).state := by
    simp only [publishOrderedEvent, hs]
    split
    · exact h
    · rename_i hnew
      obtain ⟨hl, hrest⟩ := not_or.mp hnew
      have hg : Good events state := ⟨h.faithful, h.settled, by simpa using hl⟩
      exact kept_of_good (hg.insertAndPublish hs (Nat.not_le.mp (not_or.mp hrest).2) ha)
  unfold handleNotification
  cases hr : publishOrderedEvent state event with
  | ok published st' =>
    rw [hr] at hp
    exact hp
  | error msg st' =>
    rw [hr] at hp
    exact setFailure_kept hp

/-- Whether the session takes the response into account. -/
def Takes (response : ReadResponse) (state : SessionState) : Prop :=
  state.failure = none ∧ state.closedPublished = false ∧ state.lastPublishedSeq < response.nextSeq - 1

theorem takes_iff :
    Takes response state ↔
      ¬(state.failure.isSome ∨ state.closedPublished ∨ response.nextSeq - 1 ≤ state.lastPublishedSeq) := by
  rw [Takes, not_or, not_or, Nat.not_le]
  simp

def exitKnown (response : ReadResponse) (state : SessionState) : Bool :=
  state.exitPublished || exitPending (response.nextSeq - 1) state

/-- An exit that the response reports and the session does not know of is neither published nor waiting. -/
theorem lacks_of_unknown (hexit : ExitAt events exitSeq exitCode)
    (hf : Faithful events state) (hle : exitSeq ≤ response.nextSeq - 1) (hu : exitKnown response state = false) :
    Lacks exitSeq state := by
  obtain ⟨hp, hn⟩ := Bool.or_eq_false_iff.mp hu
  constructor
  · by_contra hge
    rw [hf.exitPublished] at hp
    have hat : eventAt (events.take state.lastPublishedSeq) exitSeq = some (.exited exitSeq exitCode) :=
      (eventAt_take (Nat.not_lt.mp hge)).trans hexit.at_seq
    have ha := any_eq_false.mp hp _ (eventAt_mem hat)
    exact ha rfl
  · cases hg : SortedMap.get exitSeq state.pending with
    | none => rfl
    | some ev =>
      have hat := (hf.pending exitSeq ev hg).2
      rw [hexit.at_seq] at hat
      cases hat
      have ha := any_eq_false.mp hn _ (SortedMap.mem_of_get hg)
      simp [hle, isExited, ExecProcessEvent.exitCode?] at ha

theorem not_closeConflicts (h : ServerSequence events)
    (hsnap : Snapshot events exitSeq exitCode response) (hf : Faithful events state) :
    ¬(response.closed ∧ closeConflicts (response.nextSeq - 1) response.chunks state) := by
  rintro ⟨hl, hc⟩
  have ht := hsnap.closed hl
  rw [closeConflicts, Bool.or_eq_true] at hc
  rcases hc with hp | hchunk
  · obtain ⟨ev, hg, hn⟩ := (Option.any_eq_true _ _).mp hp
    have ha := (hf.pending _ ev hg).2
    rw [ht, h.closedAt] at ha
    cases ha
    cases hn
  · obtain ⟨c, hm, he⟩ := any_eq_true.mp hchunk
    have ha := (hsnap.chunks c hm).2.1
    rw [of_decide_eq_true he, ht, h.closedAt] at ha
    cases ha

theorem goodChunk_of_snapshot (hsnap : Snapshot events exitSeq exitCode response) :
    ∀ chunk ∈ response.chunks, GoodChunk events (response.nextSeq - 1) chunk := by
  intro chunk hm
  obtain ⟨hle, ha, hb⟩ := hsnap.chunks chunk hm
  exact ⟨hle, ha, hb⟩

section

variable (h : ServerSequence events) (hexit : ExitAt events exitSeq exitCode)
  (hsnap : Snapshot events exitSeq exitCode response) (hkept : Kept events state)
include h hexit hsnap hkept

/-- A recovery whose gaps are the exit's keeps what is published in order. -/
theorem recoverEvents_kept (hb : Takes response state → response.exited = true → exitKnown response state = false →
      Bridged exitSeq response.chunks state) :
    Kept events (recoverEvents response state).state := by
  by_cases ht : Takes response state
  swap
  · unfold recoverEvents
    simp only [hsnap.failure, if_pos (not_not.mp (mt takes_iff.mpr ht))]
    exact hkept
  have hgood : Good events state := ⟨hkept.faithful, hkept.settled, ht.1⟩
  have hloop := recoverChunks_good hexit hsnap.exitCode (goodChunk_of_snapshot hsnap) hsnap.sorted false
    (exitKnown response state) hgood fun he hu =>
      ⟨lacks_of_unknown hexit hkept.faithful (hsnap.exited.mp he) hu, hb ht he hu⟩
  unfold recoverEvents
  simp only [hsnap.failure, if_neg (takes_iff.mp ht), if_neg (not_closeConflicts h hsnap hkept.faithful)]
  rw [exitKnown] at hloop
  cases hh : recoverChunks (response.nextSeq - 1) response.exited response.exitCode response.chunks false
      (state.exitPublished || exitPending (response.nextSeq - 1) state) state with
  | error msg st₁ =>
    rw [hh] at hloop
    exact kept_of_good hloop
  | ok res st₁ =>
    rw [hh] at hloop
    obtain ⟨hg, hk⟩ := hloop
    have hc := recoverClosed_good h hexit hsnap.closed hg
    simp only
    cases ho : recoverClosed (response.nextSeq - 1) response.closed st₁ with
    | error msg st₂ =>
      rw [ho] at hc
      exact kept_of_good hc
    | ok _ st₂ =>
      rw [ho] at hc
      obtain ⟨hi, hl⟩ := hc
      have hfill := recoverExit_good hexit res.2 hsnap.exitCode hsnap.exited.mp hi
        fun he hu => hl (hk he hu)
      simp only
      cases hf : recoverExit (response.nextSeq - 1) response.exited response.exitCode res.2 st₂ with
      | error msg st₃ =>
        rw [hf] at hfill
        exact kept_of_good hfill
      | ok _ st₃ =>
        rw [hf] at hfill
        obtain ⟨hfaithful, hs⟩ := hfill.1.publishReady hfill.2
        exact ⟨hfaithful, hs⟩

/-- A recovery that takes evicted output for the exit publishes something that is not in the sequence. -/
theorem recoverEvents_broken (ht : Takes response state) (he : response.exited = true)
    (hu : exitKnown response state = false) (hn : ¬Bridged exitSeq response.chunks state) :
    ¬sequenced (recoverEvents response state).state.events <+: events := by
  intro hs
  have hg : Good events state := ⟨hkept.faithful, hkept.settled, ht.1⟩
  have hl := lacks_of_unknown hexit hkept.faithful (hsnap.exited.mp he) hu
  have hlog := recoverEvents_log hsnap.failure (takes_iff.mp ht) (not_closeConflicts h hsnap hkept.faithful)
  rw [he, hsnap.exitCode he, ← exitKnown, hu] at hlog
  refine recoverChunks_broken h.numbered hexit (goodChunk_of_snapshot hsnap) false hg hl hn ?_
  have hf : sequenced _ <+: sequenced _ := hlog.filter _
  exact hf.trans hs

end

end Step

inductive Action where
  | notify (event : ExecProcessEvent)
  /-- A response from a state of the server, asked for after a number. -/
  | recover (process : RunningProcess) (afterSeq : Nat)
  | fail (message : Str)

def Action.response (process : RunningProcess) (afterSeq : Nat) : ReadResponse := execRead (some afterSeq) none process

def step (state : SessionState) : Action → SessionState
  | .notify event => handleNotification state event
  | .recover process afterSeq => (recoverEvents (Action.response process afterSeq) state).state
  | .fail message => setFailure state message

/-- Notifications carry events of the server, and responses come from a state of the server, asked for when the
session had published no more than now. -/
def Allowed (events : List ExecProcessEvent) (state : SessionState) : Action → Prop
  | .notify event => event ∈ events
  | .recover process afterSeq => Serves events process ∧ afterSeq ≤ state.lastPublishedSeq
  | .fail _ => True

/-- A response that reports an exit the session does not know of leaves no gap before the exit and below a chunk:
every number there is published, waiting or among the chunks. -/
def NothingEvictedBeforeExit (events : List ExecProcessEvent) (state : SessionState) : Action → Prop
  | .recover process afterSeq =>
    let response := Action.response process afterSeq
    Takes response state → response.exited = true → exitKnown response state = false →
      ∀ chunk ∈ response.chunks, ∀ seq, state.lastPublishedSeq < seq → seq < chunk.seq →
        SortedMap.get seq state.pending = none → (∀ other ∈ response.chunks, other.seq ≠ seq) →
        ∃ exitSeq exitCode, exitSeq ≤ seq ∧ .exited exitSeq exitCode ∈ events
  | _ => True

/-- The numbered events published so far are a first part of the server's, nothing comes after `closed`, nothing
numbered comes after a failure, and the bytes of the buffer are counted. -/
structure InOrder (events : List ExecProcessEvent) (state : SessionState) : Prop where
  sequence : sequenced state.events <+: events
  closedLast : ∀ before seq after, state.events = before ++ .closed seq :: after → after = []
  failedLast : ∀ before message after, state.events = before ++ .failed message :: after → sequenced after = []
  bytes : state.pendingBytes = (state.pending.map fun entry => pendingProcessEventBytes entry.2).sum

theorem bridged_iff (hn : Numbered events) (hexit : ExitAt events exitSeq exitCode) :
    Bridged exitSeq chunks state ↔
      ∀ c ∈ chunks, ∀ seq, state.lastPublishedSeq < seq → seq < c.seq →
        SortedMap.get seq state.pending = none → (∀ x ∈ chunks, x.seq ≠ seq) →
        ∃ exitSeq exitCode, exitSeq ≤ seq ∧ ExecProcessEvent.exited exitSeq exitCode ∈ events := by
  constructor
  · intro h c hc seq hl hh hg ho
    exact ⟨exitSeq, exitCode, h c hc seq hl hh hg ho, eventAt_mem hexit.at_seq⟩
  · intro h c hc seq hl hh hg ho
    obtain ⟨exitSeq', code', hle, hm⟩ := h c hc seq hl hh hg ho
    obtain ⟨seq', hs, ha⟩ := eventAt_of_mem hn hm
    cases hs
    rw [← hexit.only _ _ ha rfl]
    exact hle

theorem failed_notMem_take (hn : Numbered events) : .failed message ∉ events.take count := by
  intro hm
  obtain ⟨seq, hs, _⟩ := eventAt_of_mem hn (mem_of_mem_take hm)
  cases hs

/-- `closed` is the last event of the sequence, so once it is published all of the sequence is. -/
theorem all_published_of_closed (h : ServerSequence events) (hm : .closed seq ∈ events.take count) :
    events.take count = events := by
  obtain ⟨i, hi⟩ := mem_iff_getElem?.mp hm
  obtain ⟨hlt, _⟩ := List.getElem?_eq_some_iff.mp hi
  rw [length_take] at hlt
  have ha : eventAt events (i + 1) = some (.closed seq) := by
    rw [← eventAt_take (show i + 1 ≤ count by omega)]
    exact hi
  have he := h.closed_only ha rfl
  exact take_of_length_le (by omega)

theorem kept_inOrder (h : ServerSequence events) (hkept : Kept events state) : InOrder events state := by
  have hf := hkept.faithful
  constructor
  · have hn : sequenced (state.failure.map ExecProcessEvent.failed).toList = [] := by
      cases state.failure <;> rfl
    rw [hf.log, sequenced, filter_append, ← sequenced, ← sequenced, sequenced_take h.numbered, hn, append_nil]
    exact take_prefix ..
  · intro pre seq after heq
    have hm : .closed seq ∈ events.take state.lastPublishedSeq := by
      have hlog : .closed seq ∈ state.events := heq ▸ mem_append_right _ mem_cons_self
      rw [hf.log, mem_append] at hlog
      rcases hlog with ht | hi
      · exact ht
      · cases hfail : state.failure <;> simp [hfail] at hi
    have hc : state.closedPublished = true := by
      rw [hf.closedPublished]
      exact any_eq_true.mpr ⟨_, hm, rfl⟩
    have hl : state.failure = none := hf.open_or_closed.resolve_right (by simp [hc])
    obtain ⟨first, last, he, hfirst⟩ := h.closedLast
    rw [hf.log, all_published_of_closed h hm, hl, he] at heq
    exact (append_cons_eq_concat (closed_notMem hfirst) (by simpa using heq.symm)).1
  · intro pre msg after heq
    rw [hf.log] at heq
    cases hfail : state.failure with
    | none =>
      rw [hfail] at heq
      have hm : .failed msg ∈ events.take state.lastPublishedSeq := by
        rw [show events.take state.lastPublishedSeq = pre ++ .failed msg :: after by simpa using heq]
        simp
      exact absurd hm (failed_notMem_take h.numbered)
    | some failure =>
      rw [hfail] at heq
      rw [(append_cons_eq_concat (failed_notMem_take h.numbered) heq.symm).1]
      rfl
  · exact hf.bytes

/-- Along every run of notifications, recoveries and failures, the published events stay in order exactly when no
recovery meets evicted output before an exit it does not know of. -/
theorem published_in_order_iff (h : ServerSequence events) (actions : List Action)
    (hallowed : Runs.Each step (Allowed events) SessionState.new actions) :
    Runs.Every step (InOrder events) SessionState.new actions ↔
      Runs.Each step (NothingEvictedBeforeExit events) SessionState.new actions := by
  obtain ⟨exitSeq, exitCode, hexit⟩ := h.exitAt
  refine Runs.every_iff_each (Kept events) (fun _ => kept_inOrder h) ?_ ?_ ⟨faithful_new events, rfl⟩ hallowed
  · intro state a hkept hallowed hc
    cases a with
    | notify ev => exact handleNotification_kept h.numbered hkept hallowed
    | recover proc afterSeq =>
      refine recoverEvents_kept h hexit (execRead_snapshot h hexit hallowed.1 afterSeq) hkept ?_
      intro ht he hu
      exact (bridged_iff h.numbered hexit).mpr (hc ht he hu)
    | fail msg => exact setFailure_kept hkept
  · intro state a hkept hallowed hn ho
    cases a with
    | recover proc afterSeq =>
      refine hn fun ht he hu => (bridged_iff h.numbered hexit).mp ?_
      by_contra hb
      exact recoverEvents_broken h hexit (execRead_snapshot h hexit hallowed.1 afterSeq) hkept ht he hu
        hb ho.sequence
    | _ => exact hn trivial

/-- The exit notification is lost; the recovery fills the one gap with it and then publishes `closed`. -/
theorem lost_exit_in_order :
    let events : List ExecProcessEvent := [.exited 1 0, .closed 2]
    let process : RunningProcess := { startProcess false with nextSeq := 2, exitCode := some 0 }
    let actions : List Action := [.notify (.closed 2), .recover process 0]
    ServerSequence events ∧ Runs.Each step (Allowed events) SessionState.new actions ∧
      (Runs.Every step (InOrder events) SessionState.new actions ↔
        Runs.Each step (NothingEvictedBeforeExit events) SessionState.new actions) := by
  intro events process actions
  have hs : ServerSequence events := serverSequence_of_completed false
    [.exit 0, .finish .stdout, .finish .stderr, .closeStream .stdout, .closeStream .stderr, .closeExit]
    ⟨fun pipe => by cases pipe <;> rfl, rfl⟩
  have ha : Runs.Each step (Allowed events) SessionState.new actions :=
    ⟨by simp [Allowed, events], ⟨⟨false, [.exit 0], rfl, [.closed 2], rfl⟩, Nat.zero_le _⟩, trivial⟩
  exact ⟨hs, ha, published_in_order_iff hs actions ha⟩

/-- A chunk that takes all the room evicts the output before it. -/
theorem output_evicts (h : bytes.length = retainedOutputBytesPerProcess) :
    Runs.run LocalProcess.step (spawn false) [.receive .stdout [0], .receive .stdout bytes, .exit 0] =
      { process := some { startProcess false with
          output := [⟨2, .stdout, bytes⟩], retainedBytes := bytes.length, nextSeq := 4, exitCode := some 0 }
        events := [.output ⟨1, .stdout, [0]⟩, .output ⟨2, .stdout, bytes⟩, .exited 3 0]
        streams := fun _ => .running
        exit := .closing } := by
  simp [Runs.run, LocalProcess.step, spawn, startProcess, streamOutput, watchExit, streamOf, BoundedQueue.evict, h,
    chunkLen, retainedOutputBytesPerProcess, retainedOutputChunksPerProcess]

variable (bytes : List UInt8)

/-- Two outputs and the end of a process. -/
def twoOutputs : List ExecProcessEvent :=
  [.output ⟨1, .stdout, [0]⟩, .output ⟨2, .stdout, bytes⟩, .exited 3 0, .closed 4]

/-- The process after its exit, when the second output has evicted the first. -/
def evictedFirst : RunningProcess :=
  { startProcess false with
    output := [⟨2, .stdout, bytes⟩], retainedBytes := bytes.length, nextSeq := 4, exitCode := some 0 }

theorem serverSequence_twoOutputs : ServerSequence (twoOutputs bytes) :=
  ⟨rfl, rfl, [.output ⟨1, .stdout, [0]⟩, .output ⟨2, .stdout, bytes⟩, .exited 3 0], 4, rfl, rfl⟩

theorem exitAt_twoOutputs : ExitAt (twoOutputs bytes) 3 0 := by
  obtain ⟨seq, code, hexit⟩ := (serverSequence_twoOutputs bytes).exitAt
  obtain rfl : 3 = seq := hexit.only 3 (.exited 3 0) rfl rfl
  have ha := hexit.at_seq
  cases ha
  exact hexit

variable {bytes}

theorem serves_evictedFirst (h : bytes.length = retainedOutputBytesPerProcess) :
    Serves (twoOutputs bytes) (evictedFirst bytes) := by
  refine ⟨false, [.receive .stdout [0], .receive .stdout bytes, .exit 0], ?_, ?_⟩
  · rw [output_evicts h]
    rfl
  · exact ⟨[.closed 4], rfl⟩

theorem evictedFirst_broken (h : bytes.length = retainedOutputBytesPerProcess) :
    ¬sequenced (recoverEvents (Action.response (evictedFirst bytes) 0) SessionState.new).state.events <+:
      twoOutputs bytes := by
  have hsnap := execRead_snapshot (serverSequence_twoOutputs bytes) (exitAt_twoOutputs bytes) (serves_evictedFirst h) 0
  have hc : (Action.response (evictedFirst bytes) 0).chunks = [⟨2, .stdout, bytes⟩] := by
    refine (execRead_chunks 0 ⟨?_, ?_, ?_⟩).trans rfl
    · simp [evictedFirst, chunkLen]
    · exact Nat.le_of_eq h
    · exact Nat.le_of_ble_eq_true rfl
  refine recoverEvents_broken (serverSequence_twoOutputs bytes) (exitAt_twoOutputs bytes) hsnap
    ⟨faithful_new _, rfl⟩ ⟨rfl, rfl, ?_⟩ rfl rfl ?_
  · exact (show 0 < 4 - 1 by decide)
  · intro hb
    have hm : ⟨2, .stdout, bytes⟩ ∈ (Action.response (evictedFirst bytes) 0).chunks := by simp [hc]
    have ho : ∀ x ∈ (Action.response (evictedFirst bytes) 0).chunks, x.seq ≠ 1 := by simp [hc]
    have hle := hb _ hm 1 Nat.one_pos Nat.one_lt_two rfl ho
    omega

/-- A chunk that takes all the room. -/
def fullChunk : List UInt8 := List.replicate retainedOutputBytesPerProcess 0

theorem length_fullChunk : fullChunk.length = retainedOutputBytesPerProcess := length_replicate

/-- The server has evicted the first output. A session that has seen nothing recovers from it and publishes the exit
under number one, which is the first output's. -/
theorem evicted_output_published_as_exit :
    ServerSequence (twoOutputs fullChunk) ∧
      Allowed (twoOutputs fullChunk) SessionState.new (.recover (evictedFirst fullChunk) 0) ∧
      ¬Runs.Every step (InOrder (twoOutputs fullChunk)) SessionState.new [.recover (evictedFirst fullChunk) 0] := by
  refine ⟨serverSequence_twoOutputs fullChunk, ⟨serves_evictedFirst length_fullChunk, Nat.le_refl _⟩, ?_⟩
  intro he
  exact evictedFirst_broken length_fullChunk he.2.sequence

end EventOrder
