import Ycode.PlainReplay

/-!
# What a rolled-back turn leaves behind

A thread is resumed after its last turn was rolled back. The scan skips the turn's segment, but it
has already moved the replayed suffix behind a checkpoint in it; and the replay cuts the history in
front of the turn's instruction, not in front of the turn. The turn leaves no trace exactly when it
has no checkpoint and records nothing but injected context before its instruction.
-/
namespace RolledBackTurn

open RustStr Transcript History RolloutReplay TurnSegments PlainReplay List

variable {J W : Type} (E : Env J W)

theorem suffixAfter_without_checkpoint
    (h : ∀ item ∈ xs, isCheckpoint item = false) (active : Option (ActiveReplaySegment J))
    (suffix : Option (List (RolloutItem J))) (newer : List (RolloutItem J)) :
    suffixAfter E active suffix newer xs = suffix := by
  induction xs generalizing active newer with
  | nil => rfl
  | cons item xs ih =>
    rw [forall_mem_cons] at h
    rw [suffixAfter, movesSuffix_eq, h.1, Bool.and_false]
    exact ih h.2 _ _

theorem suffixAfter_isSome (xs : List (RolloutItem J)) (active : Option (ActiveReplaySegment J))
    (suf newer : List (RolloutItem J)) : (suffixAfter E active (some suf) newer xs).isSome = true := by
  induction xs generalizing active suf newer with
  | nil => rfl
  | cons item xs ih =>
    rw [suffixAfter]
    split
    all_goals exact ih _ _ _

theorem suffixAfter_checkpoint (h : ∃ item ∈ xs, isCheckpoint item = true)
    (ha : baseOf active = none) (suf : Option (List (RolloutItem J))) (newer : List (RolloutItem J)) :
    (suffixAfter E active suf newer xs).isSome = true := by
  induction xs generalizing active newer with
  | nil => simp at h
  | cons item xs ih =>
    rw [suffixAfter, movesSuffix_eq, ha]
    by_cases hi : isCheckpoint item = true
    · rw [hi]
      exact suffixAfter_isSome E xs _ _ _
    · have hi' : isCheckpoint item = false := by simpa using hi
      rw [hi']
      obtain ⟨x, ho, hc⟩ := h
      cases mem_cons.mp ho with
      | inl he => exact absurd (he ▸ hc) hi
      | inr hm => exact ih ⟨x, hm, hc⟩ (by rw [baseOf_noteItem E hi', ha]) _

def rollbackOne : RolloutItem J := .eventMsg (.threadRolledBack 1)

/-- The rollout of a thread whose turns are all complete. -/
def rolloutOf (turns : List (CompleteTurn J)) : List (RolloutItem J) := turns.flatMap CompleteTurn.items

/-- The same rollout after one more turn, which is then rolled back. -/
def rolledBack (turns : List (CompleteTurn J)) (turn : CompleteTurn J) : List (RolloutItem J) :=
  rolloutOf turns ++ (turn.items ++ [rollbackOne])

/-- The history without injected context. -/
def conversation (history : List ResponseItem) : List ResponseItem := history.filter (! isContextual ·)

/-- What a turn records before its instruction. -/
def leading (turn : CompleteTurn J) : List ResponseItem :=
  (turn.body.takeWhile (! isBoundaryItem E ·)).flatMap (recordedBy E)

/-- Behind a rolled-back user turn the scan starts afresh, except for the replayed suffix. -/
theorem reverseScan_rolledBack (h : isUserTurn E turn = true) :
    reverseScan E {} [] (turn.items ++ [rollbackOne]).reverse =
      { rolloutSuffix := turn.suffix E none [rollbackOne] } := by
  have hp : observe E [] rollbackOne ({} : ReplayState J) = { pendingRollbackTurns := 1 } := rfl
  have ho : settled ({ pendingRollbackTurns := 1 } : ReplayState J) = false := rfl
  rw [reverse_append, reverse_singleton, singleton_append, reverseScan, hp, ho,
    if_neg Bool.false_ne_true, reverseScan_turn E turn [rollbackOne] rfl rfl, finalizeActiveSegment,
    if_pos Nat.one_pos, segment_counts, h]
  rfl

theorem scanRollout_rolledBack (h : isUserTurn E turn = true) (ts : List (CompleteTurn J)) :
    scanRollout E (rolledBack ts turn) =
      finalizeLeftover (reverseScan E { rolloutSuffix := turn.suffix E none [rollbackOne] }
        (turn.items ++ [rollbackOne]) (rolloutOf ts).reverse) := by
  rw [scanRollout, rolledBack, reverse_append, reverseScan_append E _ _ _ rfl,
    reverseScan_rolledBack E h, reverse_reverse, append_nil]
  rfl

/-- Without a checkpoint in the turn, the scan finds what it finds without the turn. -/
theorem scanRollout_without_checkpoint (h : isUserTurn E turn = true)
    (hp : ∀ item ∈ turn.body, isCheckpoint item = false) (ts : List (CompleteTurn J)) :
    scanRollout E (rolledBack ts turn) = extend (turn.items ++ [rollbackOne]) (scanRollout E (rolloutOf ts)) := by
  have hs : turn.suffix E none [rollbackOne] = none :=
    suffixAfter_without_checkpoint E (fun item hi => hp item (mem_reverse.mp hi)) _ _ _
  have hscan := reverseScan_extend E (turn.items ++ [rollbackOne]) [] (rolloutOf ts).reverse {}
  rw [scanRollout_rolledBack E h, hs, scanRollout, ← finalizeLeftover_extend, ← hscan]
  rfl

theorem history_rolledBack (h : isUserTurn E turn = true)
    (hp : ∀ item ∈ turn.body, isCompacted item = false) (ts : List (CompleteTurn J)) :
    (reconstructHistoryFromRollout E (rolledBack ts turn)).history = dropLastNUserTurns E.toHost 1
        ((reconstructHistoryFromRollout E (rolloutOf ts)).history ++ turn.body.flatMap (recordedBy E)) := by
  have hscan := scanRollout_without_checkpoint E h
    (fun item hi => not_checkpoint_of_not_compacted (hp item hi)) ts
  have hs : (extend (turn.items ++ [rollbackOne]) (scanRollout E (rolloutOf ts))).rolloutSuffix.getD
      (rolledBack ts turn) = (scanRollout E (rolloutOf ts)).rolloutSuffix.getD (rolloutOf ts) ++
        (turn.items ++ [rollbackOne]) := by
    simp only [extend, rolledBack]
    cases (scanRollout E (rolloutOf ts)).rolloutSuffix <;> rfl
  simp only [reconstructHistoryFromRollout, hscan, hs]
  rw [forwardReplay_append, forwardReplay_append, forwardReplay_turn E hp]
  rfl

/-- The instruction of a turn splits what the turn records. -/
theorem recorded_split (h : turn.body.countP (isBoundaryItem E) = 1) :
    ∃ b rest, turn.body.flatMap (recordedBy E) = leading E turn ++ b :: rest ∧
      isBoundary E.toHost b = true ∧ rest.countP (isBoundary E.toHost) = 0 := by
  have hs := takeWhile_append_dropWhile (l := turn.body) (p := (! isBoundaryItem E ·))
  have hn : (turn.body.takeWhile (! isBoundaryItem E ·)).countP (isBoundaryItem E) = 0 := by
    rw [countP_eq_zero]
    intro item hi
    simpa using mem_takeWhile_imp hi
  rw [← hs, countP_append, hn, Nat.zero_add] at h
  cases hd : turn.body.dropWhile (! isBoundaryItem E ·) with
  | nil => rw [hd] at h; simp at h
  | cons item rest =>
    have hi : isBoundaryItem E item = true := by
      simpa [hd] using head_dropWhile_not (! isBoundaryItem E ·) (l := turn.body) (by rw [hd]; simp)
    obtain ⟨b, hr, hb⟩ := recordedBy_boundary E hi
    rw [hd, countP_cons_of_pos hi] at h
    refine ⟨b, rest.flatMap (recordedBy E), ?_, hb, ?_⟩
    · conv_lhs => rw [← hs, hd]
      rw [flatMap_append, flatMap_cons, hr]
      rfl
    · rw [countP_flatMap_recordedBy]
      omega

/-- Without a compaction in the turn, what it recorded before its instruction stays behind. -/
theorem conversation_rolledBack (ho : turn.body.countP (isBoundaryItem E) = 1)
    (hp : ∀ item ∈ turn.body, isCompacted item = false) :
    conversation (reconstructHistoryFromRollout E (rolledBack turns turn)).history =
      conversation (reconstructHistoryFromRollout E (rolloutOf turns)).history ++ conversation (leading E turn) := by
  obtain ⟨b, rest, hr, hb, hrest⟩ := recorded_split E ho
  rw [history_rolledBack E (isUserTurn_of_countP E (by rw [ho]; exact Nat.one_ne_zero)) hp,
    hr, ← append_assoc, conversation, filter_dropLast_one E.toHost _ rest b hb hrest, filter_append]
  rfl

section Trace

/-- A turn whose only item is a user message. -/
def messageTurn (text : Str) : CompleteTurn J :=
  ⟨"t".toList, [.responseItem (userTextMessage text none)], by simp [inTurn, isTurnStarted, isRolledBack]⟩

/-- Rolling the turn back resumes, up to injected context, the conversation before it. -/
def LeavesNoTrace (turn : CompleteTurn J) : Prop :=
  ∀ turns : List (CompleteTurn J), (∃ user ∈ turns, isUserTurn E user = true) →
    conversation (reconstructHistoryFromRollout E (rolledBack turns turn)).history =
      conversation (reconstructHistoryFromRollout E (rolloutOf turns)).history

section

variable (h : isStandardContextualUserText text = false)
include h

theorem isBoundary_userTextMessage : isBoundary H (userTextMessage text none) = true := by
  simp [userTextMessage, isUserTurnBoundary, isContextualUserMessageContent, isContextualUserFragment, h]

theorem isUserTurn_messageTurn : isUserTurn E (messageTurn text) = true := by
  simp only [isUserTurn, messageTurn, any_cons, countsAsUserTurn, isBoundary_userTextMessage h, Bool.true_or]

omit h in
theorem messageTurn_plain (text : Str) :
    ∀ item ∈ rolloutOf [messageTurn (J := J) text], isCompacted item = false := by
  simp [rolloutOf, CompleteTurn.items, messageTurn, isCompacted]

theorem conversation_messageTurn :
    conversation (reconstructHistoryFromRollout E (rolloutOf [messageTurn text])).history =
      [userTextMessage text none] := by
  have hp : (forwardReplay E ⟨[], false⟩ (rolloutOf [messageTurn text])).history = [userTextMessage text none] := by
    have hr := recorded_of_boundary (H := E.toHost) (isBoundary_userTextMessage h)
    simp only [rolloutOf, flatMap_singleton]
    rw [forwardReplay_turn E (by simp [messageTurn, isCompacted])]
    simp [messageTurn, recordedBy, hr]
  have hc : isContextual (userTextMessage text none) = false := by
    simp [userTextMessage, isContextual, isContextualUserMessageContent, isContextualUserFragment, h]
  rw [history_without_checkpoint E fun item hi =>
    not_checkpoint_of_not_compacted (messageTurn_plain text item hi), hp, conversation,
    filter_cons_of_pos (by rw [hc]; rfl), filter_nil]

end

/-- With a checkpoint in the turn, what came before it is lost whatever it was. -/
theorem history_lost (h : isUserTurn E turn = true) (hc : ∃ item ∈ turn.body, isCheckpoint item = true) :
    ∃ history, ∀ text, (reconstructHistoryFromRollout E (rolledBack [messageTurn text] turn)).history = history := by
  have hsome : (turn.suffix E none [rollbackOne]).isSome = true := by
    obtain ⟨item, hi, hcheck⟩ := hc
    exact suffixAfter_checkpoint E ⟨item, mem_reverse.mpr hi, hcheck⟩ rfl _ _
  obtain ⟨suf, hs⟩ := Option.isSome_iff_exists.mp hsome
  refine ⟨(forwardReplay E ⟨[], false⟩ suf).history, fun text => ?_⟩
  have hscan := Baseless.reverseScan E (s := { rolloutSuffix := some suf })
    (fun item hi => not_checkpoint_of_not_compacted (messageTurn_plain text item (mem_reverse.mp hi)))
    ⟨rfl, rfl⟩ (turn.items ++ [rollbackOne])
  obtain ⟨hl, hk⟩ := hscan.1.finalizeLeftover
  simp only [reconstructHistoryFromRollout, scanRollout_rolledBack E h, hs, hl.base, hk.trans hscan.2,
    Option.getD_none, Option.getD_some]

theorem leavesNoTrace_iff (turn : CompleteTurn J) (hone : turn.body.countP (isBoundaryItem E) = 1)
    (hreplaced : ∀ item ∈ turn.body, isCompacted item = true → isCheckpoint item = true) :
    LeavesNoTrace E turn ↔
      (∀ item ∈ turn.body, isCompacted item = false) ∧ ∀ item ∈ leading E turn, isContextual item = true := by
  have ha : isStandardContextualUserText "a".toList = false := by decide
  have hb : isStandardContextualUserText "b".toList = false := by decide
  constructor
  · intro h
    have hp : ∀ item ∈ turn.body, isCompacted item = false := by
      by_contra hs
      simp only [not_forall, Bool.not_eq_false] at hs
      obtain ⟨item, hi, hc⟩ := hs
      obtain ⟨ht, hlost⟩ := history_lost E (isUserTurn_of_countP E (by rw [hone]; exact Nat.one_ne_zero))
        ⟨item, hi, hreplaced item hi hc⟩
      have h₁ := h [messageTurn "a".toList] ⟨_, mem_singleton_self _, isUserTurn_messageTurn E ha⟩
      have h₂ := h [messageTurn "b".toList] ⟨_, mem_singleton_self _, isUserTurn_messageTurn E hb⟩
      rw [hlost, conversation_messageTurn E ha] at h₁
      rw [hlost, conversation_messageTurn E hb] at h₂
      have hsame := h₁.symm.trans h₂
      simp [userTextMessage] at hsame
    refine ⟨hp, fun item hi => ?_⟩
    have h₁ := h [messageTurn "a".toList] ⟨_, mem_singleton_self _, isUserTurn_messageTurn E ha⟩
    rw [conversation_rolledBack E hone hp] at h₁
    have hn : conversation (leading E turn) = [] := append_right_eq_self.mp h₁
    have hf := filter_eq_nil_iff.mp hn item hi
    simpa using hf
  · rintro ⟨hp, hl⟩ turns -
    have hn : conversation (leading E turn) = [] := by
      refine filter_eq_nil_iff.mpr fun item hi => ?_
      simp [hl item hi]
    rw [conversation_rolledBack E hone hp, hn, append_nil]

/-- A context update, an instruction and the answer to it. -/
def answeredTurn : CompleteTurn Unit where
  turnId := "u".toList
  body := [.responseItem (.message none "developer".toList [.inputText "<model_switch>".toList] none none),
    .responseItem (userTextMessage "again".toList none),
    .responseItem (.message none "assistant".toList [.outputText "done".toList] none none)]
  inside := by decide

theorem answeredTurn_leavesNoTrace : LeavesNoTrace plainEnv answeredTurn :=
  (leavesNoTrace_iff plainEnv answeredTurn (by decide) (by decide)).mpr ⟨by decide, by decide⟩

/-- An instruction whose turn compacts the thread. -/
def compactingTurn : CompleteTurn Unit where
  turnId := "u".toList
  body := [.responseItem (userTextMessage "again".toList none),
    .compacted ⟨"summary".toList, some [userTextMessage "summary".toList none], some 1, none, none, none⟩]
  inside := by decide

/-- The rolled-back compaction takes the message of the surviving turn with it. -/
theorem compactingTurn_loses_history :
    (compactingTurn.body.countP (isBoundaryItem plainEnv) = 1 ∧
      (∀ item ∈ compactingTurn.body, isCompacted item = true → isCheckpoint item = true) ∧
      isUserTurn plainEnv (messageTurn "first".toList) = true) ∧
    conversation (reconstructHistoryFromRollout plainEnv (rolloutOf [messageTurn "first".toList])).history =
      [userTextMessage "first".toList none] ∧
    conversation (reconstructHistoryFromRollout plainEnv
      (rolledBack [messageTurn "first".toList] compactingTurn)).history = [] :=
  ⟨⟨by decide, by decide, by decide⟩, rfl, rfl⟩

end Trace

end RolledBackTurn
