import Ycode.TurnSegments

/-!
# Replay without checkpoints

Only a compaction with a replacement history is a checkpoint. Where a rollout has none, the scan
finds no base and the history is replayed from the very beginning, one recorded item after another.
-/
namespace PlainReplay

open RustStr Transcript History RolloutReplay TurnSegments List

variable {J W : Type} (E : Env J W)

/-- An environment without inter-agent traffic, truncation or world state. -/
def plainEnv : Env Unit Unit where
  isCommunication := fun _ => false
  truncatePayload := id
  approxTokenCount := List.length
  truncateTokens := fun text budget => text.take budget
  parseUuid := fun _ => none
  snapshotFromValue := fun _ => none
  applyMergePatch := fun _ _ => none

def isCheckpoint : RolloutItem J → Bool
  | .compacted compacted => compacted.replacementHistory.isSome
  | _ => false

def baseOf (active : Option (ActiveReplaySegment J)) : Option (List ResponseItem) :=
  active.bind (·.baseReplacementHistory)

theorem movesSuffix_eq : movesSuffix active item = ((baseOf active).isNone && isCheckpoint item) := by
  cases active with
  | _ => cases item <;> simp [movesSuffix, baseOf, isCheckpoint]

theorem baseOf_noteItem (h : isCheckpoint item = false) :
    baseOf (noteItem E active item) = baseOf active := by
  cases item with
  | compacted compacted =>
    have hn : compacted.replacementHistory = none := by simpa [isCheckpoint] using h
    cases active <;> simp [baseOf, noteItem, noteCompacted, hn]
  | turnContext ctx =>
    simp only [baseOf, noteItem, noteTurnContext, Option.bind_some]
    cases active <;> split <;> rfl
  | eventMsg ev =>
    cases ev with
    | turnAborted tid =>
      cases active with
      | none => cases tid <;> rfl
      | some seg => rfl
    | _ => cases active <;> rfl
  | _ => cases active <;> rfl

theorem baseOf_noteItem_checkpoint (h : isCheckpoint item = true) :
    (baseOf (noteItem E active item)).isSome = true := by
  cases item with
  | compacted compacted =>
    obtain ⟨history, hs⟩ := Option.isSome_iff_exists.mp (show compacted.replacementHistory.isSome = true from h)
    simp [baseOf, noteItem, noteCompacted, hs]
  | _ => cases h

/-- No base has been found, and none is being collected. -/
structure Baseless (s : ReplayState J) : Prop where
  base : s.baseReplacementHistory = none
  active : baseOf s.activeSegment = none

theorem Baseless.unsettled (h : Baseless s) : settled s = false := by
  simp [settled, h.base]

theorem Baseless.finalize (h : Baseless s) {seg : ActiveReplaySegment J}
    (hs : seg.baseReplacementHistory = none) :
    Baseless (finalizeActiveSegment seg { s with activeSegment := none }) ∧
      (finalizeActiveSegment seg { s with activeSegment := none }).rolloutSuffix = s.rolloutSuffix := by
  unfold finalizeActiveSegment
  split
  · exact ⟨⟨h.base, rfl⟩, rfl⟩
  · refine ⟨⟨?_, rfl⟩, rfl⟩
    rw [h.base, hs]
    rfl

theorem Baseless.observe (h : Baseless s) (hi : isCheckpoint item = false) (newer : List (RolloutItem J)) :
    Baseless (observe E newer item s) ∧ (observe E newer item s).rolloutSuffix = s.rolloutSuffix := by
  apply observe_cases (P := fun next => Baseless next ∧ next.rolloutSuffix = s.rolloutSuffix)
  · intro hin
    rw [movesSuffix_eq, hi, Bool.and_false]
    exact ⟨⟨h.base, by rw [baseOf_noteItem E hi, h.active]⟩, rfl⟩
  · intro seg ha
    exact h.finalize (by simpa [baseOf, ha] using h.active)
  · intro n hm
    exact ⟨⟨h.base, h.active⟩, rfl⟩
  · exact ⟨h, rfl⟩

theorem Baseless.reverseScan (hi : ∀ item ∈ xs, isCheckpoint item = false)
    (h : Baseless s) (newer : List (RolloutItem J)) :
    Baseless (reverseScan E s newer xs) ∧ (reverseScan E s newer xs).rolloutSuffix = s.rolloutSuffix := by
  induction xs generalizing s newer with
  | nil => exact ⟨h, rfl⟩
  | cons item xs ih =>
    rw [forall_mem_cons] at hi
    obtain ⟨hn, hs⟩ := h.observe E hi.1 newer
    rw [RolloutReplay.reverseScan, if_neg (by rw [hn.unsettled]; exact Bool.false_ne_true)]
    obtain ⟨hl, hk⟩ := ih hi.2 hn (item :: newer)
    exact ⟨hl, hk.trans hs⟩

theorem Baseless.finalizeLeftover (h : Baseless s) :
    Baseless (finalizeLeftover s) ∧ (finalizeLeftover s).rolloutSuffix = s.rolloutSuffix := by
  unfold RolloutReplay.finalizeLeftover
  cases ha : s.activeSegment with
  | none => exact ⟨h, rfl⟩
  | some seg => exact h.finalize (by simpa [baseOf, ha] using h.active)

/-- A rollout without checkpoints is replayed from its first item. -/
theorem history_without_checkpoint (h : ∀ item ∈ rollout, isCheckpoint item = false) :
    (reconstructHistoryFromRollout E rollout).history = (forwardReplay E ⟨[], false⟩ rollout).history := by
  have hscan := Baseless.reverseScan E (s := {}) (fun item hi => h item (mem_reverse.mp hi))
    ⟨rfl, rfl⟩ []
  obtain ⟨hl, hs⟩ := hscan.1.finalizeLeftover
  have hn := hs.trans hscan.2
  simp only [reconstructHistoryFromRollout, scanRollout, hl.base, hn, Option.getD_none]

theorem isBoundary_processItem : isBoundary H (processItem H item) = isBoundary H item := by
  cases item <;> rfl

/-- An instruction is recorded as it is. -/
theorem recorded_of_boundary (h : isBoundary H item = true) : recorded H item = [item] := by
  cases item with
  | message id role txt phase md =>
    have hr : role ≠ "system".toList := by
      rintro rfl
      revert h
      simp [isUserTurnBoundary]
    have ha : isApiMessage (.message id role txt phase md) = true := bne_iff_ne.mpr hr
    rw [recorded, if_pos ha]
    rfl
  | agentMessage => rfl
  | _ => simp [isUserTurnBoundary] at h

theorem countP_recorded {item : ResponseItem} (h : isBoundary H item = false) :
    (recorded H item).countP (isBoundary H) = 0 := by
  unfold recorded
  split
  · rw [countP_singleton, isBoundary_processItem, h]; rfl
  · rfl

/-- What an item of the rollout appends to the history. -/
def recordedBy : RolloutItem J → List ResponseItem
  | .responseItem item => recorded E.toHost item
  | .interAgentCommunication communication => recorded E.toHost communication.toModelInputItem
  | _ => []

/-- The items that append an instruction. -/
def isBoundaryItem : RolloutItem J → Bool
  | .responseItem item => isBoundary E.toHost item
  | .interAgentCommunication _ => true
  | _ => false

theorem recordedBy_boundary (h : isBoundaryItem E item = true) :
    ∃ b, recordedBy E item = [b] ∧ isBoundary E.toHost b = true := by
  cases item with
  | responseItem item => exact ⟨item, recorded_of_boundary h, h⟩
  | interAgentCommunication communication => exact ⟨communication.toModelInputItem, rfl, rfl⟩
  | _ => cases h

theorem isUserTurn_of_countP (h : turn.body.countP (isBoundaryItem E) ≠ 0) : isUserTurn E turn = true := by
  obtain ⟨item, hi, hb⟩ := countP_pos_iff.mp (Nat.pos_of_ne_zero h)
  refine any_eq_true.mpr ⟨item, hi, ?_⟩
  cases item with
  | responseItem item => exact hb
  | interAgentCommunication => rfl
  | _ => cases hb

theorem countP_recordedBy (h : isBoundaryItem E item = false) :
    (recordedBy E item).countP (isBoundary E.toHost) = 0 := by
  cases item with
  | responseItem item => exact countP_recorded h
  | interAgentCommunication communication => cases h
  | _ => rfl

theorem countP_flatMap_recordedBy (xs : List (RolloutItem J)) :
    (xs.flatMap (recordedBy E)).countP (isBoundary E.toHost) = xs.countP (isBoundaryItem E) := by
  induction xs with
  | nil => rfl
  | cons item xs ih =>
    rw [flatMap_cons, countP_append, ih]
    by_cases h : isBoundaryItem E item = true
    · obtain ⟨b, hr, hb⟩ := recordedBy_boundary E h
      rw [hr, countP_singleton, if_pos hb, countP_cons_of_pos h, Nat.add_comm]
    · rw [countP_recordedBy E (by simpa using h), countP_cons_of_neg h, Nat.zero_add]

theorem forwardReplay_append :
    forwardReplay E s (items ++ more) = forwardReplay E (forwardReplay E s items) more := by
  rw [forwardReplay, foldl_append]
  rfl

theorem forwardStep_plain (hc : isCompacted item = false) (hr : isRolledBack item = false) :
    forwardStep E s item = { s with history := s.history ++ recordedBy E item } := by
  cases item with
  | eventMsg ev =>
    cases ev with
    | threadRolledBack => cases hr
    | _ => simp [forwardStep, recordedBy]
  | compacted => cases hc
  | _ => simp [forwardStep, recordedBy, recordItems]

/-- Away from compactions and rollbacks the history only grows. -/
theorem forwardReplay_plain
    (h : ∀ item ∈ xs, isCompacted item = false ∧ isRolledBack item = false) (s : ForwardState) :
    forwardReplay E s xs = { s with history := s.history ++ xs.flatMap (recordedBy E) } := by
  induction xs generalizing s with
  | nil => simp [forwardReplay]
  | cons item xs ih =>
    rw [forall_mem_cons] at h
    rw [forwardReplay, foldl_cons, forwardStep_plain E h.1.1 h.1.2]
    refine (ih h.2 _).trans ?_
    rw [flatMap_cons, append_assoc]

theorem not_rolledBack_of_inTurn (h : inTurn item = true) : isRolledBack item = false := by
  simp only [inTurn, Bool.and_eq_true, Bool.not_eq_true'] at h
  exact h.2

theorem not_checkpoint_of_not_compacted (h : isCompacted item = false) : isCheckpoint item = false := by
  cases item with
  | compacted => cases h
  | _ => rfl

/-- A turn without compactions appends what its items record. -/
theorem forwardReplay_turn {turn : CompleteTurn J} (h : ∀ item ∈ turn.body, isCompacted item = false) :
    forwardReplay E s turn.items = { s with history := s.history ++ turn.body.flatMap (recordedBy E) } := by
  have hp : ∀ item ∈ turn.items, isCompacted item = false ∧ isRolledBack item = false := by
    refine forall_mem_items ⟨rfl, rfl⟩ (fun item hi => ?_) ⟨rfl, rfl⟩
    exact ⟨h item hi, not_rolledBack_of_inTurn (turn.inside item hi)⟩
  rw [forwardReplay_plain E hp]
  simp [CompleteTurn.items, recordedBy]

end PlainReplay
