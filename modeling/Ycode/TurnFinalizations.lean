import Ycode.PlainReplay
import Ycode.UndoLog

/-!
# The segments that survive the scan

A rollout of complete turns and rollback markers is scanned turn by turn. The segments of user turns
that are not rolled back form a log, read newest to oldest, and the previous settings and the
reference context are those of its newest entries.
-/
namespace TurnFinalizations

open RustStr Transcript History RolloutReplay TurnSegments PlainReplay UndoLog List

variable {J W ι : Type} (E : Env J W)

/-- What a rollout is made of here: complete turns and rollback markers. -/
inductive Piece (J : Type) where
  | turn (done : CompleteTurn J)
  | rolledBack (numTurns : UInt32)

def Piece.items : Piece J → List (RolloutItem J)
  | .turn done => done.items
  | .rolledBack numTurns => [.eventMsg (.threadRolledBack numTurns)]

def Piece.turn? : Piece J → Option (CompleteTurn J)
  | .turn done => some done
  | .rolledBack _ => none

def turnsOf (pieces : List (Piece J)) : List (CompleteTurn J) := pieces.filterMap Piece.turn?

@[simp] theorem turnsOf_turn : turnsOf (.turn turn :: pieces) = turn :: turnsOf pieces := rfl

@[simp] theorem turnsOf_rolledBack : turnsOf (.rolledBack numTurns :: pieces) = turnsOf pieces := rfl

/-- The items of the pieces, each with the tag of its piece. -/
def tagged (pieces : List (Piece J × ι)) : List (RolloutItem J × ι) :=
  pieces.flatMap fun piece => piece.1.items.map (·, piece.2)

variable {s : ReplayState J} {pieces : List (Piece J × ι)}

/-- A segment handed to `finalize_active_segment`, with the tag of the `TurnStarted` that closed it
and the number of rollbacks pending at that moment. -/
structure Finalized (J ι : Type) where
  tag : ι
  segment : ActiveReplaySegment J
  pendingRollbackTurns : Nat

def Finalized.survives (entry : Finalized J ι) : Bool :=
  entry.pendingRollbackTurns == 0 && entry.segment.countsAsUserTurn

def finalizedAt (s : ReplayState J) : RolloutItem J × ι → List (Finalized J ι)
  | (.eventMsg (.turnStarted turnId), tag) =>
    (closedBy s turnId).toList.map fun segment => ⟨tag, segment, s.pendingRollbackTurns⟩
  | _ => []

/-- The segments that the scan finalises, newest first. -/
def finalizations (s : ReplayState J) (newer : List (RolloutItem J)) :
    List (RolloutItem J × ι) → List (Finalized J ι)
  | [] => []
  | item :: older =>
    let next := observe E newer item.1 s
    finalizedAt s item ++ if settled next then [] else finalizations next (item.1 :: newer) older

/-- The newest user-turn segment that survives the scan: the one that the previous settings and the
reference context are taken from. -/
def newestSurvivor (rollout : List (RolloutItem J × ι)) : Option ι :=
  ((finalizations E {} [] rollout.reverse).find? Finalized.survives).map (·.tag)

/-- What a piece does to the log of user turns. -/
def segmentOps : Piece J × ι → List (Op ι)
  | (.turn turn, tag) => if isUserTurn E turn then [.push tag] else []
  | (.rolledBack numTurns, _) => [.pop numTurns.toNat]

theorem finalizedAt_inTurn (h : inTurn item = true) : finalizedAt s (item, tag) = [] := by
  cases item with
  | eventMsg ev =>
    cases ev with
    | turnStarted => cases h
    | _ => rfl
  | _ => rfl

theorem finalizations_inTurn (h : ∀ item ∈ xs, inTurn item = true)
    (tag : ι) (newer : List (RolloutItem J)) (hs : settled s = false) (older : List (RolloutItem J × ι)) :
    finalizations E s newer (xs.map (·, tag) ++ older) =
      finalizations E (reverseScan E s newer xs) (xs.reverse ++ newer) older := by
  induction xs generalizing s newer with
  | nil => rfl
  | cons item xs ih =>
    rw [forall_mem_cons] at h
    have hn : settled (observe E newer item s) = false := by
      rw [observe_inTurn E h.1]; exact hs
    rw [map_cons, cons_append, finalizations, finalizedAt_inTurn h.1, nil_append, hn,
      if_neg Bool.false_ne_true, ih h.2 (item :: newer) hn, reverseScan, hn,
      if_neg Bool.false_ne_true, reverse_cons, append_assoc]
    rfl

/-- A complete turn is finalised once, as the segment of its items. -/
theorem finalizations_turn (turn : CompleteTurn J) (tag : ι) (newer : List (RolloutItem J))
    (hs : settled s = false) (ha : s.activeSegment = none)
    (ho : settled (reverseScan E s newer turn.items.reverse) = false) (older : List (RolloutItem J × ι)) :
    finalizations E s newer ((turn.items.map (·, tag)).reverse ++ older) =
      ⟨tag, turn.segment E, s.pendingRollbackTurns⟩ ::
        finalizations E (reverseScan E s newer turn.items.reverse) (turn.items ++ newer) older := by
  have hinner := reverseScan_inner E turn newer hs ha
  have hi : settled (reverseScan E s newer turn.inner) = false := by rw [hinner]; exact hs
  have hl : observe E (turn.inner.reverse ++ newer) (.eventMsg (.turnStarted turn.turnId))
      (reverseScan E s newer turn.inner) = reverseScan E s newer turn.items.reverse := by
    rw [items_reverse, reverseScan_append E _ _ _ hs, hi, if_neg Bool.false_ne_true]
    simp only [reverseScan, ite_self]
  have hf : finalizedAt (reverseScan E s newer turn.inner)
      (.eventMsg (.turnStarted turn.turnId), tag) = [⟨tag, turn.segment E, s.pendingRollbackTurns⟩] := by
    rw [hinner, finalizedAt, closedBy_segment E turn rfl]
    rfl
  have hitems : .eventMsg (.turnStarted turn.turnId) :: (turn.inner.reverse ++ newer) = turn.items ++ newer := by
    simp [CompleteTurn.inner, CompleteTurn.items]
  rw [← map_reverse, items_reverse, map_append, append_assoc,
    finalizations_inTurn E (inner_inTurn turn) tag newer hs, map_singleton, singleton_append,
    finalizations, hf, ← items_reverse, hl, ho, if_neg Bool.false_ne_true, hitems]
  rfl

theorem finalize_pending (seg : ActiveReplaySegment J) (s : ReplayState J) :
    (finalizeActiveSegment seg s).pendingRollbackTurns =
      if seg.countsAsUserTurn then s.pendingRollbackTurns - 1 else s.pendingRollbackTurns := by
  unfold finalizeActiveSegment
  by_cases h : s.pendingRollbackTurns > 0
  · rw [if_pos h]
  · have hz : s.pendingRollbackTurns = 0 := by omega
    simp [hz]

theorem finalize_activeSegment (seg : ActiveReplaySegment J) (s : ReplayState J) :
    (finalizeActiveSegment seg s).activeSegment = s.activeSegment := by
  unfold finalizeActiveSegment
  split <;> rfl

/-- No piece holds a compaction. -/
def Plain (pieces : List (Piece J × ι)) : Prop :=
  ∀ piece ∈ pieces, ∀ item ∈ piece.1.items, isCompacted item = false

theorem Plain.checkpoints (h : Plain pieces) (hp : piece ∈ pieces) :
    ∀ item ∈ piece.1.items.reverse, isCheckpoint item = false :=
  fun item hi => not_checkpoint_of_not_compacted (h piece hp item (mem_reverse.mp hi))

/-- The scan reads the log of user turns newest to oldest. -/
theorem survivors_eq_back (h : Plain pieces)
    (hs : Baseless s) (ha : s.activeSegment = none) (newer : List (RolloutItem J)) :
    ((finalizations E s newer (pieces.flatMap fun pc => (pc.1.items.map (·, pc.2)).reverse)).filter
        Finalized.survives).map (·.tag) =
      back usizeMax s.pendingRollbackTurns (pieces.flatMap (segmentOps E)) := by
  induction pieces generalizing s newer with
  | nil => simp [finalizations, back]
  | cons pc pieces ih =>
    have hn := hs.reverseScan E (h.checkpoints mem_cons_self) newer
    have hr : Plain pieces := fun x ho => h x (mem_cons_of_mem _ ho)
    obtain ⟨pc, tag⟩ := pc
    rw [flatMap_cons, flatMap_cons]
    cases pc with
    | rolledBack n =>
      have hopen : settled (observe E newer (.eventMsg (.threadRolledBack n)) s) = false := hs.unsettled
      simp only [Piece.items, map_singleton, reverse_singleton, singleton_append, finalizations,
        finalizedAt, nil_append, hopen, segmentOps, back_pop]
      exact ih hr (s := observe E newer (.eventMsg (.threadRolledBack n)) s) ⟨hs.base, hs.active⟩ ha _
    | turn turn =>
      have hscan := reverseScan_turn E turn newer hs.unsettled ha
      have hp : (reverseScan E s newer turn.items.reverse).pendingRollbackTurns =
          if isUserTurn E turn then s.pendingRollbackTurns - 1 else s.pendingRollbackTurns := by
        rw [hscan, finalize_pending, segment_counts]
      have hc : (reverseScan E s newer turn.items.reverse).activeSegment = none := by
        rw [hscan, finalize_activeSegment]
        exact ha
      have ht := ih hr hn.1 hc (turn.items ++ newer)
      rw [show (Piece.turn turn).items = turn.items from rfl] at hn ht ⊢
      rw [hp] at ht
      rw [finalizations_turn E turn tag newer hs.unsettled ha hn.1.unsettled, filter_cons,
        Finalized.survives, segment_counts, segmentOps]
      cases hu : isUserTurn E turn with
      | false => simpa [hu] using ht
      | true =>
        cases hz : s.pendingRollbackTurns with
        | _ => simpa [hu, hz, back] using ht

/-- Finalising a segment takes over its metadata when it survives. -/
theorem finalize_metadata (tag : ι) {seg : ActiveReplaySegment J}
    (hs : s.referenceContextItem.isCleared = false) (hg : seg.referenceContextItem.isCleared = false) :
    (finalizeActiveSegment seg { s with activeSegment := none }).previousTurnSettings =
        s.previousTurnSettings.or (([⟨tag, seg, s.pendingRollbackTurns⟩].filter
          Finalized.survives).findSome? (·.segment.previousTurnSettings)) ∧
      latestReference (finalizeActiveSegment seg { s with activeSegment := none }).referenceContextItem =
        (latestReference s.referenceContextItem).or (([⟨tag, seg, s.pendingRollbackTurns⟩].filter
          Finalized.survives).findSome? fun e => latestReference e.segment.referenceContextItem) := by
  by_cases hp : s.pendingRollbackTurns > 0
  · have hd : Finalized.survives ⟨tag, seg, s.pendingRollbackTurns⟩ = false := by
      simp [Finalized.survives, Nat.ne_of_gt hp]
    rw [finalizeActiveSegment, if_pos hp, filter_cons_of_neg (by simp [hd])]
    simp
  · have hz : s.pendingRollbackTurns = 0 := by omega
    have hu : Finalized.survives ⟨tag, seg, s.pendingRollbackTurns⟩ = seg.countsAsUserTurn := by
      simp [Finalized.survives, hz]
    rw [finalizeActiveSegment, if_neg hp, filter_cons, hu, filter_nil]
    rw [hg, Bool.or_false]
    cases seg.countsAsUserTurn with
    | false => simp
    | true =>
      constructor
      · cases s.previousTurnSettings <;> simp
      · cases hr : s.referenceContextItem with
        | cleared => rw [hr] at hs; cases hs
        | _ => simp [TurnReferenceContextItem.isNeverSet, latestReference]

/-- The reference context of the scan and of its segment is a turn context or was never set. -/
structure Uncleared (s : ReplayState J) : Prop where
  reference : s.referenceContextItem.isCleared = false
  active : (s.activeSegment.getD {}).referenceContextItem.isCleared = false

theorem noteItem_uncleared (hi : isCompacted item = false)
    (h : (active.getD {}).referenceContextItem.isCleared = false) :
    ((noteItem E active item).getD {}).referenceContextItem.isCleared = false := by
  cases item with
  | compacted => cases hi
  | turnContext ctx =>
    simp only [noteItem, noteTurnContext, Option.getD_some]
    split
    · split
      · rfl
      · exact h
    · exact h
  | eventMsg ev =>
    cases ev with
    | turnAborted tid =>
      cases active with
      | none => cases tid <;> rfl
      | some seg => exact h
    | _ => exact h
  | _ => exact h

theorem finalize_uncleared {seg : ActiveReplaySegment J}
    (hs : s.referenceContextItem.isCleared = false) (hg : seg.referenceContextItem.isCleared = false) :
    Uncleared (finalizeActiveSegment seg { s with activeSegment := none }) := by
  unfold finalizeActiveSegment
  split
  · exact ⟨hs, rfl⟩
  · refine ⟨?_, rfl⟩
    dsimp only
    split
    · exact hg
    · exact hs

theorem observe_uncleared (hi : isCompacted item = false)
    (h : Uncleared s) (newer : List (RolloutItem J)) : Uncleared (observe E newer item s) := by
  apply observe_cases
  · intro hin
    exact ⟨h.reference, noteItem_uncleared E hi h.active⟩
  · intro seg ha
    have hs := h.active
    rw [ha] at hs
    exact finalize_uncleared h.reference hs
  · intro n hm
    exact ⟨h.reference, h.active⟩
  · exact h

/-- What one step adds to the metadata comes from a surviving segment. -/
theorem observe_metadata (item : RolloutItem J × ι) (h : Uncleared s) (newer : List (RolloutItem J)) :
    (observe E newer item.1 s).previousTurnSettings = s.previousTurnSettings.or
        (((finalizedAt s item).filter Finalized.survives).findSome? (·.segment.previousTurnSettings)) ∧
      latestReference (observe E newer item.1 s).referenceContextItem =
        (latestReference s.referenceContextItem).or (((finalizedAt s item).filter Finalized.survives).findSome?
          fun e => latestReference e.segment.referenceContextItem) := by
  obtain ⟨item, tag⟩ := item
  rcases inTurn_or_marker item with hi | ⟨tid, rfl⟩ | ⟨n, rfl⟩
  · rw [observe_inTurn E hi, finalizedAt_inTurn hi]
    simp
  · simp only [observe, finalizedAt]
    cases hc : closedBy s tid with
    | none => simp
    | some seg =>
      have hs := h.active
      rw [show s.activeSegment = some seg from Option.eq_some_of_filter_eq_some hc] at hs
      exact finalize_metadata tag h.reference hs
  · simp [observe, finalizedAt]

/-- The metadata of the scan is that of the newest surviving segments which have it. -/
theorem reverseScan_metadata {xs : List (RolloutItem J × ι)} (hi : ∀ item ∈ xs, isCompacted item.1 = false)
    (h : Uncleared s) (newer : List (RolloutItem J)) :
    (reverseScan E s newer (xs.map Prod.fst)).previousTurnSettings = s.previousTurnSettings.or
        (((finalizations E s newer xs).filter Finalized.survives).findSome? (·.segment.previousTurnSettings)) ∧
      latestReference (reverseScan E s newer (xs.map Prod.fst)).referenceContextItem =
        (latestReference s.referenceContextItem).or (((finalizations E s newer xs).filter
          Finalized.survives).findSome? fun e => latestReference e.segment.referenceContextItem) := by
  induction xs generalizing s newer with
  | nil => simp [reverseScan, finalizations]
  | cons item xs ih =>
    rw [forall_mem_cons] at hi
    have hstep := observe_metadata E item h newer
    have hr := ih hi.2 (observe_uncleared E hi.1 h newer) (item.1 :: newer)
    rw [map_cons, reverseScan, finalizations, filter_append, findSome?_append,
      findSome?_append, ← Option.or_assoc, ← Option.or_assoc, ← hstep.1, ← hstep.2]
    by_cases hs : settled (observe E newer item.1 s) = true
    · simp [hs]
    · simpa [hs] using hr

theorem reverseScan_pieces_activeSegment (h : Plain pieces)
    (hs : Baseless s) (ha : s.activeSegment = none) (newer : List (RolloutItem J)) :
    (reverseScan E s newer (pieces.flatMap fun pc => pc.1.items.reverse)).activeSegment = none := by
  induction pieces generalizing s newer with
  | nil => exact ha
  | cons pc pieces ih =>
    have hn := hs.reverseScan E (h.checkpoints mem_cons_self) newer
    have hr : Plain pieces := fun x ho => h x (mem_cons_of_mem _ ho)
    have hc : (reverseScan E s newer pc.1.items.reverse).activeSegment = none := by
      obtain ⟨pc, tag⟩ := pc
      cases pc with
      | turn turn =>
        rw [Piece.items, reverseScan_turn E turn newer hs.unsettled ha, finalize_activeSegment]
        exact ha
      | rolledBack n =>
        simp only [Piece.items, reverse_singleton, reverseScan, ite_self]
        exact ha
    rw [flatMap_cons, reverseScan_append E _ _ _ hs.unsettled, hn.1.unsettled, if_neg Bool.false_ne_true]
    exact ih hr hn.1 hc _

end TurnFinalizations
