import Ycode.RolloutReplay

/-!
# Turn segments in the newest-to-oldest scan

Between two `TurnStarted` events, and away from rollback markers, the scan only adds to the segment
it is collecting. A complete turn therefore enters the scan as one segment, which its `TurnStarted`
finalises whatever its other items were.
-/
namespace TurnSegments

open RustStr Transcript History RolloutReplay List

variable {J W : Type}

def isTurnStarted : RolloutItem J → Bool
  | .eventMsg (.turnStarted _) => true
  | _ => false

def isRolledBack : RolloutItem J → Bool
  | .eventMsg (.threadRolledBack _) => true
  | _ => false

/-- The items that only add to the collected segment. -/
def inTurn (item : RolloutItem J) : Bool := !isTurnStarted item && !isRolledBack item

variable (E : Env J W)

theorem observe_inTurn (h : inTurn item = true) (newer : List (RolloutItem J)) (s : ReplayState J) :
    observe E newer item s =
      { s with
        activeSegment := noteItem E s.activeSegment item
        rolloutSuffix := if movesSuffix s.activeSegment item then some newer else s.rolloutSuffix } := by
  cases item with
  | eventMsg ev => cases ev <;> first | rfl | cases h
  | _ => rfl

/-- An item belongs to a turn, starts one or rolls turns back. -/
theorem inTurn_or_marker (item : RolloutItem J) :
    inTurn item = true ∨ (∃ tid, item = .eventMsg (.turnStarted tid)) ∨
      ∃ n, item = .eventMsg (.threadRolledBack n) := by
  cases item with
  | eventMsg ev =>
    cases ev with
    | turnStarted tid => exact .inr (.inl ⟨tid, rfl⟩)
    | threadRolledBack n => exact .inr (.inr ⟨n, rfl⟩)
    | _ => exact .inl rfl
  | _ => exact .inl rfl

/-- The step rule of the scan: it notes an item, closes a segment, counts a rollback or does nothing. -/
theorem observe_cases {P : ReplayState J → Prop} {newer : List (RolloutItem J)} {s : ReplayState J}
    (hn : inTurn item = true → P { s with
      activeSegment := noteItem E s.activeSegment item
      rolloutSuffix := if movesSuffix s.activeSegment item then some newer else s.rolloutSuffix })
    (hclose : ∀ seg, s.activeSegment = some seg → P (finalizeActiveSegment seg { s with activeSegment := none }))
    (hr : ∀ n, item = .eventMsg (.threadRolledBack n) →
      P { s with pendingRollbackTurns := saturatingAdd s.pendingRollbackTurns n.toNat })
    (hs : P s) : P (observe E newer item s) := by
  rcases inTurn_or_marker item with hi | ⟨tid, rfl⟩ | ⟨n, rfl⟩
  · rw [observe_inTurn E hi]
    exact hn hi
  · rw [observe]
    cases hc : closedBy s tid with
    | none => exact hs
    | some seg => exact hclose seg (Option.eq_some_of_filter_eq_some hc)
  · exact hr n rfl

theorem observe_closes {segment : ActiveReplaySegment J} {tid : Str} (ha : s.activeSegment = some segment)
    (hc : turnIdsAreCompatible segment.turnId (some tid) = true) :
    observe E newer (.eventMsg (.turnStarted tid)) s = finalizeLeftover s := by
  have hl : closedBy s tid = some segment := by
    rw [closedBy, ha, Option.filter_some, if_pos hc]
  simp only [observe, hl, finalizeLeftover, ha]

/-- With no rollback pending, a finalised segment gives what the scan still misses. -/
theorem finalizeActiveSegment_survives (h : s.pendingRollbackTurns = 0) (segment : ActiveReplaySegment J) :
    finalizeActiveSegment segment s =
      { s with
        worldStateReplay := s.worldStateReplay ++ segment.worldStateReplay
        baseReplacementHistory := s.baseReplacementHistory.or segment.baseReplacementHistory
        window := s.window.or segment.window
        previousTurnSettings :=
          if s.previousTurnSettings.isNone && segment.countsAsUserTurn then segment.previousTurnSettings
          else s.previousTurnSettings
        referenceContextItem :=
          if s.referenceContextItem.isNeverSet &&
              (segment.countsAsUserTurn || segment.referenceContextItem.isCleared) then
            segment.referenceContextItem
          else s.referenceContextItem } := by
  rw [finalizeActiveSegment, if_neg (by omega)]

/-- Where the replayed suffix starts after a run of items inside a turn. -/
def suffixAfter (active : Option (ActiveReplaySegment J)) (suffix : Option (List (RolloutItem J)))
    (newer : List (RolloutItem J)) : List (RolloutItem J) → Option (List (RolloutItem J))
  | [] => suffix
  | item :: older =>
    suffixAfter (noteItem E active item) (if movesSuffix active item then some newer else suffix)
      (item :: newer) older

theorem reverseScan_inTurn (h : ∀ item ∈ xs, inTurn item = true)
    (newer : List (RolloutItem J)) (hs : settled s = false) :
    reverseScan E s newer xs =
      { s with
        activeSegment := xs.foldl (noteItem E) s.activeSegment
        rolloutSuffix := suffixAfter E s.activeSegment s.rolloutSuffix newer xs } := by
  induction xs generalizing s newer with
  | nil => rfl
  | cons item xs ih =>
    rw [forall_mem_cons] at h
    rw [reverseScan, observe_inTurn E h.1]
    rw [if_neg (by rw [settled] at hs ⊢; simp only [hs, Bool.false_eq_true, not_false_eq_true])]
    exact ih h.2 _ hs

theorem reverseScan_append (xs more newer : List (RolloutItem J)) (hs : settled s = false) :
    reverseScan E s newer (xs ++ more) = if settled (reverseScan E s newer xs) then reverseScan E s newer xs
      else reverseScan E (reverseScan E s newer xs) (xs.reverse ++ newer) more := by
  induction xs generalizing s newer with
  | nil => simp [reverseScan, hs]
  | cons item xs ih =>
    rw [cons_append, reverseScan, reverseScan]
    by_cases h : settled (observe E newer item s) = true
    · simp only [h, if_true]
    · rw [if_neg h, if_neg h, ih (item :: newer) (by simpa using h), reverse_cons, append_assoc]
      rfl

/-- The same state of a scan in which every replayed suffix is followed by `newest`. -/
def extend (newest : List (RolloutItem J)) (s : ReplayState J) : ReplayState J :=
  { s with rolloutSuffix := s.rolloutSuffix.map (· ++ newest) }

theorem finalizeActiveSegment_extend (newest : List (RolloutItem J)) (seg : ActiveReplaySegment J)
    (s : ReplayState J) :
    finalizeActiveSegment seg (extend newest s) = extend newest (finalizeActiveSegment seg s) := by
  unfold finalizeActiveSegment extend
  by_cases h : s.pendingRollbackTurns > 0
  · simp only [if_pos h]
  · simp only [if_neg h]

theorem observe_extend :
    observe E (newer ++ newest) item (extend newest s) = extend newest (observe E newer item s) := by
  rcases inTurn_or_marker item with hi | ⟨tid, rfl⟩ | ⟨n, rfl⟩
  · rw [observe_inTurn E hi, observe_inTurn E hi]
    by_cases hm : movesSuffix s.activeSegment item = true
    all_goals simp [extend, hm]
  · simp only [observe, show closedBy (extend newest s) tid = closedBy s tid from rfl]
    cases closedBy s tid with
    | none => rfl
    | some seg => exact finalizeActiveSegment_extend newest seg { s with activeSegment := none }
  · rfl

theorem reverseScan_extend (newest newer xs : List (RolloutItem J)) (s : ReplayState J) :
    reverseScan E (extend newest s) (newer ++ newest) xs = extend newest (reverseScan E s newer xs) := by
  induction xs generalizing s newer with
  | nil => rfl
  | cons item xs ih =>
    rw [reverseScan, reverseScan, observe_extend]
    rw [show settled (extend newest (observe E newer item s)) = settled (observe E newer item s) from rfl,
      ← cons_append, ih (item :: newer)]
    split <;> rfl

theorem finalizeLeftover_extend : finalizeLeftover (extend newest s) = extend newest (finalizeLeftover s) := by
  simp only [finalizeLeftover, show (extend newest s).activeSegment = s.activeSegment from rfl]
  cases s.activeSegment with
  | none => rfl
  | some seg => exact finalizeActiveSegment_extend newest seg { s with activeSegment := none }

/-- A turn from its `TurnStarted` to its `TurnComplete`. -/
structure CompleteTurn (J : Type) where
  turnId : Str
  body : List (RolloutItem J)
  inside : ∀ item ∈ body, inTurn item = true

def CompleteTurn.items (turn : CompleteTurn J) : List (RolloutItem J) :=
  .eventMsg (.turnStarted turn.turnId) :: turn.body ++ [.eventMsg (.turnComplete turn.turnId)]

theorem forall_mem_items {turn : CompleteTurn J} {P : RolloutItem J → Prop}
    (hs : P (.eventMsg (.turnStarted turn.turnId))) (hb : ∀ item ∈ turn.body, P item)
    (hc : P (.eventMsg (.turnComplete turn.turnId))) : ∀ item ∈ turn.items, P item := by
  rw [CompleteTurn.items, cons_append, forall_mem_cons, forall_mem_append, forall_mem_singleton]
  exact ⟨hs, hb, hc⟩

/-- What an item adds to a segment that is already open. -/
def noteIn (segment : ActiveReplaySegment J) (item : RolloutItem J) : ActiveReplaySegment J :=
  (noteItem E (some segment) item).getD segment

theorem noteItem_some (seg : ActiveReplaySegment J) (item : RolloutItem J) :
    noteItem E (some seg) item = some (noteIn E seg item) := by
  cases item with
  | eventMsg ev => cases ev <;> rfl
  | _ => rfl

def CompleteTurn.segment (turn : CompleteTurn J) : ActiveReplaySegment J :=
  turn.body.foldr (fun item segment => noteIn E segment item) { turnId := some turn.turnId }

theorem foldl_noteItem (xs : List (RolloutItem J)) (seg : ActiveReplaySegment J) :
    xs.reverse.foldl (noteItem E) (some seg) = some (xs.foldr (fun item seg => noteIn E seg item) seg) := by
  induction xs with
  | nil => rfl
  | cons item xs ih =>
    rw [reverse_cons, foldl_append, ih, foldr_cons]
    exact noteItem_some E _ item

theorem noteIn_turnId {seg : ActiveReplaySegment J}
    (h : seg.turnId = some turnId) : (noteIn E seg item).turnId = some turnId := by
  cases item with
  | eventMsg ev => cases ev <;> simp [noteIn, noteItem, h]
  | turnContext ctx =>
    simp only [noteIn, noteItem, noteTurnContext, Option.getD_some]
    split <;> simp [h]
  | _ => simp [noteIn, noteItem, noteCompacted, h]

theorem segment_turnId (turn : CompleteTurn J) : (turn.segment E).turnId = some turn.turnId := by
  unfold CompleteTurn.segment
  induction turn.body with
  | nil => rfl
  | cons item body ih => exact noteIn_turnId E ih

/-- The items that make their segment count as a user turn. -/
def countsAsUserTurn : RolloutItem J → Bool
  | .responseItem item => isBoundary E.toHost item
  | .interAgentCommunication _ => true
  | .eventMsg .userMessage => true
  | _ => false

theorem noteIn_counts (segment : ActiveReplaySegment J) (item : RolloutItem J) :
    (noteIn E segment item).countsAsUserTurn = (countsAsUserTurn E item || segment.countsAsUserTurn) := by
  cases item with
  | eventMsg ev => cases ev <;> simp [noteIn, noteItem, countsAsUserTurn]
  | turnContext ctx =>
    simp only [noteIn, noteItem, noteTurnContext, Option.getD_some, countsAsUserTurn, Bool.false_or]
    split <;> rfl
  | responseItem item => simp [noteIn, noteItem, countsAsUserTurn, Bool.or_comm]
  | _ => simp [noteIn, noteItem, noteCompacted, countsAsUserTurn]

def isUserTurn (turn : CompleteTurn J) : Bool := turn.body.any (countsAsUserTurn E)

theorem segment_counts : (turn.segment E).countsAsUserTurn = isUserTurn E turn := by
  unfold CompleteTurn.segment isUserTurn
  induction turn.body with
  | nil => rfl
  | cons item body ih => rw [foldr_cons, noteIn_counts, ih, any_cons]

/-- Where the replayed suffix starts after a complete turn. -/
def CompleteTurn.suffix (turn : CompleteTurn J) (suffix : Option (List (RolloutItem J)))
    (newer : List (RolloutItem J)) : Option (List (RolloutItem J)) :=
  suffixAfter E (some { turnId := some turn.turnId }) suffix
    (.eventMsg (.turnComplete turn.turnId) :: newer) turn.body.reverse

/-- The items of a turn behind its `TurnStarted`, newest first. -/
def CompleteTurn.inner (turn : CompleteTurn J) : List (RolloutItem J) :=
  .eventMsg (.turnComplete turn.turnId) :: turn.body.reverse

theorem items_reverse (turn : CompleteTurn J) :
    turn.items.reverse = turn.inner ++ [.eventMsg (.turnStarted turn.turnId)] := by
  simp [CompleteTurn.items, CompleteTurn.inner]

theorem inner_inTurn (turn : CompleteTurn J) : ∀ item ∈ turn.inner, inTurn item = true := by
  rw [CompleteTurn.inner, forall_mem_cons]
  exact ⟨rfl, fun item hi => turn.inside item (mem_reverse.mp hi)⟩

theorem reverseScan_inner (turn : CompleteTurn J) (newer : List (RolloutItem J))
    (hs : settled s = false) (ha : s.activeSegment = none) :
    reverseScan E s newer turn.inner =
      { s with
        activeSegment := some (turn.segment E)
        rolloutSuffix := turn.suffix E s.rolloutSuffix newer } := by
  have hg : turn.inner.foldl (noteItem E) s.activeSegment = some (turn.segment E) := by
    rw [ha, CompleteTurn.inner, foldl_cons]
    exact foldl_noteItem E turn.body { turnId := some turn.turnId }
  rw [reverseScan_inTurn E (inner_inTurn turn) newer hs, hg, ha]
  rfl

theorem closedBy_segment (turn : CompleteTurn J) (ha : s.activeSegment = some (turn.segment E)) :
    closedBy s turn.turnId = some (turn.segment E) := by
  simp [closedBy, ha, turnIdsAreCompatible, segment_turnId]

/-- A complete turn is one segment, finalised at its `TurnStarted`. -/
theorem reverseScan_turn (turn : CompleteTurn J) (newer : List (RolloutItem J))
    (hs : settled s = false) (ha : s.activeSegment = none) :
    reverseScan E s newer turn.items.reverse = finalizeActiveSegment (turn.segment E)
        { s with rolloutSuffix := turn.suffix E s.rolloutSuffix newer } := by
  have ho : settled (reverseScan E s newer turn.inner) = false := by
    rw [reverseScan_inner E turn newer hs ha]; exact hs
  rw [items_reverse, reverseScan_append E _ _ _ hs, ho, if_neg Bool.false_ne_true,
    reverseScan_inner E turn newer hs ha, reverseScan, reverseScan, ite_self, observe,
    closedBy_segment E turn rfl]
  simp only [ha]

end TurnSegments
