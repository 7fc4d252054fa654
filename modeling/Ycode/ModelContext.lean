import Ycode.TurnSegments

/-!
# The bounded model-context scan

A reader that pages backwards through a rollout need not reach its beginning: the scan tells it to
stop as soon as it has seen a checkpoint and a completed user turn with its context. What it has
collected by then, headed by the session metadata, is rebuilt to the same session as the whole
rollout.
-/
namespace ModelContext

open RustStr Transcript History RolloutReplay TurnSegments List

variable {J W : Type} (E : Env J W)

structure ActiveTurnSegment where
  turnId : Option Str := none
  hasUserTurn : Bool := false
  hasTurnContext : Bool := false

inductive ModelContextScanProgress where
  | continueScan
  | complete
  deriving DecidableEq

structure ModelContextScan (J : Type) where
  itemsNewestFirst : List (RolloutItem J) := []
  sawCompaction : Bool := false
  sawCompletedTurnContext : Bool := false
  mustScanToStart : Bool := false
  activeSegment : ActiveTurnSegment := {}

def ModelContextScan.hasBoundedCutoff (scan : ModelContextScan J) : Bool :=
  !scan.mustScanToStart && scan.sawCompaction && scan.sawCompletedTurnContext

def ModelContextScan.finalizeActiveSegment (scan : ModelContextScan J) : ModelContextScan J :=
  { scan with
    sawCompletedTurnContext := scan.sawCompletedTurnContext ||
      (scan.activeSegment.hasUserTurn && scan.activeSegment.hasTurnContext)
    activeSegment := {} }

def responseItemCountsAsUserTurn : ResponseItem → Bool
  | .agentMessage .. => true
  | .message _ role content _ _ => role == "assistant".toList && isMessageContent E.isCommunication content
  | _ => false

/-- What an item inside a turn adds to the segment of the scan. -/
def noteSegment (segment : ActiveTurnSegment) : RolloutItem J → ActiveTurnSegment
  | .eventMsg (.itemCompleted turnId item) =>
    let segment := { segment with turnId := segment.turnId.or (some turnId) }
    if turnIdsAreCompatible segment.turnId (some turnId) then
      { segment with hasUserTurn := segment.hasUserTurn || item == .userMessage }
    else segment
  | .eventMsg (.turnComplete turnId) => { segment with turnId := segment.turnId.or (some turnId) }
  | .eventMsg (.turnAborted turnId) => { segment with turnId := segment.turnId.or turnId }
  | .turnContext context =>
    let segment := { segment with turnId := segment.turnId.or context.turnId }
    if turnIdsAreCompatible segment.turnId context.turnId then { segment with hasTurnContext := true }
    else segment
  | .responseItem item => { segment with hasUserTurn := segment.hasUserTurn || responseItemCountsAsUserTurn E item }
  | .interAgentCommunication _ => { segment with hasUserTurn := true }
  | .eventMsg .userMessage => { segment with hasUserTurn := true }
  | _ => segment

def ModelContextScan.note (scan : ModelContextScan J) : RolloutItem J → ModelContextScan J
  | .compacted compacted =>
    if compacted.replacementHistory.isNone || compacted.windowNumber.isNone then
      { scan with mustScanToStart := true }
    else { scan with sawCompaction := true }
  | .eventMsg (.threadRolledBack _) => { scan with mustScanToStart := true }
  | .eventMsg (.turnStarted turnId) =>
    if turnIdsAreCompatible scan.activeSegment.turnId (some turnId) then scan.finalizeActiveSegment else scan
  | item => { scan with activeSegment := noteSegment E scan.activeSegment item }

def ModelContextScan.observe (scan : ModelContextScan J) (item : RolloutItem J) :
    ModelContextScan J × ModelContextScanProgress :=
  if scan.mustScanToStart then (scan, .continueScan)
  else
    let scan := scan.note E item
    (scan, if scan.hasBoundedCutoff then .complete else .continueScan)

/-- Adds the next older item and tells whether the reader can stop. -/
def ModelContextScan.push (scan : ModelContextScan J) (item : RolloutItem J) :
    ModelContextScan J × ModelContextScanProgress :=
  let (next, progress) := scan.observe E item
  ({ next with itemsNewestFirst := next.itemsNewestFirst ++ [item] }, progress)

/-- The collected items in chronological order, headed by the session metadata after a cutoff. -/
def ModelContextScan.finish (scan : ModelContextScan J) (sessionMeta : SessionMetaLine) : List (RolloutItem J) :=
  if scan.hasBoundedCutoff then .sessionMeta sessionMeta :: scan.itemsNewestFirst.reverse
  else scan.itemsNewestFirst.reverse

/-- The reader: it pushes items newest to oldest until the scan is complete. -/
def feed (scan : ModelContextScan J) : List (RolloutItem J) → ModelContextScan J
  | [] => scan
  | item :: older =>
    match scan.push E item with
    | (scan, .complete) => scan
    | (scan, .continueScan) => feed scan older

/-- What the reader hands on for a rollout. -/
def boundedReplay (rollout : List (RolloutItem J)) (sessionMeta : SessionMetaLine) : List (RolloutItem J) :=
  (feed E {} rollout.reverse).finish sessionMeta

/-- The turn that an item says it belongs to. -/
def turnIdOf : RolloutItem J → Option Str
  | .turnContext context => context.turnId
  | .eventMsg (.turnComplete turnId) => some turnId
  | .eventMsg (.turnAborted turnId) => turnId
  | .eventMsg (.itemCompleted turnId _) => some turnId
  | _ => none

/-- The turn that is open behind an item. -/
def opened (current : Option Str) : RolloutItem J → Option Str
  | .eventMsg (.turnStarted turnId) => some turnId
  | _ => current

/-- The items of a turn lie between its `TurnStarted` and the next one. -/
def wellBracketed (current : Option Str) : List (RolloutItem J) → Bool
  | [] => true
  | item :: newer =>
    ((turnIdOf item).all fun turnId => current == some turnId) && wellBracketed (opened current item) newer

/-- The items up to the next `TurnStarted`. -/
def segmentHead (items : List (RolloutItem J)) : List (RolloutItem J) := items.takeWhile (! isTurnStarted ·)

/-- The marker of a user message in a paginated rollout. -/
def isUserMarker : RolloutItem J → Bool
  | .eventMsg (.itemCompleted _ .userMessage) => true
  | _ => false

/-- A turn with such a marker has an item that the reconstruction counts. -/
def markersBacked : List (RolloutItem J) → Bool
  | [] => true
  | item :: newer =>
    (!isTurnStarted item || !(segmentHead newer).any isUserMarker || (segmentHead newer).any (countsAsUserTurn E)) &&
      markersBacked newer

/-- Whether a rollback marker has been seen since the last `TurnStarted`. -/
def disturbed (current : Bool) (item : RolloutItem J) : Bool :=
  if isTurnStarted item then false else current || isRolledBack item

/-- No rollback marker lies between the start of a turn and a compaction in it. -/
def compactionsUndisturbed (current : Bool) : List (RolloutItem J) → Bool
  | [] => true
  | item :: newer => !(current && isCompacted item) && compactionsUndisturbed (disturbed current item) newer

theorem opened_inTurn (h : inTurn item = true) (current : Option Str) : opened current item = current := by
  cases item with
  | eventMsg ev =>
    cases ev with
    | turnStarted => cases h
    | _ => rfl
  | _ => rfl

theorem disturbed_inTurn (h : inTurn item = true) : disturbed current item = current := by
  simp only [inTurn, Bool.and_eq_true, Bool.not_eq_true'] at h
  rw [disturbed, h.1, h.2, Bool.or_false, if_neg Bool.false_ne_true]

/-- An item with a turn id names the turn it is in. -/
theorem wellBracketed_item (h : wellBracketed current (old ++ item :: newer) = true) :
    turnIdOf item = none ∨ turnIdOf item = old.foldl opened current := by
  induction old generalizing current with
  | nil =>
    rw [nil_append, wellBracketed, Bool.and_eq_true] at h
    cases hid : turnIdOf item with
    | none => exact .inl rfl
    | some tid =>
      rw [hid] at h
      exact .inr (eq_of_beq h.1).symm
  | cons first old ih =>
    rw [cons_append, wellBracketed, Bool.and_eq_true] at h
    exact ih h.2

theorem markersBacked_turn (h : markersBacked E (old ++ .eventMsg (.turnStarted turnId) :: newer) = true)
    (hm : (segmentHead newer).any isUserMarker = true) :
    (segmentHead newer).any (countsAsUserTurn E) = true := by
  induction old with
  | nil =>
    rw [nil_append, markersBacked, Bool.and_eq_true, hm] at h
    simpa [isTurnStarted] using h.1
  | cons first old ih =>
    rw [cons_append, markersBacked, Bool.and_eq_true] at h
    exact ih h.2

theorem undisturbed_compaction
    (h : compactionsUndisturbed current (old ++ item :: newer) = true) (hi : isCompacted item = true) :
    old.foldl disturbed current = false := by
  induction old generalizing current with
  | nil =>
    rw [nil_append, compactionsUndisturbed, Bool.and_eq_true, hi] at h
    simpa using h.1
  | cons first old ih =>
    rw [cons_append, compactionsUndisturbed, Bool.and_eq_true] at h
    exact ih h.2

theorem noteSegment_turnId (seg : ActiveTurnSegment) (item : RolloutItem J) :
    (noteSegment E seg item).turnId = seg.turnId.or (turnIdOf item) := by
  cases item with
  | eventMsg ev =>
    cases ev with
    | itemCompleted tid item => simp only [noteSegment]; split <;> rfl
    | turnComplete => rfl
    | turnAborted => rfl
    | _ => exact (Option.or_none).symm
  | turnContext ctx => simp only [noteSegment]; split <;> rfl
  | _ => exact (Option.or_none).symm

/-- A user turn of the scan has an item that the reconstruction counts, or a marker. -/
theorem noteSegment_user {segment : ActiveTurnSegment} (h : (noteSegment E segment item).hasUserTurn = true) :
    segment.hasUserTurn = true ∨ (countsAsUserTurn E item || isUserMarker item) = true := by
  cases item with
  | eventMsg ev =>
    cases ev with
    | itemCompleted tid item =>
      cases item with
      | userMessage => exact .inr rfl
      | other =>
        simp only [noteSegment] at h
        split at h
        · exact .inl (by simpa using h)
        · exact .inl h
    | userMessage => exact .inr rfl
    | _ => exact .inl h
  | responseItem item =>
    rw [noteSegment, Bool.or_eq_true] at h
    cases h with
    | inl h => exact .inl h
    | inr h =>
      refine .inr (Bool.or_eq_true_iff.mpr (.inl ?_))
      cases item with
      | agentMessage => rfl
      | message id role txt phase md => exact Bool.or_eq_true_iff.mpr (.inr h)
      | _ => cases h
  | interAgentCommunication => exact .inr rfl
  | turnContext ctx =>
    simp only [noteSegment] at h
    split at h <;> exact .inl h
  | _ => exact .inl h

/-- An item that does not make the scan read on to the start. -/
def isOrdinary : RolloutItem J → Bool
  | .compacted compacted => compacted.replacementHistory.isSome && compacted.windowNumber.isSome
  | .eventMsg (.threadRolledBack _) => false
  | _ => true

theorem note_inTurn (hi : inTurn item = true) (ho : isOrdinary item = true) (scan : ModelContextScan J) :
    (scan.note E item).sawCompaction = (scan.sawCompaction || isCompacted item) ∧
      (scan.note E item).sawCompletedTurnContext = scan.sawCompletedTurnContext ∧
      (scan.note E item).activeSegment = noteSegment E scan.activeSegment item := by
  cases item with
  | compacted compacted =>
    simp only [isOrdinary, Bool.and_eq_true, Option.isSome_iff_ne_none] at ho
    rw [ModelContextScan.note, if_neg (by simp [ho.1, ho.2])]
    exact ⟨(Bool.or_true _).symm, rfl, rfl⟩
  | eventMsg ev =>
    cases ev with
    | turnStarted => cases hi
    | threadRolledBack => cases hi
    | _ => exact ⟨(Bool.or_false _).symm, rfl, rfl⟩
  | _ => exact ⟨(Bool.or_false _).symm, rfl, rfl⟩

theorem noteSegment_context {segment : ActiveTurnSegment} (h : (noteSegment E segment item).hasTurnContext = true) :
    segment.hasTurnContext = true ∨ ∃ context, item = .turnContext context := by
  cases item with
  | turnContext context => exact .inr ⟨context, rfl⟩
  | eventMsg ev =>
    cases ev with
    | itemCompleted tid item =>
      simp only [noteSegment] at h
      split at h <;> exact .inl h
    | _ => exact .inl h
  | _ => exact .inl h

variable {scan : ModelContextScan J}

/-- The bounded scan over the newest items of a rollout, wherever it may have stopped. -/
def seen (newest : List (RolloutItem J)) : ModelContextScan J :=
  newest.foldr (fun item scan => (scan.push E item).1) {}

theorem note_mustScanToStart (h : scan.mustScanToStart = false) (item : RolloutItem J) :
    (scan.note E item).mustScanToStart = !isOrdinary item := by
  cases item with
  | compacted compacted =>
    simp only [ModelContextScan.note, isOrdinary]
    cases compacted.replacementHistory <;> cases compacted.windowNumber <;> simp [h]
  | eventMsg ev =>
    cases ev with
    | turnStarted tid =>
      simp only [ModelContextScan.note]
      split <;> simp [isOrdinary, ModelContextScan.finalizeActiveSegment, h]
    | _ => simp [ModelContextScan.note, isOrdinary, h]
  | _ => simp [ModelContextScan.note, isOrdinary, h]

theorem push_mustScanToStart (h : scan.mustScanToStart = true) (item : RolloutItem J) :
    scan.push E item = ({ scan with itemsNewestFirst := scan.itemsNewestFirst ++ [item] }, .continueScan) := by
  rw [ModelContextScan.push, ModelContextScan.observe, if_pos h]

theorem push_bounded (h : scan.mustScanToStart = false) (item : RolloutItem J) :
    scan.push E item = ({ scan.note E item with
        itemsNewestFirst := (scan.note E item).itemsNewestFirst ++ [item] },
      if (scan.note E item).hasBoundedCutoff then .complete else .continueScan) := by
  rw [ModelContextScan.push, ModelContextScan.observe, if_neg (by rw [h]; exact Bool.false_ne_true)]

theorem seen_cons (h : (seen E (item :: newest)).mustScanToStart = false) :
    (seen E newest).mustScanToStart = false ∧ isOrdinary item = true ∧
      seen E (item :: newest) = { (seen E newest).note E item with
        itemsNewestFirst := ((seen E newest).note E item).itemsNewestFirst ++ [item] } := by
  have hs : seen E (item :: newest) = ((seen E newest).push E item).1 := rfl
  cases hm : (seen E newest).mustScanToStart with
  | true =>
    rw [hs, push_mustScanToStart E hm] at h
    cases hm.symm.trans h
  | false =>
    have ho := note_mustScanToStart E hm item
    rw [push_bounded E hm] at hs
    rw [hs] at h
    rw [show ((seen E newest).note E item).mustScanToStart = false from h] at ho
    exact ⟨rfl, by simpa using ho.symm, hs⟩

/-- Where the reader stops: at the beginning, or behind a bounded cutoff. -/
theorem feed_seen (older newest : List (RolloutItem J)) :
    ∃ old taken, older.reverse ++ newest = old ++ taken ∧ feed E (seen E newest) older = seen E taken ∧
      (old = [] ∨ (seen E taken).hasBoundedCutoff = true) := by
  induction older generalizing newest with
  | nil => exact ⟨[], newest, rfl, rfl, .inl rfl⟩
  | cons item older ih =>
    have hpush : ((seen E newest).push E item).1 = seen E (item :: newest) := rfl
    rw [reverse_cons, append_assoc, singleton_append, feed]
    cases hp : ((seen E newest).push E item).2 with
    | continueScan =>
      obtain ⟨old, taken, hs, hf, hstop⟩ := ih (item :: newest)
      refine ⟨old, taken, hs, ?_, hstop⟩
      rw [show (seen E newest).push E item = (seen E (item :: newest), .continueScan) from Prod.ext hpush hp]
      exact hf
    | complete =>
      refine ⟨older.reverse, item :: newest, rfl, ?_, .inr ?_⟩
      · rw [show (seen E newest).push E item = (seen E (item :: newest), .complete) from Prod.ext hpush hp]
      · cases hm : (seen E newest).mustScanToStart with
        | true => rw [push_mustScanToStart E hm] at hp; cases hp
        | false =>
          rw [push_bounded E hm] at hp
          rw [← hpush, push_bounded E hm]
          by_contra hc
          rw [if_neg (by exact hc)] at hp
          cases hp

theorem itemsNewestFirst_seen (newest : List (RolloutItem J)) :
    (seen E newest).itemsNewestFirst = newest.reverse := by
  have hn : ∀ (scan : ModelContextScan J) item, (scan.note E item).itemsNewestFirst = scan.itemsNewestFirst := by
    intro scan item
    cases item with
    | compacted compacted => simp only [ModelContextScan.note]; split <;> rfl
    | eventMsg ev =>
      cases ev with
      | turnStarted tid => simp only [ModelContextScan.note]; split <;> rfl
      | _ => rfl
    | _ => rfl
  induction newest with
  | nil => rfl
  | cons item newest ih =>
    have hs : seen E (item :: newest) = ((seen E newest).push E item).1 := rfl
    rw [reverse_cons, ← ih, hs]
    cases hm : (seen E newest).mustScanToStart with
    | true => rw [push_mustScanToStart E hm]
    | false => rw [push_bounded E hm, hn]

end ModelContext
