import Ycode.ModelContext
import Ycode.PlainReplay

/-!
# The bounded scan follows the reconstruction

Both loops read the rollout newest to oldest with a segment of their own. While no rollback marker
and no incomplete compaction has been met, whatever the bounded scan has seen is in the state of
the reconstruction too.
-/
namespace ScanTracking

open RustStr Transcript History RolloutReplay TurnSegments PlainReplay ModelContext List

variable {J W : Type} (E : Env J W)

variable {segment : ActiveReplaySegment J}

/-- The replacement history that an item offers as a base. -/
def itemBase : RolloutItem J → Option (List ResponseItem)
  | .compacted compacted => compacted.replacementHistory
  | _ => none

def itemWindow : RolloutItem J → Option ReconstructedWindow
  | .compacted compacted => windowOfCompacted E compacted
  | _ => none

/-- A segment keeps its newest base and window and only adds world-state records. -/
theorem noteItem_grows (h : noteItem E active item = some segment) :
    segment.baseReplacementHistory = (active.getD {}).baseReplacementHistory.or (itemBase item) ∧
      segment.window = (active.getD {}).window.or (itemWindow E item) ∧
      (active.getD {}).worldStateReplay <+: segment.worldStateReplay := by
  cases item with
  | compacted compacted =>
    obtain rfl := Option.some.inj h
    exact ⟨rfl, rfl, prefix_append ..⟩
  | worldState item =>
    obtain rfl := Option.some.inj h
    exact ⟨(Option.or_none).symm, (Option.or_none).symm, prefix_append ..⟩
  | turnContext ctx =>
    obtain rfl := Option.some.inj h
    simp only [noteTurnContext, itemBase, itemWindow, Option.or_none]
    split <;> exact ⟨rfl, rfl, prefix_rfl⟩
  | eventMsg ev =>
    cases active with
    | none =>
      cases ev with
      | turnAborted tid =>
        obtain ⟨id, -, rfl⟩ := Option.map_eq_some_iff.mp h
        exact ⟨rfl, rfl, prefix_rfl⟩
      | turnComplete tid => obtain rfl := Option.some.inj h; exact ⟨rfl, rfl, prefix_rfl⟩
      | userMessage => obtain rfl := Option.some.inj h; exact ⟨rfl, rfl, prefix_rfl⟩
      | _ => cases h
    | some collected =>
      simp only [itemBase, itemWindow, Option.or_none, Option.getD_some]
      cases ev <;> (obtain rfl := Option.some.inj h; exact ⟨rfl, rfl, prefix_rfl⟩)
  | sessionMeta line => subst h; exact ⟨by simp [itemBase], by simp [itemWindow], prefix_rfl⟩
  | interAgentCommunicationMetadata trigger =>
    subst h; exact ⟨by simp [itemBase], by simp [itemWindow], prefix_rfl⟩
  | _ =>
    obtain rfl := Option.some.inj h
    exact ⟨(Option.or_none).symm, (Option.or_none).symm, prefix_rfl⟩

theorem noteItem_counts :
    (noteItem E active item).any (·.countsAsUserTurn) =
      (countsAsUserTurn E item || active.any (·.countsAsUserTurn)) := by
  cases active with
  | some segment => rw [noteItem_some]; exact noteIn_counts E segment item
  | none =>
    cases item with
    | eventMsg ev =>
      cases ev with
      | turnAborted tid => cases tid <;> rfl
      | _ => rfl
    | turnContext ctx =>
      simp only [noteItem, noteTurnContext, Option.getD_none, countsAsUserTurn]
      split <;> rfl
    | responseItem item => simp [noteItem, countsAsUserTurn]
    | _ => rfl

/-- Previous settings and a reference context have been collected. -/
def hasContext (segment : ActiveReplaySegment J) : Bool :=
  segment.previousTurnSettings.isSome && !segment.referenceContextItem.isNeverSet

theorem noteIn_hasContext (h : hasContext segment = true) : hasContext (noteIn E segment item) = true := by
  have hs : segment.referenceContextItem.isNeverSet = false := by
    simp only [hasContext, Bool.and_eq_true, Bool.not_eq_true'] at h
    exact h.2
  cases item with
  | eventMsg ev => cases ev <;> exact h
  | turnContext ctx =>
    simp only [noteIn, noteItem, noteTurnContext, Option.getD_some]
    split
    · simp [hasContext, hs]
    · exact h
  | compacted compacted => simpa [noteIn, noteItem, noteCompacted, hasContext, hs] using h
  | _ => exact h

theorem noteItem_hasContext (h : active.any hasContext = true) : (noteItem E active item).any hasContext = true := by
  cases active with
  | none => cases h
  | some segment => rw [noteItem_some]; exact noteIn_hasContext E h

/-- The id of the collected segment is its own or comes from the item. -/
theorem noteItem_turnId (active : Option (ActiveReplaySegment J)) (item : RolloutItem J) :
    (noteItem E active item).bind (·.turnId) = active.bind (·.turnId) ∨
      (noteItem E active item).bind (·.turnId) = (active.bind (·.turnId)).or (turnIdOf item) := by
  cases item with
  | eventMsg ev =>
    cases ev with
    | turnComplete tid => right; cases active <;> rfl
    | turnAborted tid =>
      right
      cases active with
      | none => cases tid <;> rfl
      | some segment => rfl
    | userMessage => left; cases active <;> rfl
    | _ => exact .inl rfl
  | turnContext ctx =>
    right
    simp only [noteItem, noteTurnContext, Option.bind_some]
    cases active <;> split <;> rfl
  | sessionMeta line => exact .inl rfl
  | interAgentCommunicationMetadata trigger => exact .inl rfl
  | _ => left; cases active <;> rfl

theorem compatible_of_eq (ha : a = none ∨ a = current) (hb : b = none ∨ b = current) :
    turnIdsAreCompatible a b = true := by
  cases ha with
  | inl ha => rw [ha]; rfl
  | inr ha =>
    cases hb with
    | inl hb => rw [hb]; cases a <;> rfl
    | inr hb =>
      rw [ha, hb]
      cases current with
      | none => rfl
      | some tid => simp [turnIdsAreCompatible]

theorem or_of_eq (ha : a = none ∨ a = current) (hb : b = none ∨ b = current) : a.or b = none ∨ a.or b = current := by
  cases a with
  | none => exact hb
  | some tid => exact ha

theorem noteIn_turnId_of_eq
    (hs : segment.turnId = none ∨ segment.turnId = current) (hi : turnIdOf item = none ∨ turnIdOf item = current) :
    (noteIn E segment item).turnId = none ∨ (noteIn E segment item).turnId = current := by
  have h := noteItem_turnId E (some segment) item
  rw [noteItem_some, Option.bind_some, Option.bind_some] at h
  cases h with
  | inl hsame => rw [hsame]; exact hs
  | inr hn => rw [hn]; exact or_of_eq hs hi

/-- The reconstruction's loop over the newest items of a rollout. -/
def replayed (newest : List (RolloutItem J)) : ReplayState J := reverseScan E {} [] newest.reverse

theorem replayed_cons (item : RolloutItem J) (newest : List (RolloutItem J)) :
    replayed E (item :: newest) =
      if settled (replayed E newest) then replayed E newest else observe E newest item (replayed E newest) := by
  rw [replayed, reverse_cons, reverseScan_append E _ _ _ rfl, reverse_reverse, append_nil]
  simp only [reverseScan, ite_self]
  rfl

/-- A base that was found, or is being collected, comes with its window, with a compaction in the
world-state replay and with a replayed suffix; and no rollback is pending. -/
structure Checkpointed (s : ReplayState J) : Prop where
  pending : s.pendingRollbackTurns = 0
  base : s.baseReplacementHistory.isSome = true → s.window.isSome = true ∧ s.rolloutSuffix.isSome = true
  active : ∀ segment, s.activeSegment = some segment → segment.baseReplacementHistory.isSome = true →
    segment.window.isSome = true ∧ .compacted ∈ segment.worldStateReplay ∧ s.rolloutSuffix.isSome = true

theorem Checkpointed.finalize (h : Checkpointed s) (ha : s.activeSegment = some segment) :
    Checkpointed (finalizeActiveSegment segment { s with activeSegment := none }) := by
  rw [finalizeActiveSegment_survives (by exact h.pending)]
  refine ⟨h.pending, ?_, fun x ho => nomatch ho⟩
  intro hb
  cases hf : s.baseReplacementHistory with
  | some history =>
    have hold := h.base (by rw [hf]; rfl)
    exact ⟨by rw [Option.isSome_or, hold.1, Bool.true_or], hold.2⟩
  | none =>
    rw [hf, Option.none_or] at hb
    have hn := h.active segment ha hb
    exact ⟨by rw [Option.isSome_or, hn.1, Bool.or_true], hn.2.2⟩

theorem Checkpointed.inTurn (h : Checkpointed s) (ho : isOrdinary item = true) (newer : List (RolloutItem J)) :
    Checkpointed { s with
      activeSegment := noteItem E s.activeSegment item
      rolloutSuffix := if movesSuffix s.activeSegment item then some newer else s.rolloutSuffix } := by
  refine ⟨h.pending, ?_, ?_⟩
  · intro hbase
    have hold := h.base hbase
    refine ⟨hold.1, ?_⟩
    split
    · rfl
    · exact hold.2
  · intro segment hs hbase
    obtain ⟨hb, hw, hr⟩ := noteItem_grows E hs
    rw [movesSuffix_eq]
    -- either the segment had its base before, or the item is the checkpoint that gives it one
    cases hold : (s.activeSegment.getD {}).baseReplacementHistory with
    | some history =>
      obtain ⟨collected, hc⟩ : ∃ collected, s.activeSegment = some collected := by
        cases ha : s.activeSegment with
        | none => rw [ha] at hold; cases hold
        | some collected => exact ⟨collected, rfl⟩
      rw [hc] at hold hw hr ⊢
      have hk := h.active collected hc (by rw [show collected.baseReplacementHistory = _ from hold]; rfl)
      refine ⟨by rw [hw, Option.isSome_or, Option.getD_some, hk.1, Bool.true_or], hr.subset hk.2.1, ?_⟩
      rw [show baseOf (some collected) = some history from hold]
      exact hk.2.2
    | none =>
      cases item with
      | compacted compacted =>
        simp only [isOrdinary, Bool.and_eq_true] at ho
        obtain rfl := Option.some.inj hs
        have hn : baseOf s.activeSegment = none := by
          cases ha : s.activeSegment with
          | none => rfl
          | some collected => rw [ha] at hold; exact hold
        refine ⟨?_, mem_append_right _ (mem_singleton_self _), ?_⟩
        · rw [hw, Option.isSome_or]
          simp [itemWindow, windowOfCompacted, ho.2]
        · simp [hn, isCheckpoint, ho.1]
      | _ => rw [hb, hold] at hbase; cases hbase

theorem checkpointed_observe (h : Checkpointed s)
    (ho : isOrdinary item = true) : Checkpointed (observe E newer item s) := by
  apply observe_cases
  · intro hi
    exact h.inTurn E ho newer
  · intro segment ha
    exact h.finalize ha
  · rintro n rfl
    cases ho
  · exact h

theorem checkpointed_replayed (h : (seen E newest).mustScanToStart = false) : Checkpointed (replayed E newest) := by
  induction newest with
  | nil => exact ⟨rfl, (fun hb => nomatch hb), (fun segment hs => nomatch hs)⟩
  | cons item newest ih =>
    obtain ⟨hn, ho, -⟩ := seen_cons E h
    rw [replayed_cons]
    split
    · exact ih hn
    · exact checkpointed_observe E (ih hn) ho

variable {scan : ModelContextScan J} {s : ReplayState J}

/-- What the bounded scan knows about the newest items is true of the reconstruction's loop over
them, as long as that loop goes on. -/
structure Tracks (current : Option Str) (newest : List (RolloutItem J)) (scan : ModelContextScan J)
    (s : ReplayState J) : Prop where
  compaction : scan.sawCompaction = true → (s.baseReplacementHistory.or (baseOf s.activeSegment)).isSome = true
  checkpoint : (baseOf s.activeSegment).isSome = true → (segmentHead newest).any isCompacted = true
  completed : scan.sawCompletedTurnContext = true →
    s.previousTurnSettings.isSome = true ∧ s.referenceContextItem.isNeverSet = false
  user : scan.activeSegment.hasUserTurn = true →
    (segmentHead newest).any (fun item => countsAsUserTurn E item || isUserMarker item) = true
  counts : (segmentHead newest).any (countsAsUserTurn E) = true → s.activeSegment.any (·.countsAsUserTurn) = true
  context : scan.activeSegment.hasTurnContext = true → s.activeSegment.any hasContext = true
  scanId : scan.activeSegment.turnId = none ∨ scan.activeSegment.turnId = current
  replayId : s.activeSegment.bind (·.turnId) = none ∨ s.activeSegment.bind (·.turnId) = current

/-- A turn context inside its turn leaves its settings in the segment. -/
theorem noteItem_turnContext (ha : active.bind (·.turnId) = none ∨ active.bind (·.turnId) = current)
    (hc : context.turnId = none ∨ context.turnId = current) :
    (noteItem E active (.turnContext context)).any hasContext = true := by
  have hid : (active.getD {}).turnId = active.bind (·.turnId) := by cases active <;> rfl
  have ho : turnIdsAreCompatible ((active.getD {}).turnId.or context.turnId) context.turnId = true := by
    rw [hid]
    exact compatible_of_eq (or_of_eq ha hc) hc
  simp only [noteItem, noteTurnContext, ho, if_true, Option.any_some, hasContext, Option.isSome_some, Bool.true_and]
  split
  · rfl
  · rename_i hs
    simpa using hs

theorem segmentHead_inTurn (h : inTurn item = true) : segmentHead (item :: newest) = item :: segmentHead newest := by
  simp only [inTurn, Bool.and_eq_true] at h
  rw [segmentHead, takeWhile_cons_of_pos (by exact h.1)]
  rfl

theorem Tracks.inTurn (h : Tracks E current newest scan s) (hi : inTurn item = true)
    (ho : isOrdinary item = true) (hid : turnIdOf item = none ∨ turnIdOf item = current) :
    Tracks E current (item :: newest) (scan.note E item) (observe E newest item s) := by
  obtain ⟨hsaw, hm, hs⟩ := note_inTurn E hi ho scan
  rw [observe_inTurn E hi]
  constructor
  · rw [hsaw, Bool.or_eq_true]
    intro hseen
    by_cases hc : isCheckpoint item = true
    · rw [Option.isSome_or, baseOf_noteItem_checkpoint E hc, Bool.or_true]
    · have hp : isCheckpoint item = false := by simpa using hc
      rw [baseOf_noteItem E hp]
      cases hseen with
      | inl hseen => exact h.compaction hseen
      | inr ht =>
        cases item with
        | compacted compacted =>
          simp only [isOrdinary, Bool.and_eq_true] at ho
          exact absurd ho.1 hc
        | _ => cases ht
  · rw [segmentHead_inTurn hi, any_cons, Bool.or_eq_true]
    intro hb
    by_cases hc : isCheckpoint item = true
    · cases item with
      | compacted => exact .inl rfl
      | _ => cases hc
    · rw [baseOf_noteItem E (by simpa using hc)] at hb
      exact .inr (h.checkpoint hb)
  · rw [hm]
    exact h.completed
  · rw [hs, segmentHead_inTurn hi, any_cons]
    intro hu
    cases noteSegment_user E hu with
    | inl hold => rw [h.user hold, Bool.or_true]
    | inr hn => rw [hn, Bool.true_or]
  · rw [segmentHead_inTurn hi, any_cons, Bool.or_eq_true, noteItem_counts, Bool.or_eq_true]
    exact Or.imp id h.counts
  · rw [hs]
    intro hx
    cases noteSegment_context E hx with
    | inl hold => exact noteItem_hasContext E (h.context hold)
    | inr hn =>
      obtain ⟨ctx, rfl⟩ := hn
      exact noteItem_turnContext E h.replayId hid
  · rw [hs, noteSegment_turnId]
    exact or_of_eq h.scanId hid
  · cases noteItem_turnId E s.activeSegment item with
    | inl hsame => rw [hsame]; exact h.replayId
    | inr hn => rw [hn]; exact or_of_eq h.replayId hid

/-- A surviving user turn with its context settles the previous settings and the reference. -/
theorem finalize_settles {segment : ActiveReplaySegment J} (hp : s.pendingRollbackTurns = 0)
    (h : (segment.countsAsUserTurn && hasContext segment) = true ∨
      s.previousTurnSettings.isSome = true ∧ s.referenceContextItem.isNeverSet = false) :
    (finalizeActiveSegment segment { s with activeSegment := none }).previousTurnSettings.isSome = true ∧
      (finalizeActiveSegment segment { s with activeSegment := none }).referenceContextItem.isNeverSet = false := by
  rw [finalizeActiveSegment_survives (by exact hp)]
  cases h with
  | inl h =>
    simp only [hasContext, Bool.and_eq_true, Bool.not_eq_true'] at h
    obtain ⟨hc, hs, hr⟩ := h
    rw [hc, Bool.and_true, Bool.true_or, Bool.and_true]
    constructor
    · cases ho : s.previousTurnSettings with
      | none => exact hs
      | some settings => rfl
    · cases ho : s.referenceContextItem.isNeverSet with
      | true => exact hr
      | false => exact ho
  | inr h =>
    rw [h.2, Bool.false_and, if_neg Bool.false_ne_true]
    refine ⟨?_, h.2⟩
    obtain ⟨settings, hs⟩ := Option.isSome_iff_exists.mp h.1
    rw [hs]
    rfl

/-- Behind the start of a turn nothing is collected, so only what is complete is left to track. -/
theorem tracks_turnStarted (hn : s.activeSegment = none)
    (hc : scan.sawCompaction = true → s.baseReplacementHistory.isSome = true)
    (ho : scan.finalizeActiveSegment.sawCompletedTurnContext = true →
      s.previousTurnSettings.isSome = true ∧ s.referenceContextItem.isNeverSet = false) :
    Tracks E current (.eventMsg (.turnStarted turnId) :: newest) scan.finalizeActiveSegment s := by
  have hh : segmentHead (.eventMsg (.turnStarted turnId) :: newest) = [] := rfl
  refine ⟨fun hs => ?_, ?_, ho, (fun hu => nomatch hu), ?_, (fun ht => nomatch ht), .inl rfl, .inl ?_⟩
  · rw [Option.isSome_or, hc hs, Bool.true_or]
  · rw [hn]
    exact fun hb => nomatch hb
  · exact fun ha => nomatch ha
  · rw [hn]
    rfl

/-- What the scan takes for a user turn the replay counts as one. -/
theorem Tracks.counts_of_user (h : Tracks E current newest scan s)
    (hb : (segmentHead newest).any isUserMarker = true → (segmentHead newest).any (countsAsUserTurn E) = true)
    (hu : scan.activeSegment.hasUserTurn = true) : s.activeSegment.any (·.countsAsUserTurn) = true := by
  obtain ⟨item, hitem, hc⟩ := any_eq_true.mp (h.user hu)
  cases Bool.or_eq_true_iff.mp hc with
  | inl hi => exact h.counts (any_eq_true.mpr ⟨item, hitem, hi⟩)
  | inr hm => exact h.counts (hb (any_eq_true.mpr ⟨item, hitem, hm⟩))

theorem Tracks.turnStarted (h : Tracks E (some turnId) newest scan s) (hp : s.pendingRollbackTurns = 0)
    (hb : (segmentHead newest).any isUserMarker = true → (segmentHead newest).any (countsAsUserTurn E) = true) :
    Tracks E current (.eventMsg (.turnStarted turnId) :: newest) (scan.note E (.eventMsg (.turnStarted turnId)))
      (observe E newest (.eventMsg (.turnStarted turnId)) s) := by
  have hs : scan.note E (.eventMsg (.turnStarted turnId)) = scan.finalizeActiveSegment := by
    rw [ModelContextScan.note, if_pos (compatible_of_eq h.scanId (.inr rfl))]
  rw [hs]
  cases ha : s.activeSegment with
  | none =>
    have hn : observe E newest (.eventMsg (.turnStarted turnId)) s = s := by
      simp [observe, closedBy, ha]
    rw [hn]
    refine tracks_turnStarted E ha (fun hsaw => ?_) fun hc => ?_
    · have hbase := h.compaction hsaw
      rw [ha] at hbase
      simpa [baseOf] using hbase
    · cases Bool.or_eq_true_iff.mp hc with
      | inl ho => exact h.completed ho
      | inr hnew =>
        have hu := h.counts_of_user E hb (Bool.and_eq_true_iff.mp hnew).1
        rw [ha] at hu
        cases hu
  | some segment =>
    have hid := h.replayId
    rw [ha] at hid
    have hm : turnIdsAreCompatible segment.turnId (some turnId) = true := compatible_of_eq hid (.inr rfl)
    rw [observe_closes E ha hm, finalizeLeftover, ha]
    dsimp only
    refine tracks_turnStarted E ?_ (fun hsaw => ?_) fun hc => ?_
    · rw [finalizeActiveSegment_survives (by exact hp)]
    · have hbase := h.compaction hsaw
      rw [ha] at hbase
      rw [finalizeActiveSegment_survives (by exact hp)]
      simpa [baseOf] using hbase
    · refine finalize_settles hp ?_
      cases Bool.or_eq_true_iff.mp hc with
      | inl ho => exact .inr (h.completed ho)
      | inr hnew =>
        have hf := Bool.and_eq_true_iff.mp hnew
        have hu := h.counts_of_user E hb hf.1
        have ht := h.context hf.2
        rw [ha] at hu ht
        exact .inl (Bool.and_eq_true_iff.mpr ⟨hu, ht⟩)

/-- The invariant holds behind every item of a rollout with bracketed turns. -/
theorem tracks_replayed (hb : wellBracketed none (old ++ newest) = true)
    (hc : markersBacked E (old ++ newest) = true) (hm : (seen E newest).mustScanToStart = false)
    (hopen : settled (replayed E newest) = false) :
    Tracks E (old.foldl opened none) newest (seen E newest) (replayed E newest) := by
  induction newest generalizing old with
  | nil =>
    exact ⟨(fun h => nomatch h), (fun h => nomatch h), (fun h => nomatch h), (fun h => nomatch h),
      (fun h => nomatch h), (fun h => nomatch h), .inl rfl, .inl rfl⟩
  | cons item newest ih =>
    obtain ⟨hn, ho, hseen⟩ := seen_cons E hm
    have hu : settled (replayed E newest) = false := by
      cases hs : settled (replayed E newest) with
      | false => rfl
      | true => rw [replayed_cons, if_pos hs, hs] at hopen; cases hopen
    have hsplit : old ++ item :: newest = (old ++ [item]) ++ newest := by simp
    have ht : Tracks E ((old ++ [item]).foldl opened none) newest (seen E newest) (replayed E newest) :=
      ih (by rw [← hsplit]; exact hb) (by rw [← hsplit]; exact hc) hn hu
    rw [foldl_append, foldl_cons, foldl_nil] at ht
    rw [replayed_cons, if_neg (by rw [hu]; exact Bool.false_ne_true), hseen]
    have hstep : Tracks E (old.foldl opened none) (item :: newest) ((seen E newest).note E item)
        (observe E newest item (replayed E newest)) := by
      rcases inTurn_or_marker item with hi | ⟨tid, rfl⟩ | ⟨n, rfl⟩
      · rw [opened_inTurn hi] at ht
        exact ht.inTurn E hi ho (wellBracketed_item hb)
      · exact ht.turnStarted E (checkpointed_replayed E hn).pending (markersBacked_turn E hc)
      · cases ho
    exact ⟨hstep.compaction, hstep.checkpoint, hstep.completed, hstep.user, hstep.counts, hstep.context, hstep.scanId,
      hstep.replayId⟩

end ScanTracking
