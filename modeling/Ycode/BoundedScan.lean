import Ycode.ScanTracking

/-!
# The bounded scan is lossless

At a bounded cutoff the reconstruction has either settled or only waits for the `TurnStarted` of the
turn with its checkpoint. The items behind the cutoff then change nothing, unless a rollback marker
stands between that `TurnStarted` and the checkpoint.
-/
namespace BoundedScan

open RustStr Transcript History RolloutReplay TurnSegments PlainReplay ModelContext ScanTracking List

variable {J W : Type} (E : Env J W)

/-- Two outcomes of the scan from which the same session is rebuilt. -/
structure SameResult (s t : ReplayState J) : Prop where
  base : s.baseReplacementHistory = t.baseReplacementHistory
  settings : s.previousTurnSettings = t.previousTurnSettings
  reference : s.referenceContextItem = t.referenceContextItem
  window : s.window = t.window
  suffix : s.rolloutSuffix = t.rolloutSuffix
  worldState : worldStateBaseline E s.worldStateReplay = worldStateBaseline E t.worldStateReplay

theorem SameResult.refl (s : ReplayState J) : SameResult E s s := ⟨rfl, rfl, rfl, rfl, rfl, rfl⟩

theorem SameResult.trans (h : SameResult E s t) (h' : SameResult E t u) : SameResult E s u :=
  ⟨h.base.trans h'.base, h.settings.trans h'.settings, h.reference.trans h'.reference, h.window.trans h'.window,
    h.suffix.trans h'.suffix, h.worldState.trans h'.worldState⟩

/-- With a window and a suffix found, the rest of the rollout is not looked at again. -/
theorem reconstruct_of_sameResult (h : SameResult E (scanRollout E rollout) (scanRollout E other))
    (hw : (scanRollout E other).window.isSome = true)
    (hs : (scanRollout E other).rolloutSuffix.isSome = true) :
    reconstructHistoryFromRollout E rollout = reconstructHistoryFromRollout E other := by
  obtain ⟨window, hw⟩ := Option.isSome_iff_exists.mp hw
  obtain ⟨suf, hs⟩ := Option.isSome_iff_exists.mp hs
  simp only [reconstructHistoryFromRollout, h.base, h.settings, h.reference, h.worldState, h.window, h.suffix,
    hw, hs, Option.getD_some, Option.some_or]

/-- Records older than a compaction do not matter. -/
theorem worldStateBaseline_append (h : .compacted ∈ records) :
    worldStateBaseline E (records ++ older) = worldStateBaseline E records := by
  obtain ⟨newer, mid, rfl⟩ := append_of_mem h
  simp [worldStateBaseline, worldStateStep]

/-- A scan that is only waiting for the `TurnStarted` of the segment with its checkpoint. -/
structure Waiting (s : ReplayState J) (segment : ActiveReplaySegment J) : Prop where
  active : s.activeSegment = some segment
  pending : s.pendingRollbackTurns = 0
  base : s.baseReplacementHistory = none
  settings : s.previousTurnSettings.isSome = true
  reference : s.referenceContextItem.isNeverSet = false
  segmentBase : segment.baseReplacementHistory.isSome = true
  segmentWindow : segment.window.isSome = true
  compacted : .compacted ∈ segment.worldStateReplay

theorem Waiting.finalizeLeftover {seg : ActiveReplaySegment J} (h : Waiting s seg) :
    finalizeLeftover s = { s with
      activeSegment := none
      worldStateReplay := s.worldStateReplay ++ seg.worldStateReplay
      baseReplacementHistory := seg.baseReplacementHistory
      window := s.window.or seg.window } := by
  obtain ⟨settings, hs⟩ := Option.isSome_iff_exists.mp h.settings
  rw [RolloutReplay.finalizeLeftover, h.active]
  dsimp only
  rw [finalizeActiveSegment_survives (by exact h.pending)]
  simp [h.base, hs, h.reference]

/-- Older items of the same turn change nothing. -/
theorem Waiting.note {s : ReplayState J} {seg : ActiveReplaySegment J} (h : Waiting s seg)
    (item : RolloutItem J) :
    Waiting { s with activeSegment := some (noteIn E seg item) } (noteIn E seg item) ∧
      SameResult E (RolloutReplay.finalizeLeftover { s with activeSegment := some (noteIn E seg item) })
        (RolloutReplay.finalizeLeftover s) := by
  obtain ⟨hb, hw, hr⟩ := noteItem_grows E (noteItem_some E seg item)
  rw [Option.getD_some] at hb hw hr
  obtain ⟨history, hh⟩ := Option.isSome_iff_exists.mp h.segmentBase
  obtain ⟨window, hs⟩ := Option.isSome_iff_exists.mp h.segmentWindow
  rw [hh, Option.some_or] at hb
  rw [hs, Option.some_or] at hw
  have hn : Waiting { s with activeSegment := some (noteIn E seg item) } (noteIn E seg item) :=
    ⟨rfl, h.pending, h.base, h.settings, h.reference, by rw [hb]; rfl, by rw [hw]; rfl, hr.subset h.compacted⟩
  refine ⟨hn, ?_⟩
  rw [hn.finalizeLeftover, h.finalizeLeftover]
  refine ⟨hb.trans hh.symm, rfl, rfl, by dsimp only; rw [hw, hs], rfl, ?_⟩
  obtain ⟨older, holder⟩ := hr
  rw [← holder, ← append_assoc]
  exact worldStateBaseline_append E (mem_append_right _ h.compacted)

/-- The rest of the rollout only closes the segment. -/
theorem Waiting.reverseScan {s : ReplayState J} {seg : ActiveReplaySegment J} (h : Waiting s seg)
    (hid : seg.turnId = none ∨ seg.turnId = older.reverse.foldl opened none)
    (hb : wellBracketed none (older.reverse ++ newer) = true)
    (hu : older.reverse.foldl disturbed false = false) :
    SameResult E (RolloutReplay.finalizeLeftover (reverseScan E s newer older))
      (RolloutReplay.finalizeLeftover s) := by
  induction older generalizing s seg newer with
  | nil => exact SameResult.refl E _
  | cons item older ih =>
    rw [reverse_cons, foldl_append, foldl_cons, foldl_nil] at hid hu
    rw [reverse_cons, append_assoc, singleton_append] at hb
    have ho : ∀ active suf, settled { s with activeSegment := active, rolloutSuffix := suf } = false := by
      intro active suf
      simp [settled, h.base]
    rcases inTurn_or_marker item with hi | ⟨tid, rfl⟩ | ⟨n, rfl⟩
    · have hm : movesSuffix s.activeSegment item = false := by
        rw [movesSuffix_eq, h.active]
        obtain ⟨history, hh⟩ := Option.isSome_iff_exists.mp h.segmentBase
        simp [baseOf, hh]
      rw [opened_inTurn hi] at hid
      rw [disturbed_inTurn hi] at hu
      obtain ⟨hnext, hsame⟩ := h.note E item
      rw [RolloutReplay.reverseScan, observe_inTurn E hi, hm, h.active, noteItem_some,
        if_neg (by rw [ho]; exact Bool.false_ne_true)]
      have hn := noteIn_turnId_of_eq E hid (wellBracketed_item hb)
      exact (ih hnext hn hb hu).trans E hsame
    · have hc : turnIdsAreCompatible seg.turnId (some tid) = true := compatible_of_eq hid (.inr rfl)
      have hs : settled (RolloutReplay.finalizeLeftover s) = true := by
        rw [h.finalizeLeftover]
        simp [settled, h.segmentBase, h.settings, h.reference]
      rw [RolloutReplay.reverseScan, observe_closes E h.active hc, if_pos hs, h.finalizeLeftover]
      exact SameResult.refl E _
    · simp [disturbed, isTurnStarted, isRolledBack] at hu

theorem disturbed_of_compaction {old newest : List (RolloutItem J)}
    (h : compactionsUndisturbed false (old ++ newest) = true) (hh : (segmentHead newest).any isCompacted = true) :
    old.foldl disturbed false = false := by
  obtain ⟨item, hi, hp⟩ := any_eq_true.mp hh
  obtain ⟨pre, post, hs⟩ := append_of_mem hi
  have hn : newest = pre ++ item :: (post ++ newest.dropWhile (! isTurnStarted ·)) := by
    conv_lhs => rw [← takeWhile_append_dropWhile (l := newest) (p := (! isTurnStarted ·)),
      show newest.takeWhile (! isTurnStarted ·) = _ from hs]
    simp
  have hb : ∀ x ∈ pre, isTurnStarted x = false := by
    intro x ho
    have hm : x ∈ segmentHead newest := by rw [hs]; exact mem_append_left _ ho
    simpa using mem_takeWhile_imp hm
  rw [hn, ← append_assoc] at h
  have hc := undisturbed_compaction h hp
  rw [foldl_append] at hc
  -- a marker in the open turn would still be remembered at the compaction
  cases hold : old.foldl disturbed false with
  | false => rfl
  | true =>
    have hk : ∀ items : List (RolloutItem J), (∀ x ∈ items, isTurnStarted x = false) →
        items.foldl disturbed true = true := by
      intro items hitems
      induction items with
      | nil => rfl
      | cons first items ih =>
        rw [forall_mem_cons] at hitems
        rw [foldl_cons, disturbed, hitems.1]
        exact ih hitems.2
    rw [hold, hk pre hb] at hc
    cases hc

theorem checkpointed_leftover (h : Checkpointed s) : Checkpointed (finalizeLeftover s) := by
  rw [finalizeLeftover]
  cases ha : s.activeSegment with
  | none => exact h
  | some seg => exact h.finalize ha

theorem scanRollout_bounded :
    scanRollout E (.sessionMeta sessionMeta :: taken) = finalizeLeftover (replayed E taken) := by
  have hm : replayed E (.sessionMeta sessionMeta :: taken) = replayed E taken := by
    rw [replayed_cons, ite_eq_left_iff]
    intro
    rfl
  rw [scanRollout, ← replayed, hm]

theorem scanRollout_full :
    scanRollout E (old ++ taken) = finalizeLeftover (if settled (replayed E taken) then replayed E taken
      else reverseScan E (replayed E taken) taken old.reverse) := by
  rw [scanRollout, reverse_append, reverseScan_append E _ _ _ rfl, reverse_reverse, append_nil]
  rfl

/-- The base that a bounded cutoff has found, closed or not. -/
theorem base_of_cutoff (hb : wellBracketed none (old ++ taken) = true)
    (hk : markersBacked E (old ++ taken) = true) (hu : (seen E taken).hasBoundedCutoff = true) :
    settled (replayed E taken) = true ∨ ∃ seg, Waiting (replayed E taken) seg ∧
      (seg.turnId = none ∨ seg.turnId = old.foldl opened none) ∧
      (segmentHead taken).any isCompacted = true := by
  simp only [ModelContextScan.hasBoundedCutoff, Bool.and_eq_true, Bool.not_eq_true'] at hu
  obtain ⟨⟨hm, hp⟩, hl⟩ := hu
  cases ho : settled (replayed E taken) with
  | true => exact .inl rfl
  | false =>
    have ht := tracks_replayed E hb hk hm ho
    have hc := checkpointed_replayed E hm
    obtain ⟨hs, hr⟩ := ht.completed hl
    have hbase : (replayed E taken).baseReplacementHistory = none := by
      simpa [settled, hs, hr] using ho
    have hf := ht.compaction hp
    rw [hbase, Option.none_or] at hf
    have hh := ht.checkpoint hf
    have hid := ht.replayId
    cases ha : (replayed E taken).activeSegment with
    | none => rw [ha] at hf; cases hf
    | some seg =>
      rw [ha] at hf hid
      have hd := hc.active seg ha hf
      exact .inr ⟨seg, ⟨ha, hc.pending, hbase, hs, hr, hf, hd.1, hd.2.1⟩, hid, hh⟩

/-- The part of the rollout behind a bounded cutoff is not needed. -/
theorem cutoff_sameResult (hb : wellBracketed none (old ++ taken) = true)
    (hk : markersBacked E (old ++ taken) = true)
    (hu : compactionsUndisturbed false (old ++ taken) = true)
    (hc : (seen E taken).hasBoundedCutoff = true) :
    SameResult E (scanRollout E (old ++ taken)) (finalizeLeftover (replayed E taken)) ∧
      (finalizeLeftover (replayed E taken)).baseReplacementHistory.isSome = true := by
  rw [scanRollout_full]
  cases base_of_cutoff E hb hk hc with
  | inl hs =>
    rw [if_pos hs]
    refine ⟨SameResult.refl E _, ?_⟩
    have hbase : (replayed E taken).baseReplacementHistory.isSome = true := by
      simp only [settled, Bool.and_eq_true] at hs
      exact hs.1.1
    rw [finalizeLeftover]
    cases (replayed E taken).activeSegment with
    | none => exact hbase
    | some seg =>
      dsimp only
      rw [finalizeActiveSegment]
      split
      · exact hbase
      · rw [Option.isSome_or]
        exact Bool.or_eq_true_iff.mpr (.inl hbase)
  | inr hw =>
    obtain ⟨seg, hw, hid, hh⟩ := hw
    have ho : settled (replayed E taken) = false := by simp [settled, hw.base]
    have hclear := disturbed_of_compaction hu hh
    rw [if_neg (by rw [ho]; exact Bool.false_ne_true)]
    refine ⟨hw.reverseScan E ?_ ?_ ?_, by rw [hw.finalizeLeftover]; exact hw.segmentBase⟩
    all_goals rwa [reverse_reverse]

/-- The bounded scan is lossless: what the reader hands on is rebuilt to the same session as the
whole rollout. -/
theorem bounded_scan_lossless (rollout : List (RolloutItem J)) (sessionMeta : SessionMetaLine)
    (hbracketed : wellBracketed none rollout = true) (hbacked : markersBacked E rollout = true)
    (hundisturbed : compactionsUndisturbed false rollout = true) :
    reconstructHistoryFromRollout E (boundedReplay E rollout sessionMeta) =
      reconstructHistoryFromRollout E rollout := by
  obtain ⟨old, taken, hsplit, hf, hstop⟩ := feed_seen E rollout.reverse []
  rw [reverse_reverse, append_nil] at hsplit
  subst hsplit
  rw [boundedReplay, show feed E {} (old ++ taken).reverse = seen E taken from hf, ModelContextScan.finish,
    itemsNewestFirst_seen, reverse_reverse]
  cases hc : (seen E taken).hasBoundedCutoff with
  | false =>
    rw [if_neg Bool.false_ne_true]
    cases hstop with
    | inl ho => rw [ho, nil_append]
    | inr hcut => rw [hcut] at hc; cases hc
  | true =>
    obtain ⟨hsame, hb⟩ := cutoff_sameResult E hbracketed hbacked hundisturbed hc
    have hm : (seen E taken).mustScanToStart = false := by
      simp only [ModelContextScan.hasBoundedCutoff, Bool.and_eq_true, Bool.not_eq_true'] at hc
      exact hc.1.1
    obtain ⟨hw, hs⟩ := (checkpointed_leftover (checkpointed_replayed E hm)).base hb
    rw [← scanRollout_bounded E] at hsame hw hs
    exact (reconstruct_of_sameResult E hsame hw hs).symm

/-- A finished turn of a paginated rollout: its context, an instruction with its marker, further items. -/
def pagedTurn (turnId : Str) (text : Str) (rest : List (RolloutItem Unit)) : List (RolloutItem Unit) :=
  [.eventMsg (.turnStarted turnId), .turnContext ⟨some turnId, "m".toList, none, none, []⟩,
    .responseItem (userTextMessage text none), .eventMsg (.itemCompleted turnId .userMessage)] ++ rest ++
  [.eventMsg (.turnComplete turnId)]

def summaryCheckpoint : RolloutItem Unit :=
  .compacted ⟨"summary".toList, some [userTextMessage "summary".toList none], some 1, none, none, none⟩

/-- Three turns, the second of which compacts the thread. -/
def compactedRollout : List (RolloutItem Unit) :=
  pagedTurn "t".toList "first".toList [] ++ pagedTurn "u".toList "second".toList [summaryCheckpoint] ++
    pagedTurn "v".toList "third".toList []

/-- The reader stops at the checkpoint and the session is the same. -/
theorem compactedRollout_lossless :
    (compactedRollout.length = 16 ∧ (boundedReplay plainEnv compactedRollout ⟨none⟩).length = 8) ∧
      reconstructHistoryFromRollout plainEnv (boundedReplay plainEnv compactedRollout ⟨none⟩) =
        reconstructHistoryFromRollout plainEnv compactedRollout :=
  ⟨⟨rfl, rfl⟩, bounded_scan_lossless plainEnv compactedRollout ⟨none⟩ (by decide) (by decide) (by decide)⟩

/-- A turn that is rolled back, a compaction outside of any turn, and another turn. -/
def disturbedRollout : List (RolloutItem Unit) :=
  pagedTurn "t".toList "first".toList [] ++ [.eventMsg (.threadRolledBack 1), summaryCheckpoint] ++
    pagedTurn "u".toList "second".toList []

/-- The reader stops before the marker and keeps a checkpoint that the reconstruction rolls back. -/
theorem disturbedRollout_lossy :
    (wellBracketed none disturbedRollout = true ∧ markersBacked plainEnv disturbedRollout = true) ∧
      (reconstructHistoryFromRollout plainEnv (boundedReplay plainEnv disturbedRollout ⟨none⟩)).history =
        [userTextMessage "summary".toList none, userTextMessage "second".toList none] ∧
      (reconstructHistoryFromRollout plainEnv disturbedRollout).history =
        [userTextMessage "second".toList none] :=
  ⟨⟨by decide, by decide⟩, rfl, rfl⟩

end BoundedScan
