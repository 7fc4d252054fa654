import Ycode.RolledBackTurn
import Ycode.TurnFinalizations

/-!
# Rollback in the history and in the metadata

The scan counts rollbacks in turn segments, the replayed history counts them in instructions. Both
are logs that take entries back: the scan reads its log newest to oldest, the history reads its own
oldest to newest. They agree on a rollout exactly when the two logs leave the same newest entry, as
they do when each user turn has one instruction.
-/
namespace RollbackSync

open RustStr Transcript History RolloutReplay TurnSegments PlainReplay RolledBackTurn UndoLog TurnFinalizations List

variable {J W ι : Type} (E : Env J W)

/-- One step of the replay that keeps, beside each item of the history, the tag of the piece that
recorded it. -/
def provenanceStep (history : List (ResponseItem × ι)) (item : RolloutItem J × ι) : List (ResponseItem × ι) :=
  match item.1 with
  | .eventMsg (.threadRolledBack numTurns) =>
    history.take (dropLastNUserTurns E.toHost numTurns.toNat (history.map Prod.fst)).length
  | recording => history ++ (recordedBy E recording).map (·, item.2)

def provenance (history : List (ResponseItem × ι)) (rollout : List (RolloutItem J × ι)) :
    List (ResponseItem × ι) :=
  rollout.foldl (provenanceStep E) history

theorem provenanceStep_record (h : isRolledBack item = false) :
    provenanceStep E history (item, tag) = history ++ (recordedBy E item).map (·, tag) := by
  cases item with
  | eventMsg ev =>
    cases ev with
    | threadRolledBack => cases h
    | _ => rfl
  | _ => rfl

theorem map_fst_tag (items : List α) (tag : ι) : (items.map (·, tag)).map Prod.fst = items := by
  simp [Function.comp_def]

theorem provenanceStep_erases (h : isCompacted item.1 = false) :
    forwardStep E ⟨history.map Prod.fst, legacy⟩ item.1 = ⟨(provenanceStep E history item).map Prod.fst, legacy⟩ := by
  obtain ⟨item, tag⟩ := item
  by_cases hr : isRolledBack item = true
  · cases item with
    | eventMsg ev =>
      cases ev with
      | threadRolledBack n =>
        have ht := prefix_iff_eq_take.mp
          (dropLastNUserTurns_isPrefix E.toHost n.toNat (history.map Prod.fst))
        simp only [forwardStep, provenanceStep, map_take]
        rw [← ht]
      | _ => cases hr
    | _ => cases hr
  · have hr' : isRolledBack item = false := by simpa using hr
    rw [forwardStep_plain E h hr', provenanceStep_record E hr', map_append, map_fst_tag]

/-- Forgetting the tags leaves the replayed history. -/
theorem provenance_erases
    (h : ∀ item ∈ rollout, isCompacted item.1 = false) (history : List (ResponseItem × ι)) (legacy : Bool) :
    forwardReplay E ⟨history.map Prod.fst, legacy⟩ (rollout.map Prod.fst) =
      ⟨(provenance E history rollout).map Prod.fst, legacy⟩ := by
  induction rollout generalizing history with
  | nil => rfl
  | cons item rollout ih =>
    rw [forall_mem_cons] at h
    rw [map_cons, forwardReplay, foldl_cons, provenanceStep_erases E h.1]
    exact ih h.2 _

/-- The pieces of the instructions left in the history, newest first. -/
def boundaryTags (history : List (ResponseItem × ι)) : List ι :=
  ((history.filter fun entry => isBoundary E.toHost entry.1).map Prod.snd).reverse

/-- The piece that recorded the last instruction left in the history. -/
def lastBoundary (rollout : List (RolloutItem J × ι)) : Option ι := (boundaryTags E (provenance E [] rollout)).head?

/-- What a piece does to the log of instructions. -/
def boundaryOps : Piece J × ι → List (Op ι)
  | (.turn turn, tag) => List.replicate (turn.body.countP (isBoundaryItem E)) (.push tag)
  | (.rolledBack numTurns, _) => [.pop numTurns.toNat]

theorem boundaryTags_record :
    boundaryTags E (history ++ (recordedBy E item).map (·, tag)) =
      if isBoundaryItem E item then tag :: boundaryTags E history else boundaryTags E history := by
  by_cases h : isBoundaryItem E item = true
  · obtain ⟨b, hr, hb⟩ := recordedBy_boundary E h
    rw [if_pos h, hr, boundaryTags, filter_append, map_singleton,
      filter_cons_of_pos (by exact hb), filter_nil, map_append, reverse_append]
    rfl
  · have hn : ((recordedBy E item).map (·, tag)).filter (fun e => isBoundary E.toHost e.1) = [] := by
      have hc := countP_recordedBy E (show isBoundaryItem E item = false by simpa using h)
      rw [countP_eq_zero] at hc
      rw [filter_eq_nil_iff]
      intro e he
      obtain ⟨recorded, hm, rfl⟩ := mem_map.mp he
      exact hc recorded hm
    rw [if_neg h, boundaryTags, filter_append, hn, append_nil]
    rfl

/-- A rollback takes its number of instructions off the log. -/
theorem boundaryTags_drop (history : List (ResponseItem × ι)) (numTurns : Nat) :
    boundaryTags E (history.take (dropLastNUserTurns E.toHost numTurns (history.map Prod.fst)).length) =
      (boundaryTags E history).drop numTurns := by
  generalize hk : dropLastNUserTurns E.toHost numTurns (history.map Prod.fst) = kept
  have hi : kept <+: history.map Prod.fst := by rw [← hk]; exact dropLastNUserTurns_isPrefix ..
  have hc : kept.countP (isBoundary E.toHost) = (history.map Prod.fst).countP (isBoundary E.toHost) - numTurns := by
    rw [← hk]; exact countP_dropLastNUserTurns ..
  have ht : kept = (history.take kept.length).map Prod.fst := by
    rw [map_take]; exact prefix_iff_eq_take.mp hi
  have hl : ((history.take kept.length).filter fun e => isBoundary E.toHost e.1).length =
      (history.filter fun e => isBoundary E.toHost e.1).length - numTurns := by
    rw [ht, countP_map, countP_map, countP_eq_length_filter, countP_eq_length_filter] at hc
    exact hc
  have hp : history.take kept.length <+: history := take_prefix kept.length history
  have hf := prefix_iff_eq_take.mp (hp.filter fun e => isBoundary E.toHost e.1)
  rw [boundaryTags, boundaryTags, hf, hl, map_take, reverse_take, length_map]
  by_cases hle : numTurns ≤ (history.filter fun e => isBoundary E.toHost e.1).length
  · congr 1
    omega
  · rw [drop_eq_nil_of_le (by simp; omega), drop_eq_nil_of_le (by simp; omega)]

theorem boundaryTags_items {xs : List (RolloutItem J)} (h : ∀ item ∈ xs, isRolledBack item = false)
    (tag : ι) (history : List (ResponseItem × ι)) :
    boundaryTags E (provenance E history (xs.map (·, tag))) =
      run (boundaryTags E history) (List.replicate (xs.countP (isBoundaryItem E)) (.push tag)) := by
  induction xs generalizing history with
  | nil => rfl
  | cons item xs ih =>
    rw [forall_mem_cons] at h
    rw [map_cons, provenance, foldl_cons, provenanceStep_record E h.1]
    refine (ih h.2 _).trans ?_
    rw [boundaryTags_record]
    by_cases hb : isBoundaryItem E item = true
    · rw [if_pos hb, countP_cons_of_pos hb, replicate_succ, run_push]
    · rw [if_neg hb, countP_cons_of_neg hb]

theorem items_not_rolledBack (turn : CompleteTurn J) : ∀ item ∈ turn.items, isRolledBack item = false :=
  forall_mem_items rfl (fun item hi => not_rolledBack_of_inTurn (turn.inside item hi)) rfl

/-- The history reads the log of instructions oldest to newest. -/
theorem boundaryTags_eq_run (pcs : List (Piece J × ι)) (history : List (ResponseItem × ι)) :
    boundaryTags E (provenance E history (tagged pcs)) = run (boundaryTags E history) (pcs.flatMap (boundaryOps E)) := by
  induction pcs generalizing history with
  | nil => rfl
  | cons pc pcs ih =>
    rw [tagged, flatMap_cons, flatMap_cons, run_append, provenance, foldl_append]
    refine (ih _).trans (congrArg (run · _) ?_)
    obtain ⟨pc, tag⟩ := pc
    cases pc with
    | turn turn =>
      have hc : turn.items.countP (isBoundaryItem E) = turn.body.countP (isBoundaryItem E) := by
        simp [CompleteTurn.items, isBoundaryItem]
      rw [boundaryOps, ← hc]
      exact boundaryTags_items E (items_not_rolledBack turn) tag history
    | rolledBack n => exact boundaryTags_drop E history n.toNat

/-- The reconstruction returns the history whose provenance is kept, and the metadata of the newest
surviving segments that have it. -/
theorem reconstruct_pieces {pieces : List (Piece J × ι)} (h : Plain pieces) :
    let survivors := (finalizations E {} [] (tagged pieces).reverse).filter Finalized.survives
    let result := reconstructHistoryFromRollout E ((tagged pieces).map Prod.fst)
    result.history = (provenance E [] (tagged pieces)).map Prod.fst ∧
      result.previousTurnSettings = survivors.findSome? (·.segment.previousTurnSettings) ∧
      result.referenceContextItem = survivors.findSome? fun e => latestReference e.segment.referenceContextItem := by
  have hitems : ∀ item ∈ tagged pieces, isCompacted item.1 = false := by
    intro item hi
    obtain ⟨pc, hp, hmem⟩ := mem_flatMap.mp hi
    obtain ⟨own, ho, rfl⟩ := mem_map.mp hmem
    exact h pc hp own ho
  have hr : ((tagged pieces).map Prod.fst).reverse = pieces.reverse.flatMap fun pc => pc.1.items.reverse := by
    simp only [tagged, map_flatMap, map_fst_tag, reverse_flatMap]
    rfl
  have ha := reverseScan_pieces_activeSegment E
    (fun pc hp => h pc (mem_reverse.mp hp)) (s := {}) ⟨rfl, rfl⟩ rfl []
  rw [← hr] at ha
  have hc : ∀ item ∈ ((tagged pieces).map Prod.fst).reverse, isCheckpoint item = false := by
    intro item hi
    obtain ⟨e, he, rfl⟩ := mem_map.mp (mem_reverse.mp hi)
    exact not_checkpoint_of_not_compacted (hitems e he)
  obtain ⟨hb, hs⟩ := Baseless.reverseScan E hc (s := {}) ⟨rfl, rfl⟩ []
  have hm := reverseScan_metadata E
    (fun item hi => hitems item (mem_reverse.mp hi)) (s := {}) ⟨rfl, rfl⟩ []
  rw [map_reverse] at hm
  have hscan : scanRollout E ((tagged pieces).map Prod.fst) =
      reverseScan E {} [] ((tagged pieces).map Prod.fst).reverse := by
    rw [scanRollout, finalizeLeftover, ha]
  have hl : forwardReplay E ⟨[], false⟩ ((tagged pieces).map Prod.fst) =
      ⟨(provenance E [] (tagged pieces)).map Prod.fst, false⟩ := provenance_erases E hitems [] false
  simp only [reconstructHistoryFromRollout, hscan, hb.base, hs, Option.getD_none, hl, Bool.false_eq_true, if_false]
  exact ⟨trivial, hm.1, hm.2⟩

/-- The turn that the metadata comes from is the turn of the last instruction in the history. -/
def InSync (pieces : List (Piece J)) : Prop :=
  newestSurvivor E (tagged pieces.zipIdx) = lastBoundary E (tagged pieces.zipIdx)

theorem lastBoundary_eq_run : lastBoundary E (tagged pieces) = (run [] (pieces.flatMap (boundaryOps E))).head? := by
  rw [lastBoundary, boundaryTags_eq_run]
  rfl

theorem reverse_segmentOps (pcs : List (Piece J × ι)) :
    (pcs.flatMap (segmentOps E)).reverse = pcs.reverse.flatMap (segmentOps E) := by
  rw [reverse_flatMap]
  congr 1
  funext pc
  obtain ⟨pc, tag⟩ := pc
  cases pc with
  | turn turn =>
    simp only [Function.comp, segmentOps]
    split <;> rfl
  | rolledBack n => rfl

theorem newestSurvivor_eq_run (h : Plain pieces)
    (hl : (pieces.flatMap (segmentOps E)).countP Op.isPush ≤ usizeMax) :
    newestSurvivor E (tagged pieces) = (run [] (pieces.flatMap (segmentOps E))).head? := by
  have hr : (tagged pieces).reverse = pieces.reverse.flatMap fun pc => (pc.1.items.map (·, pc.2)).reverse := by
    rw [tagged, reverse_flatMap]
    rfl
  have hplain : Plain pieces.reverse := fun pc hp => h pc (mem_reverse.mp hp)
  have hb := survivors_eq_back E hplain (s := {}) ⟨rfl, rfl⟩ rfl []
  rw [newestSurvivor, ← head?_filter, ← head?_map, hr, hb, ← reverse_segmentOps, back_eq_run _ hl, drop_zero]

theorem countP_segmentOps (pcs : List (Piece J)) (start : Nat) :
    ((pcs.zipIdx start).flatMap (segmentOps E)).countP Op.isPush ≤ (turnsOf pcs).length := by
  induction pcs generalizing start with
  | nil => exact Nat.le_refl _
  | cons pc pcs ih =>
    have h := ih (start + 1)
    rw [zipIdx_cons, flatMap_cons, countP_append]
    cases pc with
    | turn turn =>
      rw [turnsOf_turn, length_cons, segmentOps]
      split
      · rw [countP_singleton]; simp only [Op.isPush, if_true]; omega
      · rw [countP_nil]; omega
    | rolledBack n =>
      rw [turnsOf_rolledBack, segmentOps, countP_singleton]
      simp only [Op.isPush, Bool.false_eq_true, if_false]
      omega

theorem plain_zipIdx (h : ∀ turn ∈ turnsOf pieces, ∀ item ∈ turn.body, isCompacted item = false) :
    Plain pieces.zipIdx := by
  rintro ⟨pc, tag⟩ hpiece item hi
  have hm : pc ∈ pieces := (mem_zipIdx' hpiece).2 ▸ getElem_mem _
  cases pc with
  | turn turn =>
    have ht := h turn (mem_filterMap.mpr ⟨_, hm, rfl⟩)
    exact forall_mem_items (P := fun item => isCompacted item = false) rfl ht rfl item hi
  | rolledBack n =>
    rw [mem_singleton.mp hi]
    rfl

/-- A user turn with one instruction, or a turn that is none. -/
def Balanced (turn : CompleteTurn J) : Prop :=
  isUserTurn E turn = true → turn.body.countP (isBoundaryItem E) = 1

instance (turn : CompleteTurn J) : Decidable (Balanced E turn) := inferInstanceAs (Decidable (_ → _))

/-- A balanced turn does the same to both logs. -/
theorem segmentOps_of_balanced (h : Balanced E turn) :
    segmentOps E (.turn turn, tag) = boundaryOps E (.turn turn, tag) := by
  rw [segmentOps, boundaryOps]
  cases hu : isUserTurn E turn with
  | true => rw [h hu]; rfl
  | false =>
    have hz : turn.body.countP (isBoundaryItem E) = 0 := by
      by_contra hne
      rw [isUserTurn_of_countP E hne] at hu
      cases hu
    rw [hz]
    rfl

theorem ops_of_balanced (h : ∀ turn ∈ turnsOf pcs, Balanced E turn) (start : Nat) :
    (pcs.zipIdx start).flatMap (segmentOps E) = (pcs.zipIdx start).flatMap (boundaryOps E) := by
  induction pcs generalizing start with
  | nil => rfl
  | cons pc pcs ih =>
    rw [zipIdx_cons, flatMap_cons, flatMap_cons]
    cases pc with
    | turn turn =>
      rw [turnsOf_turn, forall_mem_cons] at h
      rw [segmentOps_of_balanced E h.1, ih h.2]
    | rolledBack n =>
      rw [ih h]
      rfl

/-- A user turn that was steered once: it has two instructions. -/
def steeredTurn : CompleteTurn Unit where
  turnId := "u".toList
  body := [.responseItem (userTextMessage "again".toList none),
    .responseItem (userTextMessage "but differently".toList none)]
  inside := by decide

/-- Both logs, read oldest to newest, leave the same newest entry. -/
def SameTop (pieces : List (Piece J)) : Prop :=
  (run [] (pieces.zipIdx.flatMap (segmentOps E))).head? = (run [] (pieces.zipIdx.flatMap (boundaryOps E))).head?

instance (pieces : List (Piece J)) : Decidable (SameTop E pieces) := inferInstanceAs (Decidable (_ = _))

/-- A rollout is in sync exactly when its logs have the same top, and a rollout whose user turns have one
instruction each always is. -/
theorem rollback_in_sync_iff (pieces : List (Piece J)) (hlen : (turnsOf pieces).length ≤ usizeMax)
    (hplain : ∀ turn ∈ turnsOf pieces, ∀ item ∈ turn.body, isCompacted item = false) :
    (InSync E pieces ↔ SameTop E pieces) ∧ ((∀ turn ∈ turnsOf pieces, Balanced E turn) → InSync E pieces) := by
  have hs : InSync E pieces ↔ SameTop E pieces := by
    rw [InSync, SameTop, lastBoundary_eq_run,
      newestSurvivor_eq_run E (plain_zipIdx hplain) ((countP_segmentOps E pieces 0).trans hlen)]
  refine ⟨hs, fun hbad => hs.mpr ?_⟩
  rw [SameTop, ops_of_balanced E hbad]

/-- Also a steered turn does no harm where no marker follows it. -/
theorem answeredTurn_in_sync :
    InSync plainEnv [Piece.turn (messageTurn "first".toList), Piece.turn answeredTurn, Piece.rolledBack 1] ∧
      InSync plainEnv [Piece.turn (messageTurn "first".toList), Piece.turn steeredTurn] :=
  ⟨(rollback_in_sync_iff plainEnv _ (by decide) (by decide)).2 (by decide),
    (rollback_in_sync_iff plainEnv _ (by decide) (by decide)).1.mpr (by decide)⟩

/-- Rolling a steered turn back drops its settings but only the second of its instructions. -/
theorem steeredTurn_out_of_sync :
    newestSurvivor plainEnv (tagged
        [Piece.turn (messageTurn "first".toList), Piece.turn steeredTurn, Piece.rolledBack 1].zipIdx) = some 0 ∧
      lastBoundary plainEnv (tagged
        [Piece.turn (messageTurn "first".toList), Piece.turn steeredTurn, Piece.rolledBack 1].zipIdx) = some 1 := by
  decide

theorem steeredTurn_reconstructed :
    let rollout := tagged [(Piece.turn steeredTurn, 0), (Piece.rolledBack 1, 1)]
    (reconstructHistoryFromRollout plainEnv (rollout.map Prod.fst)).history =
      (provenance plainEnv [] rollout).map Prod.fst :=
  (reconstruct_pieces plainEnv (by unfold Plain; decide)).1

end RollbackSync
