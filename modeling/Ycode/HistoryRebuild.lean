import Ycode.BuilderInvariant

/-!
# Following a thread and rebuilding it

A consumer that applies the change set of every batch of rollout items shows, after each batch, the
turns that are built from the whole rollout up to there, as long as no turn is opened under the id
of a turn that is there already. A turn that a review item has opened is such a turn: its start
event does not look for it and opens a second one, which the tables of the consumer cannot hold.
-/
namespace HistoryRebuild

open RustStr ThreadItems ThreadHistory HistoryChanges BuilderActions BuilderSteps BuilderInvariant List
open ThreadItems (RolloutItem)

variable {J V : Type}

section Steps

variable {b : ThreadHistoryBuilder V}

/-- Handling the item opens no turn under an id that is taken. -/
def opensFresh (C : Conversions V) (b : ThreadHistoryBuilder V) (item : RolloutItem J V) : Bool :=
  (opens C b.advance (actionOf C item)).all fun id => id ∉ ids (shown b)

/-- The same for every item of a rollout, from a builder on. -/
def allOpenFresh (C : Conversions V) : ThreadHistoryBuilder V → List (RolloutItem J V) → Bool
  | _, [] => true
  | b, item :: items => opensFresh C b item && allOpenFresh C (b.handleRolloutItem C item) items

/-- The call ids and item ids of a rollout are not of the generated form. -/
def IdsApart (C : Conversions V) (items : List (RolloutItem J V)) : Prop :=
  ∀ item ∈ items, ∀ id, suppliedId (actionOf C item) = some id → ∀ n, id ≠ itemId n

/-- A consumer shows the turns of a builder. -/
structure Following (state : Consumer V × ThreadHistoryBuilder V) : Prop where
  untracked : state.2.activeChangeSet = none
  shows : Shows state.1 (shown state.2)
  distinct : (ids (shown state.2)).Nodup
  unique : ∀ turn ∈ shown state.2, (turn.items.map ThreadItem.id).Nodup
  below : ∀ turn, state.2.currentTurn = some turn →
    ∀ item ∈ turn.items, ∀ n, item.id = itemId n → n < state.2.nextItemIndex
  kept : Kept state.2

theorem following_start : Following (({}, {}) : Consumer V × ThreadHistoryBuilder V) where
  untracked := rfl
  shows := shows_nil
  distinct := nodup_nil
  unique := fun turn ht => absurd ht not_mem_nil
  below := fun turn ht => absurd ht (by simp)
  kept := kept_of_none rfl

theorem apply_nothing (c : Consumer V) : c.apply {} = c := rfl

theorem opens_untrack : opens C (untrack b) action = opens C b action := by
  cases action with
  | say make named => simp only [opens, ← untrack_closeImplicitTurn]; rfl
  | _ => rfl

/-- The builder that collects changes for the next item. -/
def tracking (b : ThreadHistoryBuilder V) : ThreadHistoryBuilder V := { b.advance with activeChangeSet := some {} }

theorem untrack_tracking (h : b.activeChangeSet = none) : untrack (tracking b) = b.advance := by
  obtain ⟨ts, cur, ni, cr, nr, chs⟩ := b
  cases h
  rfl

theorem handleWithChanges_eq :
    b.handleRolloutItemWithChanges C item =
      ((perform C (tracking b) (actionOf C item)).activeChangeSet.getD {},
        untrack (perform C (tracking b) (actionOf C item))) := by
  simp only [ThreadHistoryBuilder.handleRolloutItemWithChanges, ThreadHistoryBuilder.handleRolloutItem, dispatch_eq]
  rfl

theorem observe_builder (h : state.2.activeChangeSet = none) :
    (observe C state item).2 = state.2.handleRolloutItem C item := by
  simp only [observe, handleWithChanges_eq]
  rw [untrack_perform, untrack_tracking h, ThreadHistoryBuilder.handleRolloutItem, dispatch_eq]

/-- The step lemma. -/
theorem following_observe (h : Following state) (hf : opensFresh C state.2 item = true)
    (hs : ∀ id, suppliedId (actionOf C item) = some id → ∀ n, id ≠ itemId n) :
    Following (observe C state item) := by
  have hstart : Inv (shown (tracking state.2)) (tracking state.2) :=
    ⟨⟨{}, rfl, fun c hc => by rw [apply_nothing]; exact hc⟩, h.distinct, h.unique, h.below⟩
  have hopens : ∀ id, opens C (tracking state.2) (actionOf C item) = some id → id ∉ ids (shown (tracking state.2)) := by
    intro id hid
    rw [← opens_untrack, untrack_tracking h.untracked] at hid
    rw [opensFresh, hid] at hf
    exact of_decide_eq_true hf
  obtain ⟨hi, hk⟩ := inv_perform hstart h.kept rfl hopens hs
  obtain ⟨chs, ha, happly⟩ := hi.recorded
  have ho : observe C state item = (state.1.apply chs, untrack (perform C (tracking state.2) (actionOf C item))) := by
    rw [observe, handleWithChanges_eq, ha]
    rfl
  rw [ho]
  exact ⟨rfl, happly _ h.shows, hi.distinct, hi.unique, hi.below, hk⟩

theorem finish_opened {id : Str} (hc : b.currentTurn = some turn)
    (hk : turn.items ≠ [] ∨ turn.openedExplicitly = true ∨ turn.sawCompaction = true) (hid : turn.id = id) :
    ids b.finish = ids b.turns ++ [id] := by
  have hb : Kept b := by
    intro x ho
    rw [hc] at ho
    cases ho
    exact hk
  obtain ⟨hs, hnone, -⟩ := finish_of_kept hb
  rw [shown_of_none hnone, shown_of_current hc] at hs
  rw [ThreadHistoryBuilder.finish, hs, ids, map_append, ← hid]
  rfl

section Implicit

section

variable (hnone : b.currentTurn = none)
include hnone

theorem finish_pushNext (make : Str → ThreadItem V) :
    ids (pushNext C make b).finish = ids b.turns ++ [(b.newTurn C none).id] := by
  obtain ⟨ts, cur, ni, cr, nr, chs⟩ := b
  cases hnone
  rw [finish_opened rfl (.inl ?_) rfl]
  · rfl
  · exact cons_ne_nil _ _

theorem finish_upsertCurrent (item : ThreadItem V) :
    ids (b.upsertItemInCurrentTurn C item).finish = ids b.turns ++ [(b.newTurn C none).id] := by
  obtain ⟨ts, cur, ni, cr, nr, chs⟩ := b
  cases hnone
  rw [finish_opened rfl (.inl ?_) rfl]
  · rfl
  · exact upsertTurnItem_ne_nil [] item

theorem finish_growReasoning (grow : ThreadItem V → Option (ThreadItem V)) (fresh : Str → ThreadItem V) :
    ids (b.growReasoning C grow fresh).finish = ids b.turns ++ [(b.newTurn C none).id] := by
  obtain ⟨ts, cur, ni, cr, nr, chs⟩ := b
  cases hnone
  rw [finish_opened rfl (.inl ?_) rfl]
  · rfl
  · exact cons_ne_nil _ _

theorem finish_compact : ids (b.handleCompacted C).finish = ids b.turns ++ [(b.newTurn C none).id] := by
  obtain ⟨ts, cur, ni, cr, nr, chs⟩ := b
  cases hnone
  rw [finish_opened rfl (.inr (.inr rfl)) rfl]
  rfl

end

end Implicit

/-- An action that opens a turn leaves it behind all the others. -/
theorem finish_perform (hk : Kept b) {id : Str}
    (h : opens C b action = some id) : ids (perform C b action).finish = ids (shown b) ++ [id] := by
  have hi : ∀ needs, (if (needs && b.currentTurn.isNone) = true then some (b.newTurn C none).id else none) = some id →
      needs = true ∧ b.currentTurn = none ∧ (b.newTurn C none).id = id := by
    intro needs hif
    split at hif
    · next hb =>
      rw [Bool.and_eq_true, Option.isNone_iff_eq_none] at hb
      exact ⟨hb.1, hb.2, Option.some.inj hif⟩
    · cases hif
  cases action with
  | start tid startedAt =>
    obtain ⟨hs, hnone, -⟩ := finish_of_kept hk
    cases h
    rw [← hs, shown_of_none hnone]
    exact finish_opened rfl (.inr (.inl rfl)) rfl
  | say make named =>
    simp only [opens] at h
    split at h
    · next hnone =>
      cases h
      rw [Option.isNone_iff_eq_none] at hnone
      have hs : shown b = b.closeImplicitTurn.turns := by
        rw [← shown_of_none hnone, ThreadHistoryBuilder.closeImplicitTurn]
        split
        · exact (finish_of_kept hk).1.symm
        · rfl
      rw [hs, ← newTurn_closeImplicitTurn]
      exact finish_pushNext hnone make
    · cases h
  | push make named =>
    obtain ⟨-, hnone, rfl⟩ := hi _ h
    rw [shown_of_none hnone]
    exact finish_pushNext hnone make
  | reason grow fresh grown named =>
    obtain ⟨-, hnone, rfl⟩ := hi _ h
    rw [shown_of_none hnone]
    exact finish_growReasoning hnone grow fresh
  | upsertCurrent item =>
    obtain ⟨-, hnone, rfl⟩ := hi _ h
    rw [shown_of_none hnone]
    exact finish_upsertCurrent hnone item
  | review tid item =>
    obtain ⟨hn, hnone, rfl⟩ := hi _ h
    cases tid with
    | some tid => cases hn
    | none =>
      rw [shown_of_none hnone]
      exact finish_upsertCurrent hnone item
  | reviewNext tid make named =>
    obtain ⟨hn, hnone, rfl⟩ := hi _ h
    cases tid with
    | some tid => cases hn
    | none =>
      rw [shown_of_none hnone]
      exact finish_upsertCurrent (b := b.nextItemId.2) hnone _
  | compact =>
    obtain ⟨-, hnone, rfl⟩ := hi _ h
    rw [shown_of_none hnone]
    exact finish_compact hnone
  | _ => cases (hi false h).1

end Steps

def builderAfter (C : Conversions V) (items : List (RolloutItem J V)) : ThreadHistoryBuilder V :=
  items.foldl (ThreadHistoryBuilder.handleRolloutItem C) {}

/-- However the rollout is cut into batches, the consumer ends with the turns built from all of it, and
no turn has two items with one id. -/
def Agrees (C : Conversions V) (items : List (RolloutItem J V)) : Prop :=
  (∀ batches : List (List (RolloutItem J V)), batches.flatten = items →
    (batches.foldl (consume C) ({}, {})).1.view = buildTurnsFromRolloutItems C items) ∧
  ∀ turn ∈ buildTurnsFromRolloutItems C items, (turn.items.map ThreadItem.id).Nodup

/-- The run lemma. -/
theorem following_run (hi : IdsApart C xs) (h : Following state)
    (hf : allOpenFresh C state.2 xs = true) : Following (xs.foldl (observe C) state) := by
  induction xs generalizing state with
  | nil => exact h
  | cons item xs ih =>
    rw [allOpenFresh, Bool.and_eq_true, ← observe_builder h.untracked] at hf
    have hs := following_observe h hf.1 (hi item mem_cons_self)
    exact ih (fun x ho => hi x (mem_cons_of_mem _ ho)) hs hf.2

theorem run_builder (xs : List (RolloutItem J V)) (h : state.2.activeChangeSet = none) :
    (xs.foldl (observe C) state).2 = xs.foldl (ThreadHistoryBuilder.handleRolloutItem C) state.2 := by
  induction xs generalizing state with
  | nil => rfl
  | cons item xs ih =>
    have hn : (observe C state item).2.activeChangeSet = none := by
      rfl
    rw [foldl_cons, ih hn, observe_builder h, foldl_cons]

theorem Following.finish_eq (h : Following state) : state.2.finish = shown state.2 := by
  obtain ⟨hs, hnone, -⟩ := finish_of_kept h.kept
  rw [ThreadHistoryBuilder.finish, ← hs, shown_of_none hnone]

theorem agrees_of_fresh (hi : IdsApart C items) (hf : allOpenFresh C {} items = true) : Agrees C items := by
  have hr := following_run hi following_start hf
  have hb : buildTurnsFromRolloutItems C items = shown (items.foldl (observe C) ({}, {})).2 := by
    rw [← hr.finish_eq, run_builder items rfl]
    rfl
  constructor
  · rintro batches rfl
    rw [consume_flatten, hr.shows.view_eq, hb]
  · rw [hb]
    exact hr.unique

theorem nodup_view (xs : List (RolloutItem J V)) (st : Consumer V × ThreadHistoryBuilder V)
    (h : (st.1.turns.map ThreadHistoryTurnChange.turnId).Nodup) :
    (ids (xs.foldl (observe C) st).1.view).Nodup := by
  induction xs generalizing st with
  | nil =>
    rw [ids, foldl_nil, Consumer.view, map_map]
    exact h
  | cons item xs ih => exact ih _ (Consumer.nodup_apply _ _ h)

/-- Whatever the rollout holds, its cut into batches does not show, and no two turns are shown under one id. -/
theorem view_ignores_batches (C : Conversions V) (batches : List (List (RolloutItem J V))) :
    let view := (batches.foldl (consume C) ({}, {})).1.view
    view = (consume C ({}, {}) batches.flatten).1.view ∧ (ids view).Nodup := by
  intro view
  have hv : view = (batches.flatten.foldl (observe C) ({}, {})).1.view := by
    rw [← consume_flatten]
  rw [hv]
  exact ⟨by rw [consume_eq], nodup_view _ _ nodup_nil⟩

theorem allOpenFresh_concat :
    allOpenFresh C b (xs ++ [item]) =
      (allOpenFresh C b xs && opensFresh C (xs.foldl (ThreadHistoryBuilder.handleRolloutItem C) b) item) := by
  induction xs generalizing b with
  | nil => simp [allOpenFresh]
  | cons x xs ih => rw [cons_append, allOpenFresh, ih, allOpenFresh, Bool.and_assoc, foldl_cons]

/-- A second turn under one id shows up in the rebuilt turns only. -/
theorem fresh_of_agrees (hi : IdsApart C items)
    (hfresh : allOpenFresh C {} items = true) (h : Agrees C (items ++ [item])) :
    opensFresh C (builderAfter C items) item = true := by
  have hr := following_run hi following_start hfresh
  have hb : (items.foldl (observe C) ({}, {})).2 = builderAfter C items := run_builder items rfl
  have hk : Kept (builderAfter C items).advance := hb ▸ hr.kept
  rw [opensFresh]
  cases ho : opens C (builderAfter C items).advance (actionOf C item) with
  | none => rfl
  | some id =>
    have hv := h.1 [items ++ [item]] (by simp)
    have hn : (ids (buildTurnsFromRolloutItems C (items ++ [item]))).Nodup := by
      rw [← hv, consume_flatten]
      exact nodup_view _ _ nodup_nil
    have hf := finish_perform hk ho
    rw [← dispatch_eq] at hf
    have hbuilt : buildTurnsFromRolloutItems C (items ++ [item]) =
        ((builderAfter C items).advance.dispatch C item).finish := by
      rw [buildTurnsFromRolloutItems, foldl_append]
      rfl
    rw [hbuilt, hf] at hn
    have ha := (nodup_append'.mp hn).2.2
    exact decide_eq_true fun hm => ha hm (mem_singleton_self id)

/-- Following agrees with rebuilding, at every prefix and for every cut into batches, exactly if no
item of the rollout opens a turn under the id of a turn that is there. -/
theorem following_agrees_iff {items : List (RolloutItem J V)} (hids : IdsApart C items) :
    (∀ n, Agrees C (items.take n)) ↔ allOpenFresh C {} items = true := by
  have hs : ∀ n, IdsApart C (items.take n) := fun n item hi => hids item (mem_of_mem_take hi)
  constructor
  · intro h
    have hall : ∀ n, n ≤ items.length → allOpenFresh C {} (items.take n) = true := by
      intro n
      induction n with
      | zero => exact fun _ => rfl
      | succ n ih =>
        intro hn
        have hf := ih (by omega)
        have ht : items.take (n + 1) = items.take n ++ [items[n]] := (take_append_getElem hn).symm
        have ha := h (n + 1)
        rw [ht] at ha ⊢
        rw [allOpenFresh_concat, hf, Bool.true_and]
        exact fresh_of_agrees (hs n) hf ha
    have he := hall items.length (Nat.le_refl _)
    rwa [take_length] at he
  · intro h n
    refine agrees_of_fresh (hs n) ?_
    have hsplit : ∀ (pre post : List (RolloutItem J V)) (b : ThreadHistoryBuilder V),
        allOpenFresh C b (pre ++ post) = true → allOpenFresh C b pre = true := by
      intro pre post
      induction pre with
      | nil => exact fun _ _ => rfl
      | cons item pre ih =>
        intro b hb
        rw [cons_append, allOpenFresh, Bool.and_eq_true] at hb
        rw [allOpenFresh, Bool.and_eq_true]
        exact ⟨hb.1, ih _ hb.2⟩
    rw [← take_append_drop n items] at h
    exact hsplit _ _ _ h

/-- Conversions that change nothing. -/
def plainConversions : Conversions Unit where
  memoryCitationFromCore := id
  textElementFromCore := id
  webSearchActionFromCore := id
  legacyAppPathString := id
  commandExecutionSource := id
  subAgentActivityKind := id
  nativeCodeModePhase := id
  shlexJoin := List.flatten
  redactSecrets := id
  commandActionsForPathUri := fun parsed _ => parsed
  renderReviewOutputText := fun _ => []
  nowV7 := "00000000-0000-7000-8000-000000000000".toList

/-- A turn with a tool call, completed and taken back, and the start of another turn. -/
def searchThenRollBack : List (RolloutItem Unit Unit) :=
  [.eventMsg (.turnStarted "a".toList none), .eventMsg (.webSearchBegin "call".toList),
    .eventMsg (.turnComplete "a".toList none none none), .eventMsg (.threadRolledBack 1),
    .eventMsg (.turnStarted "b".toList none)]

theorem searchThenRollBack_agrees :
    IdsApart plainConversions searchThenRollBack ∧ ∀ n, Agrees plainConversions (searchThenRollBack.take n) := by
  have hids : IdsApart plainConversions searchThenRollBack := by
    intro item hi id hid n he
    subst he
    simp only [searchThenRollBack, mem_cons, not_mem_nil, or_false] at hi
    rcases hi with rfl | rfl | rfl | rfl | rfl
    all_goals simp [actionOf, actionOfEvent, suppliedId, ThreadItem.id, itemId] at hid
  exact ⟨hids, (following_agrees_iff hids).mpr (by decide)⟩

def startedIds (items : List (RolloutItem J V)) : List Str :=
  items.filterMap fun
    | .eventMsg (.turnStarted turnId _) => some turnId
    | _ => none

/-- A review item opens a turn, and the turn's own start event opens it again. -/
def reviewThenStart : List (RolloutItem Unit Unit) :=
  [.eventMsg (.itemCompleted "t".toList (.enteredReviewMode "review".toList "changes".toList)),
    .eventMsg (.turnStarted "t".toList none)]

theorem started_turn_is_shown_once :
    (startedIds reviewThenStart).Nodup ∧ (∀ id ∈ startedIds reviewThenStart, ∀ n, id ≠ rolloutTurnId n) ∧
      IdsApart plainConversions reviewThenStart ∧
      ([reviewThenStart].foldl (consume plainConversions) ({}, {})).1.view.map Turn.id = ["t".toList] ∧
      (buildTurnsFromRolloutItems plainConversions reviewThenStart).map Turn.id = ["t".toList, "t".toList] := by
  refine ⟨by decide, ?_, ?_, by decide, by decide⟩
  · intro id hid n he
    have ht : id = "t".toList := mem_singleton.mp hid
    rw [ht] at he
    have hh : 't' :: [] = 'r' :: ("ollout-".toList ++ (toString n).toList) := he
    exact absurd (List.cons.inj hh).1 (by decide)
  · intro item hi id hid n he
    subst he
    simp only [reviewThenStart, mem_cons, not_mem_nil, or_false] at hi
    rcases hi with rfl | rfl
    all_goals simp [actionOf, actionOfEvent, lifecycle, threadItemFrom, ThreadHistoryBuilder.isEmptyPlan,
      ThreadHistoryBuilder.isReviewModeItem, suppliedId, ThreadItem.id, itemId] at hid

end HistoryRebuild
