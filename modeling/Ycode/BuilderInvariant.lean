import Ycode.BuilderSteps

/-!
# Every action records what it does

One lemma per action: if the action opens no turn under an id that is taken, the changes it records
lead from the turns before it to those after it, and turn ids and item ids stay distinct.
-/
namespace BuilderInvariant

open RustStr ThreadItems KeyedTable ThreadHistory HistoryChanges BuilderActions BuilderSteps
open List hiding after

variable {V : Type} {start : List (Turn V)} {b : ThreadHistoryBuilder V}

theorem itemId_injective (h : itemId m = itemId n) : m = n := by
  have hd : (toString m).toList = (toString n).toList := append_cancel_left h
  have hr := congrArg (Nat.ofDigitChars 10 · 0) hd
  simpa [Nat.toList_repr, Nat.ofDigitChars_toDigits] using hr

/-- An item with an id of its own, or one generated before now. -/
def Known (item : ThreadItem V) (b : ThreadHistoryBuilder V) : Prop := ∀ n, item.id = itemId n → n < b.nextItemIndex

/-- The id of an implicit turn, if one has to be opened, is new. -/
def Fresh (C : Conversions V) (b : ThreadHistoryBuilder V) : Prop :=
  b.currentTurn = none → (b.newTurn C none).id ∉ ids (shown b)

theorem inv_nextItemId (h : Inv start b) : Inv start b.nextItemId.2 where
  recorded := h.recorded
  distinct := h.distinct
  unique := h.unique
  below := fun turn ht item hi n hn => Nat.lt_succ_of_lt (h.below turn ht item hi n hn)

theorem ensureTurn_nextItemId :
    b.nextItemId.2.ensureTurn C = ((b.ensureTurn C).1, (b.ensureTurn C).2.nextItemId.2) := by
  obtain ⟨ts, cur, ni, cr, nr, chs⟩ := b
  cases cur <;> rfl

theorem pushNext_eq :
    pushNext C make b = (b.ensureTurn C).2.nextItemId.2.setItems (b.ensureTurn C).1
      ((b.ensureTurn C).1.items ++ [make (itemId b.nextItemIndex)]) (make (itemId b.nextItemIndex)) := by
  simp only [pushNext, ThreadHistoryBuilder.pushItemInCurrentTurn, ensureTurn_nextItemId]
  rfl

theorem inv_pushNext (h : Inv start b) (hf : Fresh C b) (named : ∀ id, (make id).id = id) :
    Inv start (pushNext C make b) ∧ Kept (pushNext C make b) := by
  obtain ⟨hi, hc, hnext⟩ := h.ensureTurn hf
  rw [pushNext_eq]
  refine (inv_nextItemId hi).setItems hc ?_ ?_
  · intro n hn
    rw [named] at hn
    change n < (b.ensureTurn C).2.nextItemIndex + 1
    have := itemId_injective hn
    omega
  · rw [upsertTurnItem_eq, upsert_of_fresh]
    intro old ho he
    rw [named] at he
    have := hi.below _ hc old ho _ he
    omega

theorem inv_upsertCurrent (h : Inv start b) (hf : Fresh C b) (hi : Known item b) :
    Inv start (b.upsertItemInCurrentTurn C item) ∧ Kept (b.upsertItemInCurrentTurn C item) := by
  obtain ⟨hinv, hc, hnext⟩ := h.ensureTurn hf
  exact hinv.setItems hc (fun n hn => hnext.symm ▸ hi n hn) rfl

/-- Reasoning that goes on replaces the item the turn ends with. -/
theorem dropLast_eq_upsert
    (hu : (items.map ThreadItem.id).Nodup) (hl : items.getLast? = some last) (hid : item.id = last.id) :
    items.dropLast ++ [item] = upsertTurnItem items item := by
  obtain ⟨pre, rfl⟩ := getLast?_eq_some_iff.mp hl
  rw [upsertTurnItem_eq, upsert_at hid.symm, dropLast_concat]
  intro x ho he
  rw [map_append, nodup_append'] at hu
  exact hu.2.2 (mem_map.mpr ⟨x, ho, he.trans hid⟩) (by simp)

theorem inv_growReasoning (h : Inv start b) (hf : Fresh C b)
    (grown : ∀ item item', grow item = some item' → item'.id = item.id) (named : ∀ id, (fresh id).id = id) :
    Inv start (b.growReasoning C grow fresh) ∧ Kept (b.growReasoning C grow fresh) := by
  obtain ⟨hinv, hc, hnext⟩ := h.ensureTurn hf
  simp only [ThreadHistoryBuilder.growReasoning]
  cases hg : (b.ensureTurn C).1.items.getLast?.bind grow with
  | none =>
    refine inv_pushNext hinv (fun hnone => ?_) named
    rw [hc] at hnone
    cases hnone
  | some item =>
    obtain ⟨last, hl, hi⟩ := Option.bind_eq_some_iff.mp hg
    have hid := grown last item hi
    have hu : ((b.ensureTurn C).1.items.map ThreadItem.id).Nodup := by
      refine hinv.unique (b.ensureTurn C).1.toTurn ?_
      rw [shown_of_current hc]
      exact mem_append_right _ mem_cons_self
    refine hinv.setItems hc ?_ (dropLast_eq_upsert hu hl hid)
    intro n hn
    exact hinv.below _ hc last (mem_of_getLast? hl) n (hid ▸ hn)

section Finished

theorem modifyFirst_at (hb : ∀ y ∈ pre, ¬p y = true) (hx : p x = true) :
    modifyFirst p f (pre ++ x :: after) = pre ++ f x :: after := by
  induction pre with
  | nil => exact if_pos hx
  | cons y pre ih =>
    rw [cons_append, modifyFirst, if_neg (hb y mem_cons_self), ih fun z hz => hb z (mem_cons_of_mem _ hz)]
    rfl

/-- The element that is found is the one that is modified. -/
theorem modifyFirst_found {l : List α} {x : α} (h : l.find? p = some x) (f : α → α) :
    p x = true ∧ ∃ pre after, l = pre ++ x :: after ∧ modifyFirst p f l = pre ++ f x :: after := by
  obtain ⟨hx, pre, after, rfl, hb⟩ := find?_eq_some_iff_append.mp h
  refine ⟨hx, pre, after, rfl, modifyFirst_at (fun y hy => ?_) hx⟩
  simpa using hb y hy

theorem shown_split (ht : b.turns = before ++ old :: after) :
    shown b = before ++ old :: (after ++ (b.currentTurn.map PendingTurn.toTurn).toList) := by
  rw [shown, ht, append_assoc]
  rfl

/-- A finished turn is replaced by one with its id. -/
structure Replaces (b b' : ThreadHistoryBuilder V) (before after : List (Turn V)) (old new : Turn V) : Prop where
  turns : b.turns = before ++ old :: after
  turns' : b'.turns = before ++ new :: after
  current : b'.currentTurn = b.currentTurn
  next : b'.nextItemIndex = b.nextItemIndex
  id : new.id = old.id

theorem shown_replaced (hr : Replaces b b' before after old new) :
    shown b' = before ++ new :: (after ++ (b.currentTurn.map PendingTurn.toTurn).toList) := by
  rw [shown_split hr.turns', hr.current]

section

variable (h : Inv start b)
include h

theorem unique_finished (ht : b.turns = before ++ old :: after) : (old.items.map ThreadItem.id).Nodup := by
  refine h.unique old ?_
  rw [shown_split ht]
  exact mem_append_right _ mem_cons_self

theorem inv_replace (hr : Replaces b b' before after old new)
    (hu : (new.items.map ThreadItem.id).Nodup) (hc : Recorded start b') : Inv start b' := by
  have hd := h.distinct
  have ho := h.unique
  rw [shown_split hr.turns] at hd ho
  refine ⟨hc, ?_, ?_, ?_⟩
  · rw [shown_replaced hr, ids_replace hr.id]
    exact hd
  · rw [shown_replaced hr]
    exact unique_replace ho hu
  · rw [hr.current, hr.next]
    exact h.below

theorem inv_upsertFinished (hr : Replaces b b' before after old { old with items := upsertTurnItem old.items item })
    (hh : b'.activeChangeSet = (b.recordChangedItem old.id item).activeChangeSet) : Inv start b' := by
  refine inv_replace h hr (nodup_upsertTurnItem (unique_finished h hr.turns)) ?_
  refine h.recorded.writeItem hh fun c hc => ?_
  have hd := h.distinct
  rw [shown_split hr.turns] at hc hd
  rw [shown_replaced hr]
  exact hc.writeItem hd item none none

theorem inv_updateFinished (hr : Replaces b b' before after old new) (hi : new.items = old.items)
    (hh : b'.activeChangeSet = (b.recordChangedTurn new.change).activeChangeSet) : Inv start b' := by
  refine inv_replace h hr (hi ▸ unique_finished h hr.turns) ?_
  refine h.recorded.writeTurn hh fun c hc => ?_
  have hd := h.distinct
  rw [shown_split hr.turns] at hc hd
  rw [shown_replaced hr]
  exact hc.writeTurn hd hr.id hi

/-- The item goes to the turn it names, open or finished, or nowhere. -/
theorem inv_upsertIn (hi : Known item b) (hkept : Kept b ∨ ∃ turn, b.currentTurn = some turn ∧ turn.id = turnId) :
    Inv start (b.upsertItemInTurnId turnId item) ∧ Kept (b.upsertItemInTurnId turnId item) := by
  rw [ThreadHistoryBuilder.upsertItemInTurnId]
  cases hf : b.currentTurn.filter fun turn => decide (turn.id = turnId) with
  | some turn =>
    obtain ⟨hc, -⟩ := Option.filter_eq_some_iff.mp hf
    exact h.setItems hc hi rfl
  | none =>
    have hkept : Kept b := by
      cases hkept with
      | inl hkept => exact hkept
      | inr ho =>
        obtain ⟨turn, hc, hid⟩ := ho
        rw [hc, Option.filter_some, if_pos (decide_eq_true hid)] at hf
        cases hf
    dsimp only
    split
    · next ha =>
      obtain ⟨old, hfind⟩ := Option.isSome_iff_exists.mp (find?_isSome.mpr (any_eq_true.mp ha))
      obtain ⟨hold, pre, after, ht, hm⟩ := modifyFirst_found hfind
        fun turn => { turn with items := upsertTurnItem turn.items item }
      have hid : old.id = turnId := of_decide_eq_true hold
      exact ⟨inv_upsertFinished h ⟨ht, hm, rfl, rfl, rfl⟩ (by rw [hid]; rfl), hkept⟩
    · exact ⟨h, hkept⟩

/-- Metadata of the open turn is changed. -/
theorem inv_updateCurrent (hcur : b.currentTurn = some turn) {f : Turn V → Turn V}
    (hid : (f turn.toTurn).id = turn.id) (hitems : (f turn.toTurn).items = turn.items) :
    Inv start (b.updateCurrent f turn) := by
  have hd := h.distinct
  have hu := h.unique
  rw [shown_of_current hcur] at hd hu
  have hs : shown (b.updateCurrent f turn) = b.turns ++ f turn.toTurn :: [] := rfl
  refine ⟨h.recorded.writeTurn rfl ?_, ?_, ?_, ?_⟩
  · intro c hc
    rw [shown_of_current hcur] at hc
    exact hc.writeTurn hd hid hitems
  · rw [hs, ids_replace hid]
    exact hd
  · refine unique_replace hu ?_
    rw [hitems]
    exact hu turn.toTurn (mem_append_right _ mem_cons_self)
  · rintro _ ⟨⟩ item hi
    exact h.below turn hcur item (hitems ▸ hi)

end

theorem kept_updateCurrent (hkept : Kept b) (hc : b.currentTurn = some turn) {f : Turn V → Turn V}
    (hi : (f turn.toTurn).items = turn.items) : Kept (b.updateCurrent f turn) := by
  rintro _ ⟨⟩
  rw [hi]
  exact hkept turn hc

/-- The turn an abort or a completion is for is the open one or a finished one. -/
theorem targetOf_cases (tid : Option Str) (b : ThreadHistoryBuilder V) :
    match b.targetOf tid with
    | some (.inl turn) => b.currentTurn = some turn
    | some (.inr turn) => ∃ id, b.turns.find? (·.id = id) = some turn
    | none => True := by
  rw [ThreadHistoryBuilder.targetOf]
  cases ho : tid.bind fun id => b.currentTurn.filter fun turn => decide (turn.id = id) with
  | some turn =>
    obtain ⟨id, -, hf⟩ := Option.bind_eq_some_iff.mp ho
    exact (Option.filter_eq_some_iff.mp hf).1
  | none =>
    cases hfind : tid.bind fun id => b.turns.find? fun turn => decide (turn.id = id) with
    | some turn =>
      obtain ⟨id, -, hfound⟩ := Option.bind_eq_some_iff.mp hfind
      exact ⟨id, hfound⟩
    | none =>
      cases hc : b.currentTurn with
      | none => trivial
      | some turn => rfl

theorem inv_updateTarget (h : Inv start b) {id : Str} {f : Turn V → Turn V}
    (hf : b.turns.find? (·.id = id) = some turn) (hid : (f turn).id = turn.id)
    (hi : (f turn).items = turn.items) : Inv start (b.updateFinished f turn) := by
  have hturn : turn.id = id := by simpa using find?_some hf
  subst hturn
  obtain ⟨-, pre, after, ht, hm⟩ := modifyFirst_found hf f
  exact inv_updateFinished h ⟨ht, hm, rfl, rfl, hid⟩ hi rfl

end Finished

section Performing

theorem applyCompletion_id (err : Option TurnError) (completedAt durationMs : Option Int) (turn : Turn V) :
    (applyCompletion err completedAt durationMs turn).id = turn.id ∧
      (applyCompletion err completedAt durationMs turn).items = turn.items := by
  cases err with
  | some err => exact ⟨rfl, rfl⟩
  | none =>
    simp only [applyCompletion]
    split <;> exact ⟨rfl, rfl⟩

section

variable (h : Inv start b) (hkept : Kept b)
include h hkept

theorem inv_abort (tid : Option Str) (completedAt durationMs : Option Int) :
    Inv start (b.handleTurnAborted tid completedAt durationMs) ∧
      Kept (b.handleTurnAborted tid completedAt durationMs) := by
  have ht := targetOf_cases tid b
  rw [ThreadHistoryBuilder.handleTurnAborted]
  generalize b.targetOf tid = target at ht
  rcases target with _ | turn | turn
  · exact ⟨h, hkept⟩
  · exact ⟨inv_updateCurrent h ht rfl rfl, kept_updateCurrent hkept ht rfl⟩
  · obtain ⟨id, hf⟩ := ht
    exact ⟨inv_updateTarget h hf rfl rfl, hkept⟩

omit h hkept in
theorem kept_of_none (h : b.currentTurn = none) : Kept b := by
  intro turn ht
  rw [h] at ht
  cases ht

theorem inv_complete (tid : Str) (err : Option ErrorEvent) (completedAt durationMs : Option Int) :
    Inv start (b.handleTurnComplete tid err completedAt durationMs) ∧
      Kept (b.handleTurnComplete tid err completedAt durationMs) := by
  have ht := targetOf_cases (some tid) b
  have hc : ∀ turn : Turn V, _ := applyCompletion_id (err.map turnErrorOf) completedAt durationMs
  simp only [ThreadHistoryBuilder.handleTurnComplete]
  generalize b.targetOf (some tid) = target at ht
  rcases target with _ | turn | turn
  · exact ⟨h, hkept⟩
  · have hk' := kept_updateCurrent hkept ht (hc turn.toTurn).2
    have hi := inv_updateCurrent h ht (hc turn.toTurn).1 (hc turn.toTurn).2
    exact ⟨hi.finish hk', kept_of_none (finish_of_kept hk').2.1⟩
  · obtain ⟨id, hf⟩ := ht
    exact ⟨inv_updateTarget h hf (hc turn).1 (hc turn).2, hkept⟩

theorem inv_fail : Inv start (failCurrent error b) ∧ Kept (failCurrent error b) := by
  rw [failCurrent]
  cases hc : b.currentTurn with
  | none => exact ⟨h, hkept⟩
  | some turn => exact ⟨inv_updateCurrent h hc rfl rfl, kept_updateCurrent hkept hc rfl⟩

omit h hkept in
theorem unknown_turn (h : (!b.currentTurn.any (·.id = turnId) && !b.turns.any (·.id = turnId)) = true) :
    turnId ∉ ids (shown b) := by
  rw [Bool.and_eq_true, Bool.not_eq_true', Bool.not_eq_true', any_eq_false] at h
  rw [shown, ids, map_append, mem_append]
  rintro (hm | hm)
  · obtain ⟨turn, ht, he⟩ := mem_map.mp hm
    exact h.2 turn ht (decide_eq_true he)
  · cases hc : b.currentTurn with
    | none => rw [hc] at hm; cases hm
    | some turn =>
      rw [hc] at hm h
      have he : turn.id = turnId := (mem_singleton.mp hm).symm
      simp [he] at h

theorem inv_review (hf : tid = none → Fresh C b) (hi : Known item b) :
    Inv start (b.upsertReviewModeItem C tid item) ∧ Kept (b.upsertReviewModeItem C tid item) := by
  cases tid with
  | none => exact inv_upsertCurrent h (hf rfl) hi
  | some tid =>
    simp only [ThreadHistoryBuilder.upsertReviewModeItem]
    split
    · next hu =>
      obtain ⟨hs, hnone, -, hnext⟩ := finish_of_kept hkept
      have hnew : tid ∉ ids (shown b.finishCurrentTurn) := hs ▸ unknown_turn hu
      refine inv_upsertIn ((h.finish hkept).openTurn hnone hnew rfl) ?_ (.inr ⟨_, rfl, rfl⟩)
      intro n hn
      exact lt_of_lt_of_eq (hi n hn) hnext.symm
    · exact inv_upsertIn h hi (.inl hkept)

theorem inv_start (startedAt : Option Int) (hf : turnId ∉ ids (shown b)) :
    Inv start (b.handleTurnStarted C turnId startedAt) ∧ Kept (b.handleTurnStarted C turnId startedAt) := by
  obtain ⟨hs, hn, -⟩ := finish_of_kept hkept
  refine ⟨(h.finish hkept).openTurn hn (hs ▸ hf) rfl, ?_⟩
  rintro _ ⟨⟩
  exact .inr (.inl rfl)

end

theorem inv_compact (h : Inv start b) (hf : Fresh C b) :
    Inv start (b.handleCompacted C) ∧ Kept (b.handleCompacted C) := by
  obtain ⟨hi, hc, hn⟩ := h.ensureTurn hf
  have hs : shown (b.handleCompacted C) = shown (b.ensureTurn C).2 := by
    rw [shown_of_current hc]
    rfl
  refine ⟨⟨?_, hs ▸ hi.distinct, hs ▸ hi.unique, ?_⟩, ?_⟩
  · obtain ⟨chs, ha, happly⟩ := hi.recorded
    exact ⟨chs, ha, hs ▸ happly⟩
  · rintro _ ⟨⟩
    exact hi.below (b.ensureTurn C).1 hc
  · rintro _ ⟨⟩
    exact .inr (.inr rfl)

/-- What a rollback keeps, whichever of its branches is taken. -/
theorem rollback_split :
    ∃ kept gone, b.finishCurrentTurn.turns = kept ++ gone ∧ (b.handleThreadRollback numTurns).turns = kept ∧
      (b.handleThreadRollback numTurns).currentTurn = b.finishCurrentTurn.currentTurn ∧
      (b.handleThreadRollback numTurns).activeChangeSet =
        (b.finishCurrentTurn.recordRemovedTurnIds (ids gone)).activeChangeSet := by
  simp only [ThreadHistoryBuilder.handleThreadRollback]
  generalize b.finishCurrentTurn = b
  by_cases ha : numTurns.toNat ≥ b.turns.length
  · exact ⟨[], b.turns, rfl, if_pos ha, rfl, by rw [if_pos ha]⟩
  · refine ⟨b.turns.take (b.turns.length - numTurns.toNat), b.turns.drop (b.turns.length - numTurns.toNat),
      (take_append_drop ..).symm, if_neg ha, rfl, ?_⟩
    rw [if_neg ha]
    by_cases hz : numTurns.toNat = 0
    · rw [if_pos hz, hz, Nat.sub_zero, drop_length]
      rfl
    · rw [if_neg hz]

/-- A rollback is recorded on its own, with nothing before it in the change set. -/
theorem inv_rollBack (h : Inv (shown b) b) (hkept : Kept b) (he : b.activeChangeSet = some {}) :
    Inv (shown b) (b.handleThreadRollback numTurns) ∧ Kept (b.handleThreadRollback numTurns) := by
  obtain ⟨hs, hn, hh, -⟩ := finish_of_kept hkept
  obtain ⟨kept, gone, ht, ht', hcur, hr⟩ := rollback_split
  rw [hn] at hcur
  rw [shown_of_none hn, ht] at hs
  have hs' : shown (b.handleThreadRollback numTurns) = kept := by rw [shown_of_none hcur, ht']
  have hd := h.distinct
  have hu := h.unique
  rw [← hs] at hd hu
  refine ⟨⟨?_, ?_, ?_, ?_⟩, kept_of_none hcur⟩
  · refine ⟨{ removedTurnIds := ids gone }, ?_, fun c hc => ?_⟩
    · rw [hr, ThreadHistoryBuilder.recordRemovedTurnIds, hh, he]
      rfl
    · rw [hs']
      rw [← hs] at hc
      exact hc.removeTurns hd
  · rw [hs']
    rw [ids, map_append] at hd
    exact (nodup_append'.mp hd).1
  · rw [hs']
    exact fun turn hturn => hu turn (mem_append_left _ hturn)
  · intro turn hturn
    rw [hcur] at hturn
    cases hturn

theorem newTurn_closeImplicitTurn (b : ThreadHistoryBuilder V) :
    b.closeImplicitTurn.newTurn C none = b.newTurn C none := by
  rw [ThreadHistoryBuilder.closeImplicitTurn]
  split
  · rw [ThreadHistoryBuilder.finishCurrentTurn]
    split
    · split <;> rfl
    · rfl
  · rfl

/-- The step lemma: an action that opens no turn twice is recorded faithfully. -/
theorem inv_perform (h : Inv (shown b) b) (hkept : Kept b) (he : b.activeChangeSet = some {})
    (ho : ∀ id, opens C b action = some id → id ∉ ids (shown b))
    (hs : ∀ id, suppliedId action = some id → ∀ n, id ≠ itemId n) :
    Inv (shown b) (perform C b action) ∧ Kept (perform C b action) := by
  have hneeds : needsTurn action = true → (∀ make named, action ≠ .say make named) → Fresh C b := by
    intro hneeds hsay hnone
    refine ho _ ?_
    cases action with
    | say make named => exact absurd rfl (hsay make named)
    | start tid startedAt => cases hneeds
    | _ => simp [opens, hneeds, hnone]
  have hk : ∀ item, suppliedId action = some item.id → Known item b := fun item hi n hn => absurd hn (hs _ hi n)
  cases action with
  | skip => exact ⟨h, hkept⟩
  | push make named => exact inv_pushNext h (hneeds rfl (by simp)) named
  | say make named =>
    have hc : Inv (shown b) b.closeImplicitTurn ∧ shown b.closeImplicitTurn = shown b := by
      rw [ThreadHistoryBuilder.closeImplicitTurn]
      split
      · exact ⟨h.finish hkept, (finish_of_kept hkept).1⟩
      · exact ⟨h, rfl⟩
    refine inv_pushNext hc.1 (fun hnone => ?_) named
    rw [hc.2, newTurn_closeImplicitTurn]
    exact ho _ (by simp [opens, hnone])
  | reason grow fresh grown named => exact inv_growReasoning h (hneeds rfl (by simp)) grown named
  | upsertCurrent item => exact inv_upsertCurrent h (hneeds rfl (by simp)) (hk item rfl)
  | upsertIn tid item => exact inv_upsertIn h (hk item rfl) (.inl hkept)
  | review tid item =>
    refine inv_review h hkept (fun hnone => ?_) (hk item rfl)
    subst hnone
    exact hneeds rfl (by simp)
  | reviewNext tid make named =>
    refine inv_review (inv_nextItemId h) hkept (fun hnone => ?_) ?_
    · subst hnone
      exact hneeds rfl (by simp)
    · intro n hn
      rw [named] at hn
      rw [← itemId_injective hn]
      exact Nat.lt_succ_self _
  | fail err => exact inv_fail h hkept
  | abort tid completedAt durationMs => exact inv_abort h hkept tid completedAt durationMs
  | start tid startedAt => exact inv_start h hkept startedAt (ho tid rfl)
  | complete tid err completedAt durationMs => exact inv_complete h hkept tid err completedAt durationMs
  | compact => exact inv_compact h (hneeds rfl (by simp))
  | rollBack k => exact inv_rollBack h hkept he

end Performing

end BuilderInvariant
