import Ycode.BuilderActions

/-!
# The changes of one step

`Shows` says that the tables of a consumer show a list of turns. Every action on the builder
changes the turns it shows in one of four ways: a turn is added, the data of a turn or one of its
items is replaced or an item is added, or the last turns go. The change set collected meanwhile
takes a consumer that shows the turns before to one that shows the turns after. It needs turn ids
that are distinct and item ids that are distinct within a turn, which is what the steps keep.
-/
namespace BuilderSteps

open RustStr ThreadItems KeyedTable ThreadHistory HistoryChanges BuilderActions List

variable {V : Type}

abbrev ids (turns : List (Turn V)) : List Str := turns.map Turn.id

structure Shows (c : Consumer V) (turns : List (Turn V)) : Prop where
  rows : c.turns = turns.map Turn.change
  items : ∀ turn ∈ turns, (c.items.filter (·.turnId = turn.id)).map ThreadHistoryItemChange.item = turn.items
  known : ∀ change ∈ c.items, change.turnId ∈ ids turns

theorem shows_nil : Shows ({} : Consumer V) [] := ⟨rfl, by simp, by simp⟩

theorem Shows.view_eq (h : Shows c turns) : c.view = turns := by
  rw [Consumer.view, h.rows, map_map]
  conv_rhs => rw [← map_id turns]
  refine map_congr_left fun turn ht => ?_
  have hi : (c.items.filter (·.turnId = turn.change.turnId)).map ThreadHistoryItemChange.item = turn.items :=
    h.items turn ht
  simp only [Function.comp, hi]
  rfl

theorem upsertTurnItem_eq (items : List (ThreadItem V)) (item : ThreadItem V) :
    upsertTurnItem items item = upsert ThreadItem.id item items := by
  induction items with
  | nil => rfl
  | cons old items ih =>
    rw [upsertTurnItem, findIdx?_cons, upsert]
    by_cases hid : old.id = item.id
    · simp [hid]
    · rw [upsertTurnItem] at ih
      rw [if_neg hid, ← ih]
      simp only [hid, decide_false, Bool.false_eq_true, if_false]
      cases List.findIdx? (fun x : ThreadItem V => decide (x.id = item.id)) items <;> rfl

/-- Within one turn an item is written under its own id. -/
theorem map_item_upsert
    (h : ∀ ch ∈ chs, ch.turnId = turnId) (item : ThreadItem V) (started completed : Option Int) :
    (upsert itemKey ⟨turnId, item, started, completed⟩ chs).map ThreadHistoryItemChange.item =
      upsert ThreadItem.id item (chs.map ThreadHistoryItemChange.item) := by
  induction chs with
  | nil => rfl
  | cons ch chs ih =>
    have ht : ch.turnId = turnId := h ch mem_cons_self
    rw [upsert, map_cons, upsert]
    by_cases hid : ch.item.id = item.id
    · rw [if_pos hid, if_pos (by rw [itemKey, itemKey, ht, hid]), map_cons]
    · have hk : itemKey ch ≠ itemKey ⟨turnId, item, started, completed⟩ := fun he => hid (Prod.mk.inj he).2
      rw [if_neg hid, if_neg hk, map_cons, ih fun x ho => h x (mem_cons_of_mem _ ho)]

theorem Shows.openTurn (h : Shows c turns) (hf : turn.id ∉ ids turns) (he : turn.items = []) :
    Shows (c.writeTurn turn.change) (turns ++ [turn]) where
  rows := by
    have hr : ∀ row ∈ c.turns, row.turnId ≠ turn.change.turnId := by
      intro row hrow heq
      rw [h.rows] at hrow
      obtain ⟨x, ho, rfl⟩ := mem_map.mp hrow
      exact hf (mem_map.mpr ⟨x, ho, heq⟩)
    rw [Consumer.writeTurn, upsert_of_fresh hr, h.rows, map_append]
    rfl
  items := by
    intro x ho
    cases mem_append.mp ho with
    | inl hold => exact h.items x hold
    | inr hn =>
      rw [mem_singleton] at hn
      subst hn
      rw [he, map_eq_nil_iff, filter_eq_nil_iff]
      intro ch hc heq
      exact hf (of_decide_eq_true heq ▸ h.known ch hc)
  known := by
    intro ch hc
    rw [ids, map_append]
    exact mem_append_left _ (h.known ch hc)

variable {before after : List (Turn V)}

theorem ids_replace (hid : turn'.id = turn.id) : ids (before ++ turn' :: after) = ids (before ++ turn :: after) := by
  rw [ids, map_append, map_cons, hid, ← map_cons, ← map_append]

/-- The ids around a turn differ from its own. -/
theorem ids_around (h : (ids (before ++ turn :: after)).Nodup) :
    (∀ x ∈ before, x.id ≠ turn.id) ∧ ∀ x ∈ after, x.id ≠ turn.id := by
  rw [ids, map_append, map_cons, nodup_append', nodup_cons] at h
  obtain ⟨-, ⟨ha, -⟩, hd⟩ := h
  constructor
  · intro x ho he
    exact hd (mem_map.mpr ⟨x, ho, he⟩) mem_cons_self
  · intro x ho he
    exact ha (mem_map.mpr ⟨x, ho, he⟩)

theorem Shows.writeTurn (h : Shows c (before ++ turn :: after)) (hd : (ids (before ++ turn :: after)).Nodup)
    (hid : turn'.id = turn.id) (hi : turn'.items = turn.items) :
    Shows (c.writeTurn turn'.change) (before ++ turn' :: after) where
  rows := by
    have hb : ∀ row ∈ before.map Turn.change, row.turnId ≠ turn'.change.turnId := by
      intro row hr
      obtain ⟨x, ho, rfl⟩ := mem_map.mp hr
      exact fun he => (ids_around hd).1 x ho (he.trans hid)
    have hk : turn.change.turnId = turn'.change.turnId := hid.symm
    rw [Consumer.writeTurn, h.rows, map_append, map_cons, upsert_at hk hb, map_append, map_cons]
  items := by
    intro x ho
    have hold := h.items
    cases mem_append.mp ho with
    | inl hb => exact hold x (mem_append_left _ hb)
    | inr hrest =>
      cases mem_cons.mp hrest with
      | inl he =>
        rw [he, hid, hi]
        exact hold turn (mem_append_right _ mem_cons_self)
      | inr ha => exact hold x (mem_append_right _ (mem_cons_of_mem _ ha))
  known := by
    intro ch hc
    rw [ids_replace hid]
    exact h.known ch hc

theorem Shows.writeItem (h : Shows c (before ++ turn :: after)) (hd : (ids (before ++ turn :: after)).Nodup)
    (item : ThreadItem V) (started completed : Option Int) :
    Shows (c.writeItem ⟨turn.id, item, started, completed⟩)
      (before ++ { turn with items := upsertTurnItem turn.items item } :: after) where
  rows := by
    rw [Consumer.writeItem, h.rows, map_append, map_append, map_cons, map_cons]
    rfl
  items := by
    have hown : ∀ tid, OfKey itemKey fun ch : ThreadHistoryItemChange V => decide (ch.turnId = tid) :=
      fun tid _ _ hkey => congrArg (fun id => decide (id = tid)) (Prod.mk.inj hkey).1
    have hk : ∀ x, x.id ≠ turn.id → x ∈ before ++ turn :: after →
        ((upsert itemKey ⟨turn.id, item, started, completed⟩ c.items).filter (·.turnId = x.id)).map
          ThreadHistoryItemChange.item = x.items := by
      intro x hne hm
      rw [filter_upsert (hown x.id), if_neg (by simpa using Ne.symm hne)]
      exact h.items x hm
    obtain ⟨hb, ha⟩ := ids_around hd
    intro x ho
    cases mem_append.mp ho with
    | inl hm => exact hk x (hb x hm) (mem_append_left _ hm)
    | inr hrest =>
      cases mem_cons.mp hrest with
      | inr hm => exact hk x (ha x hm) (mem_append_right _ (mem_cons_of_mem _ hm))
      | inl he =>
        rw [he, Consumer.writeItem]
        have hr := h.items turn (mem_append_right _ mem_cons_self)
        have hall : ∀ ch ∈ c.items.filter (·.turnId = turn.id), ch.turnId = turn.id :=
          fun ch hc => of_decide_eq_true (mem_filter.mp hc).2
        rw [filter_upsert (hown turn.id), if_pos (by simp), map_item_upsert hall, hr, upsertTurnItem_eq]
  known := by
    intro ch hc
    have hi : ids (before ++ { turn with items := upsertTurnItem turn.items item } :: after) =
      ids (before ++ turn :: after) := ids_replace rfl
    rw [hi]
    cases mem_upsert hc with
    | inl he => rw [he, ids, map_append, map_cons]; exact mem_append_right _ mem_cons_self
    | inr hold => exact h.known ch hold

theorem Shows.removeTurns (h : Shows c (kept ++ gone)) (hd : (ids (kept ++ gone)).Nodup) :
    Shows ((ids gone).foldl Consumer.removeTurn c) kept := by
  rw [ids, map_append, nodup_append'] at hd
  have hkept : ∀ turn ∈ kept, turn.id ∉ ids gone := fun turn ht hg => hd.2.2 (mem_map_of_mem ht) hg
  rw [Consumer.foldl_removeTurn]
  constructor
  · dsimp only
    rw [h.rows, map_append, filter_append, filter_eq_self.mpr, filter_eq_nil_iff.mpr, append_nil]
    · intro row hr
      obtain ⟨turn, ht, rfl⟩ := mem_map.mp hr
      simpa [Turn.change] using ⟨turn, ht, rfl⟩
    · intro row hr
      obtain ⟨turn, ht, rfl⟩ := mem_map.mp hr
      exact decide_eq_true (hkept turn ht)
  · intro turn ht
    rw [filter_filter, ← h.items turn (mem_append_left _ ht)]
    congr 1
    refine filter_congr fun ch _ => ?_
    by_cases he : ch.turnId = turn.id
    · simp [he, hkept turn ht]
    · simp [he]
  · intro ch hc
    obtain ⟨hm, hn⟩ := mem_filter.mp hc
    have hk := h.known ch hm
    rw [ids, map_append] at hk
    cases mem_append.mp hk with
    | inl hkept => exact hkept
    | inr hg => exact absurd hg (of_decide_eq_true hn)

/-- The turns a builder shows: those it has finished and the one still open. -/
def shown (b : ThreadHistoryBuilder V) : List (Turn V) :=
  b.turns ++ (b.currentTurn.map PendingTurn.toTurn).toList

/-- The changes collected so far lead from the turns at the start to those shown now. -/
def Recorded (start : List (Turn V)) (b : ThreadHistoryBuilder V) : Prop :=
  ∃ changes, b.activeChangeSet = some changes ∧ ∀ c, Shows c start → Shows (c.apply changes) (shown b)

structure Inv (start : List (Turn V)) (b : ThreadHistoryBuilder V) : Prop where
  recorded : Recorded start b
  distinct : (ids (shown b)).Nodup
  unique : ∀ turn ∈ shown b, (turn.items.map ThreadItem.id).Nodup
  /-- Generated ids in the open turn are older than the next one. -/
  below : ∀ turn, b.currentTurn = some turn → ∀ item ∈ turn.items, ∀ n, item.id = itemId n → n < b.nextItemIndex

/-- The open turn will not be dropped when it is finished. -/
def Kept (b : ThreadHistoryBuilder V) : Prop :=
  ∀ turn, b.currentTurn = some turn → turn.items ≠ [] ∨ turn.openedExplicitly = true ∨ turn.sawCompaction = true

variable {turn : PendingTurn V}

theorem shown_of_current (h : b.currentTurn = some turn) : shown b = b.turns ++ turn.toTurn :: [] := by
  rw [shown, h]
  rfl

theorem shown_of_none (h : b.currentTurn = none) : shown b = b.turns := by
  rw [shown, h]
  exact append_nil _

theorem finish_of_kept (h : Kept b) :
    shown b.finishCurrentTurn = shown b ∧ b.finishCurrentTurn.currentTurn = none ∧
      b.finishCurrentTurn.activeChangeSet = b.activeChangeSet ∧
      b.finishCurrentTurn.nextItemIndex = b.nextItemIndex := by
  rw [ThreadHistoryBuilder.finishCurrentTurn]
  cases hcur : b.currentTurn with
  | none => exact ⟨rfl, hcur, rfl, rfl⟩
  | some turn =>
    have hk : ¬(turn.items.isEmpty && !turn.openedExplicitly && !turn.sawCompaction) = true := by
      simp only [Bool.and_eq_true, Bool.not_eq_eq_eq_not, Bool.not_true, List.isEmpty_iff]
      rintro ⟨⟨hi, he⟩, hc⟩
      rcases h turn hcur with h | h | h
      · exact h hi
      · rw [he] at h; cases h
      · rw [hc] at h; cases h
    dsimp only
    rw [if_neg hk]
    refine ⟨?_, rfl, rfl, rfl⟩
    rw [shown_of_none rfl, shown_of_current hcur]

theorem Inv.finish (h : Inv start b) (hk : Kept b) : Inv start b.finishCurrentTurn := by
  obtain ⟨hs, hn, hc, -⟩ := finish_of_kept hk
  refine ⟨?_, hs ▸ h.distinct, hs ▸ h.unique, ?_⟩
  · rw [Recorded, hs, hc]
    exact h.recorded
  · intro turn ht
    rw [hn] at ht
    cases ht

theorem apply_changedTurns (c : Consumer V) (chs : ThreadHistoryChangeSet V) (turn : ThreadHistoryTurnChange) :
    c.apply { chs with changedTurns := chs.changedTurns ++ [turn] } = (c.apply chs).writeTurn turn := by
  rw [Consumer.apply_eq, Consumer.apply_eq, Consumer.writeTurn, upsertAll_append]
  rfl

theorem apply_changedItems (c : Consumer V) (chs : ThreadHistoryChangeSet V) (item : ThreadHistoryItemChange V) :
    c.apply { chs with changedItems := chs.changedItems ++ [item] } = (c.apply chs).writeItem item := by
  rw [Consumer.apply_eq, Consumer.apply_eq, Consumer.writeItem, upsertAll_append]
  rfl

/-- A turn is written: what the tables then show is what the builder then shows. -/
theorem Recorded.writeTurn (h : Recorded start b) {turn : ThreadHistoryTurnChange}
    (hh : b'.activeChangeSet = (b.recordChangedTurn turn).activeChangeSet)
    (hs : ∀ c, Shows c (shown b) → Shows (c.writeTurn turn) (shown b')) : Recorded start b' := by
  obtain ⟨chs, ha, happly⟩ := h
  refine ⟨_, by rw [hh, ThreadHistoryBuilder.recordChangedTurn, ha]; rfl, fun c hc => ?_⟩
  rw [apply_changedTurns]
  exact hs _ (happly c hc)

theorem Recorded.writeItem (h : Recorded start b)
    (hh : b'.activeChangeSet = (b.recordChangedItem turnId item).activeChangeSet)
    (hs : ∀ c, Shows c (shown b) → Shows (c.writeItem ⟨turnId, item, none, none⟩) (shown b')) :
    Recorded start b' := by
  obtain ⟨chs, ha, happly⟩ := h
  refine ⟨_, by rw [hh, ThreadHistoryBuilder.recordChangedItem, ha]; rfl, fun c hc => ?_⟩
  rw [apply_changedItems]
  exact hs _ (happly c hc)

theorem Inv.openTurn (h : Inv start b) (hn : b.currentTurn = none) (hf : turn.id ∉ ids (shown b))
    (he : turn.items = []) : Inv start (b.openTurn turn) := by
  have hs : shown (b.openTurn turn) = shown b ++ [turn.toTurn] := by
    rw [shown_of_none hn]
    rfl
  refine ⟨h.recorded.writeTurn rfl ?_, ?_, ?_, ?_⟩
  · intro c hc
    rw [hs]
    exact hc.openTurn hf he
  · rw [hs, ids, map_append, nodup_append']
    exact ⟨h.distinct, nodup_singleton _, by simpa using hf⟩
  · rw [hs]
    intro x ho
    cases mem_append.mp ho with
    | inl hold => exact h.unique x hold
    | inr hnew =>
      rw [mem_singleton.mp hnew, he]
      exact nodup_nil
  · rintro _ ⟨⟩ item hi
    rw [he] at hi
    cases hi

/-- The turn an item goes to, opened now if there is none. -/
theorem Inv.ensureTurn (h : Inv start b) (hf : b.currentTurn = none → (b.newTurn C none).id ∉ ids (shown b)) :
    Inv start (b.ensureTurn C).2 ∧ (b.ensureTurn C).2.currentTurn = some (b.ensureTurn C).1 ∧
      (b.ensureTurn C).2.nextItemIndex = b.nextItemIndex := by
  rw [ThreadHistoryBuilder.ensureTurn]
  cases hc : b.currentTurn with
  | some turn => exact ⟨h, hc, rfl⟩
  | none => exact ⟨h.openTurn hc (hf hc) rfl, rfl, rfl⟩

theorem nodup_upsertTurnItem (h : (items.map ThreadItem.id).Nodup) :
    ((upsertTurnItem items item).map ThreadItem.id).Nodup := by
  rw [upsertTurnItem_eq]
  exact nodup_upsert h

theorem mem_upsertTurnItem (h : other ∈ upsertTurnItem items item) : other = item ∨ other ∈ items := by
  rw [upsertTurnItem_eq] at h
  exact mem_upsert h

theorem upsertTurnItem_ne_nil (xs : List (ThreadItem V)) (item : ThreadItem V) : upsertTurnItem xs item ≠ [] := by
  rw [upsertTurnItem_eq]
  cases xs with
  | nil => simp [upsert]
  | cons old xs =>
    rw [upsert]
    split <;> simp

theorem unique_replace (h : ∀ turn ∈ before ++ old :: after, (turn.items.map ThreadItem.id).Nodup)
    (hn : (new.items.map ThreadItem.id).Nodup) :
    ∀ turn ∈ before ++ new :: after, (turn.items.map ThreadItem.id).Nodup := by
  intro turn ht
  simp only [mem_append, mem_cons] at ht
  rcases ht with ht | rfl | ht
  · exact h turn (by simp [ht])
  · exact hn
  · exact h turn (by simp [ht])

/-- An item of the open turn is written. -/
theorem Inv.setItems (h : Inv start b) (hcur : b.currentTurn = some turn)
    (hi : ∀ n, item.id = itemId n → n < b.nextItemIndex)
    (hitems : items = upsertTurnItem turn.items item) :
    Inv start (b.setItems turn items item) ∧ Kept (b.setItems turn items item) := by
  subst hitems
  have hd := h.distinct
  have hu := h.unique
  rw [shown_of_current hcur] at hd hu
  have hs : shown (b.setItems turn (upsertTurnItem turn.items item) item) =
      b.turns ++ { turn.toTurn with items := upsertTurnItem turn.items item } :: [] := rfl
  refine ⟨⟨h.recorded.writeItem rfl ?_, ?_, ?_, ?_⟩, ?_⟩
  · intro c hc
    rw [shown_of_current hcur] at hc
    exact hc.writeItem hd item none none
  · have hids : ids (b.turns ++ { turn.toTurn with items := upsertTurnItem turn.items item } :: []) =
      ids (b.turns ++ turn.toTurn :: []) := ids_replace rfl
    rw [hs, hids]
    exact hd
  · exact unique_replace hu
      (nodup_upsertTurnItem (hu turn.toTurn (mem_append_right _ mem_cons_self)))
  · rintro _ ⟨⟩ other ho n hn
    cases mem_upsertTurnItem ho with
    | inl he => exact hi n (he ▸ hn)
    | inr hold => exact h.below turn hcur other hold n hn
  · rintro _ ⟨⟩
    exact .inl (upsertTurnItem_ne_nil _ _)

end BuilderSteps
