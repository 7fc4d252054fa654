import Ycode.ThreadHistory

/-!
# Following a thread by its change sets

A consumer keeps two tables, one of items under the ids of their turn and of themselves and one of
turns. It applies a change set by deleting, then writing items, then writing turns. The change set
of a batch is put together by an accumulator; applying it comes to the same as applying the change
sets of the batch's items one after another, however the rollout is cut into batches.
-/
namespace HistoryChanges

open RustStr ThreadItems KeyedTable ThreadHistory List
open ThreadItems (RolloutItem)

variable {J V : Type}

@[ext] structure Consumer (V : Type) where
  items : List (ThreadHistoryItemChange V) := []
  turns : List ThreadHistoryTurnChange := []

namespace Consumer

def removeTurn (c : Consumer V) (turnId : Str) : Consumer V :=
  ⟨c.items.filter (·.turnId ≠ turnId), c.turns.filter (·.turnId ≠ turnId)⟩

def writeItem (c : Consumer V) (change : ThreadHistoryItemChange V) : Consumer V :=
  { c with items := upsert itemKey change c.items }

def writeTurn (c : Consumer V) (change : ThreadHistoryTurnChange) : Consumer V :=
  { c with turns := upsert ThreadHistoryTurnChange.turnId change c.turns }

def apply (c : Consumer V) (changes : ThreadHistoryChangeSet V) : Consumer V :=
  let c := changes.removedTurnIds.foldl removeTurn c
  let c := changes.changedItems.foldl writeItem c
  changes.changedTurns.foldl writeTurn c

/-- The turns as the two tables show them. -/
def view (c : Consumer V) : List (Turn V) :=
  c.turns.map fun row =>
    { id := row.turnId
      items := (c.items.filter (·.turnId = row.turnId)).map ThreadHistoryItemChange.item
      error := row.error
      status := row.status
      startedAt := row.startedAt
      completedAt := row.completedAt
      durationMs := row.durationMs }

theorem foldl_removeTurn (removed : List Str) (c : Consumer V) :
    removed.foldl removeTurn c = ⟨c.items.filter (·.turnId ∉ removed), c.turns.filter (·.turnId ∉ removed)⟩ := by
  induction removed generalizing c with
  | nil => simp
  | cons tid removed ih =>
    rw [foldl_cons, ih]
    simp only [removeTurn, filter_filter, mem_cons, not_or, Bool.decide_and]
    congr 2 <;> funext row <;> exact Bool.and_comm ..

theorem foldl_writeItem (items : List (ThreadHistoryItemChange V)) (c : Consumer V) :
    items.foldl writeItem c = { c with items := upsertAll itemKey items c.items } := by
  induction items generalizing c with
  | nil => rfl
  | cons ch items ih => rw [foldl_cons, ih]; rfl

theorem foldl_writeTurn (turns : List ThreadHistoryTurnChange) (c : Consumer V) :
    turns.foldl writeTurn c = { c with turns := upsertAll ThreadHistoryTurnChange.turnId turns c.turns } := by
  induction turns generalizing c with
  | nil => rfl
  | cons ch turns ih => rw [foldl_cons, ih]; rfl

/-- What a change set does to the two tables. -/
theorem apply_eq (c : Consumer V) (chs : ThreadHistoryChangeSet V) :
    c.apply chs =
      ⟨upsertAll itemKey chs.changedItems (c.items.filter (·.turnId ∉ chs.removedTurnIds)),
        upsertAll ThreadHistoryTurnChange.turnId chs.changedTurns
          (c.turns.filter (·.turnId ∉ chs.removedTurnIds))⟩ := by
  rw [apply, foldl_removeTurn, foldl_writeItem, foldl_writeTurn]

theorem nodup_apply (c : Consumer V) (chs : ThreadHistoryChangeSet V)
    (h : (c.turns.map ThreadHistoryTurnChange.turnId).Nodup) :
    ((c.apply chs).turns.map ThreadHistoryTurnChange.turnId).Nodup := by
  rw [apply_eq]
  exact nodup_upsertAll ((filter_sublist.map _).nodup h)

end Consumer

/-- Apply the change set of every batch. -/
def consume (C : Conversions V) (state : Consumer V × ThreadHistoryBuilder V) (batch : List (RolloutItem J V)) :
    Consumer V × ThreadHistoryBuilder V :=
  let handled := handleRolloutItemsWithChanges C state.2 batch
  (state.1.apply handled.1, handled.2)

/-- Apply the change set of one rollout item. -/
def observe (C : Conversions V) (state : Consumer V × ThreadHistoryBuilder V) (item : RolloutItem J V) :
    Consumer V × ThreadHistoryBuilder V :=
  let handled := state.2.handleRolloutItemWithChanges C item
  (state.1.apply handled.1, handled.2)

open ThreadHistoryChangeAccumulator

/-- The accumulated changes take the first consumer to the second. -/
structure Leads (acc : ThreadHistoryChangeAccumulator V) (start now : Consumer V) : Prop where
  items : acc.changedItems.Indexed itemKey
  turns : acc.changedTurns.Indexed ThreadHistoryTurnChange.turnId
  removed : ∀ turnId, (acc.removedTurnIndexes.lookup turnId).isSome = true ↔ turnId ∈ acc.removedTurnIds
  applied : start.apply acc.finish = now

theorem apply_finish (start : Consumer V) (acc : ThreadHistoryChangeAccumulator V) :
    start.apply acc.finish =
      ⟨upsertAll itemKey acc.changedItems.rows (start.items.filter (·.turnId ∉ acc.removedTurnIds)),
        upsertAll ThreadHistoryTurnChange.turnId acc.changedTurns.rows
          (start.turns.filter (·.turnId ∉ acc.removedTurnIds))⟩ :=
  start.apply_eq acc.finish

theorem leads_start : Leads {} start start where
  items := ⟨by simp, nodup_nil⟩
  turns := ⟨by simp, nodup_nil⟩
  removed := by simp
  applied := by simp [Consumer.apply_eq, finish, SlotTable.rows, upsertAll]

theorem Leads.pushItemChange (h : Leads acc start now) (ch : ThreadHistoryItemChange V) :
    Leads (acc.pushItemChange ch) start (now.writeItem ch) where
  items := h.items.put ch
  turns := h.turns
  removed := h.removed
  applied := by
    rw [← h.applied, apply_finish, apply_finish, Consumer.writeItem, ThreadHistoryChangeAccumulator.pushItemChange,
      rows_put h.items, upsert_upsertAll h.items.nodup]

theorem Leads.pushTurnChange (h : Leads acc start now) (ch : ThreadHistoryTurnChange) :
    Leads (acc.pushTurnChange ch) start (now.writeTurn ch) where
  items := h.items
  turns := h.turns.put ch
  removed := h.removed
  applied := by
    rw [← h.applied, apply_finish, apply_finish, Consumer.writeTurn, ThreadHistoryChangeAccumulator.pushTurnChange,
      rows_put h.turns, upsert_upsertAll h.turns.nodup]

theorem itemKey_turn : OfKey itemKey fun change : ThreadHistoryItemChange V => change.turnId ≠ turnId :=
  fun _ _ h => congrArg (fun id => decide (id ≠ turnId)) (Prod.mk.inj h).1

/-- Changes recorded for a turn go when the turn is removed. -/
theorem Leads.pushRemovedTurnId (h : Leads acc start now) (turnId : Str) :
    Leads (acc.pushRemovedTurnId turnId) start (now.removeTurn turnId) := by
  have hr : ∀ other, other ∈ (acc.pushRemovedTurnId turnId).removedTurnIds ↔
      other ∈ acc.removedTurnIds ∨ other = turnId := by
    intro other
    simp only [ThreadHistoryChangeAccumulator.pushRemovedTurnId]
    split
    · next hs =>
      have hm := (h.removed turnId).mp hs
      constructor
      · exact .inl
      · rintro (ho | rfl)
        · exact ho
        · exact hm
    · simp
  obtain ⟨hi, hd⟩ := h.items.dropWhere fun key => decide (key.1 = turnId)
  have hrows : (acc.changedItems.dropWhere fun key => decide (key.1 = turnId)).rows =
      acc.changedItems.rows.filter (·.turnId ≠ turnId) := by
    rw [hd]
    exact filter_congr fun row _ => (decide_not (p := row.turnId = turnId)).symm
  have hi' : (acc.pushRemovedTurnId turnId).changedItems =
      acc.changedItems.dropWhere fun key => decide (key.1 = turnId) := by
    simp only [ThreadHistoryChangeAccumulator.pushRemovedTurnId]
    split <;> rfl
  have ht' : (acc.pushRemovedTurnId turnId).changedTurns = acc.changedTurns.drop turnId := by
    simp only [ThreadHistoryChangeAccumulator.pushRemovedTurnId]
    split <;> rfl
  refine ⟨hi' ▸ hi, ht' ▸ h.turns.drop turnId, ?_, ?_⟩
  · intro other
    rw [hr other, ← h.removed other]
    simp only [ThreadHistoryChangeAccumulator.pushRemovedTurnId]
    split
    · next hs =>
      constructor
      · exact .inl
      · rintro (ho | rfl)
        · exact ho
        · exact hs
    · by_cases he : other = turnId
      · simp [he]
      · simp [lookup_cons, beq_false_of_ne he, he]
  · rw [← h.applied, apply_finish, apply_finish, Consumer.removeTurn, hi', ht', hrows, rows_drop h.turns,
      filter_upsertAll (itemKey_turn),
      filter_upsertAll (fun _ _ hk => congrArg (fun id => decide (id ≠ turnId)) hk)]
    simp only [filter_filter]
    congr 2
    all_goals simp [hr, and_comm]

theorem Leads.push (h : Leads acc start now) (chs : ThreadHistoryChangeSet V) :
    Leads (acc.push chs) start (now.apply chs) := by
  have hr : ∀ (ids : List Str) {acc : ThreadHistoryChangeAccumulator V} {now : Consumer V},
      Leads acc start now → Leads (ids.foldl ThreadHistoryChangeAccumulator.pushRemovedTurnId acc) start
        (ids.foldl Consumer.removeTurn now) := by
    intro ids
    induction ids with
    | nil => exact id
    | cons tid ids ih => exact fun h => ih (h.pushRemovedTurnId tid)
  have hi : ∀ (xs : List (ThreadHistoryItemChange V)) {acc : ThreadHistoryChangeAccumulator V}
      {now : Consumer V}, Leads acc start now →
      Leads (xs.foldl ThreadHistoryChangeAccumulator.pushItemChange acc) start
        (xs.foldl Consumer.writeItem now) := by
    intro xs
    induction xs with
    | nil => exact id
    | cons ch xs ih => exact fun h => ih (h.pushItemChange ch)
  have ht : ∀ (ts : List ThreadHistoryTurnChange) {acc : ThreadHistoryChangeAccumulator V}
      {now : Consumer V}, Leads acc start now →
      Leads (ts.foldl ThreadHistoryChangeAccumulator.pushTurnChange acc) start
        (ts.foldl Consumer.writeTurn now) := by
    intro ts
    induction ts with
    | nil => exact id
    | cons ch ts ih => exact fun h => ih (h.pushTurnChange ch)
  exact ht _ (hi _ (hr _ h))

/-- The change set of a batch does what the change sets of its items do in turn. -/
theorem consume_eq (C : Conversions V) (state : Consumer V × ThreadHistoryBuilder V) (batch : List (RolloutItem J V)) :
    consume C state batch = batch.foldl (observe C) state := by
  have hr : ∀ (xs : List (RolloutItem J V)) {acc : ThreadHistoryChangeAccumulator V} {now : Consumer V}
      (b : ThreadHistoryBuilder V), Leads acc state.1 now →
      Leads (xs.foldl (accumulate C) (acc, b)).1 state.1 (xs.foldl (observe C) (now, b)).1 ∧
        (xs.foldl (accumulate C) (acc, b)).2 = (xs.foldl (observe C) (now, b)).2 := by
    intro xs
    induction xs with
    | nil => exact fun b h => ⟨h, rfl⟩
    | cons item xs ih => exact fun b h => ih _ (h.push _)
  obtain ⟨hl, hb⟩ := hr batch state.2 (leads_start)
  exact Prod.ext hl.applied hb

theorem consume_flatten (C : Conversions V) (batches : List (List (RolloutItem J V)))
    (state : Consumer V × ThreadHistoryBuilder V) :
    batches.foldl (consume C) state = batches.flatten.foldl (observe C) state := by
  induction batches generalizing state with
  | nil => rfl
  | cons batch batches ih => rw [foldl_cons, ih, consume_eq, flatten_cons, foldl_append]

end HistoryChanges
