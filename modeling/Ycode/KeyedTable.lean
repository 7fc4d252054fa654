import Mathlib

/-!
# Tables of rows with a key

A table is the list of its rows. Writing a row replaces the one with its key, in its place, or adds
the row at the end. A batch of writes with distinct keys can itself be written as a table: a later
write of one of its keys changes the batch where it stands, and the table that the batch is applied
to does not notice. A slot table keeps such a batch as a vector with an index from keys to slots.
-/
namespace KeyedTable

open List hiding after

variable {α κ : Type} [DecidableEq κ] (key : α → κ)

section Upsert

def upsert (row : α) : List α → List α
  | [] => [row]
  | old :: rows => if key old = key row then row :: rows else old :: upsert row rows

def upsertAll (batch rows : List α) : List α := batch.foldl (fun rows row => upsert key row rows) rows

/-- A predicate on rows that looks at their keys only. -/
def OfKey (p : α → Bool) : Prop := ∀ a b, key a = key b → p a = p b

variable {key}

theorem upsert_of_fresh (h : ∀ old ∈ rows, key old ≠ key row) : upsert key row rows = rows ++ [row] := by
  induction rows with
  | nil => rfl
  | cons old rows ih =>
    have hne : key old ≠ key row := h old mem_cons_self
    rw [upsert, if_neg hne, ih fun x ho => h x (mem_cons_of_mem _ ho)]
    rfl

/-- The row with the key is replaced where it stands. -/
theorem upsert_at (hk : key old = key row) (h : ∀ y ∈ pre, key y ≠ key row) :
    upsert key row (pre ++ old :: after) = pre ++ row :: after := by
  induction pre with
  | nil => exact if_pos hk
  | cons y pre ih =>
    have hne : key y ≠ key row := h y mem_cons_self
    rw [cons_append, upsert, if_neg hne, ih fun x hx => h x (mem_cons_of_mem _ hx)]
    rfl

/-- The two ways to write a row. -/
theorem upsert_cases (key : α → κ) (row : α) (rows : List α) :
    (∀ old ∈ rows, key old ≠ key row) ∨
      ∃ pre old after, rows = pre ++ old :: after ∧ key old = key row ∧ ∀ x ∈ pre, key x ≠ key row := by
  induction rows with
  | nil => exact .inl (by simp)
  | cons old rows ih =>
    by_cases hk : key old = key row
    · exact .inr ⟨[], old, rows, rfl, hk, by simp⟩
    · cases ih with
      | inl h => exact .inl (forall_mem_cons.mpr ⟨hk, h⟩)
      | inr h =>
        obtain ⟨pre, hi, after, rfl, hh, hb⟩ := h
        exact .inr ⟨old :: pre, hi, after, rfl, hh, forall_mem_cons.mpr ⟨hk, hb⟩⟩

theorem map_key_upsert :
    (upsert key row rows).map key = if key row ∈ rows.map key then rows.map key else rows.map key ++ [key row] := by
  induction rows with
  | nil => rfl
  | cons old rows ih =>
    rw [upsert, map_cons]
    by_cases hk : key old = key row
    · rw [if_pos hk, if_pos (by rw [hk]; exact mem_cons_self), map_cons, hk]
    · rw [if_neg hk, map_cons, ih]
      by_cases hm : key row ∈ rows.map key
      · rw [if_pos hm, if_pos (mem_cons_of_mem _ hm)]
      · have hne : key row ∉ key old :: rows.map key := by
          rw [mem_cons]
          rintro (h | h)
          · exact hk h.symm
          · exact hm h
        rw [if_neg hm, if_neg hne, cons_append]

theorem nodup_upsert (h : (rows.map key).Nodup) : ((upsert key row rows).map key).Nodup := by
  rw [map_key_upsert]
  split
  · exact h
  · next hm => exact nodup_append'.mpr ⟨h, nodup_singleton _, by simpa using hm⟩

theorem mem_upsert (h : other ∈ upsert key row rows) : other = row ∨ other ∈ rows := by
  cases upsert_cases key row rows with
  | inl hf =>
    rw [upsert_of_fresh hf, mem_append, mem_singleton] at h
    exact h.symm
  | inr hh =>
    obtain ⟨pre, old, after, rfl, hk, hb⟩ := hh
    rw [upsert_at hk hb] at h
    simp only [mem_append, mem_cons] at h ⊢
    tauto

/-- The second of two writes of one key is the one that stays. -/
theorem upsert_upsert (h : key old = key row) : upsert key row (upsert key old rows) = upsert key row rows := by
  induction rows with
  | nil => exact if_pos h
  | cons x rows ih =>
    by_cases ho : key x = key old
    · rw [upsert, if_pos ho, upsert, if_pos h, upsert, if_pos (ho.trans h)]
    · have hr : key x ≠ key row := fun hs => ho (hs.trans h.symm)
      rw [upsert, if_neg ho, upsert, if_neg hr, upsert, if_neg hr, ih]

/-- A row whose key is there already may be written before or after a row of another key. -/
theorem upsert_comm (hm : key row ∈ rows.map key) (hne : key row ≠ key other) :
    upsert key row (upsert key other rows) = upsert key other (upsert key row rows) := by
  induction rows with
  | nil => cases hm
  | cons old rows ih =>
    by_cases hr : key old = key row
    · have hold : key old ≠ key other := fun h => hne (hr.symm.trans h)
      rw [upsert, if_neg hold, upsert, if_pos hr, upsert, if_pos hr, upsert, if_neg hne]
    · have ht : key row ∈ rows.map key := by
        cases mem_cons.mp hm with
        | inl h => exact absurd h.symm hr
        | inr h => exact h
      by_cases ho : key old = key other
      · rw [upsert, if_pos ho, upsert, if_neg (Ne.symm hne), upsert, if_neg hr, upsert, if_pos ho]
      · rw [upsert, if_neg ho, upsert, if_neg hr, ih ht, upsert, if_neg hr, upsert, if_neg ho]

theorem upsertAll_append : upsertAll key (batch ++ more) rows = upsertAll key more (upsertAll key batch rows) :=
  foldl_append

theorem nodup_upsertAll (h : (rows.map key).Nodup) : ((upsertAll key batch rows).map key).Nodup := by
  induction batch generalizing rows with
  | nil => exact h
  | cons row batch ih => exact ih (nodup_upsert h)

/-- A present key can be written ahead of a batch of other keys. -/
theorem upsert_past_batch (hm : key row ∈ rows.map key) (hb : ∀ other ∈ batch, key row ≠ key other) :
    upsert key row (upsertAll key batch rows) = upsertAll key batch (upsert key row rows) := by
  induction batch generalizing rows with
  | nil => rfl
  | cons other batch ih =>
    have hne : key row ≠ key other := hb other mem_cons_self
    have hk : key row ∈ (upsert key other rows).map key := by
      rw [map_key_upsert]
      split
      · exact hm
      · exact mem_append_left _ hm
    change upsert key row (upsertAll key batch (upsert key other rows)) =
      upsertAll key batch (upsert key other (upsert key row rows))
    rw [ih hk fun x hx => hb x (mem_cons_of_mem _ hx), upsert_comm hm hne]

/-- A write after a batch is a write into the batch. -/
theorem upsert_upsertAll (hb : (batch.map key).Nodup) (row : α) (rows : List α) :
    upsert key row (upsertAll key batch rows) = upsertAll key (upsert key row batch) rows := by
  cases upsert_cases key row batch with
  | inl hf =>
    rw [upsert_of_fresh hf, upsertAll_append]
    rfl
  | inr hh =>
    obtain ⟨pre, old, after, rfl, hk, hr⟩ := hh
    have ha : ∀ other ∈ after, key row ≠ key other := by
      intro other ho he
      rw [map_append, map_cons, nodup_append', nodup_cons] at hb
      exact hb.2.1.1 (mem_map.mpr ⟨other, ho, (hk.trans he).symm⟩)
    have hp : key row ∈ (upsert key old (upsertAll key pre rows)).map key := by
      rw [map_key_upsert, ← hk]
      split
      · assumption
      · exact mem_append_right _ (mem_singleton_self _)
    rw [upsert_at hk hr, upsertAll_append, upsertAll_append]
    change upsert key row (upsertAll key after (upsert key old (upsertAll key pre rows))) =
      upsertAll key after (upsert key row (upsertAll key pre rows))
    rw [upsert_past_batch hp ha, upsert_upsert hk]

theorem filter_upsert (hp : OfKey key p) :
    (upsert key row rows).filter p = if p row then upsert key row (rows.filter p) else rows.filter p := by
  induction rows with
  | nil => cases h : p row <;> simp [upsert, h]
  | cons old rows ih =>
    by_cases hk : key old = key row
    · have hs := hp old row hk
      rw [upsert, if_pos hk]
      cases h : p row with
      | true => rw [filter_cons_of_pos h, filter_cons_of_pos (hs.trans h), if_pos rfl, upsert, if_pos hk]
      | false =>
        rw [filter_cons_of_neg (by simp [h]), filter_cons_of_neg (by simp [hs, h])]
        rfl
    · rw [upsert, if_neg hk]
      cases ho : p old with
      | true =>
        rw [filter_cons_of_pos ho, filter_cons_of_pos ho, ih, upsert, if_neg hk]
        split <;> rfl
      | false => rw [filter_cons_of_neg (by simp [ho]), filter_cons_of_neg (by simp [ho]), ih]

/-- Rows can be deleted by key before or after a batch is written. -/
theorem filter_upsertAll (hp : OfKey key p) :
    (upsertAll key batch rows).filter p = upsertAll key (batch.filter p) (rows.filter p) := by
  induction batch generalizing rows with
  | nil => rfl
  | cons row batch ih =>
    change (upsertAll key batch (upsert key row rows)).filter p = _
    rw [ih, filter_upsert hp]
    cases h : p row with
    | true => rw [filter_cons_of_pos h]; rfl
    | false => rw [filter_cons_of_neg (by simp [h])]; rfl

end Upsert

section Slots

variable {β : Type} {l : List β}

/-- A vector of slots and, for every key, the slot that holds its row. -/
structure SlotTable (α κ : Type) where
  slots : List (Option α) := []
  indexes : List (κ × Nat) := []

def SlotTable.put (row : α) (table : SlotTable α κ) : SlotTable α κ :=
  match table.indexes.lookup (key row) with
  | some index => { table with slots := table.slots.set index (some row) }
  | none => ⟨table.slots ++ [some row], (key row, table.slots.length) :: table.indexes⟩

def SlotTable.drop (k : κ) (table : SlotTable α κ) : SlotTable α κ :=
  match table.indexes.lookup k with
  | some index => ⟨table.slots.set index none, table.indexes.filter (·.1 ≠ k)⟩
  | none => table

/-- Drop the keys with a property, one after another. -/
def SlotTable.dropWhere (p : κ → Bool) (table : SlotTable α κ) : SlotTable α κ :=
  ((table.indexes.map Prod.fst).filter p).foldl (fun table k => table.drop k) table

def SlotTable.rows (table : SlotTable α κ) : List α := table.slots.reduceOption

/-- The index finds exactly the occupied slots, and no key stands twice. -/
structure SlotTable.Indexed (table : SlotTable α κ) : Prop where
  lookup_iff (k : κ) (index : Nat) : table.indexes.lookup k = some index ↔
    ∃ row, table.slots[index]? = some (some row) ∧ key row = k
  nodup : (table.rows.map key).Nodup

variable {key} {table : SlotTable α κ}

theorem split_at (h : l[i]? = some x) : ∃ pre after, l = pre ++ x :: after ∧ pre.length = i := by
  obtain ⟨hlt, rfl⟩ := List.getElem?_eq_some_iff.mp h
  refine ⟨l.take i, l.drop (i + 1), ?_, length_take_of_le (Nat.le_of_lt hlt)⟩
  rw [getElem_cons_drop, take_append_drop]

theorem reduceOption_split :
    (before ++ some row :: after).reduceOption = before.reduceOption ++ row :: after.reduceOption := by
  rw [reduceOption_append, reduceOption_cons_of_some]

theorem lookup_of_mem_rows (h : table.Indexed key) (hr : row ∈ table.rows) :
    ∃ index, table.indexes.lookup (key row) = some index := by
  obtain ⟨index, hs⟩ := mem_iff_getElem?.mp (reduceOption_mem_iff.mp hr)
  exact ⟨index, (h.lookup_iff _ _).mpr ⟨row, hs, rfl⟩⟩

/-- The slot of a known key, and the rows around it. -/
theorem rows_at (h : table.Indexed key) (hf : table.indexes.lookup k = some index) :
    ∃ pre row after, table.slots = pre ++ some row :: after ∧ pre.length = index ∧ key row = k ∧
      (∀ x ∈ pre.reduceOption, key x ≠ k) ∧ ∀ x ∈ after.reduceOption, key x ≠ k := by
  obtain ⟨row, hslot, rfl⟩ := (h.lookup_iff _ _).mp hf
  obtain ⟨pre, after, hs, hl⟩ := split_at hslot
  have hn := h.nodup
  rw [SlotTable.rows, hs, reduceOption_split, map_append, map_cons, nodup_append', nodup_cons] at hn
  obtain ⟨-, ⟨ha, -⟩, hd⟩ := hn
  refine ⟨pre, row, after, hs, hl, rfl, ?_, ?_⟩
  · intro x ho hk
    exact hd (mem_map.mpr ⟨x, ho, hk⟩) mem_cons_self
  · intro x ho hk
    exact ha (mem_map.mpr ⟨x, ho, hk⟩)

theorem fresh_of_lookup_none (h : table.Indexed key) (hn : table.indexes.lookup k = none) :
    ∀ row ∈ table.rows, key row ≠ k := by
  rintro row hr rfl
  obtain ⟨idx, hf⟩ := lookup_of_mem_rows h hr
  rw [hn] at hf
  cases hf

theorem rows_put (h : table.Indexed key) (row : α) : (table.put key row).rows = upsert key row table.rows := by
  rw [SlotTable.put]
  cases hf : table.indexes.lookup (key row) with
  | none =>
    rw [upsert_of_fresh (fresh_of_lookup_none h hf), SlotTable.rows, reduceOption_append]
    rfl
  | some idx =>
    obtain ⟨pre, old, after, hs, hl, hk, hb, -⟩ := rows_at h hf
    have hset : table.slots.set idx (some row) = pre ++ some row :: after := by
      rw [hs, ← hl, set_append_right _ _ (Nat.le_refl _), Nat.sub_self]
      rfl
    simp only [SlotTable.rows, hset]
    rw [hs, reduceOption_split, reduceOption_split, upsert_at hk hb]

theorem getElem?_set_iff (h : i < l.length) :
    (l.set i x)[j]? = some y ↔ (j = i ∧ x = y) ∨ (j ≠ i ∧ l[j]? = some y) := by
  grind

theorem lookup_filter_ne (es : List (κ × Nat)) (k other : κ) :
    (es.filter (·.1 ≠ k)).lookup other = if other = k then none else es.lookup other := by
  induction es with
  | nil => simp
  | cons e es ih => grind

section

variable (h : table.Indexed key)
include h

theorem SlotTable.Indexed.put (row : α) : (table.put key row).Indexed key where
  nodup := by
    rw [rows_put h]
    exact nodup_upsert h.nodup
  lookup_iff := by
    intro k idx
    rw [SlotTable.put]
    cases hf : table.indexes.lookup (key row) with
    | none =>
      have ho := h.lookup_iff k idx
      grind
    | some found =>
      have hs := (h.lookup_iff _ _).mp hf
      have ho := h.lookup_iff k idx
      grind

theorem rows_drop : (table.drop k).rows = table.rows.filter (key · ≠ k) := by
  rw [SlotTable.drop]
  cases hf : table.indexes.lookup k with
  | none =>
    have hfresh := fresh_of_lookup_none h hf
    exact (filter_eq_self.mpr fun row hrow => decide_eq_true (hfresh row hrow)).symm
  | some idx =>
    obtain ⟨pre, old, after, hs, hl, hkey, hb, ha⟩ := rows_at h hf
    have hset : table.slots.set idx none = pre ++ none :: after := by
      rw [hs, ← hl, set_append_right _ _ (Nat.le_refl _), Nat.sub_self]
      rfl
    have hk : ∀ rows : List α, (∀ x ∈ rows, key x ≠ k) → rows.filter (key · ≠ k) = rows :=
      fun rows hr => filter_eq_self.mpr fun row hrow => decide_eq_true (hr row hrow)
    simp only [SlotTable.rows, hset]
    rw [hs, reduceOption_split, filter_append, filter_cons_of_neg (by simp [hkey]), hk _ hb,
      hk _ ha, reduceOption_append, reduceOption_cons_of_none]

theorem SlotTable.Indexed.drop (k : κ) : (table.drop k).Indexed key where
  nodup := by
    rw [rows_drop h]
    exact (filter_sublist.map key).nodup h.nodup
  lookup_iff := by
    intro x idx
    rw [SlotTable.drop]
    cases hf : table.indexes.lookup k with
    | none => exact h.lookup_iff x idx
    | some found =>
      have hs := (h.lookup_iff _ _).mp hf
      have ho := h.lookup_iff x idx
      have hlt : found < table.slots.length := by
        obtain ⟨row, hr, -⟩ := hs
        exact (List.getElem?_eq_some_iff.mp hr).1
      simp only [getElem?_set_iff hlt, lookup_filter_ne]
      grind

theorem SlotTable.Indexed.dropAll (ks : List κ) :
    (ks.foldl (fun table k => table.drop k) table).Indexed key ∧
      (ks.foldl (fun table k => table.drop k) table).rows = table.rows.filter (key · ∉ ks) := by
  induction ks generalizing table with
  | nil => exact ⟨h, by simp⟩
  | cons k ks ih =>
    obtain ⟨hi, hr⟩ := ih (h.drop k)
    rw [foldl_cons, hr, rows_drop h, filter_filter]
    grind

theorem SlotTable.Indexed.dropWhere (p : κ → Bool) :
    (table.dropWhere p).Indexed key ∧ (table.dropWhere p).rows = table.rows.filter fun row => ! p (key row) := by
  obtain ⟨hi, hr⟩ := h.dropAll ((table.indexes.map Prod.fst).filter p)
  refine ⟨hi, ?_⟩
  rw [SlotTable.dropWhere, hr]
  refine filter_congr fun row hrow => ?_
  -- every row's key is in the index, so only the property decides
  have hk : key row ∈ table.indexes.map Prod.fst := by
    obtain ⟨idx, hf⟩ := lookup_of_mem_rows h hrow
    rw [lookup_eq_some_iff] at hf
    obtain ⟨pre, after, he, -⟩ := hf
    rw [he]
    simp
  simp [mem_filter, hk]

end

end Slots

end KeyedTable
