import Mathlib

/-!
# Paging by key

Rows have a key and are listed in a direction of the keys. A cursor names a key, and the rows beyond it are those that
are still to come. Following the cursor of the last row of each page lists every row once.
-/
namespace KeysetPaging

open List

inductive Direction where
  | asc
  | desc
  deriving DecidableEq, Repr

namespace Direction

variable {direction : Direction}

def opposite : Direction → Direction
  | .asc => .desc
  | .desc => .asc

/-- The first key is listed before the second one. -/
def Before : Direction → Nat → Nat → Prop
  | .asc, first, second => first < second
  | .desc, first, second => second < first

instance (direction : Direction) (first second : Nat) : Decidable (direction.Before first second) :=
  match direction with
  | .asc => inferInstanceAs (Decidable (first < second))
  | .desc => inferInstanceAs (Decidable (second < first))

/-- The first key is listed before the second one, or is the same. -/
def AtMost (direction : Direction) (first second : Nat) : Prop := ¬direction.Before second first

instance (direction : Direction) (first second : Nat) : Decidable (direction.AtMost first second) :=
  inferInstanceAs (Decidable (¬_))

theorem Before.trans (h : direction.Before first second) (h' : direction.Before second third) :
    direction.Before first third := by
  cases direction with
  | asc => exact Nat.lt_trans h h'
  | desc => exact Nat.lt_trans h' h

theorem Before.ne (h : direction.Before first second) : first ≠ second := by
  cases direction with
  | asc => exact Nat.ne_of_lt h
  | desc => exact Nat.ne_of_gt h

theorem before_or_eq_or_before (direction : Direction) (first second : Nat) :
    direction.Before first second ∨ first = second ∨ direction.Before second first := by
  cases direction with
  | asc => exact Nat.lt_trichotomy first second
  | desc => exact (Nat.lt_trichotomy second first).imp_right (·.imp_left Eq.symm)

theorem AtMost.before (h : direction.AtMost first second) (hne : first ≠ second) : direction.Before first second :=
  (direction.before_or_eq_or_before first second).resolve_right fun ho => ho.elim hne h

theorem atMost_iff : direction.AtMost first second ↔ direction.Before first second ∨ first = second := by
  constructor
  · intro h
    by_cases he : first = second
    · exact .inr he
    · exact .inl (h.before he)
  · rintro (h | rfl) hb
    · exact (h.trans hb).ne rfl
    · exact hb.ne rfl

theorem AtMost.trans (h : direction.AtMost first second) (h' : direction.AtMost second third) :
    direction.AtMost first third := by
  cases direction <;> simp only [AtMost, Before, Nat.not_lt] at h h' ⊢ <;> omega

theorem atMost_total (direction : Direction) (first second : Nat) :
    direction.AtMost first second ∨ direction.AtMost second first := by
  cases direction <;> simp only [AtMost, Before, Nat.not_lt] <;> omega

@[simp] theorem opposite_before (direction : Direction) (first second : Nat) :
    direction.opposite.Before first second ↔ direction.Before second first := by
  cases direction <;> exact Iff.rfl

end Direction

/-- Where a page begins: at the key, or right after it. -/
structure Cursor where
  key : Nat
  inclusive : Bool

/-- The key lies beyond the cursor. -/
def Cursor.admits (cursor : Cursor) : Direction → Nat → Bool
  | .asc, key => if cursor.inclusive then cursor.key ≤ key else cursor.key < key
  | .desc, key => if cursor.inclusive then key ≤ cursor.key else key < cursor.key

theorem Cursor.admits_iff {cursor : Cursor} {key : Nat} :
    cursor.admits direction key = true ↔
      direction.Before cursor.key key ∨ cursor.inclusive = true ∧ cursor.key = key := by
  obtain ⟨anc, inclusive⟩ := cursor
  cases direction <;> cases inclusive <;> simp [Cursor.admits, Direction.Before] <;> omega

theorem Cursor.admits_of_before {cursor : Cursor} {key key' : Nat}
    (h : cursor.admits direction key = true) (hb : direction.Before key key') :
    cursor.admits direction key' = true := by
  rcases Cursor.admits_iff.mp h with h | ⟨_, rfl⟩
  · exact Cursor.admits_iff.mpr (.inl (h.trans hb))
  · exact Cursor.admits_iff.mpr (.inl hb)

section Enumerates

variable {α : Type} (key : α → Nat)

/-- The list has exactly the rows with the property, each once, in the order of their keys. -/
structure Enumerates (direction : Direction) (property : α → Prop) (rows : List α) : Prop where
  sorted : rows.Pairwise fun first second => direction.Before (key first) (key second)
  mem (row : α) : row ∈ rows ↔ property row

variable {key} {property : α → Prop} {rows : List α}

section

variable (h : Enumerates key direction property rows)
include h

theorem Enumerates.congr (hi : ∀ row, property row ↔ property' row) : Enumerates key direction property' rows :=
  ⟨h.sorted, fun row => (h.mem row).trans (hi row)⟩

theorem Enumerates.nodup : rows.Nodup := h.sorted.imp fun hb he => hb.ne (congrArg key he)

/-- There is only one such list. -/
theorem Enumerates.unique (h' : Enumerates key direction property rows') : rows = rows' := by
  have hp : rows.Perm rows' :=
    (perm_ext_iff_of_nodup h.nodup h'.nodup).mpr fun row => (h.mem row).trans (h'.mem row).symm
  refine hp.eq_of_pairwise (fun first second _ _ hb ha => ?_) h.sorted h'.sorted
  exact absurd rfl (hb.trans ha).ne

theorem Enumerates.filter (p : α → Bool) :
    Enumerates key direction (fun row => property row ∧ p row = true) (rows.filter p) :=
  ⟨h.sorted.filter p, fun row => by rw [mem_filter, h.mem]⟩

end

/-- Blocks of rows, one after the other. -/
theorem enumerates_flatMap {es : List ε} (block : ε → List α) {part : ε → α → Prop}
    (hb : ∀ e ∈ es, Enumerates key direction (part e) (block e))
    (ho : es.Pairwise fun first second =>
      ∀ row row', part first row → part second row' → direction.Before (key row) (key row')) :
    Enumerates key direction (fun row => ∃ e ∈ es, part e row) (es.flatMap block) := by
  induction es with
  | nil => exact ⟨List.Pairwise.nil, by simp⟩
  | cons e es ih =>
    rw [forall_mem_cons] at hb
    rw [pairwise_cons] at ho
    have hrest := ih hb.2 ho.2
    refine ⟨?_, fun row => ?_⟩
    · rw [flatMap_cons, pairwise_append]
      refine ⟨hb.1.sorted, hrest.sorted, fun row hr row' hr' => ?_⟩
      obtain ⟨later, hl, hp⟩ := (hrest.mem row').mp hr'
      exact ho.1 later hl row row' ((hb.1.mem row).mp hr) hp
    · rw [flatMap_cons, mem_append, hb.1.mem, hrest.mem, exists_mem_cons_iff]

/-- Rows in the order of their keys. -/
def sort (key : α → Nat) (direction : Direction) (listed : List α) : List α :=
  listed.insertionSort fun first second => direction.AtMost (key first) (key second)

/-- Sorting rows with different keys. -/
theorem enumerates_sort (hk : listed.Pairwise fun first second => key first ≠ key second) :
    Enumerates key direction (· ∈ listed) (sort key direction listed) := by
  have : Std.Total fun first second : α => direction.AtMost (key first) (key second) :=
    ⟨fun first second => direction.atMost_total (key first) (key second)⟩
  have : IsTrans α fun first second => direction.AtMost (key first) (key second) :=
    ⟨fun _ _ _ h h' => h.trans h'⟩
  have hp := perm_insertionSort (fun first second => direction.AtMost (key first) (key second)) listed
  have hd := (hp.pairwise_iff fun h => Ne.symm h).mpr hk
  have hs := pairwise_insertionSort (fun first second => direction.AtMost (key first) (key second)) listed
  refine ⟨?_, fun row => hp.mem_iff⟩
  exact (hs.and hd).imp fun h => h.1.before h.2

/-- What comes after the last row of a page. -/
theorem Enumerates.drop (h : Enumerates key direction property rows) (hl : (rows.take size).getLast? = some last) :
    Enumerates key direction (fun row => property row ∧ direction.Before (key last) (key row)) (rows.drop size) := by
  obtain ⟨pre, hf⟩ := getLast?_eq_some_iff.mp hl
  have hs := h.sorted
  rw [← take_append_drop size rows, pairwise_append] at hs
  obtain ⟨hp, hrest, hb⟩ := hs
  refine ⟨hrest, fun row => ⟨fun hr => ?_, fun hr => ?_⟩⟩
  · exact ⟨(h.mem row).mp (mem_of_mem_drop hr), hb last (mem_of_getLast? hl) row hr⟩
  · have hm := (h.mem row).mpr hr.1
    rw [← take_append_drop size rows, mem_append] at hm
    refine hm.resolve_left fun he => ?_
    -- every row of the page comes before its last one
    rw [hf, mem_append] at he
    rw [hf, pairwise_append] at hp
    rcases he with he | he
    · exact (hr.2.trans (hp.2.2 row he last (mem_singleton_self last))).ne rfl
    · rw [mem_singleton.mp he] at hr
      exact hr.2.ne rfl

end Enumerates

variable {α κ ε : Type}

/-- All rows of the pages that are reached by following their cursors; nothing if the fuel runs out. -/
def follow (fetch : Option κ → Except ε (List α × Option κ)) : Nat → Option κ → Except ε (Option (List α))
  | 0, _ => .ok none
  | fuel + 1, cursor =>
    match fetch cursor with
    | .error error => .error error
    | .ok (rows, none) => .ok (some rows)
    | .ok (rows, some next) => (follow fetch fuel (some next)).map fun rest => rest.map (rows ++ ·)

/-- When every page is the beginning of what is left at its cursor, and the next cursor leaves the rest, then
following the cursors lists everything. -/
theorem follow_eq {fetch : Option κ → Except ε (List α × Option κ)} (hs : 0 < size)
    {leaves : Option κ → List α → Prop}
    (hfetch : ∀ cursor rows, leaves cursor rows → ∃ next, fetch cursor = .ok (rows.take size, next) ∧
      (rows.length ≤ size → next = none) ∧
      (size < rows.length → ∃ post, next = some post ∧ leaves (some post) (rows.drop size)))
    {fuel : Nat} {cursor : Option κ} {rows : List α} (h : leaves cursor rows) (hfuel : rows.length < fuel) :
    follow fetch fuel cursor = .ok (some rows) := by
  induction fuel generalizing cursor rows with
  | zero => omega
  | succ fuel ih =>
    obtain ⟨next, hp, hlast, hm⟩ := hfetch cursor rows h
    rw [follow, hp]
    by_cases hl : rows.length ≤ size
    · rw [hlast hl, take_of_length_le hl]
    · obtain ⟨post, rfl, hr⟩ := hm (by omega)
      have hf := ih hr (by rw [length_drop]; omega)
      simp only [hf, Except.map, Option.map_some, take_append_drop]

end KeysetPaging
