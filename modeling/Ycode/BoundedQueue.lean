import Mathlib

/-!
# A queue with a size budget

Elements enter at the back. When the queue is too big or too long, elements leave at the front until it
fits, so that what stays is the newest part of what came in.
-/
namespace BoundedQueue

variable {α : Type} (size : α → Nat)

def total (items : List α) : Nat := (items.map size).sum

@[simp] theorem total_nil : total size [] = 0 := rfl

@[simp] theorem total_cons : total size (item :: items) = size item + total size items := by
  simp [total]

@[simp] theorem total_append : total size (first ++ second) = total size first + total size second := by
  simp [total]

theorem total_le_of_sublist (h : first.Sublist second) : total size first ≤ total size second := by
  induction h with
  | slnil => exact Nat.le_refl _
  | cons item _ ih =>
    rw [total_cons]
    omega
  | cons_cons item _ ih =>
    rw [total_cons, total_cons]
    omega

variable (maxTotal maxLength : Nat)

/-- Drops from the front while the recorded total or the length is over its limit. -/
def evict : List α → Nat → List α × Nat
  | [], recorded => ([], recorded)
  | item :: items, recorded =>
    if maxTotal < recorded ∨ maxLength < (item :: items).length then evict items (recorded - size item)
    else (item :: items, recorded)

/-- What the queue holds, with its recorded total. -/
structure Fits (queue : List α × Nat) : Prop where
  recorded : queue.2 = total size queue.1
  total_le : queue.2 ≤ maxTotal
  length_le : queue.1.length ≤ maxLength

theorem Fits.total_items_le (h : Fits size maxTotal maxLength queue) : total size queue.1 ≤ maxTotal := by
  rw [← h.recorded]
  exact h.total_le

theorem evict_suffix (items : List α) (recorded : Nat) :
    (evict size maxTotal maxLength items recorded).1 <:+ items := by
  induction items generalizing recorded with
  | nil => exact List.suffix_refl _
  | cons item items ih =>
    rw [evict]
    split
    · exact (ih _).trans (List.suffix_cons item items)
    · exact List.suffix_refl _

theorem evict_fits : Fits size maxTotal maxLength (evict size maxTotal maxLength xs (total size xs)) := by
  induction xs with
  | nil => exact ⟨rfl, Nat.zero_le _, Nat.zero_le _⟩
  | cons item xs ih =>
    rw [evict]
    split
    · rw [total_cons, Nat.add_sub_cancel_left]
      exact ih
    · rename_i ho
      obtain ⟨ht, hl⟩ := not_or.mp ho
      exact ⟨rfl, Nat.le_of_not_lt ht, Nat.le_of_not_lt hl⟩

end BoundedQueue
