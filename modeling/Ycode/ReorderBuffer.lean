import Ycode.SortedMap
import Ycode.BoundedQueue

/-!
# A reorder buffer

Numbered items arrive in any order. Those ahead of the next number wait in a map; when the next one is
there, it is released together with everything that follows it without a gap.
-/
namespace ReorderBuffer

open SortedMap List

section Contents

variable {κ β : Type} [LinearOrder κ]

variable {entries : List (κ × β)}

theorem insert_perm (h : get key entries = none) : (insert key value entries).Perm ((key, value) :: entries) := by
  induction entries with
  | nil => exact List.Perm.refl _
  | cons e entries ih =>
    rw [get_cons] at h
    split at h
    · cases h
    · rw [SortedMap.insert]
      split
      · exact List.Perm.refl _
      · exact ((ih h).cons e).trans (List.Perm.swap ..)

theorem erase_perm (hs : Sorted entries)
    (h : get key entries = some value) : entries.Perm ((key, value) :: erase key entries) := by
  induction entries with
  | nil => cases h
  | cons e entries ih =>
    obtain ⟨hf, hr⟩ := pairwise_cons.mp hs
    rw [get_cons] at h
    by_cases he : e.1 = key
    · rw [if_pos he] at h
      cases h
      have hk : erase key (e :: entries) = entries := by
        have ht : ∀ x ∈ entries, x.1 ≠ key := fun x ho => he ▸ ne_of_gt (hf x ho)
        rw [erase, filter_cons_of_neg (by simp [he])]
        exact filter_eq_self.mpr fun x ho => by simpa using ht x ho
      rw [hk, ← he]
    · rw [if_neg he] at h
      rw [erase, filter_cons_of_pos (by simpa using he)]
      exact ((ih hr h).cons e).trans (List.Perm.swap ..)

theorem length_erase_lt (h : get key entries = some value) : (erase key entries).length < entries.length :=
  length_filter_lt_length_iff_exists.mpr ⟨(key, value), mem_of_get h, by simp⟩

variable (size : β → Nat)

/-- The size of everything that waits. -/
def waiting (entries : List (κ × β)) : Nat := BoundedQueue.total (fun entry => size entry.2) entries

omit [LinearOrder κ] in
theorem waiting_perm (h : a.Perm b) : waiting size a = waiting size b := (h.map _).sum_eq

theorem waiting_insert (h : get key entries = none) :
    waiting size (insert key value entries) = waiting size entries + size value := by
  rw [waiting_perm size (insert_perm h), waiting, BoundedQueue.total_cons, Nat.add_comm]
  rfl

theorem waiting_erase (hs : Sorted entries)
    (h : get key entries = some value) : waiting size entries = waiting size (erase key entries) + size value := by
  rw [waiting_perm size (erase_perm hs h), waiting, BoundedQueue.total_cons, Nat.add_comm]
  rfl

end Contents

variable {α : Type}

variable {pending : List (Nat × α)}

/-- Releases the run of items from the next number on. -/
def drain (next : Nat) (pending : List (Nat × α)) : List α × List (Nat × α) :=
  match _h : get next pending with
  | none => ([], pending)
  | some item =>
    let (released, rest) := drain (next + 1) (erase next pending)
    (item :: released, rest)
termination_by pending.length
decreasing_by exact length_erase_lt _h

theorem drain_none {next : Nat} (h : get next pending = none) : drain next pending = ([], pending) := by
  rw [drain]
  split
  · rfl
  · rename_i hs
    rw [h] at hs
    cases hs

theorem drain_some {next : Nat} (h : get next pending = some item) :
    drain next pending =
      (item :: (drain (next + 1) (erase next pending)).1, (drain (next + 1) (erase next pending)).2) := by
  rw [drain]
  split
  · rename_i hn
    rw [h] at hn
    cases hn
  · rename_i hs
    rw [h] at hs
    cases hs
    rfl

/-- What is released is what waited under the next numbers, up to the first that is missing. -/
structure Drained (next : Nat) (pending : List (Nat × α)) (released : List α) (rest : List (Nat × α)) : Prop where
  sorted : Sorted rest
  stopped : get (next + released.length) rest = none
  waited : ∀ i item, released[i]? = some item → get (next + i) pending = some item
  kept : ∀ key, get key rest = if next ≤ key ∧ key < next + released.length then none else get key pending

theorem drain_drained (next : Nat) (hs : Sorted pending) :
    Drained next pending (drain next pending).1 (drain next pending).2 := by
  induction hn : pending.length using Nat.strong_induction_on generalizing next pending with
  | _ n ih =>
    cases hg : get next pending with
    | none =>
      rw [drain_none hg]
      refine ⟨hs, by simpa using hg, by simp, fun key => ?_⟩
      rw [if_neg]
      simp only [length_nil]
      omega
    | some item =>
      have hstep : Drained (next + 1) (erase next pending) _ _ :=
        ih _ (hn ▸ length_erase_lt hg) (next + 1) (hs.erase next) rfl
      rw [drain_some hg]
      refine ⟨hstep.sorted, ?_, ?_, fun key => ?_⟩
      · rw [length_cons, ← Nat.add_assoc, Nat.add_right_comm]
        exact hstep.stopped
      · intro i waited hi
        cases i with
        | zero =>
          cases hi
          exact hg
        | succ i =>
          have hg' := hstep.waited i waited hi
          rw [get_erase, if_neg (by omega)] at hg'
          rw [← hg', Nat.add_right_comm]
          rfl
      · rw [hstep.kept, get_erase, length_cons]
        by_cases hk : next = key
        · subst hk
          simp
        · rw [if_neg hk]
          refine if_congr ?_ rfl rfl
          omega

theorem waiting_drain (size : α → Nat) (next : Nat) (hs : Sorted pending) :
    waiting size pending = BoundedQueue.total size (drain next pending).1 + waiting size (drain next pending).2 := by
  induction hn : pending.length using Nat.strong_induction_on generalizing next pending with
  | _ n ih =>
    cases hg : get next pending with
    | none =>
      rw [drain_none hg]
      simp
    | some item =>
      have hstep : waiting size (erase next pending) =
          BoundedQueue.total size (drain (next + 1) (erase next pending)).1 +
            waiting size (drain (next + 1) (erase next pending)).2 :=
        ih _ (hn ▸ length_erase_lt hg) (next + 1) (hs.erase next) rfl
      rw [drain_some hg, waiting_erase size hs hg, hstep]
      simp only [BoundedQueue.total_cons]
      omega

/-- When the items that wait are those of a sequence, what is released continues its first part. -/
theorem take_released {items : List α} {released : List α}
    (h : ∀ i item, released[i]? = some item → items[first + i]? = some item) :
    items.take (first + released.length) = items.take first ++ released := by
  induction released generalizing first with
  | nil => simp
  | cons item released ih =>
    have hf : items[first]? = some item := h 0 item rfl
    have hr : items.take (first + 1 + released.length) = items.take (first + 1) ++ released := by
      refine ih fun i item' hi => ?_
      rw [Nat.add_right_comm]
      exact h (i + 1) item' hi
    rw [length_cons, show first + (released.length + 1) = first + 1 + released.length by omega, hr,
      take_add_one, hf, Option.toList_some, append_assoc, singleton_append]

end ReorderBuffer
