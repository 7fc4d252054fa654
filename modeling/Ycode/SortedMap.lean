import Mathlib

/-!
# Finite maps as sorted lists

A map with ordered keys is the list of its entries in key order. Two such lists with the same
lookups are equal, so every fact about a map can be proved lookup by lookup.
-/
namespace SortedMap

open List

variable {κ β : Type} [LinearOrder κ]

variable {key : κ} {entries : List (κ × β)}

/-- The keys ascend strictly. -/
def Sorted (entries : List (κ × β)) : Prop := entries.Pairwise fun a b => a.1 < b.1

instance (entries : List (κ × β)) : Decidable (Sorted entries) :=
  inferInstanceAs (Decidable (entries.Pairwise _))

def get (key : κ) : List (κ × β) → Option β
  | [] => none
  | entry :: entries => if entry.1 = key then some entry.2 else get key entries

def insert (key : κ) (value : β) : List (κ × β) → List (κ × β)
  | [] => [(key, value)]
  | entry :: entries =>
    if key < entry.1 then (key, value) :: entry :: entries
    else if entry.1 = key then (key, value) :: entries
    else entry :: insert key value entries

def erase (key : κ) (entries : List (κ × β)) : List (κ × β) := entries.filter (·.1 ≠ key)

@[simp] theorem get_nil (key : κ) : get key ([] : List (κ × β)) = none := rfl

theorem get_cons (key : κ) (e : κ × β) (entries : List (κ × β)) :
    get key (e :: entries) = if e.1 = key then some e.2 else get key entries := rfl

theorem mem_of_get (h : get key entries = some value) : (key, value) ∈ entries := by
  induction entries with
  | nil => cases h
  | cons e entries ih =>
    rw [get_cons] at h
    by_cases he : e.1 = key
    · rw [if_pos he] at h
      cases h
      subst he
      exact mem_cons_self
    · rw [if_neg he] at h
      exact mem_cons_of_mem _ (ih h)

theorem get_eq_none : get key entries = none ↔ ∀ e ∈ entries, e.1 ≠ key := by
  induction entries with
  | nil => simp
  | cons e entries ih =>
    rw [get_cons, forall_mem_cons, ← ih]
    by_cases he : e.1 = key
    · simp [he]
    · simp [he]

theorem get_of_mem (hs : Sorted entries) (h : entry ∈ entries) : get entry.1 entries = some entry.2 := by
  induction entries with
  | nil => cases h
  | cons first entries ih =>
    obtain ⟨hf, hr⟩ := pairwise_cons.mp hs
    rw [get_cons]
    cases mem_cons.mp h with
    | inl he => rw [he, if_pos rfl]
    | inr hm =>
      rw [if_neg (ne_of_lt (hf entry hm))]
      exact ih hr hm

theorem get_insert (key x : κ) (v : β) (entries : List (κ × β)) :
    get x (insert key v entries) = if key = x then some v else get x entries := by
  induction entries with
  | nil => rfl
  | cons e entries ih =>
    rw [insert]
    by_cases hlt : key < e.1
    · rw [if_pos hlt]
      rfl
    · rw [if_neg hlt]
      by_cases he : e.1 = key
      · rw [if_pos he, get_cons, get_cons, he]
        by_cases hk : key = x
        · simp only [if_pos hk]
        · simp only [if_neg hk]
      · rw [if_neg he, get_cons, get_cons, ih]
        by_cases hk : key = x
        · rw [if_pos hk, if_pos hk, if_neg (hk ▸ he)]
        · rw [if_neg hk, if_neg hk]

theorem get_erase : get other (erase key entries) = if key = other then none else get other entries := by
  induction entries with
  | nil => simp [erase]
  | cons e entries ih =>
    have hs : erase key (e :: entries) = if e.1 = key then erase key entries else e :: erase key entries := by
      by_cases he : e.1 = key
      all_goals simp [erase, he]
    rw [hs, get_cons]
    by_cases he : e.1 = key
    · rw [if_pos he, ih, he]
      by_cases hk : key = other
      · rw [if_pos hk, if_pos hk]
      · rw [if_neg hk, if_neg hk, if_neg hk]
    · rw [if_neg he, get_cons, ih]
      by_cases hk : key = other
      · rw [if_pos hk, if_pos hk, if_neg (hk ▸ he)]
      · rw [if_neg hk, if_neg hk]

theorem mem_insert (h : entry ∈ insert key value entries) : entry = (key, value) ∨ entry ∈ entries := by
  induction entries with
  | nil => exact .inl (mem_singleton.mp h)
  | cons first entries ih =>
    rw [insert] at h
    split at h
    · exact mem_cons.mp h
    · split at h
      · exact (mem_cons.mp h).imp_right (mem_cons_of_mem _)
      · cases mem_cons.mp h with
        | inl he => exact .inr (he ▸ mem_cons_self)
        | inr h => exact (ih h).imp_right (mem_cons_of_mem _)

theorem Sorted.insert (h : Sorted entries) (key : κ) (v : β) : Sorted (insert key v entries) := by
  induction entries with
  | nil => exact pairwise_singleton ..
  | cons e entries ih =>
    obtain ⟨hf, hr⟩ := pairwise_cons.mp h
    rw [SortedMap.insert]
    by_cases hlt : key < e.1
    · rw [if_pos hlt]
      refine pairwise_cons.mpr ⟨?_, h⟩
      rw [forall_mem_cons]
      exact ⟨hlt, fun x ho => lt_trans hlt (hf x ho)⟩
    · rw [if_neg hlt]
      by_cases he : e.1 = key
      · rw [if_pos he]
        exact pairwise_cons.mpr ⟨fun x ho => he ▸ hf x ho, hr⟩
      · rw [if_neg he]
        refine pairwise_cons.mpr ⟨?_, ih hr⟩
        intro x ho
        cases mem_insert ho with
        | inl hn => rw [hn]; exact lt_of_le_of_ne (not_lt.mp hlt) he
        | inr hold => exact hf x hold

theorem Sorted.erase (h : Sorted entries) (key : κ) : Sorted (erase key entries) := h.sublist filter_sublist

theorem get_of_sublist (hb : Sorted b) (hs : a.Sublist b) (h : get key a = some value) : get key b = some value :=
  get_of_mem hb (hs.subset (mem_of_get h))

theorem length_insert_of_some (hs : Sorted entries) (h : get key entries = some old) :
    (SortedMap.insert key value entries).length = entries.length := by
  induction entries with
  | nil => cases h
  | cons e entries ih =>
    obtain ⟨hf, hr⟩ := pairwise_cons.mp hs
    rw [SortedMap.insert]
    by_cases hlt : key < e.1
    · -- the keys that follow are larger still
      have hm := mem_of_get h
      rcases mem_cons.mp hm with heq | hl
      · exact absurd (congrArg Prod.fst heq) (ne_of_lt hlt)
      · exact absurd (hf _ hl) (lt_asymm hlt)
    · rw [if_neg hlt]
      by_cases he : e.1 = key
      · rw [if_pos he]
        rfl
      · rw [if_neg he, length_cons, length_cons, ih hr (by rwa [get_cons, if_neg he] at h)]

/-- Sorted lists with the same lookups are the same map. -/
theorem Sorted.ext {a b : List (κ × β)} (ha : Sorted a) (hb : Sorted b) (h : ∀ key, get key a = get key b) :
    a = b := by
  induction a generalizing b with
  | nil =>
    cases b with
    | nil => rfl
    | cons e b =>
      have hf := h e.1
      rw [get_cons, if_pos rfl] at hf
      cases hf
  | cons x a ih =>
    cases b with
    | nil =>
      have hf := h x.1
      rw [get_cons, if_pos rfl] at hf
      cases hf
    | cons y b =>
      obtain ⟨hxa, ha⟩ := pairwise_cons.mp ha
      obtain ⟨hyb, hb⟩ := pairwise_cons.mp hb
      -- the smallest key is the same on both sides
      have hkey : x.1 = y.1 := by
        have hx := h x.1
        have hy := h y.1
        rw [get_cons, get_cons, if_pos rfl] at hx hy
        by_contra hne
        rw [if_neg (Ne.symm hne)] at hx
        rw [if_neg hne] at hy
        have hlt := hyb _ (mem_of_get hx.symm)
        have hg := hxa _ (mem_of_get hy)
        exact lt_asymm hlt hg
      have hv : x.2 = y.2 := by
        have hx := h x.1
        rw [get_cons, get_cons, if_pos rfl, if_pos hkey.symm] at hx
        exact Option.some.inj hx
      have hr : a = b := by
        refine ih ha hb fun key => ?_
        have hk := h key
        rw [get_cons, get_cons, hkey] at hk
        by_cases hf : y.1 = key
        · subst hf
          rw [get_eq_none.mpr fun e he => ne_of_gt (hkey ▸ hxa e he), get_eq_none.mpr fun e he => ne_of_gt (hyb e he)]
        · rwa [if_neg hf, if_neg hf] at hk
      rw [hr, Prod.ext hkey hv]

end SortedMap
