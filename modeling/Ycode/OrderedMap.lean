import Ycode.KeyedTable

/-!
# Maps in insertion order

A map is the list of its entries in the order in which their keys came in, as in a hash map that keeps that order.
Writing a key that is there changes its value where it stands. A map is fixed by the order of its keys and its
lookups, so an operation is described by these two, and laws of operations follow from laws of the values.
-/
namespace OrderedMap

open KeyedTable List

variable {κ β γ : Type}

def keys (entries : List (κ × β)) : List κ := entries.map Prod.fst

@[simp] theorem keys_nil : keys ([] : List (κ × β)) = [] := rfl

@[simp] theorem keys_cons : keys (e :: entries) = e.1 :: keys entries := rfl

variable [DecidableEq κ]

def get (key : κ) : List (κ × β) → Option β
  | [] => none
  | entry :: entries => if entry.1 = key then some entry.2 else get key entries

def insert (key : κ) (value : β) (entries : List (κ × β)) : List (κ × β) := upsert Prod.fst (key, value) entries

@[simp] theorem get_nil (key : κ) : get key ([] : List (κ × β)) = none := rfl

theorem get_cons (key : κ) (e : κ × β) (entries : List (κ × β)) :
    get key (e :: entries) = if e.1 = key then some e.2 else get key entries := rfl

theorem get_eq_none {entries : List (κ × β)} : get key entries = none ↔ key ∉ keys entries := by
  induction entries with
  | nil => simp
  | cons e entries ih =>
    rw [get_cons, keys_cons, mem_cons, not_or, ← ih]
    by_cases h : e.1 = key
    · simp [h]
    · simp [h, Ne.symm h]

theorem get_isSome {entries : List (κ × β)} : (get key entries).isSome = true ↔ key ∈ keys entries := by
  rw [← not_iff_not, ← get_eq_none, Bool.not_eq_true, Option.isSome_eq_false_iff, Option.isNone_iff_eq_none]

theorem mem_of_get {key : κ} {v : β} {entries : List (κ × β)} (h : get key entries = some v) :
    (key, v) ∈ entries := by
  induction entries with
  | nil => cases h
  | cons e entries ih =>
    rw [get_cons] at h
    by_cases he : e.1 = key
    · rw [if_pos he] at h
      cases h
      subst he
      exact mem_cons_self
    · rw [if_neg he] at h
      exact mem_cons_of_mem _ (ih h)

theorem get_of_mem (hn : (keys es).Nodup) {key : κ} {value : β}
    (h : (key, value) ∈ es) : get key es = some value := by
  induction es with
  | nil => cases h
  | cons e es ih =>
    obtain ⟨hf, hr⟩ := nodup_cons.mp hn
    rw [get_cons]
    cases mem_cons.mp h with
    | inl he =>
      subst he
      exact if_pos rfl
    | inr hm =>
      have hne : e.1 ≠ key := fun he => hf (he ▸ mem_map.mpr ⟨_, hm, rfl⟩)
      rw [if_neg hne]
      exact ih hr hm

theorem get_insert (key x : κ) (v : β) (entries : List (κ × β)) :
    get x (insert key v entries) = if key = x then some v else get x entries := by
  induction entries with
  | nil => rfl
  | cons e entries ih =>
    rw [insert, upsert]
    by_cases hk : e.1 = key
    · rw [if_pos hk, get_cons, get_cons, hk]
      split <;> rfl
    · rw [if_neg hk, get_cons, get_cons]
      change (if e.1 = x then some e.2 else get x (insert key v entries)) = _
      rw [ih]
      by_cases ho : e.1 = x
      · rw [if_pos ho, if_pos ho, if_neg fun h => hk (ho.trans h.symm)]
      · rw [if_neg ho, if_neg ho]

theorem keys_insert (key : κ) (v : β) (es : List (κ × β)) :
    keys (insert key v es) = if key ∈ keys es then keys es else keys es ++ [key] :=
  map_key_upsert

theorem nodup_insert (key : κ) (v : β) (h : (keys entries).Nodup) :
    (keys (insert key v entries)).Nodup :=
  nodup_upsert h

/-- Maps with the same order of keys and the same lookups are equal. -/
theorem ext_get {a b : List (κ × β)} (hn : (keys a).Nodup) (hkeys : keys a = keys b)
    (hg : ∀ key, get key a = get key b) : a = b := by
  induction a generalizing b with
  | nil => exact (map_eq_nil_iff.mp hkeys.symm).symm
  | cons e a ih =>
    cases b with
    | nil => cases hkeys
    | cons x b =>
      obtain ⟨hf, hr⟩ := List.cons.inj hkeys
      obtain ⟨hfresh, hn'⟩ := nodup_cons.mp hn
      have hv : e.2 = x.2 := by
        have h := hg e.1
        rw [get_cons, get_cons, if_pos rfl, if_pos hf.symm] at h
        exact Option.some.inj h
      have ht : a = b := by
        refine ih hn' hr fun key => ?_
        have h := hg key
        rw [get_cons, get_cons, ← hf] at h
        by_cases hk : e.1 = key
        · have ha : get key a = none := get_eq_none.mpr (hk ▸ hfresh)
          have hb : get key b = none := get_eq_none.mpr (by rw [keys, ← hr, ← hk]; exact hfresh)
          rw [ha, hb]
        · rwa [if_neg hk, if_neg hk] at h
      rw [ht, Prod.ext hf hv]

/-- Every key is rewritten; of the entries that get one key the last value stays, in the place of the first. -/
def rekey (f : κ → κ) (entries : List (κ × β)) : List (κ × β) :=
  entries.foldl (fun rows entry => insert (f entry.1) entry.2 rows) []

/-- The entries that get a key. -/
def spellings (f : κ → κ) (key : κ) (entries : List (κ × β)) : List (κ × β) :=
  entries.filter fun entry => f entry.1 = key

theorem rekey_concat (f : κ → κ) (es : List (κ × β)) (e : κ × β) :
    rekey f (es ++ [e]) = insert (f e.1) e.2 (rekey f es) := by
  rw [rekey, foldl_append]
  rfl

theorem nodup_rekey (f : κ → κ) (es : List (κ × β)) : (keys (rekey f es)).Nodup := by
  induction es using List.reverseRecOn with
  | nil => exact nodup_nil
  | append_singleton es e ih =>
    rw [rekey_concat]
    exact nodup_insert _ _ ih

theorem get_rekey (f : κ → κ) (es : List (κ × β)) (key : κ) :
    get key (rekey f es) = (spellings f key es).getLast?.map Prod.snd := by
  induction es using List.reverseRecOn with
  | nil => rfl
  | append_singleton es e ih =>
    rw [rekey_concat, get_insert, ih, spellings, spellings, filter_append]
    by_cases h : f e.1 = key
    · rw [if_pos h, filter_cons_of_pos (by simpa using h), filter_nil, getLast?_concat]
      rfl
    · rw [if_neg h, filter_cons_of_neg (by simpa using h), filter_nil, append_nil]

/-- A map whose keys are rewritten to themselves stays as it is. -/
theorem rekey_of_fixed {entries : List (κ × β)} (hn : (keys entries).Nodup)
    (hf : ∀ key ∈ keys entries, f key = key) : rekey f entries = entries := by
  induction entries using List.reverseRecOn with
  | nil => rfl
  | append_singleton entries e ih =>
    rw [keys, map_append, nodup_append'] at hn
    have he : f e.1 = e.1 := hf e.1 (by simp [keys])
    have hfresh : ∀ old ∈ entries, old.1 ≠ e.1 := by
      intro old ho heq
      exact hn.2.2 (mem_map_of_mem ho) (by simp [heq])
    rw [rekey_concat, ih hn.1 fun key hk => hf key (by
      rw [keys, map_append]
      exact mem_append_left _ hk), he]
    exact upsert_of_fresh hfresh

/-- The entries of the second map are written over those of the first. A key that is there already combines the
two values. -/
def overlay (fresh : γ → β) (combine : κ → β → γ → β) (base : List (κ × β)) (top : List (κ × γ)) : List (κ × β) :=
  top.foldl (fun rows entry => insert entry.1
    (match get entry.1 rows with
      | some old => combine entry.1 old entry.2
      | none => fresh entry.2) rows) base

/-- The value of a key in the overlaid map. -/
def combined (fresh : γ → β) (combine : κ → β → γ → β) (key : κ) : Option β → Option γ → Option β
  | old, none => old
  | none, some new => some (fresh new)
  | some old, some new => some (combine key old new)

theorem overlay_cons (base : List (κ × β)) (e : κ × γ) (top : List (κ × γ)) :
    overlay fresh combine base (e :: top) = overlay fresh combine (insert e.1
      (match get e.1 base with
        | some old => combine e.1 old e.2
        | none => fresh e.2) base) top := rfl

theorem get_overlay {top : List (κ × γ)} (hn : (keys top).Nodup) :
    get key (overlay fresh combine base top) = combined fresh combine key (get key base) (get key top) := by
  induction top generalizing base with
  | nil =>
    change get key base = _
    cases get key base <;> rfl
  | cons e top ih =>
    obtain ⟨hf, hr⟩ := nodup_cons.mp hn
    rw [overlay_cons, ih hr, get_insert, get_cons]
    by_cases h : e.1 = key
    · subst h
      rw [if_pos rfl, if_pos rfl, get_eq_none.mpr hf]
      cases get e.1 base <;> rfl
    · rw [if_neg h, if_neg h]

theorem keys_overlay (hn : (keys top).Nodup) (base : List (κ × β)) :
    keys (overlay fresh combine base top) = keys base ++ (keys top).filter (· ∉ keys base) := by
  induction top generalizing base with
  | nil => simp [overlay]
  | cons e top ih =>
    obtain ⟨hf, hr⟩ := nodup_cons.mp hn
    rw [overlay_cons, ih hr, keys_insert, keys_cons]
    by_cases h : e.1 ∈ keys base
    · rw [if_pos h, filter_cons_of_neg (by simpa using h)]
    · rw [if_neg h, filter_cons_of_pos (by simpa using h), append_assoc, singleton_append]
      refine congrArg (fun rest => keys base ++ e.1 :: rest) (filter_congr fun key hk => ?_)
      have hne : key ≠ e.1 := fun he => hf (he ▸ hk)
      simp [hne]

theorem nodup_overlay (hb : (keys base).Nodup) (top : List (κ × γ)) :
    (keys (overlay fresh combine base top)).Nodup := by
  induction top generalizing base with
  | nil => exact hb
  | cons e top ih => exact ih (nodup_insert _ _ hb)

/-- Entries that carry more than their value are overlaid like their values. -/
theorem overlay_map (f : δ → γ) (base : List (κ × β)) (top : List (κ × δ)) :
    overlay fresh combine base (top.map fun e => (e.1, f e.2)) =
      overlay (fun v => fresh (f v)) (fun key old v => combine key old (f v)) base top := by
  rw [overlay, foldl_map]
  rfl

theorem rekey_map (g : δ → γ) (f : κ → κ) (es : List (κ × δ)) :
    rekey f (es.map fun e => (e.1, g e.2)) = (rekey f es).map fun e => (e.1, g e.2) := by
  have hi : ∀ (key : κ) (v : δ) (rows : List (κ × δ)),
      (insert key v rows).map (fun e => (e.1, g e.2)) = insert key (g v) (rows.map fun e => (e.1, g e.2)) := by
    intro key v rows
    induction rows with
    | nil => rfl
    | cons row rows ih =>
      simp only [insert, upsert, map_cons] at ih ⊢
      by_cases h : row.1 = key
      · rw [if_pos h, if_pos h]
        rfl
      · rw [if_neg h, if_neg h, map_cons, ih]
  induction es using List.reverseRecOn with
  | nil => rfl
  | append_singleton es e ih => rw [map_append, map_singleton, rekey_concat, rekey_concat, ih, hi]

/-- Overlaying is associative as far as the values of the common keys are. -/
theorem overlay_assoc {a b c : List (κ × β)} (ha : (keys a).Nodup) (hb : (keys b).Nodup) (hc : (keys c).Nodup)
    (hassoc : ∀ key x y z, get key a = some x → get key b = some y → get key c = some z →
      combine key (combine key x y) z = combine key x (combine key y z)) :
    overlay id combine (overlay id combine a b) c = overlay id combine a (overlay id combine b c) := by
  have hbc : (keys (overlay id combine b c)).Nodup := nodup_overlay hb c
  refine ext_get (nodup_overlay (nodup_overlay ha b) c) ?_ fun key => ?_
  · rw [keys_overlay hc, keys_overlay hb, keys_overlay hbc, keys_overlay hc, filter_append, append_assoc,
      filter_filter]
    refine congrArg (fun rest => keys a ++ (_ ++ rest)) (filter_congr fun key _ => ?_)
    by_cases h : key ∈ keys a <;> simp [h]
  · rw [get_overlay hc, get_overlay hb, get_overlay hbc, get_overlay hc]
    cases hx : get key a with
    | none => cases get key b <;> cases get key c <;> rfl
    | some x =>
      cases hy : get key b with
      | none => cases get key c <;> rfl
      | some y =>
        cases hz : get key c with
        | none => rfl
        | some z => exact congrArg some (hassoc key x y z hx hy hz)

theorem overlay_self {a : List (κ × β)} (ha : (keys a).Nodup)
    (hs : ∀ key x, get key a = some x → combine key x x = x) : overlay id combine a a = a := by
  refine ext_get (nodup_overlay ha a) ?_ fun key => ?_
  · rw [keys_overlay ha]
    simp
  · rw [get_overlay ha]
    cases hx : get key a with
    | none => rfl
    | some x => exact congrArg some (hs key x hx)

end OrderedMap
