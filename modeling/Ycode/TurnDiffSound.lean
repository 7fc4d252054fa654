import Ycode.TurnDiff

/-!
# The net diff of a turn

A sequence of exact deltas describes how a file map evolves. The tracker's two
maps together with the file map before the turn determine the file map now, path
by path: that invariant is restored by every change. The pairs that are compared
then cover every tracked path once, and carry the files before the turn to the
files now.
-/
namespace TurnDiffSound

open RustStr TurnDiff List
open ApplyHunks (AppliedPatchChange AppliedPatchDelta)

/-- The text files of all environments. -/
abbrev Files (U : Type) := TrackedPath U → Option Str

/-! ## Evolution -/

variable {U : Type} [DecidableEq U]

/-- A change that tells what happened to the files. -/
inductive ChangeStep (environmentId : Str) (F : Files U) : AppliedPatchChange U → Files U → Prop
  | add (path : U) (content : Str) :
      ChangeStep environmentId F ⟨path, .add content (F ⟨environmentId, path⟩)⟩
        (Function.update F ⟨environmentId, path⟩ (some content))
  | delete (path : U) (content : Str) (h : F ⟨environmentId, path⟩ = some content) :
      ChangeStep environmentId F ⟨path, .delete content⟩ (Function.update F ⟨environmentId, path⟩ none)
  | rewrite (path : U) (old new : Str) (h : F ⟨environmentId, path⟩ = some old) :
      ChangeStep environmentId F ⟨path, .update none old none new⟩
        (Function.update F ⟨environmentId, path⟩ (some new))
  | move (path dest : U) (old new : Str) (h : F ⟨environmentId, path⟩ = some old) (hne : dest ≠ path) :
      ChangeStep environmentId F ⟨path, .update (some dest) old (F ⟨environmentId, dest⟩) new⟩
        (Function.update (Function.update F ⟨environmentId, dest⟩ (some new)) ⟨environmentId, path⟩ none)

inductive ChangeSteps (environmentId : Str) : Files U → List (AppliedPatchChange U) → Files U → Prop
  | nil (F : Files U) : ChangeSteps environmentId F [] F
  | cons {F G H : Files U} {change : AppliedPatchChange U} {rest : List (AppliedPatchChange U)}
      (hstep : ChangeStep environmentId F change G) (hrest : ChangeSteps environmentId G rest H) :
      ChangeSteps environmentId F (change :: rest) H

/-- One call of `track_delta`. -/
structure Call (U : Type) where
  iteration : Iteration U
  environmentId : Str
  delta : AppliedPatchDelta U

/-- Exact deltas, one after the other. -/
inductive Evolution : Files U → List (Call U) → Files U → Prop
  | nil (F : Files U) : Evolution F [] F
  | cons {F G H : Files U} {call : Call U} {rest : List (Call U)} (hexact : call.delta.exact = true)
      (hsteps : ChangeSteps call.environmentId F call.delta.changes G) (hrest : Evolution G rest H) :
      Evolution F (call :: rest) H

def track (R : DiffRenderer U) (t : TurnDiffTracker U) (call : Call U) : TurnDiffTracker U :=
  trackDelta R call.iteration t call.environmentId call.delta

/-! ## The invariant of a path -/

section Invariant

variable {p : TrackedPath U} {t : TurnDiffTracker U} {F₀ F F' : Files U}

def contentOf (m : HashMap (TrackedPath U) TrackedContent) (p : TrackedPath U) : Option Str :=
  (m.lookup p).map (·.content)

/-- What the baseline and the current content of a path say about the content before the turn and
the content now. -/
def PathInv : Option Str → Option Str → Option Str → Option Str → Prop
  | some b, some c, before, now => before = some b ∧ now = some c
  | some b, none, before, now => before = some b ∧ now = none
  | none, some c, before, now => before = none ∧ now = some c
  | none, none, before, now => before = now

def Inv (t : TurnDiffTracker U) (F₀ F : Files U) : Prop :=
  ∀ p, PathInv (contentOf t.baselineByPath p) (contentOf t.currentByPath p) (F₀ p) (F p)

theorem contentOf_eq_none : contentOf m p = none ↔ p ∉ m := by
  rw [contentOf, Option.map_eq_none_iff, AList.lookup_eq_none]

@[simp] theorem contentOf_insert : contentOf (m.insert p c) = Function.update (contentOf m) p (some c.content) := by
  funext q
  by_cases hq : q = p
  · subst hq
    simp [contentOf]
  · simp [contentOf, hq, AList.lookup_insert_ne hq]

@[simp] theorem contentOf_erase : contentOf (m.erase p) = Function.update (contentOf m) p none := by
  funext q
  by_cases hq : q = p
  · subst hq
    simp [contentOf]
  · simp [contentOf, hq, AList.lookup_erase_ne hq]

theorem pathInv_self : PathInv b c b c := by
  cases b <;> cases c <;> first | rfl | exact ⟨rfl, rfl⟩

@[simp] theorem noteBaseline_current (t : TurnDiffTracker U) (p : TrackedPath U) (txt : Option Str) :
    (noteBaseline t p txt).currentByPath = t.currentByPath := by
  unfold noteBaseline
  split
  · cases txt <;> rfl
  · rfl

theorem noteBaseline_of_ne (t : TurnDiffTracker U) (txt : Option Str) (h : q ≠ p) :
    contentOf (noteBaseline t p txt).baselineByPath q = contentOf t.baselineByPath q := by
  unfold noteBaseline
  split
  · cases txt with
    | none => rfl
    | some c => simp [insertBaseline, h]
  · rfl

/-- Once the present content has been noted, the baseline is the content before the turn. -/
theorem noteBaseline_self (h : PathInv (contentOf t.baselineByPath p) (contentOf t.currentByPath p) before now) :
    contentOf (noteBaseline t p now).baselineByPath p = before := by
  unfold noteBaseline
  split
  · rename_i hu
    rw [contentOf_eq_none.mpr hu.1, contentOf_eq_none.mpr hu.2] at h
    cases now with
    | none => exact (contentOf_eq_none.mpr hu.2).trans h.symm
    | some c => simpa [insertBaseline] using h.symm
  · rename_i ht
    cases hb : contentOf t.baselineByPath p with
    | some b =>
      rw [hb] at h
      cases hc : contentOf t.currentByPath p <;> rw [hc] at h <;> exact h.1.symm
    | none =>
      cases hc : contentOf t.currentByPath p with
      | some c =>
        rw [hb, hc] at h
        exact h.1.symm
      | none => exact absurd ⟨contentOf_eq_none.mp hc, contentOf_eq_none.mp hb⟩ ht

section

variable (h : Inv t F₀ F)
include h

/-- The invariant survives when the touched paths are described by the maps themselves. -/
theorem Inv.of_touched (ht : ∀ q, (contentOf t'.baselineByPath q = contentOf t.baselineByPath q ∧
        contentOf t'.currentByPath q = contentOf t.currentByPath q ∧ F' q = F q) ∨
      (contentOf t'.baselineByPath q = F₀ q ∧ contentOf t'.currentByPath q = F' q)) : Inv t' F₀ F' := by
  intro q
  cases ht q with
  | inl hs =>
    rw [hs.1, hs.2.1, hs.2.2]
    exact h q
  | inr hself =>
    rw [hself.1, hself.2]
    exact pathInv_self

theorem applyAdd_inv (p : TrackedPath U)
    (txt : Str) : Inv (applyAdd t p txt (F p)) F₀ (Function.update F p (some txt)) := by
  have h' : Inv (removeOrigin t p) F₀ F := h
  refine h'.of_touched ?_
  intro q
  by_cases hq : q = p
  · subst hq
    exact .inr ⟨noteBaseline_self (h' q), by simp [applyAdd, insertCurrent]⟩
  · exact .inl ⟨noteBaseline_of_ne _ _ hq, by simp [applyAdd, insertCurrent, hq], by simp [hq]⟩

omit h in
/-- A deletion notes the content and removes the path from the current ones. -/
theorem applyDelete_maps (t : TurnDiffTracker U) (p : TrackedPath U) (txt : Str) :
    (applyDelete t p txt).baselineByPath = (noteBaseline t p (some txt)).baselineByPath ∧
      (applyDelete t p txt).currentByPath = t.currentByPath.erase p := by
  by_cases hu : p ∉ t.currentByPath ∧ p ∉ t.baselineByPath
  · simp [applyDelete, noteBaseline, removeCurrent, removeOrigin, insertBaseline, hu]
  · simp [applyDelete, noteBaseline, removeCurrent, removeOrigin, hu]

theorem applyDelete_inv (hF : F p = some content) : Inv (applyDelete t p content) F₀ (Function.update F p none) := by
  obtain ⟨hb, hc⟩ := applyDelete_maps t p content
  refine h.of_touched ?_
  intro q
  rw [hb, hc]
  by_cases hq : q = p
  · subst hq
    rw [← hF]
    exact .inr ⟨noteBaseline_self (h q), by simp⟩
  · exact .inl ⟨noteBaseline_of_ne _ _ hq, by simp [hq], by simp [hq]⟩

theorem applyRewrite_inv (hF : F p = some old) (overwritten : Option Str) :
    Inv (applyUpdate t p none old overwritten new) F₀ (Function.update F p (some new)) := by
  refine h.of_touched ?_
  intro q
  by_cases hq : q = p
  · subst hq
    have hn := noteBaseline_self (h q)
    rw [hF] at hn
    exact .inr ⟨hn, by simp [applyUpdate, insertCurrent]⟩
  · exact .inl ⟨noteBaseline_of_ne _ _ hq, by simp [applyUpdate, insertCurrent, hq], by simp [hq]⟩

omit h in
theorem applyMove_maps (t : TurnDiffTracker U) (p dest : TrackedPath U) (old new : Str) (overwritten : Option Str) :
    (applyUpdate t p (some dest) old overwritten new).baselineByPath =
        (noteBaseline (noteBaseline t p (some old)) dest overwritten).baselineByPath ∧
      contentOf (applyUpdate t p (some dest) old overwritten new).currentByPath =
        Function.update (Function.update (contentOf t.currentByPath) p none) dest (some new) := by
  simp only [applyUpdate]
  split <;> simp [insertOrigin, removeOrigin, insertCurrent, removeCurrent]

theorem applyMove_inv (hF : F p = some old) (hne : dest ≠ p) :
    Inv (applyUpdate t p (some dest) old (F dest) new) F₀
      (Function.update (Function.update F dest (some new)) p none) := by
  obtain ⟨hb, hc⟩ := applyMove_maps t p dest old new (F dest)
  refine h.of_touched ?_
  intro q
  rw [hb, hc]
  by_cases hqd : q = dest
  · subst hqd
    have hq := h q
    rw [← noteBaseline_of_ne t (some old) hne, ← noteBaseline_current t p (some old)] at hq
    exact .inr ⟨noteBaseline_self hq, by simp [hne]⟩
  · rw [noteBaseline_of_ne _ _ hqd]
    by_cases hqp : q = p
    · subst hqp
      have hn := noteBaseline_self (h q)
      rw [hF] at hn
      exact .inr ⟨hn, by simp [hqd]⟩
    · exact .inl ⟨noteBaseline_of_ne _ _ hqp, by simp [hqd, hqp], by simp [hqd, hqp]⟩

/-- Every change restores the invariant. -/
theorem applyChange_inv (hs : ChangeStep environmentId F change F') :
    Inv (applyChange environmentId t change) F₀ F' := by
  cases hs with
  | add path txt => exact applyAdd_inv h _ txt
  | delete path txt hF => exact applyDelete_inv h hF
  | rewrite path old new hF => exact applyRewrite_inv h hF none
  | move path dest old new hF hne => exact applyMove_inv h hF fun he => hne (TrackedPath.mk.inj he).2

theorem applyChanges_inv (hs : ChangeSteps environmentId F changes F') :
    Inv (changes.foldl (applyChange environmentId) t) F₀ F' := by
  induction hs generalizing t with
  | nil F => exact h
  | cons hstep _ ih => exact ih (applyChange_inv h hstep)

end

end Invariant

/-! ## The pairs cover every tracked path once -/

section Cover

variable {p q : TrackedPath U} {t : TurnDiffTracker U}

/-- The paths of the pairs: both paths of a rename, and one path otherwise. -/
def sides (pairs : List (TrackedPath U × TrackedPath U)) : List (TrackedPath U) :=
  pairs.flatMap fun pair => if pair.1 = pair.2 then [pair.1] else [pair.1, pair.2]

/-- A partial injection whose origins are not destinations. -/
structure Renaming (renames : HashMap (TrackedPath U) (TrackedPath U)) (destinations : List (TrackedPath U)) :
    Prop where
  mem_destinations : ∀ d, d ∈ destinations ↔ ∃ o, renames.lookup o = some d
  injective : ∀ o o' d, renames.lookup o = some d → renames.lookup o' = some d → o = o'
  apart : ∀ o d, renames.lookup o = some d → o ∉ destinations

variable {renames : HashMap (TrackedPath U) (TrackedPath U)} {destinations : List (TrackedPath U)}

/-- A path is covered by the pair that starts at `q`: itself, or its origin if it is a destination. -/
def StartsAt (renames : HashMap (TrackedPath U) (TrackedPath U)) (destinations : List (TrackedPath U))
    (p q : TrackedPath U) : Prop :=
  (p ∉ destinations ∧ q = p) ∨ renames.lookup q = some p

section

variable (h : Renaming renames destinations) (hq : StartsAt renames destinations p q)
include h hq

theorem StartsAt.not_destination : q ∉ destinations := by
  cases hq with
  | inl hs => exact hs.2 ▸ hs.1
  | inr hr => exact h.apart q p hr

/-- Two starts of one path agree. -/
theorem StartsAt.unique (hq' : StartsAt renames destinations p q') : q = q' := by
  cases hq with
  | inl hs =>
    cases hq' with
    | inl hs' => exact hs.2.trans hs'.2.symm
    | inr hr' => exact absurd ((h.mem_destinations p).mpr ⟨q', hr'⟩) hs.1
  | inr hr =>
    cases hq' with
    | inl hs' => exact absurd ((h.mem_destinations p).mpr ⟨q, hr⟩) hs'.1
    | inr hr' => exact h.injective q q' p hr hr'

/-- The pair that starts at a path covers the path once when it is the start, and not otherwise. -/
theorem count_pair (hpath : path ∉ destinations) :
    (sides [(path, (renames.lookup path).getD path)]).count p = if q = path then 1 else 0 := by
  cases hr : renames.lookup path with
  | none =>
    have hs : p = path ↔ q = path := by
      constructor
      · intro hp
        subst hp
        exact hq.unique h (Or.inl ⟨hpath, rfl⟩)
      · intro hqp
        subst hqp
        cases hq with
        | inl hself => exact hself.2.symm
        | inr hrename => rw [hr] at hrename; cases hrename
    by_cases hp : p = path
    · simp [sides, hp, hs.mp hp]
    · simp [sides, Ne.symm hp, mt hs.mpr hp]
  | some dest =>
    have hne : path ≠ dest := fun he => h.apart path dest hr ((h.mem_destinations path).mpr ⟨path, he ▸ hr⟩)
    by_cases hqp : q = path
    · subst hqp
      cases hq with
      | inl hself =>
        obtain ⟨-, rfl⟩ := hself
        simp [sides, hne]
      | inr hrename =>
        rw [hr] at hrename
        cases hrename
        simp [sides, hne]
    · have hp₁ : p ≠ path := by
        intro hp
        subst hp
        exact hqp (hq.unique h (Or.inl ⟨hpath, rfl⟩))
      have hp₂ : p ≠ dest := by
        intro hp
        subst hp
        exact hqp (hq.unique h (Or.inr hr))
      simp [sides, hne, hqp, Ne.symm hp₁, Ne.symm hp₂]

omit h hq in
theorem sides_cons (pair : TrackedPath U × TrackedPath U) (rest : List (TrackedPath U × TrackedPath U)) :
    sides (pair :: rest) = sides [pair] ++ sides rest := by
  simp [sides]

/-- The loop covers a path once if the pair that covers it starts at one of the paths that are left. -/
theorem count_sides_pairLoop (handled paths : List (TrackedPath U)) :
    (sides (pairLoop renames destinations handled paths)).count p = if q ∈ paths ∧ q ∉ handled then 1 else 0 := by
  have hqd := hq.not_destination h
  induction paths generalizing handled with
  | nil => simp [pairLoop, sides]
  | cons path rest ih =>
    rw [pairLoop]
    by_cases hh : path ∈ handled
    · rw [if_pos hh, ih handled]
      by_cases hqp : q = path
      · subst hqp
        simp [hh]
      · simp [hqp]
    · rw [if_neg hh]
      by_cases hd : path ∈ destinations
      · have hqp : q ≠ path := fun he => hqd (he ▸ hd)
        rw [if_pos hd, ih (path :: handled)]
        simp [hqp]
      · rw [if_neg hd]
        have hc := count_pair h hq hd
        cases hr : renames.lookup path with
        | none =>
          rw [hr] at hc
          rw [sides_cons, count_append, ih (path :: handled)]
          simp only [Option.getD_none] at hc
          rw [hc]
          by_cases hqp : q = path
          · subst hqp
            simp [hh]
          · simp [hqp]
        | some dest =>
          have hqdest : q ≠ dest := fun he => hqd (he ▸ (h.mem_destinations dest).mpr ⟨path, hr⟩)
          rw [hr] at hc
          simp only [Option.getD_some] at hc
          rw [sides_cons, count_append, ih (dest :: path :: handled), hc]
          by_cases hqp : q = path
          · subst hqp
            simp [hh]
          · simp [hqp, hqdest]

end

theorem mem_dedupVec [DecidableEq α] : ∀ {l : List α}, a ∈ dedupVec l ↔ a ∈ l
  | [] => Iff.rfl
  | [b] => Iff.rfl
  | b :: c :: rest => by
    rw [dedupVec]
    by_cases hb : b = c
    · subst hb
      rw [if_pos rfl, mem_dedupVec]
      simp
    · rw [if_neg hb, mem_cons, mem_dedupVec, ← mem_cons]

theorem mem_refreshPaths : p ∈ refreshPaths R it t ↔ p ∈ t.baselineByPath ∨ p ∈ t.currentByPath := by
  rw [refreshPaths, mem_dedupVec, mem_insertionSort, mem_append, (it.baseline_perm _).mem_iff,
    (it.current_perm _).mem_iff, AList.mem_keys, AList.mem_keys]

theorem lookup_collect_foldl {es : List (TrackedPath U × TrackedPath U)}
    {m : HashMap (TrackedPath U) (TrackedPath U)} {o d : TrackedPath U}
    (h : (es.foldl (fun map e => map.insert e.1 e.2) m).lookup o = some d) :
    (o, d) ∈ es ∨ m.lookup o = some d := by
  induction es generalizing m with
  | nil => exact .inr h
  | cons e rest ih =>
    cases ih h with
    | inl hr => exact .inl (mem_cons_of_mem _ hr)
    | inr hm =>
      by_cases ho : o = e.1
      · subst ho
        rw [AList.lookup_insert] at hm
        cases hm
        exact .inl mem_cons_self
      · rw [AList.lookup_insert_ne ho] at hm
        exact .inr hm

/-- What makes a rename pair: the origin has only a baseline, the destination only a current
content. -/
theorem renamePairs_some {o d : TrackedPath U} (h : (renamePairs it t).lookup o = some d) :
    t.originByCurrentPath.lookup d = some o ∧ o ∉ t.currentByPath ∧ d ∈ t.currentByPath ∧
      o ∈ t.baselineByPath ∧ d ∉ t.baselineByPath := by
  cases lookup_collect_foldl h with
  | inr hempty => simp at hempty
  | inl hm =>
    obtain ⟨en, hentry, hs⟩ := mem_filterMap.mp hm
    rw [(it.origins_perm _).mem_iff] at hentry
    obtain ⟨e, he, rfl⟩ := mem_map.mp hentry
    simp only at hs
    split at hs
    · cases hs
    · rename_i hc
      cases hs
      simp only [not_or, not_not] at hc
      exact ⟨AList.mem_lookup_iff.mpr he, hc.2.1, hc.2.2.1, hc.2.2.2.1, hc.2.2.2.2⟩

theorem renamePairs_renaming (it : Iteration U) (t : TurnDiffTracker U) :
    Renaming (renamePairs it t) ((renamePairs it t).entries.map fun e => e.2) := by
  have hm : ∀ d, d ∈ (renamePairs it t).entries.map (fun e => e.2) ↔ ∃ o, (renamePairs it t).lookup o = some d := by
    intro d
    constructor
    · intro hd
      obtain ⟨e, he, rfl⟩ := mem_map.mp hd
      exact ⟨e.1, AList.mem_lookup_iff.mpr he⟩
    · rintro ⟨o, ho⟩
      exact mem_map.mpr ⟨⟨o, d⟩, AList.mem_lookup_iff.mp ho, rfl⟩
  refine ⟨hm, ?_, ?_⟩
  · intro o o' d ho ho'
    have h := (renamePairs_some ho).1.symm.trans (renamePairs_some ho').1
    exact Option.some.inj h
  · intro o d ho hdest
    obtain ⟨o', ho'⟩ := (hm o).mp hdest
    exact (renamePairs_some ho).2.1 (renamePairs_some ho').2.2.1

/-- Exactly the tracked paths are covered, each of them once. -/
theorem count_sides (R : DiffRenderer U) (it : Iteration U) (t : TurnDiffTracker U) (p : TrackedPath U) :
    (sides (refreshPairs R it t)).count p = if p ∈ t.baselineByPath ∨ p ∈ t.currentByPath then 1 else 0 := by
  have hr := renamePairs_renaming it t
  by_cases hd : p ∈ (renamePairs it t).entries.map fun e => e.2
  · obtain ⟨o, ho⟩ := (hr.mem_destinations p).mp hd
    obtain ⟨-, -, hc, hb, -⟩ := renamePairs_some ho
    rw [refreshPairs, count_sides_pairLoop hr (Or.inr ho)]
    simp [mem_refreshPaths, hc, hb]
  · rw [refreshPairs, count_sides_pairLoop hr (Or.inl ⟨hd, rfl⟩)]
    simp [mem_refreshPaths]

theorem mem_pairLoop (h : pair ∈ pairLoop renames destinations handled paths) :
    pair.1 ∈ paths ∧ pair.2 = (renames.lookup pair.1).getD pair.1 := by
  induction paths generalizing handled with
  | nil => cases h
  | cons path rest ih =>
    rw [pairLoop] at h
    split at h
    · exact ⟨mem_cons_of_mem _ (ih h).1, (ih h).2⟩
    · split at h
      · exact ⟨mem_cons_of_mem _ (ih h).1, (ih h).2⟩
      · split at h
        · rename_i dest hr
          cases mem_cons.mp h with
          | inl he =>
            subst he
            exact ⟨mem_cons_self, by rw [hr]; rfl⟩
          | inr hrest => exact ⟨mem_cons_of_mem _ (ih hrest).1, (ih hrest).2⟩
        · rename_i hr
          cases mem_cons.mp h with
          | inl he =>
            subst he
            exact ⟨mem_cons_self, by rw [hr]; rfl⟩
          | inr hrest => exact ⟨mem_cons_of_mem _ (ih hrest).1, (ih hrest).2⟩

/-- A compared pair is a tracked path with itself, or a rename. -/
theorem refreshPairs_cases (h : (left, right) ∈ refreshPairs R it t) :
    (right = left ∧ (left ∈ t.baselineByPath ∨ left ∈ t.currentByPath)) ∨
      (left ≠ right ∧ left ∈ t.baselineByPath ∧ left ∉ t.currentByPath ∧ right ∉ t.baselineByPath ∧
        right ∈ t.currentByPath) := by
  obtain ⟨hm, hright⟩ := mem_pairLoop h
  cases hr : (renamePairs it t).lookup left with
  | none =>
    rw [hr] at hright
    exact .inl ⟨hright, mem_refreshPaths.mp hm⟩
  | some dest =>
    rw [hr] at hright
    obtain rfl : right = dest := hright
    obtain ⟨-, hl, hrc, hlb, hrb⟩ := renamePairs_some hr
    exact .inr ⟨fun he => hl (he ▸ hrc), hlb, hl, hrb, hrc⟩

end Cover

/-! ## The pairs carry the old files to the new ones -/

/-- The paths of the pairs with their contents before the turn. A rename says that its destination
did not exist. -/
def oldSides (t : TurnDiffTracker U) (pairs : List (TrackedPath U × TrackedPath U)) :
    List (TrackedPath U × Option Str) :=
  pairs.flatMap fun pair =>
    if pair.1 = pair.2 then [(pair.1, contentOf t.baselineByPath pair.1)]
    else [(pair.1, contentOf t.baselineByPath pair.1), (pair.2, none)]

/-- The paths of the pairs with their contents now. A rename says that its origin is gone. -/
def newSides (t : TurnDiffTracker U) (pairs : List (TrackedPath U × TrackedPath U)) :
    List (TrackedPath U × Option Str) :=
  pairs.flatMap fun pair =>
    if pair.1 = pair.2 then [(pair.2, contentOf t.currentByPath pair.2)]
    else [(pair.1, none), (pair.2, contentOf t.currentByPath pair.2)]

/-- Each pair removes its old path and writes its new one. -/
def applyPairs (t : TurnDiffTracker U) (F : Files U) (pairs : List (TrackedPath U × TrackedPath U)) :
    Files U :=
  pairs.foldl (fun G pair =>
    Function.update (Function.update G pair.1 none) pair.2 (contentOf t.currentByPath pair.2)) F

theorem map_fst_oldSides (t : TurnDiffTracker U) (pairs : List (TrackedPath U × TrackedPath U)) :
    (oldSides t pairs).map Prod.fst = sides pairs := by
  rw [oldSides, sides, map_flatMap]
  congr 1
  funext pair
  split <;> rfl

theorem map_fst_newSides (t : TurnDiffTracker U) (pairs : List (TrackedPath U × TrackedPath U)) :
    (newSides t pairs).map Prod.fst = sides pairs := by
  rw [newSides, sides, map_flatMap]
  congr 1
  funext pair
  split
  · rename_i he
    simp [he]
  · rfl

variable {F₀ F : Files U}

/-- For a tracked path the two maps are right about the two contents. -/
theorem Inv.tracked (h : Inv t F₀ F) (hp : p ∈ t.baselineByPath ∨ p ∈ t.currentByPath) :
    contentOf t.baselineByPath p = F₀ p ∧ contentOf t.currentByPath p = F p := by
  have hi := h p
  cases hb : contentOf t.baselineByPath p with
  | some b =>
    rw [hb] at hi
    cases hc : contentOf t.currentByPath p with
    | _ =>
      rw [hc] at hi
      exact ⟨hi.1.symm, hi.2.symm⟩
  | none =>
    cases hc : contentOf t.currentByPath p with
    | some c =>
      rw [hb, hc] at hi
      exact ⟨hi.1.symm, hi.2.symm⟩
    | none => exact absurd hp (not_or.mpr ⟨contentOf_eq_none.mp hb, contentOf_eq_none.mp hc⟩)

theorem Inv.untracked (h : Inv t F₀ F) (hp : ¬ (p ∈ t.baselineByPath ∨ p ∈ t.currentByPath)) : F₀ p = F p := by
  have hi := h p
  rw [contentOf_eq_none.mpr (not_or.mp hp).1, contentOf_eq_none.mpr (not_or.mp hp).2] at hi
  exact hi

theorem oldSides_sound (h : Inv t F₀ F) (hside : side ∈ oldSides t (refreshPairs R it t)) : side.2 = F₀ side.1 := by
  obtain ⟨⟨left, right⟩, hp, hm⟩ := mem_flatMap.mp hside
  cases refreshPairs_cases hp with
  | inl hs =>
    obtain ⟨rfl, ht⟩ := hs
    simp only [if_true, mem_singleton] at hm
    subst hm
    exact (h.tracked ht).1
  | inr hr =>
    obtain ⟨hne, hl, -, hrb, hrc⟩ := hr
    simp only [if_neg hne, mem_cons, not_mem_nil, or_false] at hm
    cases hm with
    | inl he =>
      subst he
      exact (h.tracked (Or.inl hl)).1
    | inr he =>
      subst he
      exact (contentOf_eq_none.mpr hrb).symm.trans (h.tracked (Or.inr hrc)).1

theorem newSides_sound (h : Inv t F₀ F) (hside : side ∈ newSides t (refreshPairs R it t)) : side.2 = F side.1 := by
  obtain ⟨⟨left, right⟩, hp, hm⟩ := mem_flatMap.mp hside
  cases refreshPairs_cases hp with
  | inl hs =>
    obtain ⟨rfl, ht⟩ := hs
    simp only [if_true, mem_singleton] at hm
    subst hm
    exact (h.tracked ht).2
  | inr hr =>
    obtain ⟨hne, hl, hlc, -, hrc⟩ := hr
    simp only [if_neg hne, mem_cons, not_mem_nil, or_false] at hm
    cases hm with
    | inl he =>
      subst he
      exact (contentOf_eq_none.mpr hlc).symm.trans (h.tracked (Or.inl hl)).2
    | inr he =>
      subst he
      exact (h.tracked (Or.inr hrc)).2

theorem applyPairs_of_not_mem (hp : p ∉ sides pairs) (G : Files U) : applyPairs t G pairs p = G p := by
  induction pairs generalizing G with
  | nil => rfl
  | cons pair rest ih =>
    rw [sides_cons, mem_append, not_or] at hp
    have hs := ih hp.2 (Function.update (Function.update G pair.1 none) pair.2
      (contentOf t.currentByPath pair.2))
    have h₁ : p ≠ pair.1 := by
      intro he
      refine hp.1 ?_
      by_cases hpair : pair.1 = pair.2 <;> simp [sides, he, hpair]
    have h₂ : p ≠ pair.2 := by
      intro he
      refine hp.1 ?_
      by_cases hpair : pair.1 = pair.2 <;> simp [sides, he, hpair]
    simpa [applyPairs, h₁, h₂] using hs

/-- Where the new sides are right, the pairs leave the right contents. -/
theorem applyPairs_of_mem
    (hn : ∀ side ∈ newSides t pairs, side.2 = F side.1) (hp : p ∈ sides pairs) (G : Files U) :
    applyPairs t G pairs p = F p := by
  induction pairs generalizing G with
  | nil => cases hp
  | cons pair rest ih =>
    have hr : ∀ side ∈ newSides t rest, side.2 = F side.1 :=
      fun side hside => hn side (mem_append_right _ hside)
    by_cases hm : p ∈ sides rest
    · exact ih hr hm _
    · have hl := applyPairs_of_not_mem (t := t) hm (Function.update (Function.update G pair.1 none)
        pair.2 (contentOf t.currentByPath pair.2))
      rw [sides_cons, mem_append] at hp
      refine Eq.trans hl ?_
      have hpair : ∀ side ∈ newSides t [pair], side.2 = F side.1 := by
        intro side hside
        refine hn side ?_
        simp only [newSides, flatMap_cons, flatMap_nil, append_nil] at hside ⊢
        exact mem_append_left _ hside
      have hh := hp.resolve_right hm
      by_cases hs : pair.1 = pair.2
      · obtain rfl : p = pair.2 := by simpa [sides, hs] using hh
        have := hpair (pair.2, contentOf t.currentByPath pair.2) (by simp [newSides, hs])
        simpa using this
      · by_cases hp₂ : p = pair.2
        · subst hp₂
          have := hpair (pair.2, contentOf t.currentByPath pair.2) (by simp [newSides, hs])
          simpa using this
        · obtain rfl : p = pair.1 := by simpa [sides, hs, hp₂] using hh
          have := hpair (pair.1, none) (by simp [newSides, hs])
          simpa [hs] using this

theorem applyPairs_sound (h : Inv t F₀ F) : applyPairs t F₀ (refreshPairs R it t) = F := by
  funext p
  have hc := count_sides R it t p
  by_cases ht : p ∈ t.baselineByPath ∨ p ∈ t.currentByPath
  · rw [if_pos ht] at hc
    refine applyPairs_of_mem (fun side hs => newSides_sound h hs) ?_ F₀
    exact count_pos_iff.mp (by omega)
  · rw [if_neg ht] at hc
    rw [applyPairs_of_not_mem (count_eq_zero.mp hc)]
    exact h.untracked ht

end TurnDiffSound
