import Ycode.TurnDiffSound

/-!
# What the tracker renders

A diff is taken from the cache when the revisions of both contents are those of
the cached one. A revision is given out once, so it stands for one content, and a
cached diff is the diff of the present contents. Together with the invariant of
the maps this says what the net diff of a turn is, after any sequence of exact
deltas.
-/
namespace TurnDiffRender

open RustStr TurnDiff TurnDiffSound
open ApplyHunks (AppliedPatchChange AppliedPatchDelta)

section Cache

variable {U : Type}

/-- A content whose revision has been given out for it. -/
def Recorded (t : TurnDiffTracker U) (history : Nat → Str) (c : TrackedContent) : Prop :=
  c.revision < t.nextRevision ∧ history c.revision = c.content

def Known (t : TurnDiffTracker U) (revision : Option Nat) : Prop := ∀ n ∈ revision, n < t.nextRevision

/-- A later history has the same contents for the earlier revisions. -/
theorem map_history {t : TurnDiffTracker U}
    (hh : ∀ n < t.nextRevision, hi' n = history n) {rev : Option Nat} (hk : Known t rev) :
    rev.map hi' = rev.map history := by
  cases rev with
  | none => rfl
  | some n => exact congrArg some (hh n (hk n rfl))

variable [DecidableEq U] (R : DiffRenderer U)

/-- The diff that belongs to a cache key. -/
def keyDiff (t : TurnDiffTracker U) (history : Nat → Str) (key : DiffCacheKey U) : Option Str :=
  renderDiff R t.displayRootsByEnvironment key.leftPath (key.leftRevision.map history) key.rightPath
    (key.rightRevision.map history)

/-- `history` is the content that each revision was given out for. -/
structure Revised (t : TurnDiffTracker U) (history : Nat → Str) : Prop where
  baseline : ∀ p, ∀ c ∈ t.baselineByPath.lookup p, Recorded t history c
  current : ∀ p, ∀ c ∈ t.currentByPath.lookup p, Recorded t history c
  cached : ∀ key, ∀ diff ∈ t.renderedDiffs key,
    Known t key.leftRevision ∧ Known t key.rightRevision ∧ diff = keyDiff R t history key

variable {R} {t : TurnDiffTracker U}

section

variable (h : Revised R t history)
include h

/-- A step that gives out new revisions and keeps the roots and the cache. -/
theorem Revised.extend {t' : TurnDiffTracker U} {hi' : Nat → Str}
    (hroots : t'.displayRootsByEnvironment = t.displayRootsByEnvironment)
    (hcache : t'.renderedDiffs = t.renderedDiffs) (hle : t.nextRevision ≤ t'.nextRevision)
    (hh : ∀ n < t.nextRevision, hi' n = history n)
    (hb : ∀ p, ∀ c ∈ t'.baselineByPath.lookup p, c ∈ t.baselineByPath.lookup p ∨ Recorded t' hi' c)
    (hcur : ∀ p, ∀ c ∈ t'.currentByPath.lookup p, c ∈ t.currentByPath.lookup p ∨ Recorded t' hi' c) :
    Revised R t' hi' := by
  have hrec : ∀ c, Recorded t history c → Recorded t' hi' c := by
    intro c hc
    exact ⟨Nat.lt_of_lt_of_le hc.1 hle, (hh _ hc.1).trans hc.2⟩
  have hknown : ∀ rev, Known t rev → Known t' rev :=
    fun rev hk n hn => Nat.lt_of_lt_of_le (hk n hn) hle
  refine ⟨?_, ?_, ?_⟩
  · intro p c hc
    exact (hb p c hc).elim (fun ho => hrec c (h.baseline p c ho)) id
  · intro p c hc
    exact (hcur p c hc).elim (fun ho => hrec c (h.current p c ho)) id
  · intro key diff hd
    rw [hcache] at hd
    obtain ⟨hl, hr, he⟩ := h.cached key diff hd
    refine ⟨hknown _ hl, hknown _ hr, ?_⟩
    rw [he, keyDiff, keyDiff, hroots, map_history hh hl, map_history hh hr]

theorem insertBaseline_revised (p : TrackedPath U) (txt : Str) :
    ∃ history', Revised R (insertBaseline t p txt) history' := by
  refine ⟨Function.update history t.nextRevision txt, h.extend rfl rfl (Nat.le_succ _) ?_ ?_ ?_⟩
  · intro n hn
    exact Function.update_of_ne (Nat.ne_of_lt hn) _ _
  · intro q c hc
    by_cases hq : q = p
    · subst hq
      simp only [insertBaseline, AList.lookup_insert, Option.mem_def, Option.some.injEq] at hc
      subst hc
      exact .inr ⟨Nat.lt_succ_self _, Function.update_self _ _ _⟩
    · simp only [insertBaseline, AList.lookup_insert_ne hq] at hc
      exact .inl hc
  · intro q c hc
    exact .inl hc

theorem insertCurrent_revised (p : TrackedPath U) (txt : Str) :
    ∃ history', Revised R (insertCurrent t p txt) history' := by
  refine ⟨Function.update history t.nextRevision txt, h.extend rfl rfl (Nat.le_succ _) ?_ ?_ ?_⟩
  · intro n hn
    exact Function.update_of_ne (Nat.ne_of_lt hn) _ _
  · intro q c hc
    exact .inl hc
  · intro q c hc
    by_cases hq : q = p
    · subst hq
      simp only [insertCurrent, AList.lookup_insert, Option.mem_def, Option.some.injEq] at hc
      subst hc
      exact .inr ⟨Nat.lt_succ_self _, Function.update_self _ _ _⟩
    · simp only [insertCurrent, AList.lookup_insert_ne hq] at hc
      exact .inl hc

theorem removeCurrent_revised (p : TrackedPath U) : Revised R (removeCurrent t p) history := by
  refine h.extend rfl rfl (Nat.le_refl _) (fun _ _ => rfl) (fun q c hc => Or.inl hc) ?_
  intro q c hc
  by_cases hq : q = p
  · subst hq
    simp [removeCurrent] at hc
  · simp only [removeCurrent, AList.lookup_erase_ne hq] at hc
    exact .inl hc

theorem noteBaseline_revised (p : TrackedPath U) (txt : Option Str) :
    ∃ history', Revised R (noteBaseline t p txt) history' := by
  unfold noteBaseline
  split
  · cases txt with
    | none => exact ⟨history, h⟩
    | some c => exact insertBaseline_revised h p c
  · exact ⟨history, h⟩

/-- The origins play no part in the cache. -/
theorem Revised.origins (m : HashMap (TrackedPath U) (TrackedPath U)) :
    Revised R { t with originByCurrentPath := m } history :=
  ⟨h.baseline, h.current, h.cached⟩

theorem applyChange_revised (env : Str)
    (ch : AppliedPatchChange U) : ∃ history', Revised R (applyChange env t ch) history' := by
  obtain ⟨path, ch⟩ := ch
  cases ch with
  | add txt overwritten =>
    obtain ⟨h₁, hr₁⟩ := noteBaseline_revised (h.origins (t.originByCurrentPath.erase ⟨env, path⟩))
      ⟨env, path⟩ overwritten
    exact insertCurrent_revised hr₁ _ txt
  | delete txt =>
    have hr := removeCurrent_revised h ⟨env, path⟩
    simp only [applyChange, applyDelete]
    split
    · obtain ⟨h₁, hr₁⟩ := insertBaseline_revised hr ⟨env, path⟩ txt
      exact ⟨h₁, hr₁.origins _⟩
    · exact ⟨history, hr.origins _⟩
  | update movePath old overwritten new =>
    obtain ⟨h₁, hr₁⟩ := noteBaseline_revised h ⟨env, path⟩ (some old)
    cases movePath with
    | none => exact insertCurrent_revised hr₁ _ new
    | some dest =>
      obtain ⟨h₂, hr₂⟩ := noteBaseline_revised hr₁ ⟨env, dest⟩ overwritten
      have hs := hr₂.origins ((noteBaseline (noteBaseline t ⟨env, path⟩ (some old))
        ⟨env, dest⟩ overwritten).originByCurrentPath.erase ⟨env, path⟩)
      have hr := removeCurrent_revised hs ⟨env, path⟩
      obtain ⟨h₃, hr₃⟩ := insertCurrent_revised hr ⟨env, dest⟩ new
      simp only [applyChange, applyUpdate, Option.map_some]
      split
      · exact ⟨h₃, (hr₃.origins _).origins _⟩
      · exact ⟨h₃, hr₃.origins _⟩

theorem applyChanges_revised (env : Str) (chs : List (AppliedPatchChange U)) :
    ∃ history', Revised R (chs.foldl (applyChange env) t) history' := by
  induction chs generalizing t history with
  | nil => exact ⟨history, h⟩
  | cons ch rest ih =>
    obtain ⟨h₁, hr⟩ := applyChange_revised h env ch
    exact ih hr

end

/-! ## One refresh -/

/-- The text of the pairs, rendered from the tracked contents. -/
def diffText (R : DiffRenderer U) (t : TurnDiffTracker U) (pairs : List (TrackedPath U × TrackedPath U)) :
    Str :=
  pairs.foldl (fun text pair => appendDiff text (freshDiff R t pair)) []

theorem keyDiff_cacheKey (h : Revised R t history) :
    Known t (cacheKey t pair).leftRevision ∧ Known t (cacheKey t pair).rightRevision ∧
      keyDiff R t history (cacheKey t pair) = freshDiff R t pair := by
  have hm : ∀ c : Option TrackedContent, (∀ x ∈ c, Recorded t history x) →
      Known t (c.map (·.revision)) ∧ (c.map (·.revision)).map history = c.map (·.content) := by
    intro c hc
    cases c with
    | none =>
      refine ⟨?_, rfl⟩
      intro n hn
      cases hn
    | some x =>
      refine ⟨fun n hn => ?_, congrArg some (hc x rfl).2⟩
      cases hn
      exact (hc x rfl).1
  obtain ⟨hl, hl'⟩ := hm _ (h.baseline pair.1)
  obtain ⟨hr, hr'⟩ := hm _ (h.current pair.2)
  refine ⟨hl, hr, ?_⟩
  simp only [keyDiff, freshDiff, cacheKey, hl', hr']

/-- What the loop keeps: every diff at hand, old or new, is the diff of its key. -/
structure RenderInv (R : DiffRenderer U) (t : TurnDiffTracker U) (history : Nat → Str) (st : Rendering U) :
    Prop where
  previous : ∀ key, ∀ diff ∈ st.previousDiffs key,
    Known t key.leftRevision ∧ Known t key.rightRevision ∧ diff = keyDiff R t history key
  rendered : ∀ key, ∀ diff ∈ st.renderedDiffs key,
    Known t key.leftRevision ∧ Known t key.rightRevision ∧ diff = keyDiff R t history key

theorem renderPair_step (h : Revised R t history) (hst : RenderInv R t history st) :
    RenderInv R t history (renderPair R t st pair) ∧
      (renderPair R t st pair).aggregated = appendDiff st.aggregated (freshDiff R t pair) := by
  obtain ⟨hl, hr, hf⟩ := keyDiff_cacheKey h
  have hd : (st.previousDiffs (cacheKey t pair)).getD (freshDiff R t pair) = freshDiff R t pair := by
    cases hp : st.previousDiffs (cacheKey t pair) with
    | none => rfl
    | some diff => exact (hst.previous _ diff hp).2.2.trans hf
  refine ⟨⟨?_, ?_⟩, ?_⟩
  · intro key diff hm
    by_cases hk : key = cacheKey t pair
    · subst hk
      simp [renderPair] at hm
    · simp only [renderPair, Function.update_of_ne hk] at hm
      exact hst.previous key diff hm
  · intro key diff hm
    by_cases hk : key = cacheKey t pair
    · subst hk
      simp only [renderPair, Function.update_self, hd, Option.mem_def, Option.some.injEq] at hm
      exact ⟨hl, hr, hm ▸ hf.symm⟩
    · simp only [renderPair, Function.update_of_ne hk] at hm
      exact hst.rendered key diff hm
  · simp only [renderPair, hd]

theorem renderPairs_run (h : Revised R t history) (hst : RenderInv R t history st)
    (pairs : List (TrackedPath U × TrackedPath U)) :
    RenderInv R t history (pairs.foldl (renderPair R t) st) ∧
      (pairs.foldl (renderPair R t) st).aggregated =
        pairs.foldl (fun text pair => appendDiff text (freshDiff R t pair)) st.aggregated := by
  induction pairs generalizing st with
  | nil => exact ⟨hst, rfl⟩
  | cons pair rest ih =>
    obtain ⟨hi, ht⟩ := renderPair_step h hst
    obtain ⟨hi', ht'⟩ := ih hi
    rw [ht] at ht'
    exact ⟨hi', ht'⟩

def nonEmpty (text : Str) : Option Str := if text.isEmpty then none else some text

/-- The cache makes no difference to what is rendered. -/
theorem refresh_spec (h : Revised R t history) :
    Revised R (refreshUnifiedDiff R it t) history ∧
      (refreshUnifiedDiff R it t).unifiedDiff = nonEmpty (diffText R t (refreshPairs R it t)) := by
  have hs : RenderInv R t history ⟨t.renderedDiffs, fun _ => none, []⟩ :=
    ⟨h.cached, fun key diff hm => by cases hm⟩
  obtain ⟨hi, ht⟩ := renderPairs_run h hs (refreshPairs R it t)
  refine ⟨⟨h.baseline, h.current, hi.rendered⟩, ?_⟩
  exact congrArg nonEmpty ht

end Cache

/-! ## A whole turn -/

variable {U : Type}

variable {call : Call U} {F₀ F : Files U}

theorem renderDiff_eq_none :
    renderDiff R roots left leftContent right rightContent = none ↔ leftContent = rightContent := by
  by_cases he : leftContent = rightContent
  · simp [renderDiff, he]
  · cases leftContent <;> cases rightContent <;> simp_all [renderDiff]

variable [DecidableEq U]

/-- What holds between the calls of a turn that has taken the files from `F₀` to `F`. -/
structure TurnInv (R : DiffRenderer U) (t : TurnDiffTracker U) (F₀ F : Files U) : Prop where
  valid : t.valid = true
  inv : Inv t F₀ F
  revised : ∃ history, Revised R t history

@[simp] theorem noteBaseline_valid (t : TurnDiffTracker U) (p : TrackedPath U) (txt : Option Str) :
    (noteBaseline t p txt).valid = t.valid := by
  unfold noteBaseline
  split
  · cases txt <;> rfl
  · rfl

theorem applyChange_valid (env : Str) (t : TurnDiffTracker U) (ch : AppliedPatchChange U) :
    (applyChange env t ch).valid = t.valid := by
  obtain ⟨path, ch⟩ := ch
  cases ch with
  | add txt overwritten => simp [applyChange, applyAdd, insertCurrent, removeOrigin]
  | delete txt =>
    simp only [applyChange, applyDelete]
    split <;> rfl
  | update movePath old overwritten new =>
    cases movePath with
    | none => simp [applyChange, applyUpdate, insertCurrent]
    | some dest =>
      simp only [applyChange, applyUpdate, Option.map_some]
      split <;> simp [insertOrigin, removeOrigin, insertCurrent, removeCurrent]

theorem applyChanges_valid (env : Str) (chs : List (AppliedPatchChange U))
    (t : TurnDiffTracker U) : (chs.foldl (applyChange env) t).valid = t.valid := by
  induction chs generalizing t with
  | nil => rfl
  | cons ch rest ih => rw [List.foldl_cons, ih, applyChange_valid]

theorem track_eq (hv : t.valid = true) (he : call.delta.exact = true) :
    track R t call = refreshUnifiedDiff R call.iteration
      (call.delta.changes.foldl (applyChange call.environmentId) t) := by
  simp [track, trackDelta, hv, he]

theorem track_inv (h : TurnInv R t F₀ F)
    (he : call.delta.exact = true) (hs : ChangeSteps call.environmentId F call.delta.changes F') :
    TurnInv R (track R t call) F₀ F' := by
  obtain ⟨history, hr⟩ := h.revised
  obtain ⟨hi', hr'⟩ := applyChanges_revised hr call.environmentId call.delta.changes
  rw [track_eq h.valid he]
  exact ⟨(applyChanges_valid _ _ t).trans h.valid, applyChanges_inv h.inv hs, hi', (refresh_spec hr').1⟩

theorem turn_inv (h : TurnInv R t F₀ F) (he : Evolution F calls F') : TurnInv R (calls.foldl (track R) t) F₀ F' := by
  induction he generalizing t with
  | nil F => exact h
  | cons hexact hs _ ih => exact ih (track_inv h hexact hs)

theorem turnInv_start (roots : HashMap Str U) (F₀ : Files U) :
    TurnInv R (withEnvironmentDisplayRoots roots) F₀ F₀ := by
  refine ⟨rfl, fun p => rfl, fun _ => [], ?_, ?_, ?_⟩
  · intro p c hc
    cases hc
  · intro p c hc
    cases hc
  · intro key diff hd
    cases hd

theorem Evolution.append (h : Evolution F (calls ++ more) H) : ∃ G, Evolution F calls G ∧ Evolution G more H := by
  induction calls generalizing F with
  | nil => exact ⟨F, .nil F, h⟩
  | cons call rest ih =>
    cases h with
    | cons he hs hr =>
      obtain ⟨G, h₁, h₂⟩ := ih hr
      exact ⟨G, .cons he hs h₁, h₂⟩

/-- The text is that of the pairs of the last refresh. -/
theorem turn_text (roots : HashMap Str U) (he : Evolution F₀ (calls ++ [call]) F) :
    ((calls ++ [call]).foldl (track R) (withEnvironmentDisplayRoots roots)).unifiedDiff =
      nonEmpty (diffText R ((calls ++ [call]).foldl (track R) (withEnvironmentDisplayRoots roots))
        (refreshPairs R call.iteration
          ((calls ++ [call]).foldl (track R) (withEnvironmentDisplayRoots roots)))) := by
  obtain ⟨G, hc, hl⟩ := Evolution.append he
  have hi := turn_inv (turnInv_start (R := R) roots F₀) hc
  cases hl with
  | cons hexact hs hn =>
    obtain ⟨history, hr⟩ := hi.revised
    obtain ⟨hi', hr'⟩ := applyChanges_revised hr call.environmentId call.delta.changes
    rw [List.foldl_append, List.foldl_cons, List.foldl_nil, track_eq hi.valid hexact]
    exact (refresh_spec hr').2

/-- The tracker's maps after a turn that took the files from `F₀` to `F`. -/
structure MapsSound (t : TurnDiffTracker U) (F₀ F : Files U) : Prop where
  baseline : ∀ p c, t.baselineByPath.lookup p = some c → F₀ p = some c.content
  current : ∀ p c, t.currentByPath.lookup p = some c → F p = some c.content
  created : ∀ p, p ∉ t.baselineByPath → p ∈ t.currentByPath → F₀ p = none
  removed : ∀ p, p ∉ t.currentByPath → p ∈ t.baselineByPath → F p = none
  tracked : ∀ p, F₀ p ≠ F p → p ∈ t.baselineByPath ∨ p ∈ t.currentByPath

/-- The pairs that are compared after a turn that took the files from `F₀` to `F`. A pair is
rendered exactly when its two contents differ. -/
structure PairsSound (R : DiffRenderer U) (t : TurnDiffTracker U) (F₀ F : Files U)
    (pairs : List (TrackedPath U × TrackedPath U)) : Prop where
  old : ∀ side ∈ oldSides t pairs, side.2 = F₀ side.1
  new : ∀ side ∈ newSides t pairs, side.2 = F side.1
  once : ∀ p, F₀ p ≠ F p → ((oldSides t pairs).map Prod.fst).count p = 1 ∧
    ((newSides t pairs).map Prod.fst).count p = 1
  applied : applyPairs t F₀ pairs = F
  rendered : ∀ pair ∈ pairs, freshDiff R t pair = none ↔ F₀ pair.1 = F pair.2

theorem Inv.mapsSound (h : Inv t F₀ F) : MapsSound t F₀ F := by
  refine ⟨?_, ?_, ?_, ?_, ?_⟩
  · intro p c hc
    have hm : p ∈ t.baselineByPath := AList.lookup_isSome.mp (by rw [hc]; rfl)
    rw [← (h.tracked (Or.inl hm)).1, contentOf, hc]
    rfl
  · intro p c hc
    have hm : p ∈ t.currentByPath := AList.lookup_isSome.mp (by rw [hc]; rfl)
    rw [← (h.tracked (Or.inr hm)).2, contentOf, hc]
    rfl
  · intro p hb hc
    exact (h.tracked (Or.inr hc)).1.symm.trans (contentOf_eq_none.mpr hb)
  · intro p hc hb
    exact (h.tracked (Or.inl hb)).2.symm.trans (contentOf_eq_none.mpr hc)
  · intro p hne
    by_contra hu
    exact hne (h.untracked hu)

theorem Inv.pairsSound (h : Inv t F₀ F) (it : Iteration U) : PairsSound R t F₀ F (refreshPairs R it t) := by
  refine ⟨fun side hs => oldSides_sound h hs, fun side hs => newSides_sound h hs, ?_, applyPairs_sound h, ?_⟩
  · intro p hne
    have hcount := count_sides R it t p
    rw [if_pos ((Inv.mapsSound h).tracked p hne)] at hcount
    rw [map_fst_oldSides, map_fst_newSides]
    exact ⟨hcount, hcount⟩
  · rintro ⟨left, right⟩ hp
    have hc : contentOf t.baselineByPath left = F₀ left ∧ contentOf t.currentByPath right = F right := by
      cases refreshPairs_cases hp with
      | inl hsame =>
        obtain ⟨rfl, ht⟩ := hsame
        exact h.tracked ht
      | inr hr =>
        obtain ⟨-, hl, -, -, hrc⟩ := hr
        exact ⟨(h.tracked (Or.inl hl)).1, (h.tracked (Or.inr hrc)).2⟩
    rw [← hc.1, ← hc.2]
    exact renderDiff_eq_none

/-- After any sequence of exact deltas that take the files from `F₀` to `F`, the maps are right,
the compared pairs cover what has changed once and carry `F₀` to `F`, and the net diff is the text
of those pairs whose two contents differ. -/
theorem turn_diff_sound (R : DiffRenderer U) (roots : HashMap Str U) {F₀ F : Files U}
    {calls : List (Call U)} (he : Evolution F₀ calls F) :
    MapsSound (calls.foldl (track R) (withEnvironmentDisplayRoots roots)) F₀ F ∧
      (∀ it, PairsSound R (calls.foldl (track R) (withEnvironmentDisplayRoots roots)) F₀ F
        (refreshPairs R it (calls.foldl (track R) (withEnvironmentDisplayRoots roots)))) ∧
      ∀ call, calls.getLast? = some call →
        (calls.foldl (track R) (withEnvironmentDisplayRoots roots)).unifiedDiff =
          nonEmpty (diffText R (calls.foldl (track R) (withEnvironmentDisplayRoots roots))
            (refreshPairs R call.iteration
              (calls.foldl (track R) (withEnvironmentDisplayRoots roots)))) := by
  have hi := turn_inv (turnInv_start (R := R) roots F₀) he
  refine ⟨Inv.mapsSound hi.inv, fun it => Inv.pairsSound hi.inv it, ?_⟩
  intro call hl
  obtain ⟨pre, rfl⟩ := List.getLast?_eq_some_iff.mp hl
  exact turn_text roots he

def plainRenderer : DiffRenderer Str := ⟨fun _ _ => none, id, id, fun _ _ _ _ => []⟩

def inOrder : Iteration Str := ⟨id, id, id, fun _ => .refl _, fun _ => .refl _, fun _ => .refl _⟩

def fileX : Files Str := fun p => if p = ⟨[], "a".toList⟩ then some "x".toList else none

/-- Moves `a` to `b`, leaving `new` there. -/
def moveTo (new : Str) : Call Str :=
  ⟨inOrder, [], ⟨[⟨"a".toList, .update (some "b".toList) "x".toList none new⟩], true⟩⟩

def movedX (new : Str) : Files Str :=
  Function.update (Function.update fileX ⟨[], "b".toList⟩ (some new)) ⟨[], "a".toList⟩ none

theorem moveTo_evolution : Evolution fileX [moveTo new] (movedX new) :=
  .cons rfl (.cons (.move "a".toList "b".toList "x".toList new rfl (by decide)) (.nil _)) (.nil _)

def trackMove (new : Str) : TurnDiffTracker Str := [moveTo new].foldl (track plainRenderer)
  (withEnvironmentDisplayRoots ∅)

/-- A file that is moved as it is: two paths have changed, and nothing is rendered. -/
theorem pure_rename_not_rendered :
    Evolution fileX [moveTo "x".toList] (movedX "x".toList) ∧
      fileX ⟨[], "a".toList⟩ ≠ movedX "x".toList ⟨[], "a".toList⟩ ∧
      refreshPairs plainRenderer inOrder (trackMove "x".toList) = [(⟨[], "a".toList⟩, ⟨[], "b".toList⟩)] ∧
      freshDiff plainRenderer (trackMove "x".toList) (⟨[], "a".toList⟩, ⟨[], "b".toList⟩) = none ∧
      (trackMove "x".toList).unifiedDiff = none :=
  ⟨moveTo_evolution, by decide, by decide, by decide, by decide⟩

theorem changed_rename_sound :
    MapsSound (trackMove "y".toList) fileX (movedX "y".toList) ∧
      (∀ it, PairsSound plainRenderer (trackMove "y".toList) fileX (movedX "y".toList)
        (refreshPairs plainRenderer it (trackMove "y".toList))) :=
  have h := turn_diff_sound plainRenderer ∅ (moveTo_evolution)
  ⟨h.1, h.2.1⟩

end TurnDiffRender
