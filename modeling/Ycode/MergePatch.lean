import Ycode.JsonValue

/-!
# JSON merge patches

A patch is a JSON value: an object changes the fields it names and removes those it maps to null,
anything else replaces the whole target. The created patch leads from the previous value to the
current one, provided the current one has no null fields, which a patch cannot write.
-/
namespace MergePatch

open RustStr SortedMap JsonValue List

variable {N : Type}

section Source

mutual

/-- Drops null fields at every depth; arrays are left alone. -/
def removeNullObjectFields : Value N → Value N
  | .object fields => .object (removeNullFields fields)
  | v => v

def removeNullFields : Fields N → Fields N
  | [] => []
  | (key, v) :: rest =>
    if v.isNull then removeNullFields rest else (key, removeNullObjectFields v) :: removeNullFields rest

end

/-- The deletions of a patch. -/
def removals (previous current : Fields N) : Fields N :=
  previous.foldl (fun patch entry =>
    if (get entry.1 current).isNone then insert entry.1 .null patch else patch) []

variable [DecidableEq N]

mutual

def createMergePatch (previous : Value N) : Value N → Option (Value N)
  | .object current =>
    if previous = .object current then none
    else some (.object (insertChanges previous.asObject current
      ((previous.asObject).elim [] (removals · current))))
  | current => if previous = current then none else some current

/-- The loop over the fields of the current object. -/
def insertChanges (previous : Option (Fields N)) : Fields N → Fields N → Fields N
  | [], patch => patch
  | (key, currentValue) :: rest, patch =>
    insertChanges previous rest <|
      match previous.bind (get key) with
      | none => insert key currentValue patch
      | some previousValue =>
        match createMergePatch previousValue currentValue with
        | none => patch
        | some valuePatch => insert key valuePatch patch

end

mutual

def applyMergePatchValue (target : Value N) : Value N → Value N
  | .object patch => .object (applyFields (target.asObject.getD []) patch)
  | patch => patch

/-- The loop over the fields of the patch. -/
def applyFields (target : Fields N) : Fields N → Fields N
  | [] => target
  | (key, value) :: rest =>
    applyFields (if value.isNull then erase key target
      else insert key (applyMergePatchValue ((get key target).getD .null) value) target) rest

end

end Source

theorem mem_removeNullFields :
    entry ∈ removeNullFields fs ↔ ∃ v, (entry.1, v) ∈ fs ∧ v.isNull = false ∧ entry.2 = removeNullObjectFields v := by
  induction fs with
  | nil => simp [removeNullFields]
  | cons first fs ih =>
    obtain ⟨key, v⟩ := first
    rw [removeNullFields]
    cases hn : v.isNull with
    | true =>
      rw [if_pos rfl, ih]
      constructor
      · rintro ⟨w, hw, hr⟩
        exact ⟨w, mem_cons_of_mem _ hw, hr⟩
      · rintro ⟨w, hw, hw₀, hr⟩
        cases mem_cons.mp hw with
        | inl he =>
          cases he
          rw [hn] at hw₀
          cases hw₀
        | inr hw => exact ⟨w, hw, hw₀, hr⟩
    | false =>
      rw [if_neg Bool.false_ne_true, mem_cons, ih]
      constructor
      · rintro (he | ⟨w, hw, hr⟩)
        · cases he
          exact ⟨v, mem_cons_self, hn, rfl⟩
        · exact ⟨w, mem_cons_of_mem _ hw, hr⟩
      · rintro ⟨w, hw, hw₀, hr⟩
        cases mem_cons.mp hw with
        | inl he =>
          cases he
          exact .inl (Prod.ext rfl hr)
        | inr hw => exact .inr ⟨w, hw, hw₀, hr⟩

theorem isNull_removeNullObjectFields (v : Value N) : (removeNullObjectFields v).isNull = v.isNull := by
  cases v <;> rfl

theorem nullFree_removeNullObjectFields (v : Value N) : (removeNullObjectFields v).nullFree = true := by
  induction v using Value.objectInduction with
  | object fs ih =>
    rw [removeNullObjectFields, nullFree_object]
    intro e hentry
    obtain ⟨v, hv, hn, he⟩ := mem_removeNullFields.mp hentry
    rw [he, isNull_removeNullObjectFields]
    exact ⟨hn, ih _ hv⟩
  | _ => rfl

theorem sorted_removeNullFields (h : Sorted fs) : Sorted (removeNullFields fs) := by
  induction fs with
  | nil => exact h
  | cons first fs ih =>
    obtain ⟨hf, hr⟩ := pairwise_cons.mp h
    rw [removeNullFields]
    split
    · exact ih hr
    · refine pairwise_cons.mpr ⟨?_, ih hr⟩
      intro e he
      obtain ⟨w, hw, -⟩ := mem_removeNullFields.mp he
      exact hf (e.1, w) hw

theorem wellFormed_removeNullObjectFields (h : v.wellFormed = true) :
    (removeNullObjectFields v).wellFormed = true := by
  induction v using Value.objectInduction with
  | object fs ih =>
    rw [wellFormed_object] at h
    rw [removeNullObjectFields, wellFormed_object]
    refine ⟨sorted_removeNullFields h.1, fun e hentry => ?_⟩
    obtain ⟨w, hw, -, he⟩ := mem_removeNullFields.mp hentry
    rw [he]
    exact ih _ hw (h.2 _ hw)
  | _ => exact h

section Creation

theorem get_foldl_removals (cur : Fields N) (prev patch : Fields N) (key : Str) :
    get key (prev.foldl (fun patch e =>
        if (get e.1 cur).isNone then insert e.1 .null patch else patch) patch) =
      if (get key prev).isSome ∧ (get key cur).isNone then some .null else get key patch := by
  induction prev generalizing patch with
  | nil => simp
  | cons e prev ih =>
    rw [foldl_cons, ih, get_cons]
    by_cases hk : e.1 = key
    · subst hk
      by_cases hc : (get e.1 cur).isNone = true
      · simp [hc, get_insert]
      · simp [hc]
    · by_cases hc : (get e.1 cur).isNone = true
      · simp [hc, get_insert, hk]
      · simp [hc, hk]

theorem get_removals (prev cur : Fields N) (key : Str) :
    get key (removals prev cur) =
      if (get key prev).isSome ∧ (get key cur).isNone then some .null else none :=
  get_foldl_removals cur prev [] key

theorem foldl_removals_inv {P : Fields N → Prop} (cur : Fields N)
    (hi : ∀ key pt, P pt → P (insert key .null pt)) (prev : Fields N)
    (h : P pt) : P (prev.foldl (fun pt e =>
      if (get e.1 cur).isNone then insert e.1 .null pt else pt) pt) := by
  induction prev generalizing pt with
  | nil => exact h
  | cons e prev ih =>
    rw [foldl_cons]
    apply ih
    split
    · exact hi _ _ h
    · exact h

variable [DecidableEq N]

/-- What the loop leaves in the patch for a key. -/
theorem get_insertChanges (hs : Sorted cur) (prev : Option (Fields N)) (patch : Fields N) (key : Str) :
    get key (insertChanges prev cur patch) =
      match get key cur with
      | none => get key patch
      | some currentValue =>
        match prev.bind (get key) with
        | none => some currentValue
        | some pv => (createMergePatch pv currentValue).or (get key patch) := by
  induction cur generalizing patch with
  | nil => rfl
  | cons e cur ih =>
    obtain ⟨ek, evl⟩ := e
    obtain ⟨hf, hr⟩ := pairwise_cons.mp hs
    rw [insertChanges, ih hr, get_cons]
    by_cases hkey : ek = key
    · subst hkey
      have hn : get ek cur = none := get_eq_none.mpr fun x ho => ne_of_gt (hf x ho)
      rw [hn, if_pos rfl]
      cases prev.bind (get ek) with
      | none => simp [get_insert]
      | some pv =>
        cases hc : createMergePatch pv evl with
        | none => simp [hc]
        | some vp => simp [hc, get_insert]
    · have hk : get key (match prev.bind (get ek) with
          | none => insert ek evl patch
          | some pv =>
            match createMergePatch pv evl with
            | none => patch
            | some vp => insert ek vp patch) = get key patch := by
        cases prev.bind (get ek) with
        | none => simp [get_insert, hkey]
        | some pv =>
          cases hc : createMergePatch pv evl with
          | none => simp [hc]
          | some vp => simp [hc, get_insert, hkey]
      rw [hk, if_neg hkey]

/-- An invariant of the patch that every insertion of the loop keeps. -/
theorem insertChanges_inv {P : Fields N → Prop} {cur : Fields N}
    (hn : ∀ e ∈ cur, ∀ pt, P pt → P (insert e.1 e.2 pt))
    (hc : ∀ e ∈ cur, ∀ pv vp pt, previous.bind (get e.1) = some pv →
      createMergePatch pv e.2 = some vp → P pt → P (insert e.1 vp pt))
    {pt : Fields N} (h : P pt) : P (insertChanges previous cur pt) := by
  induction cur generalizing pt with
  | nil => exact h
  | cons e cur ih =>
    rw [forall_mem_cons] at hn hc
    apply ih hn.2 hc.2
    cases hp : previous.bind (get e.1) with
    | none => exact hn.1 _ h
    | some pv =>
      dsimp only
      cases hr : createMergePatch pv e.2 with
      | none => exact h
      | some vp => exact hc.1 _ _ _ hp hr h

theorem createMergePatch_eq_none {prev current : Value N} :
    createMergePatch prev current = none ↔ prev = current := by
  cases current with
  | object fs => simp [createMergePatch]
  | _ => simp [createMergePatch]

theorem createMergePatch_leaf (h : current.asObject = none) (prev : Value N) :
    createMergePatch prev current = if prev = current then none else some current := by
  cases current with
  | object fs => cases h
  | _ => simp only [createMergePatch]

omit [DecidableEq N] in
theorem wellFormed_insert (h : (Value.object fields).wellFormed = true) (key : Str)
    (hv : v.wellFormed = true) : (Value.object (insert key v fields)).wellFormed = true := by
  rw [wellFormed_object] at h ⊢
  refine ⟨h.1.insert key v, fun e hentry => ?_⟩
  cases mem_insert hentry with
  | inl he => rw [he]; exact hv
  | inr hm => exact h.2 e hm

/-- Created patches are JSON values again. -/
theorem wellFormed_createMergePatch {prev cur patch : Value N}
    (hp : prev.wellFormed = true) (hc : cur.wellFormed = true) (h : createMergePatch prev cur = some patch) :
    patch.wellFormed = true := by
  induction cur using Value.objectInduction generalizing prev patch with
  | object fs ih =>
    rw [createMergePatch] at h
    split at h
    · cases h
    · cases h
      have hf := wellFormed_object.mp hc
      refine insertChanges_inv (P := fun patch => (Value.object patch).wellFormed = true) ?_ ?_ ?_
      · intro e he patch hpatch
        exact wellFormed_insert hpatch _ (hf.2 e he)
      · intro e he pv vp patch hg hr hpatch
        refine wellFormed_insert hpatch _ (ih e he ?_ (hf.2 e he) hr)
        obtain ⟨fs, ho, hv⟩ := Option.bind_eq_some_iff.mp hg
        rw [asObject_eq_some.mp ho, wellFormed_object] at hp
        exact hp.2 _ (mem_of_get hv)
      · cases prev.asObject with
        | none => rfl
        | some pf =>
          exact foldl_removals_inv (P := fun patch => (Value.object patch).wellFormed = true) fs
            (fun key patch hpatch => wellFormed_insert hpatch key rfl) pf rfl
  | _ =>
    rw [createMergePatch_leaf rfl] at h
    split at h
    · cases h
    · cases h
      exact hc

end Creation

/-- What the loop leaves in the target for a key. -/
theorem get_applyFields (hs : Sorted pt) (target : Fields N) (key : Str) :
    get key (applyFields target pt) =
      match get key pt with
      | none => get key target
      | some v =>
        if v.isNull then none else some (applyMergePatchValue ((get key target).getD .null) v) := by
  induction pt generalizing target with
  | nil => rfl
  | cons e pt ih =>
    obtain ⟨ek, v⟩ := e
    obtain ⟨hf, hr⟩ := pairwise_cons.mp hs
    rw [applyFields, ih hr, get_cons]
    by_cases hkey : ek = key
    · subst hkey
      have hn : get ek pt = none := get_eq_none.mpr fun x ho => ne_of_gt (hf x ho)
      rw [hn, if_pos rfl]
      dsimp only
      split
      · rw [get_erase, if_pos rfl]
      · rw [get_insert, if_pos rfl]
    · have hk : get key (if v.isNull then erase ek target
          else insert ek (applyMergePatchValue ((get ek target).getD .null) v) target) = get key target := by
        split
        · rw [get_erase, if_neg hkey]
        · rw [get_insert, if_neg hkey]
      rw [hk, if_neg hkey]

theorem sorted_applyFields (h : Sorted target) (pt : Fields N) : Sorted (applyFields target pt) := by
  induction pt generalizing target with
  | nil => exact h
  | cons e pt ih =>
    apply ih
    split
    · exact h.erase _
    · exact h.insert _ _

theorem sorted_asObject {v : Value N} (h : v.wellFormed = true) : Sorted (v.asObject.getD []) := by
  cases v with
  | object fs => exact (wellFormed_object.mp h).1
  | _ => exact List.Pairwise.nil

/-- A patch without null fields writes itself where no object is. -/
theorem applyMergePatchValue_fresh (hw : v.wellFormed = true) (hn : v.nullFree = true)
    (ht : target.asObject = none) : applyMergePatchValue target v = v := by
  induction v using Value.objectInduction generalizing target with
  | object fs ih =>
    rw [wellFormed_object] at hw
    rw [nullFree_object] at hn
    rw [applyMergePatchValue, ht]
    congr 1
    refine (sorted_applyFields List.Pairwise.nil fs).ext hw.1 fun key => ?_
    rw [get_applyFields hw.1]
    cases hg : get key fs with
    | none => rfl
    | some val =>
      have hm := mem_of_get hg
      dsimp only
      rw [(hn _ hm).1, if_neg Bool.false_ne_true]
      congr 1
      exact ih _ hm (hw.2 _ hm) (hn _ hm).2 rfl
  | _ => rfl

theorem get_asObject (v : Value N) (key : Str) : get key (v.asObject.getD []) = v.asObject.bind (get key) := by
  cases v.asObject with
  | none => rfl
  | some fs => rfl

theorem wellFormed_of_get_asObject {v val : Value N} (h : v.wellFormed = true)
    (hv : v.asObject.bind (get key) = some val) : val.wellFormed = true := by
  obtain ⟨fs, hf, hg⟩ := Option.bind_eq_some_iff.mp hv
  rw [asObject_eq_some.mp hf, wellFormed_object] at h
  exact h.2 _ (mem_of_get hg)

/-- Only the null patch writes null. -/
theorem isNull_of_applyMergePatchValue (h : (applyMergePatchValue target patch).isNull = false) :
    patch.isNull = false := by
  cases patch with
  | null =>
    rw [applyMergePatchValue] at h
    · exact h
    · rintro fields ⟨⟩
  | _ => rfl

/-- Applying the created patch gives the current value. -/
theorem applyMergePatchValue_createMergePatch [DecidableEq N] {prev current pt : Value N}
    (hp : prev.wellFormed = true) (hc : current.wellFormed = true) (hn : current.nullFree = true)
    (h : createMergePatch prev current = some pt) : applyMergePatchValue prev pt = current := by
  induction current using Value.objectInduction generalizing prev pt with
  | object fs ih =>
    have hpatch := wellFormed_createMergePatch hp hc h
    rw [createMergePatch] at h
    split at h
    · cases h
    · cases h
      rw [wellFormed_object] at hc hpatch
      rw [nullFree_object] at hn
      rw [applyMergePatchValue]
      congr 1
      refine (sorted_applyFields (sorted_asObject hp) _).ext hc.1 fun key => ?_
      rw [get_applyFields hpatch.1, get_insertChanges hc.1]
      cases hg : get key fs with
      | none =>
        -- the key is removed if it was there
        cases hv : prev.asObject with
        | none => rfl
        | some pf =>
          simp only [Option.elim, get_removals, hg]
          cases ho : get key pf with
          | none => simp [ho]
          | some pv => simp [Value.isNull]
      | some v =>
        have hm := mem_of_get hg
        have hnull := (hn _ hm).1
        rw [get_asObject]
        cases ho : prev.asObject.bind (get key) with
        | none =>
          dsimp only
          rw [show v.isNull = false from hnull, if_neg Bool.false_ne_true]
          congr 1
          exact applyMergePatchValue_fresh (hc.2 _ hm) (hn _ hm).2 rfl
        | some pv =>
          have hk : get key ((prev.asObject).elim [] (removals · fs)) = none := by
            obtain ⟨pf, hv, _⟩ := Option.bind_eq_some_iff.mp ho
            rw [hv, Option.elim, get_removals, hg]
            simp
          dsimp only
          rw [hk, Option.or_none]
          cases ht : createMergePatch pv v with
          | none => rw [createMergePatch_eq_none.mp ht]
          | some vp =>
            have ha := ih _ hm (wellFormed_of_get_asObject hp ho) (hc.2 _ hm) (hn _ hm).2 ht
            have hr : (applyMergePatchValue pv vp).isNull = false := by
              rw [ha]
              exact hnull
            have hh := isNull_of_applyMergePatchValue hr
            dsimp only
            rw [hh, if_neg Bool.false_ne_true, Option.getD_some, ha]
  | _ =>
    rw [createMergePatch_leaf rfl] at h
    split at h
    · cases h
    · cases h
      rfl

theorem wellFormed_applyMergePatchValue (ht : target.wellFormed = true) (hp : patch.wellFormed = true) :
    (applyMergePatchValue target patch).wellFormed = true := by
  induction patch using Value.objectInduction generalizing target with
  | object fs ih =>
    rw [wellFormed_object] at hp
    have hs : (Value.object (target.asObject.getD [])).wellFormed = true := by
      cases target with
      | object targetFields => exact ht
      | _ => rfl
    rw [applyMergePatchValue, wellFormed_object]
    refine ⟨sorted_applyFields (wellFormed_object.mp hs).1 fs, fun e he => ?_⟩
    have hg := get_of_mem (sorted_applyFields (wellFormed_object.mp hs).1 fs) he
    rw [get_applyFields hp.1] at hg
    cases hpatch : get e.1 fs with
    | none =>
      rw [hpatch] at hg
      exact (wellFormed_object.mp hs).2 _ (mem_of_get hg)
    | some v =>
      have hm := mem_of_get hpatch
      rw [hpatch] at hg
      dsimp only at hg
      split at hg
      · cases hg
      · rw [← Option.some.inj hg]
        refine ih _ hm ?_ (hp.2 _ hm)
        cases ho : get e.1 (target.asObject.getD []) with
        | none => rfl
        | some old => exact (wellFormed_object.mp hs).2 _ (mem_of_get ho)
  | _ => exact hp

end MergePatch
