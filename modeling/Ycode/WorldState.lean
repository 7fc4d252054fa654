import Ycode.PlainReplay
import Ycode.MergePatch

/-!
# The world-state baseline and its replay

The live history keeps the snapshot of the world state that it last told the model about. Each
update persists the full snapshot or, behind a known one, the merge patch to it, and replacing the
history forgets the snapshot. Replaying the persisted records restores the live snapshot.
-/
namespace WorldState

open RustStr SortedMap JsonValue MergePatch History RolloutReplay

variable {N : Type}

section Snapshots

structure WorldStateSnapshot (N : Type) where
  sections : Fields N
  wellFormed : (Value.object sections).wellFormed = true

/-- The registered sections with the JSON value that each serialises to, if it is persisted at all. -/
structure WorldStateSections (N : Type) where
  sections : List (Str × Option (Json N))

/-- The snapshot of one section, which is never null. -/
def sectionSnapshot (serialized : Option (Json N)) : Option (Value N) :=
  (serialized.map fun value => removeNullObjectFields value.1).filter fun value => !value.isNull

def collectSections (sections : List (Str × Option (Json N))) : Fields N :=
  sections.foldl (fun collected entry =>
    (sectionSnapshot entry.2).elim collected (insert entry.1 · collected)) []

theorem sectionSnapshot_spec (h : sectionSnapshot serialized = some value) :
    value.wellFormed = true ∧ value.nullFree = true ∧ value.isNull = false := by
  obtain ⟨hv, hn⟩ := Option.filter_eq_some_iff.mp h
  obtain ⟨raw, -, rfl⟩ := Option.map_eq_some_iff.mp hv
  exact ⟨wellFormed_removeNullObjectFields raw.2, nullFree_removeNullObjectFields raw.1, by simpa using hn⟩

theorem collectSections_spec (secs : List (Str × Option (Json N))) :
    (Value.object (collectSections secs)).wellFormed = true ∧
      (Value.object (collectSections secs)).nullFree = true := by
  have hstep : ∀ (secs : List (Str × Option (Json N))) (collected : Fields N),
      (Value.object collected).wellFormed = true ∧ (Value.object collected).nullFree = true →
      (Value.object (secs.foldl (fun collected e =>
        (sectionSnapshot e.2).elim collected (insert e.1 · collected)) collected)).wellFormed = true ∧
      (Value.object (secs.foldl (fun collected e =>
        (sectionSnapshot e.2).elim collected (insert e.1 · collected)) collected)).nullFree = true := by
    intro secs
    induction secs with
    | nil => exact fun _ h => h
    | cons e secs ih =>
      intro collected h
      rw [List.foldl_cons]
      apply ih
      cases hs : sectionSnapshot e.2 with
      | none => exact h
      | some v =>
        obtain ⟨hw, hn, hnull⟩ := sectionSnapshot_spec hs
        refine ⟨wellFormed_insert h.1 _ hw, nullFree_object.mpr fun x ho => ?_⟩
        cases mem_insert ho with
        | inl he => rw [he]; exact ⟨hnull, hn⟩
        | inr hm => exact nullFree_object.mp h.2 x hm
  exact hstep secs [] ⟨rfl, rfl⟩

def WorldStateSections.snapshot (world : WorldStateSections N) : WorldStateSnapshot N :=
  ⟨collectSections world.sections, (collectSections_spec world.sections).1⟩

def WorldStateSnapshot.intoValue (snapshot : WorldStateSnapshot N) : Json N :=
  ⟨.object snapshot.sections, snapshot.wellFormed⟩

/-- Deserialising a snapshot: any object is one. -/
def snapshotFromValue : Json N → Option (WorldStateSnapshot N)
  | ⟨.object sections, h⟩ => some ⟨sections, h⟩
  | _ => none

def WorldStateSnapshot.applyMergePatch (snapshot : WorldStateSnapshot N) (patch : Json N) :
    Option (WorldStateSnapshot N) :=
  snapshotFromValue ⟨applyMergePatchValue snapshot.intoValue.1 patch.1,
    wellFormed_applyMergePatchValue snapshot.intoValue.2 patch.2⟩

variable [DecidableEq N]

def createPatch (previous current : Json N) : Option (Json N) :=
  match h : createMergePatch previous.1 current.1 with
  | none => none
  | some patch => some ⟨patch, wellFormed_createMergePatch previous.2 current.2 h⟩

def WorldStateSnapshot.mergePatchFrom (current previous : WorldStateSnapshot N) : Option (Json N) :=
  createPatch previous.intoValue current.intoValue

theorem createPatch_eq_some {prev cur pt : Json N} (h : createPatch prev cur = some pt) :
    createMergePatch prev.1 cur.1 = some pt.1 := by
  unfold createPatch at h
  split at h
  · cases h
  · rename_i v hv
    cases h
    exact hv

theorem createPatch_eq_none {prev current : Json N} : createPatch prev current = none ↔ prev = current := by
  rw [Subtype.ext_iff, ← createMergePatch_eq_none, createPatch]
  split
  · rename_i hv
    simp [hv]
  · rename_i v hv
    simp [hv]

omit [DecidableEq N] in
theorem intoValue_injective {a b : WorldStateSnapshot N} (h : a.intoValue = b.intoValue) : a = b := by
  cases a
  cases b
  cases h
  rfl

/-- A snapshot without null fields is restored from its patch. -/
theorem applyMergePatch_mergePatchFrom {current previous : WorldStateSnapshot N}
    (hn : current.intoValue.1.nullFree = true) (h : current.mergePatchFrom previous = some patch) :
    previous.applyMergePatch patch = some current := by
  have ha := applyMergePatchValue_createMergePatch previous.intoValue.2 current.intoValue.2 hn
    (createPatch_eq_some h)
  have hv : (⟨applyMergePatchValue previous.intoValue.1 patch.1,
      wellFormed_applyMergePatchValue previous.intoValue.2 patch.2⟩ : Json N) = current.intoValue :=
    Subtype.ext ha
  rw [WorldStateSnapshot.applyMergePatch, hv]
  rfl

end Snapshots

section Replay

/-- The environment of the replay loop with the snapshots of the world state. -/
def worldStateEnv (H : Host) (parseUuid : Str → Option Uuid) : Env (Json N) (WorldStateSnapshot N) where
  toHost := H
  parseUuid := parseUuid
  snapshotFromValue := snapshotFromValue
  applyMergePatch := WorldStateSnapshot.applyMergePatch

variable [DecidableEq N]

/-- `ContextManager::update_world_state`: the new baseline and the item to persist. -/
def updateWorldState (baseline : Option (WorldStateSnapshot N)) (world : WorldStateSections N) :
    Option (WorldStateSnapshot N) × Option (WorldStateItem (Json N)) :=
  let snapshot := world.snapshot
  let rolloutItem := match baseline with
    | none => some ⟨true, snapshot.intoValue⟩
    | some previous => (snapshot.mergePatchFrom previous).map (⟨false, ·⟩)
  (some snapshot, rolloutItem)

inductive Call (N : Type) where
  | updateWorldState (world : WorldStateSections N)
  | replace

/-- The live baseline and the records persisted so far, newest first. -/
structure Live (N : Type) where
  baseline : Option (WorldStateSnapshot N) := none
  persisted : List (WorldStateRecord (Json N)) := []

def step (live : Live N) : Call N → Live N
  | .updateWorldState world =>
    let (baseline, rolloutItem) := updateWorldState live.baseline world
    ⟨baseline, rolloutItem.elim live.persisted fun item => .worldState item :: live.persisted⟩
  | .replace => ⟨none, .compacted :: live.persisted⟩

def run (calls : List (Call N)) : Live N := calls.foldl step {}

variable (H : Host) (parseUuid : Str → Option Uuid)

omit [DecidableEq N] in
theorem worldStateBaseline_cons :
    worldStateBaseline (worldStateEnv H parseUuid) (record :: persisted) =
      worldStateStep (worldStateEnv H parseUuid) (worldStateBaseline (worldStateEnv H parseUuid) persisted) record := by
  rw [worldStateBaseline, List.reverse_cons, List.foldl_append]
  rfl

/-- One call keeps the replayed baseline and the live one equal. -/
theorem step_replays {live : Live N}
    (h : worldStateBaseline (worldStateEnv H parseUuid) live.persisted = live.baseline) :
    worldStateBaseline (worldStateEnv H parseUuid) (step live call).persisted = (step live call).baseline := by
  cases call with
  | replace =>
    rw [step, worldStateBaseline_cons]
    rfl
  | updateWorldState world =>
    have hn : world.snapshot.intoValue.1.nullFree = true := (collectSections_spec world.sections).2
    cases hb : live.baseline with
    | none =>
      simp only [step, updateWorldState, hb, Option.elim_some, worldStateBaseline_cons]
      rfl
    | some prev =>
      simp only [step, updateWorldState, hb]
      cases hp : world.snapshot.mergePatchFrom prev with
      | none =>
        have hs := intoValue_injective (createPatch_eq_none.mp hp)
        rw [Option.map_none, Option.elim_none, h, hb, hs]
      | some pt =>
        rw [Option.map_some, Option.elim_some, worldStateBaseline_cons, h, hb]
        exact applyMergePatch_mergePatchFrom hn hp

theorem run_replays (calls : List (Call N)) :
    worldStateBaseline (worldStateEnv H parseUuid) (run calls).persisted = (run calls).baseline := by
  induction calls using List.reverseRecOn with
  | nil => rfl
  | append_singleton calls call ih =>
    rw [run, List.foldl_append]
    exact step_replays H parseUuid ih

/-- Merge patches replay exactly: value by value, and along every run of the live history. -/
theorem merge_patches_replay :
    (∀ previous current : Json N, previous.1.nullFree = true → current.1.nullFree = true →
      (createMergePatch previous.1 current.1 = none ↔ previous = current) ∧
        ∀ patch, createMergePatch previous.1 current.1 = some patch →
          applyMergePatchValue previous.1 patch = current.1) ∧
      ∀ calls : List (Call N),
        worldStateBaseline (worldStateEnv H parseUuid) (run calls).persisted = (run calls).baseline := by
  refine ⟨fun previous current _ hn => ⟨?_, fun patch hp => ?_⟩, run_replays H parseUuid⟩
  · rw [createMergePatch_eq_none, Subtype.ext_iff]
  · exact applyMergePatchValue_createMergePatch previous.2 current.2 hn hp

def worldBefore : WorldStateSections Nat where
  sections :=
    [("env".toList, some ⟨.object [("cwd".toList, .string "a".toList), ("shell".toList, .string "sh".toList)], by decide⟩),
      ("tools".toList, some ⟨.array [.null], by decide⟩)]

def worldAfter : WorldStateSections Nat where
  sections :=
    [("env".toList, some ⟨.object [("cwd".toList, .string "b".toList), ("shell".toList, .null)], by decide⟩),
      ("model".toList, some ⟨.number 1, by decide⟩), ("tools".toList, none)]

def nestedPatch : Value Nat :=
  .object [("env".toList, .object [("cwd".toList, .string "b".toList), ("shell".toList, .null)]),
    ("model".toList, .number 1), ("tools".toList, .null)]

/-- Two updates, the second one as a patch, and after a replacement two more. -/
def updatesAndReplacement : List (Call Nat) :=
  [.updateWorldState worldBefore, .updateWorldState worldAfter, .replace, .updateWorldState worldAfter,
    .updateWorldState worldBefore]

theorem nested_change_replays :
    createMergePatch worldBefore.snapshot.intoValue.1 worldAfter.snapshot.intoValue.1 = some nestedPatch ∧
      applyMergePatchValue worldBefore.snapshot.intoValue.1 nestedPatch = worldAfter.snapshot.intoValue.1 ∧
      (run updatesAndReplacement).persisted.length = 5 ∧
      worldStateBaseline (worldStateEnv PlainReplay.plainEnv.toHost fun _ => none)
        (run updatesAndReplacement).persisted = some worldBefore.snapshot := by
  obtain ⟨hpatches, hruns⟩ := merge_patches_replay (N := Nat) PlainReplay.plainEnv.toHost fun _ => none
  have hpatch : createMergePatch worldBefore.snapshot.intoValue.1 worldAfter.snapshot.intoValue.1 = some nestedPatch := by
    decide
  exact ⟨hpatch, (hpatches _ _ (by decide) (by decide)).2 _ hpatch, by decide, hruns updatesAndReplacement⟩

end Replay

end WorldState
