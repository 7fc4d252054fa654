import Ycode.NetworkPolicy
import Ycode.OrderedMap

/-!
# Merging configuration layers

A layer of the configuration is a TOML table. Merging an overlay into a base goes down the tables that both have and
takes the value of the overlay everywhere else. Two tables have their keys normalized first, and the multi-agent
feature may be a boolean or a table: the boolean is the `enabled` entry of the table.
-/
namespace ConfigMerge

open RustStr OrderedMap NetworkPolicy

/-- Numbers and dates are of any type. -/
inductive TomlValue (N : Type) where
  | string (text : Str)
  | boolean (value : Bool)
  | scalar (value : N)
  | array (items : List (TomlValue N))
  | table (entries : List (Str × TomlValue N))

abbrev Table (N : Type) := List (Str × TomlValue N)

variable {N : Type}

def TomlValue.isBoolean : TomlValue N → Bool
  | .boolean _ => true
  | _ => false

/-- Induction over the tables of a value; arrays count as leaves. -/
theorem TomlValue.tableInduction {P : TomlValue N → Prop} (string : ∀ text, P (.string text))
    (boolean : ∀ val, P (.boolean val)) (scalar : ∀ val, P (.scalar val)) (array : ∀ xs, P (.array xs))
    (table : ∀ es, (∀ e ∈ es, P e.2) → P (.table es)) (v : TomlValue N) : P v := by
  refine @TomlValue.rec N P (fun _ => True) (fun es => ∀ e ∈ es, P e.2) (fun e => P e.2)
    string boolean scalar (fun xs _ => array xs) table
    trivial (fun _ _ _ _ => trivial) (fun e he => nomatch he) ?_ (fun _ _ hv => hv) v
  intro first rest hf hr
  rw [List.forall_mem_cons]
  exact ⟨hf, hr⟩

section Merge

/-- How keys are normalized: what the host patterns ask of other libraries, and `str::to_lowercase`. -/
structure KeyRules where
  libs : Libraries
  toLowercase : Str → Str

def isMultiAgentV2FeaturePath (path : List Str) : Bool := path = ["features".toList, "multi_agent_v2".toList]

def isShellEnvironmentFiltersPath (path : List Str) : Bool :=
  path = ["shell_environment_policy".toList, "filters".toList]

def isPermissionNetworkDomainsPath (path : List Str) : Bool :=
  match path with
  | [permissions, _, network, domains] =>
    permissions = "permissions".toList && network = "network".toList && domains = "domains".toList
  | _ => false

variable {N β : Type} (rules : KeyRules)

def normalizeNetworkDomainKeys (table : List (Str × β)) : List (Str × β) := rekey (normalizeHost rules.libs) table

def normalizeCaseInsensitiveKeys (table : List (Str × β)) : List (Str × β) := rekey rules.toLowercase table

/-- The table with the keys that the merge uses at the path. -/
def normalizeKeys (path : List Str) (table : List (Str × β)) : List (Str × β) :=
  let table := if isPermissionNetworkDomainsPath path then normalizeNetworkDomainKeys rules table else table
  if isShellEnvironmentFiltersPath path then normalizeCaseInsensitiveKeys rules table else table

/-- A boolean in the place of a feature table. -/
def enabledTable (enabled : Bool) : Table N := [("enabled".toList, .boolean enabled)]

/-- A boolean feature becomes a table when a table is merged into it. -/
def expandFeature (path : List Str) (base : TomlValue N) : TomlValue N :=
  match base with
  | .boolean enabled => if isMultiAgentV2FeaturePath path then .table (enabledTable enabled) else base
  | _ => base

abbrev Merger (N : Type) := List Str → TomlValue N → TomlValue N

mutual

/-- How an overlay goes into the base at a path. The entries of an overlay table carry the way they are merged. -/
def mergeInto : TomlValue N → Merger N
  | .table overlay, path, base =>
    match expandFeature path base with
    | .table table =>
      .table (OrderedMap.overlay Prod.fst
        (fun key existing (entry : TomlValue N × Merger N) => entry.2 (path ++ [key]) existing)
        (normalizeKeys rules path table) (normalizeKeys rules path (withMergers overlay)))
    | _ => .table overlay
  | .boolean enabled, path, base =>
    match base with
    | .table table =>
      if isMultiAgentV2FeaturePath path then .table (insert "enabled".toList (.boolean enabled) table)
      else .boolean enabled
    | _ => .boolean enabled
  | .string text, _, _ => .string text
  | .scalar value, _, _ => .scalar value
  | .array items, _, _ => .array items

def withMergers : Table N → List (Str × TomlValue N × Merger N)
  | [] => []
  | (key, value) :: entries => (key, value, mergeInto value) :: withMergers entries

end

def mergeTomlValuesAtPath (base overlay : TomlValue N) (path : List Str) : TomlValue N := mergeInto rules overlay path base

def mergeTomlValues (base overlay : TomlValue N) : TomlValue N := mergeTomlValuesAtPath rules base overlay []

/-- The regular fields of the layers, the lowest one first. -/
def composeLayers (layers : List (TomlValue N)) : TomlValue N := layers.foldl (mergeTomlValues rules) (.table [])

end Merge

section Views

/-- The table that a value stands for at a path. -/
def asTable (path : List Str) : TomlValue N → Option (Table N)
  | .table entries => some entries
  | .boolean enabled => if isMultiAgentV2FeaturePath path then some (enabledTable enabled) else none
  | _ => none

/-- The tables merged entry by entry. -/
def mergeTables (rules : KeyRules) (path : List Str) (base overlay : Table N) : Table N :=
  OrderedMap.overlay id (fun key existing value => mergeTomlValuesAtPath rules existing value (path ++ [key]))
    (normalizeKeys rules path base) (normalizeKeys rules path overlay)

theorem withMergers_eq (es : Table N) : withMergers rules es = es.map fun e => (e.1, e.2, mergeInto rules e.2) := by
  induction es with
  | nil => rfl
  | cons e es ih => rw [withMergers, ih, List.map_cons]

theorem normalizeKeys_map (f : β → γ) (tab : List (Str × β)) :
    normalizeKeys rules path (tab.map fun e => (e.1, f e.2)) =
      (normalizeKeys rules path tab).map fun e => (e.1, f e.2) := by
  unfold normalizeKeys normalizeNetworkDomainKeys normalizeCaseInsensitiveKeys
  split
  · split
    · rw [rekey_map, rekey_map]
    · rw [rekey_map]
  · split
    · rw [rekey_map]
    · rfl

/-- A table goes into the table that the base stands for, or takes the place of the base. -/
theorem merge_overlay_table (base : TomlValue N) (overlay : Table N) :
    mergeTomlValuesAtPath rules base (.table overlay) path =
      match asTable path base with
      | some table => .table (mergeTables rules path table overlay)
      | none => .table overlay := by
  have hf : mergeTomlValuesAtPath rules base (.table overlay) path =
      match expandFeature path base with
      | .table table => .table (mergeTables rules path table overlay)
      | _ => .table overlay := by
    rw [mergeTomlValuesAtPath, mergeInto, withMergers_eq, normalizeKeys_map fun v => (v, mergeInto rules v)]
    cases expandFeature path base with
    | table table =>
      simp only
      rw [overlay_map fun v => (v, mergeInto rules v)]
      rfl
    | _ => rfl
  rw [hf]
  cases base with
  | boolean en =>
    rw [expandFeature, asTable]
    by_cases hm : isMultiAgentV2FeaturePath path = true
    · rw [if_pos hm, if_pos hm]
    · rw [if_neg hm, if_neg hm]
  | _ => rfl

section

variable (h : isMultiAgentV2FeaturePath path = true)
include h

/-- The paths with rules of their own are apart from each other. -/
theorem multi_not_special :
    isPermissionNetworkDomainsPath path = false ∧ isShellEnvironmentFiltersPath path = false := by
  rw [of_decide_eq_true h]
  exact ⟨rfl, by decide⟩

theorem not_multi_below (key : Str) : isMultiAgentV2FeaturePath (path ++ [key]) = false := by
  refine decide_eq_false fun he => ?_
  rw [of_decide_eq_true h] at he
  simpa using congrArg List.length he

/-- The entry of a boolean feature is a leaf. -/
theorem get_enabledTable
    (hx : get key (enabledTable enabled) = some x) : x = .boolean enabled ∧ asTable (path ++ [key]) x = none := by
  rw [enabledTable, get_cons] at hx
  split at hx
  · cases hx
    exact ⟨rfl, if_neg (by simp [not_multi_below h])⟩
  · cases hx

theorem normalizeKeys_multi (table : List (Str × β)) : normalizeKeys rules path table = table := by
  obtain ⟨hd, hf⟩ := multi_not_special h
  simp [normalizeKeys, hd, hf]

end

theorem not_multi_of_asTable (h : asTable path (.boolean enabled : TomlValue N) = none) :
    isMultiAgentV2FeaturePath path = false := by
  rw [asTable] at h
  split at h
  · cases h
  · simp_all

theorem merge_overlay_leaf (h : asTable path v = none) (base : TomlValue N) :
    mergeTomlValuesAtPath rules base v path = v := by
  cases v with
  | table es => cases h
  | boolean en =>
    cases base with
    | table es => simp [mergeTomlValuesAtPath, mergeInto, not_multi_of_asTable h]
    | _ => rfl
  | _ => rfl

theorem merge_into_leaf (h : asTable path base = none) (v : TomlValue N) :
    mergeTomlValuesAtPath rules base v path = v := by
  cases v with
  | table es => rw [merge_overlay_table, h]
  | boolean en =>
    cases base with
    | table es => cases h
    | _ => rfl
  | _ => rfl

theorem merge_boolean_table {table : Table N} (hm : isMultiAgentV2FeaturePath path = true) :
    mergeTables rules path table (enabledTable enabled) = insert "enabled".toList (.boolean enabled) table := by
  have hb : asTable (path ++ ["enabled".toList]) (.boolean enabled : TomlValue N) = none :=
    if_neg (by rw [not_multi_below hm]; simp)
  rw [mergeTables, normalizeKeys_multi hm, normalizeKeys_multi hm, enabledTable, overlay_cons]
  change insert _ _ _ = _
  congr 1
  cases get "enabled".toList table with
  | none => rfl
  | some existing => exact merge_overlay_leaf hb existing

/-- Where both sides stand for tables, so does the merged value, and it is a boolean only if both are. -/
theorem merge_tables (rules : KeyRules)
    (hb : asTable path base = some baseTable) (hv : asTable path v = some table) :
    asTable path (mergeTomlValuesAtPath rules base v path) = some (mergeTables rules path baseTable table) ∧
      (mergeTomlValuesAtPath rules base v path).isBoolean = (base.isBoolean && v.isBoolean) := by
  cases v with
  | table es =>
    cases hv
    rw [merge_overlay_table, hb]
    exact ⟨rfl, (Bool.and_false _).symm⟩
  | boolean en =>
    have hm : isMultiAgentV2FeaturePath path = true := by
      by_contra hm
      rw [asTable, if_neg hm] at hv
      cases hv
    rw [asTable, if_pos hm] at hv
    cases hv
    rw [merge_boolean_table hm]
    cases base with
    | table es =>
      cases hb
      have hmerge : mergeTomlValuesAtPath rules (.table baseTable) (.boolean en) path =
          .table (insert "enabled".toList (.boolean en) baseTable) := by
        exact if_pos hm
      rw [hmerge]
      exact ⟨rfl, rfl⟩
    | boolean old =>
      rw [asTable, if_pos hm] at hb
      cases hb
      refine ⟨?_, rfl⟩
      change asTable path (.boolean en) = _
      rw [asTable, if_pos hm]
      rfl
    | _ => cases hb
  | _ => cases hv

/-- A value is known by the table it stands for and whether it is a boolean. -/
theorem eq_of_asTable {table : Table N} (hv : asTable path v = some table)
    (hw : asTable path w = some table) (hb : v.isBoolean = w.isBoolean) : v = w := by
  have hr : ∀ (u : TomlValue N), asTable path u = some table → u = .table table ∨
      ∃ enabled, u = .boolean enabled ∧ table = enabledTable enabled := by
    intro u hu
    cases u with
    | table es => exact .inl (congrArg TomlValue.table (Option.some.inj hu))
    | boolean enabled =>
      rw [asTable] at hu
      split at hu
      · exact .inr ⟨enabled, rfl, (Option.some.inj hu).symm⟩
      · cases hu
    | _ => cases hu
  rcases hr v hv with rfl | ⟨enabled, rfl, ht⟩
  · rcases hr w hw with rfl | ⟨enabled, rfl, _⟩
    · rfl
    · cases hb
  · rcases hr w hw with rfl | ⟨x, rfl, ho⟩
    · cases hb
    · rw [ht] at ho
      simp only [enabledTable, List.cons.injEq, Prod.mk.injEq, TomlValue.boolean.injEq, and_true, true_and] at ho
      rw [ho]

end Views

end ConfigMerge
