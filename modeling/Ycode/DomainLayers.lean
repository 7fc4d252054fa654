import Ycode.ConfigMerge
import Ycode.HostNormalization
import Ycode.PolicyConstraints

/-!
# Domain permissions of merged layers

The domains of a permission profile are a table from host patterns to permissions, and of several patterns for one
host the strongest permission counts. A merge of two such tables first normalizes the patterns of each layer, and of
several spellings of a host only the last one is left. So a host keeps its permission exactly if the last spelling in
the layer that decides about it has the strongest permission, and if one normalization is enough for its spellings.
-/
namespace DomainLayers

open RustStr OrderedMap NetworkPolicy PolicyConstraints HostNormalization ConfigMerge List

variable {N : Type}

section Permissions

/-- The permission that a value of the table names. -/
def permissionOf : TomlValue N → Option NetworkDomainPermission
  | .string text =>
    if text = "none".toList then some .none
    else if text = "allow".toList then some .allow
    else if text = "deny".toList then some .deny
    else none
  | _ => none

/-- Deny over allow over none; a value that names no permission has no strength. -/
def strength (v : TomlValue N) : Nat :=
  match permissionOf v with
  | some permission => permission.rank + 1
  | none => 0

variable (libs : Libraries)

/-- The strongest permission among the keys that normalize to the host. -/
def effective (table : Table N) (host : Str) : Nat :=
  ((spellings (normalizeHost libs) host table).map fun entry => strength entry.2).foldr max 0

def Mentions (table : Table N) (host : Str) : Prop := ∃ key ∈ keys table, normalizeHost libs key = host

instance (table : Table N) (host : Str) : Decidable (Mentions libs table host) :=
  inferInstanceAs (Decidable (∃ key ∈ keys table, _))

/-- The permission of the last spelling of the host. -/
def lastStrength (table : Table N) (host : Str) : Nat :=
  match (spellings (normalizeHost libs) host table).getLast? with
  | some entry => strength entry.2
  | none => 0

/-- The layer that decides about a host: the overlay if it mentions it. -/
def deciding (base overlay : Table N) (host : Str) : Table N := if Mentions libs overlay host then overlay else base

/-- Merging keeps every permission: one normalization is enough for the hosts that have a permission, and the last
spelling in the layer that decides has the strongest permission there. -/
structure KeepsPermissions (base overlay : Table N) : Prop where
  stable : ∀ host, 0 < effective libs (deciding libs base overlay host) host → normalizeHost libs host = host
  last : ∀ host, lastStrength libs (deciding libs base overlay host) host =
    effective libs (deciding libs base overlay host) host

end Permissions

/-- The keys of every table are distinct. -/
inductive WellFormed : TomlValue N → Prop
  | leaf {v : TomlValue N} (h : ∀ entries, v ≠ .table entries) : WellFormed v
  | table {entries : Table N} (hnodup : (keys entries).Nodup) (hvalues : ∀ entry ∈ entries, WellFormed entry.2) :
      WellFormed (.table entries)

/-- The table at a key path. -/
def tableAt : List Str → TomlValue N → Option (Table N)
  | [], .table entries => some entries
  | key :: rest, .table entries => (get key entries).bind (tableAt rest)
  | _, _ => none

/-- A value on the path is no table. -/
def blocks : List Str → TomlValue N → Bool
  | [], .table _ => false
  | key :: rest, .table entries =>
    match get key entries with
    | some v => blocks rest v
    | none => false
  | _, _ => true

def domainsPath (profile : Str) : List Str := ["permissions".toList, profile, "network".toList, "domains".toList]

def domainsOf (profile : Str) (layer : TomlValue N) : Table N := (tableAt (domainsPath profile) layer).getD []

/-- The overlay decides about the hosts that it mentions, and every other host keeps its permission. -/
structure OnlyMentioned (libs : Libraries) (base overlay merged : Table N) : Prop where
  others : ∀ host, ¬Mentions libs overlay host → effective libs merged host = effective libs base host
  mentioned : ∀ key ∈ keys overlay,
    effective libs merged (normalizeHost libs key) = effective libs overlay (normalizeHost libs key)

/-- What the layers have to be like for the merge to leave unmentioned hosts alone. -/
def Careful (libs : Libraries) (profile : Str) (base overlay : TomlValue N) : Prop :=
  match tableAt (domainsPath profile) base, tableAt (domainsPath profile) overlay with
  | some baseTable, some table => KeepsPermissions libs baseTable table
  | some baseTable, none => blocks (domainsPath profile) overlay = true → ∀ entry ∈ baseTable, strength entry.2 = 0
  | none, _ => True

theorem foldr_max_mem {values : List Nat} (h : 0 < values.foldr max 0) : values.foldr max 0 ∈ values := by
  induction values with
  | nil => cases h
  | cons first values ih =>
    rw [foldr_cons] at h ⊢
    by_cases hle : values.foldr max 0 ≤ first
    · rw [Nat.max_eq_left hle]
      exact mem_cons_self
    · rw [Nat.max_eq_right (by omega)]
      exact mem_cons_of_mem _ (ih (by omega))

theorem strength_le_effective {tab : Table N} {e : Str × TomlValue N} (h : e ∈ tab) :
    strength e.2 ≤ effective libs tab (normalizeHost libs e.1) :=
  le_max_of_le' 0 (mem_map.mpr ⟨e, mem_filter.mpr ⟨h, decide_eq_true rfl⟩, rfl⟩) le_rfl

theorem exists_of_effective_pos {host : Str} (h : 0 < effective libs table host) :
    ∃ e ∈ table, normalizeHost libs e.1 = host ∧ strength e.2 = effective libs table host := by
  obtain ⟨e, he, hs⟩ := mem_map.mp (foldr_max_mem h)
  obtain ⟨hm, hh⟩ := mem_filter.mp he
  exact ⟨e, hm, of_decide_eq_true hh, hs⟩

theorem effective_eq_zero {tab : Table N} {host : Str}
    (h : ∀ e ∈ tab, normalizeHost libs e.1 = host → strength e.2 = 0) :
    effective libs tab host = 0 := by
  by_contra hne
  obtain ⟨e, he, hh, hs⟩ := exists_of_effective_pos (Nat.pos_of_ne_zero hne)
  exact hne (hs.symm.trans (h e he hh))

theorem lastStrength_le_effective : lastStrength libs table host ≤ effective libs table host := by
  unfold lastStrength
  split
  · rename_i e hl
    obtain ⟨hm, hh⟩ := mem_filter.mp (mem_of_getLast? hl)
    rw [← of_decide_eq_true hh]
    exact strength_le_effective hm
  · exact Nat.zero_le _

theorem mentions_iff :
    Mentions libs table host ↔ (spellings (normalizeHost libs) host table).getLast?.isSome = true := by
  rw [getLast?_isSome]
  constructor
  · rintro ⟨key, hk, hh⟩
    obtain ⟨e, he, rfl⟩ := mem_map.mp hk
    exact ne_nil_of_mem (mem_filter.mpr ⟨he, decide_eq_true hh⟩)
  · intro hne
    obtain ⟨e, he⟩ := exists_mem_of_ne_nil _ hne
    obtain ⟨hm, hh⟩ := mem_filter.mp he
    exact ⟨e.1, mem_map_of_mem hm, of_decide_eq_true hh⟩

/-- A value that is merged over another one names the permission that it names alone. -/
theorem strength_merge : strength (mergeTomlValuesAtPath rules old v path) = strength v := by
  cases v with
  | table es =>
    rw [merge_overlay_table]
    split <;> rfl
  | boolean en =>
    cases old with
    | table es =>
      rw [mergeTomlValuesAtPath, mergeInto]
      split <;> rfl
    | _ => rfl
  | _ => rfl

section Merged

variable {base overlay : Table N}

section

variable (hpath : isPermissionNetworkDomainsPath path = true)
include hpath

theorem get_mergedDomains : get key (mergeTables rules path base overlay) =
      combined id (fun key existing v => mergeTomlValuesAtPath rules existing v (path ++ [key])) key
        ((spellings (normalizeHost rules.libs) key base).getLast?.map Prod.snd)
        ((spellings (normalizeHost rules.libs) key overlay).getLast?.map Prod.snd) := by
  have hf : isShellEnvironmentFiltersPath path = false := by
    refine decide_eq_false fun he => ?_
    rw [he] at hpath
    cases hpath
  have hk : ∀ table : Table N, normalizeKeys rules path table = rekey (normalizeHost rules.libs) table := by
    intro table
    rw [normalizeKeys, if_pos hpath, hf]
    rfl
  rw [mergeTables, hk, hk, get_overlay (nodup_rekey _ _), get_rekey, get_rekey]

/-- The permission under a key of the merged table: that of the last spelling in the layer that decides. -/
theorem strength_merged (h : get key (mergeTables rules path base overlay) = some v) :
    strength v = lastStrength rules.libs (deciding rules.libs base overlay key) key := by
  rw [get_mergedDomains hpath] at h
  by_cases hm : Mentions rules.libs overlay key
  · rw [deciding, if_pos hm, lastStrength]
    obtain ⟨e, hl⟩ := Option.isSome_iff_exists.mp (mentions_iff.mp hm)
    rw [hl] at h ⊢
    cases hb : (spellings (normalizeHost rules.libs) key base).getLast? with
    | none =>
      rw [hb] at h
      cases h
      rfl
    | some old =>
      rw [hb] at h
      cases h
      exact strength_merge
  · rw [deciding, if_neg hm, lastStrength]
    have hn : (spellings (normalizeHost rules.libs) key overlay).getLast? = none := by
      rw [mentions_iff] at hm
      simpa using hm
    rw [hn] at h
    cases hb : (spellings (normalizeHost rules.libs) key base).getLast? with
    | none =>
      rw [hb] at h
      cases h
    | some old =>
      rw [hb] at h
      cases h
      rfl

theorem get_merged_isSome (h : 0 < lastStrength rules.libs (deciding rules.libs base overlay key) key) :
    (get key (mergeTables rules path base overlay)).isSome = true := by
  rw [get_mergedDomains hpath]
  unfold lastStrength deciding at h
  by_cases hm : Mentions rules.libs overlay key
  · obtain ⟨e, hl⟩ := Option.isSome_iff_exists.mp (mentions_iff.mp hm)
    rw [hl]
    cases (spellings (normalizeHost rules.libs) key base).getLast? <;> rfl
  · rw [if_neg hm] at h
    cases hb : (spellings (normalizeHost rules.libs) key base).getLast? with
    | none =>
      rw [hb] at h
      cases h
    | some old => cases (spellings (normalizeHost rules.libs) key overlay).getLast? <;> rfl

theorem nodup_merged : (keys (mergeTables rules path base overlay)).Nodup := by
  refine nodup_overlay ?_ _
  rw [normalizeKeys, if_pos hpath]
  split
  all_goals exact nodup_rekey _ _

/-- If one normalization is enough, the permission of a host in the merged table is the one under the host itself. -/
theorem effective_merged (ht : ∀ host, 0 < effective rules.libs (deciding rules.libs base overlay host) host →
      normalizeHost rules.libs host = host) (host : Str) :
    effective rules.libs (mergeTables rules path base overlay) host =
      lastStrength rules.libs (deciding rules.libs base overlay host) host := by
  have hd : ∀ key v, get key (mergeTables rules path base overlay) = some v → 0 < strength v →
      normalizeHost rules.libs key = key := by
    intro key v hv hp
    rw [strength_merged hpath hv] at hp
    exact ht key (Nat.lt_of_lt_of_le hp (lastStrength_le_effective))
  apply Nat.le_antisymm
  · -- an entry that counts for the host stands under the host
    by_cases hp : 0 < effective rules.libs (mergeTables rules path base overlay) host
    · obtain ⟨⟨key, v⟩, he, hh, hs⟩ := exists_of_effective_pos hp
      have hg := get_of_mem (nodup_merged hpath) he
      have hk : normalizeHost rules.libs key = key := hd key v hg (hs ▸ hp)
      obtain rfl : key = host := hk.symm.trans hh
      exact Nat.le_of_eq (hs.symm.trans (strength_merged hpath hg))
    · omega
  · by_cases hp : 0 < lastStrength rules.libs (deciding rules.libs base overlay host) host
    · obtain ⟨v, hv⟩ := Option.isSome_iff_exists.mp (get_merged_isSome hpath hp)
      have hs := strength_merged hpath hv
      have hk := hd host v hv (hs ▸ hp)
      have hle : strength v ≤ effective rules.libs (mergeTables rules path base overlay) (normalizeHost rules.libs host) :=
        strength_le_effective (mem_of_get hv)
      rw [hk] at hle
      omega
    · omega

/-- If every host has the permission of the layer that decides, one normalization is enough: a host that loses
letters would take its permission from a longer one, and that one from a still longer one. -/
theorem stable_of_effective (h : ∀ host, effective rules.libs (mergeTables rules path base overlay) host =
      effective rules.libs (deciding rules.libs base overlay host) host) (host : Str)
    (hp : 0 < effective rules.libs (deciding rules.libs base overlay host) host) :
    normalizeHost rules.libs host = host := by
  have ho : ∀ host, 0 < effective rules.libs (deciding rules.libs base overlay host) host →
      normalizeHost rules.libs host ≠ host → ∃ key ∈ keys (mergeTables rules path base overlay),
        0 < effective rules.libs (deciding rules.libs base overlay key) key ∧
          normalizeHost rules.libs key ≠ key ∧ host.length < key.length := by
    intro host hp hu
    obtain ⟨⟨key, v⟩, he, hh, hs⟩ := exists_of_effective_pos (Nat.lt_of_lt_of_eq hp (h host).symm)
    have hne : normalizeHost rules.libs key ≠ key := by
      rintro hsame
      obtain rfl : key = host := hsame.symm.trans hh
      exact hu hsame
    have hg := get_of_mem (nodup_merged hpath) he
    have hd : 0 < effective rules.libs (deciding rules.libs base overlay key) key := by
      have hle : strength v ≤ effective rules.libs (deciding rules.libs base overlay key) key := by
        rw [strength_merged hpath hg]
        exact lastStrength_le_effective
      have hv : strength v = effective rules.libs (mergeTables rules path base overlay) host := hs
      rw [h host] at hv
      omega
    refine ⟨key, mem_map_of_mem he, hd, hne, ?_⟩
    obtain ⟨e, _, hi, _⟩ := exists_of_effective_pos hd
    have hsub := (again_sublist rules.libs e.1).trans (trim_sublist _)
    rw [hi] at hsub
    exact hh ▸ Nat.lt_of_le_of_ne hsub.length_le fun hl => hne (hsub.eq_of_length hl)
  by_contra hu
  have hc : ∀ n, ∃ key ∈ keys (mergeTables rules path base overlay),
      0 < effective rules.libs (deciding rules.libs base overlay key) key ∧
        normalizeHost rules.libs key ≠ key ∧ n ≤ key.length := by
    intro n
    induction n with
    | zero =>
      obtain ⟨key, hm, hk, hne, _⟩ := ho host hp hu
      exact ⟨key, hm, hk, hne, Nat.zero_le _⟩
    | succ n ih =>
      obtain ⟨key, _, hk, hne, hn⟩ := ih
      obtain ⟨next, hm, hnext, hn', hlt⟩ := ho key hk hne
      exact ⟨next, hm, hnext, hn', by omega⟩
  obtain ⟨key, hm, _, _, hl⟩ := hc
    (((keys (mergeTables rules path base overlay)).map List.length).foldr max 0 + 1)
  have hb := le_max_of_le' 0 (mem_map_of_mem (f := List.length) hm) le_rfl
  omega

theorem keepsPermissions_iff : OnlyMentioned rules.libs base overlay (mergeTables rules path base overlay) ↔
      KeepsPermissions rules.libs base overlay := by
  have hd : OnlyMentioned rules.libs base overlay (mergeTables rules path base overlay) ↔
      ∀ host, effective rules.libs (mergeTables rules path base overlay) host =
        effective rules.libs (deciding rules.libs base overlay host) host := by
    constructor
    · intro h host
      by_cases hm : Mentions rules.libs overlay host
      · rw [deciding, if_pos hm]
        obtain ⟨key, hk, rfl⟩ := hm
        exact h.mentioned key hk
      · rw [deciding, if_neg hm]
        exact h.others host hm
    · intro h
      constructor
      · intro host hm
        rw [h host, deciding, if_neg hm]
      · intro key hk
        have hm : Mentions rules.libs overlay (normalizeHost rules.libs key) := ⟨key, hk, rfl⟩
        rw [h, deciding, if_pos hm]
  rw [hd]
  constructor
  · intro h
    have hs := stable_of_effective hpath h
    refine ⟨hs, fun host => ?_⟩
    rw [← effective_merged hpath hs, h host]
  · intro h host
    rw [effective_merged hpath h.stable, h.last]

end

end Merged

/-- On the way to the end of the path no rule of its own applies, and at the end not the one of the feature. -/
def Ordinary (rules : KeyRules) (here rest : List Str) : Prop :=
  (∀ front, front <+: rest → isMultiAgentV2FeaturePath (here ++ front) = false) ∧
    ∀ front, front <+: rest → front ≠ rest → ∀ table : Table N, normalizeKeys rules (here ++ front) table = table

theorem asTable_of_not_multi (hm : isMultiAgentV2FeaturePath path = false) {v : TomlValue N}
    (h : ∀ es, v ≠ .table es) : asTable path v = none := by
  cases v with
  | table es => exact absurd rfl (h es)
  | boolean en => exact if_neg (by simp [hm])
  | _ => rfl

theorem tableAt_of_leaf {v : TomlValue N} (h : ∀ es, v ≠ .table es) :
    tableAt rest v = none ∧ blocks rest v = true := by
  cases v with
  | table es => exact absurd rfl (h es)
  | _ => cases rest <;> exact ⟨rfl, rfl⟩

theorem leaf_or_table (v : TomlValue N) : (∀ entries, v ≠ .table entries) ∨ ∃ entries, v = .table entries := by
  cases v with
  | table entries => exact .inr ⟨entries, rfl⟩
  | _ => exact .inl (by simp)

theorem WellFormed.entries {es : Table N} (h : WellFormed (.table es)) :
    (keys es).Nodup ∧ ∀ e ∈ es, WellFormed e.2 := by
  cases h with
  | leaf hl => exact absurd rfl (hl es)
  | table hn hv => exact ⟨hn, hv⟩

theorem Ordinary.step (h : Ordinary (N := N) rules he (key :: rest)) :
    Ordinary (N := N) rules (he ++ [key]) rest := by
  refine ⟨fun pre hf => ?_, fun pre hf hne tab => ?_⟩
  · rw [append_assoc]
    exact h.1 (key :: pre) (prefix_cons_inj key |>.mpr hf)
  · rw [append_assoc]
    exact h.2 (key :: pre) (prefix_cons_inj key |>.mpr hf) (by simpa using hne) tab

/-- What is at a path of the merged layer, from what is there in the two layers. -/
def mergedTable (rules : KeyRules) (path : List Str) (blocked : Bool) :
    Option (Table N) → Option (Table N) → Option (Table N)
  | some baseTable, some table => some (mergeTables rules path baseTable table)
  | some baseTable, none => bif blocked then none else some baseTable
  | none, table => table

/-- What the merged layer has at the end of an ordinary path. -/
theorem tableAt_merge {he rest : List Str} {base overlay : TomlValue N} (hpath : Ordinary (N := N) rules he rest)
    (ho : WellFormed overlay) :
    tableAt rest (mergeTomlValuesAtPath rules base overlay he) =
      mergedTable rules (he ++ rest) (blocks rest overlay) (tableAt rest base) (tableAt rest overlay) := by
  induction rest generalizing he base overlay with
  | nil =>
    have hm := hpath.1 [] nil_prefix
    rw [append_nil] at hm ⊢
    rcases leaf_or_table overlay with hl | ⟨tab, rfl⟩
    · rw [merge_overlay_leaf (asTable_of_not_multi hm hl), (tableAt_of_leaf hl).1, (tableAt_of_leaf hl).2]
      cases tableAt [] base <;> rfl
    · rcases leaf_or_table base with hl | ⟨baseTable, rfl⟩
      · rw [merge_into_leaf (asTable_of_not_multi hm hl), (tableAt_of_leaf hl).1]
        rfl
      · rw [merge_overlay_table]
        rfl
  | cons key rest ih =>
    have hm := hpath.1 [] nil_prefix
    rw [append_nil] at hm
    rcases leaf_or_table overlay with hl | ⟨tab, rfl⟩
    · rw [merge_overlay_leaf (asTable_of_not_multi hm hl), (tableAt_of_leaf hl).1, (tableAt_of_leaf hl).2]
      cases tableAt (key :: rest) base <;> rfl
    · rcases leaf_or_table base with hl | ⟨baseTable, rfl⟩
      · rw [merge_into_leaf (asTable_of_not_multi hm hl), (tableAt_of_leaf hl).1]
        rfl
      · have hp := hpath.2 [] nil_prefix (by simp)
        rw [append_nil] at hp
        obtain ⟨hn, hv⟩ := ho.entries
        have hg : mergeTomlValuesAtPath rules (.table baseTable) (.table tab) he = .table
            (OrderedMap.overlay id (fun key old new => mergeTomlValuesAtPath rules old new (he ++ [key]))
              baseTable tab) := by
          rw [merge_overlay_table]
          change TomlValue.table (mergeTables rules he baseTable tab) = _
          rw [mergeTables, hp, hp]
        rw [hg]
        simp only [tableAt, blocks]
        rw [get_overlay hn]
        cases hold : get key baseTable with
        | none => cases get key tab <;> rfl
        | some old =>
          cases hnew : get key tab with
          | none =>
            simp only [combined, Option.bind_some, Option.bind_none]
            cases tableAt rest old <;> rfl
          | some new =>
            have hr := hpath.step
            simp only [combined, Option.bind_some]
            rw [ih hr (hv (key, new) (mem_of_get hnew)), append_assoc, singleton_append]

theorem domainsPath_ordinary : Ordinary (N := N) rules [] (domainsPath profile) := by
  have hm : ∀ path : List Str, path.head? ≠ some "features".toList → isMultiAgentV2FeaturePath path = false :=
    fun path hh => decide_eq_false fun he => hh (by rw [he]; rfl)
  have hi : ∀ path : List Str, path.head? ≠ some "shell_environment_policy".toList →
      isShellEnvironmentFiltersPath path = false :=
    fun path hh => decide_eq_false fun he => hh (by rw [he]; rfl)
  have hfronts : ∀ front, front <+: domainsPath profile →
      front = [] ∨ front = ["permissions".toList] ∨ front = ["permissions".toList, profile] ∨
        front = ["permissions".toList, profile, "network".toList] ∨ front = domainsPath profile := by
    intro front hf
    rw [← mem_inits] at hf
    simpa [domainsPath] using hf
  constructor
  · intro front hf
    refine hm _ ?_
    rcases hfronts front hf with rfl | rfl | rfl | rfl | rfl <;> simp [domainsPath]
  · intro front hf hne tab
    have hd : isPermissionNetworkDomainsPath front = false := by
      rcases hfronts front hf with rfl | rfl | rfl | rfl | rfl
      all_goals first | rfl | exact absurd rfl hne
    have ho : isShellEnvironmentFiltersPath front = false := by
      refine hi _ ?_
      rcases hfronts front hf with rfl | rfl | rfl | rfl | rfl <;> simp [domainsPath]
    rw [nil_append, normalizeKeys, hd, ho]
    rfl

/-- The merge decides only about the hosts that the overlay mentions, exactly if the layers are careful. -/
theorem only_mentioned_iff (rules : KeyRules) (profile : Str) {base overlay : TomlValue N}
    (hoverlay : WellFormed overlay) :
    OnlyMentioned rules.libs (domainsOf profile base) (domainsOf profile overlay)
        (domainsOf profile (mergeTomlValues rules base overlay)) ↔
      Careful rules.libs profile base overlay := by
  have hr : tableAt (domainsPath profile) (mergeTomlValuesAtPath rules base overlay []) = _ :=
    tableAt_merge (domainsPath_ordinary) hoverlay
  have hpath : isPermissionNetworkDomainsPath (domainsPath profile) = true := rfl
  unfold domainsOf Careful
  rw [mergeTomlValues, hr]
  cases hbase : tableAt (domainsPath profile) base with
  | none =>
    refine iff_of_true ⟨fun host hm => ?_, fun key _ => rfl⟩ trivial
    exact effective_eq_zero fun e he hh => absurd ⟨e.1, mem_map_of_mem he, hh⟩ hm
  | some baseTable =>
    cases ho : tableAt (domainsPath profile) overlay with
    | some tab => exact keepsPermissions_iff hpath
    | none =>
      simp only [mergedTable, Option.getD_none, Option.getD_some]
      cases hb : blocks (domainsPath profile) overlay with
      | false => exact iff_of_true ⟨fun _ _ => rfl, fun key hk => by cases hk⟩ (by simp)
      | true =>
        constructor
        · intro h _ e he
          have hle : strength e.2 ≤ effective rules.libs baseTable (normalizeHost rules.libs e.1) :=
            strength_le_effective he
          rw [← h.others _ (by rintro ⟨key, hk, _⟩; cases hk)] at hle
          exact Nat.le_zero.mp hle
        · intro h
          refine ⟨fun host _ => ?_, fun key hk => by cases hk⟩
          exact (effective_eq_zero fun e he _ => h rfl e he).symm

def domainLayer (domains : Table Unit) : TomlValue Unit :=
  .table [("permissions".toList, .table [("work".toList, .table [("network".toList, .table
    [("domains".toList, .table domains)])])])]

theorem wellFormed_domainLayer : WellFormed (domainLayer [(key, .string permission)]) := by
  have ho : ∀ (key : Str) (v : TomlValue Unit), WellFormed v → WellFormed (.table [(key, v)]) := by
    intro key v hv
    refine .table (nodup_singleton _) fun e he => ?_
    cases mem_singleton.mp he
    exact hv
  exact ho _ _ (ho _ _ (ho _ _ (ho _ _ (ho _ _ (.leaf (by simp))))))

theorem lastStrength_one : lastStrength libs [entry] host = effective libs [entry] host := by
  by_cases h : normalizeHost libs entry.1 = host <;> simp [lastStrength, effective, spellings, h]

/-- Each layer names one host, once. -/
theorem one_spelling_each_is_kept :
    OnlyMentioned plainLibraries (domainsOf "work".toList (domainLayer [("A.com".toList, .string "allow".toList)]))
      (domainsOf "work".toList (domainLayer [("b.com".toList, .string "deny".toList)]))
      (domainsOf "work".toList (mergeTomlValues ⟨plainLibraries, id⟩
        (domainLayer [("A.com".toList, .string "allow".toList)])
        (domainLayer [("b.com".toList, .string "deny".toList)]))) := by
  refine (only_mentioned_iff ⟨plainLibraries, id⟩ "work".toList wellFormed_domainLayer).mpr ?_
  have hc : ∀ host, deciding plainLibraries [("A.com".toList, (.string "allow".toList : TomlValue Unit))]
      [("b.com".toList, .string "deny".toList)] host = [("b.com".toList, .string "deny".toList)] ∨
        deciding plainLibraries [("A.com".toList, (.string "allow".toList : TomlValue Unit))]
      [("b.com".toList, .string "deny".toList)] host = [("A.com".toList, .string "allow".toList)] := by
    intro host
    unfold deciding
    split
    · exact .inl rfl
    · exact .inr rfl
  refine ⟨fun host hp => ?_, fun host => ?_⟩
  · obtain ⟨e, he, rfl, _⟩ := exists_of_effective_pos hp
    rcases hc (normalizeHost plainLibraries e.1) with h | h
    all_goals
      rw [h] at he
      cases mem_singleton.mp he
      rfl
  · rcases hc host with h | h
    all_goals
      rw [h]
      exact lastStrength_one

/-- Two spellings of a host: the first one denies it, the second one allows it. -/
def spelledTwice : TomlValue Unit :=
  domainLayer [("Example.com".toList, .string "deny".toList), ("example.com".toList, .string "allow".toList)]

def otherLayer : TomlValue Unit := domainLayer [("other.org".toList, .string "allow".toList)]

/-- A layer that does not mention the host takes its denial away. -/
theorem denied_spelling_is_lost :
    WellFormed otherLayer ∧ ¬Mentions plainLibraries (domainsOf "work".toList otherLayer) "example.com".toList ∧
      effective plainLibraries (domainsOf "work".toList spelledTwice) "example.com".toList =
        strength (.string "deny".toList : TomlValue Unit) ∧
      effective plainLibraries (domainsOf "work".toList (mergeTomlValues ⟨plainLibraries, id⟩ spelledTwice otherLayer))
        "example.com".toList = strength (.string "allow".toList : TomlValue Unit) :=
  ⟨wellFormed_domainLayer, by decide, by decide, by decide⟩

end DomainLayers
