import Ycode.ConfigMerge

/-!
# Laws of configuration layers

Layers that agree on what is a table can be merged in any grouping, a layer that is merged twice in a row counts
once, and each leaf has the value of the last layer that defines it.
-/
namespace ConfigLaws

open RustStr OrderedMap NetworkPolicy ConfigMerge List

variable {N : Type}

/-- The key is the one that the merge uses for it at the path. -/
def NormalizedKey (rules : KeyRules) (path : List Str) (key : Str) : Prop :=
  (isPermissionNetworkDomainsPath path = true → normalizeHost rules.libs key = key) ∧
    (isShellEnvironmentFiltersPath path = true → rules.toLowercase key = key)

/-- The keys of every table are distinct and normalized. -/
inductive WellKeyed (rules : KeyRules) : List Str → TomlValue N → Prop
  | leaf {path : List Str} {v : TomlValue N} (h : ∀ entries, v ≠ .table entries) : WellKeyed rules path v
  | table {path : List Str} {entries : Table N} (hnodup : (keys entries).Nodup)
      (hkeys : ∀ key ∈ keys entries, NormalizedKey rules path key)
      (hvalues : ∀ entry ∈ entries, WellKeyed rules (path ++ [entry.1]) entry.2) :
      WellKeyed rules path (.table entries)

/-- Where both values have a key path, it is a table in both or a leaf in both. A boolean in the place of a feature
table is the table of its `enabled` leaf. -/
inductive Agree : List Str → TomlValue N → TomlValue N → Prop
  | leaves {path : List Str} {v w : TomlValue N} (hv : asTable path v = none) (hw : asTable path w = none) :
      Agree path v w
  | tables {path : List Str} {v w : TomlValue N} {left right : Table N} (hv : asTable path v = some left)
      (hw : asTable path w = some right)
      (hcommon : ∀ key x y, get key left = some x → get key right = some y → Agree (path ++ [key]) x y) :
      Agree path v w

/-- The leaf at a key path. -/
def leafAt (path : List Str) (v : TomlValue N) : List Str → Option (TomlValue N)
  | [] => if (asTable path v).isSome then none else some v
  | key :: rest => ((asTable path v).bind (get key)).bind fun value => leafAt (path ++ [key]) value rest

/-- A table that keeps its keys when it is merged. -/
structure PlainTable (rules : KeyRules) (path : List Str) (table : Table N) : Prop where
  nodup : (keys table).Nodup
  normalized : ∀ key ∈ keys table, NormalizedKey rules path key
  values : ∀ key x, get key table = some x → WellKeyed rules (path ++ [key]) x

theorem PlainTable.normalizeKeys_eq (h : PlainTable rules path table) : normalizeKeys rules path table = table := by
  have ho : isPermissionNetworkDomainsPath path = true → normalizeNetworkDomainKeys rules table = table :=
    fun hp => rekey_of_fixed h.nodup fun key hk => (h.normalized key hk).1 hp
  have hi : isShellEnvironmentFiltersPath path = true → normalizeCaseInsensitiveKeys rules table = table :=
    fun hp => rekey_of_fixed h.nodup fun key hk => (h.normalized key hk).2 hp
  unfold normalizeKeys
  simp only
  split
  · rename_i hf
    split
    · rename_i hd
      rw [ho hd, hi hf]
    · exact hi hf
  · split
    · rename_i hd
      exact ho hd
    · rfl

theorem WellKeyed.plainTable (h : WellKeyed rules path v) {table : Table N}
    (hv : asTable path v = some table) : PlainTable rules path table := by
  cases h with
  | table hn hk hu =>
    cases hv
    exact ⟨hn, hk, fun key x hx => hu (key, x) (mem_of_get hx)⟩
  | leaf hl =>
    cases v with
    | table es => exact absurd rfl (hl es)
    | boolean en =>
      rw [asTable] at hv
      split at hv
      · rename_i hm
        cases hv
        obtain ⟨hd, hf⟩ := multi_not_special hm
        refine ⟨nodup_singleton _, fun key _ => ?_, fun key x hx => ?_⟩
        · exact ⟨fun h => by simp [hd] at h, fun h => by simp [hf] at h⟩
        · rw [(get_enabledTable hm hx).1]
          exact .leaf fun es => by simp
      · cases hv
    | _ => cases hv

theorem mergeTables_eq {base table : Table N} (hbase : PlainTable rules path base) (ht : PlainTable rules path table) :
    mergeTables rules path base table =
      OrderedMap.overlay id (fun key existing v => mergeTomlValuesAtPath rules existing v (path ++ [key]))
        base table := by
  rw [mergeTables, hbase.normalizeKeys_eq, ht.normalizeKeys_eq]

theorem get_mergeTables {base tab : Table N} (hbase : PlainTable rules path base)
    (ht : PlainTable rules path tab) :
    get key (mergeTables rules path base tab) =
      combined id (fun key existing v => mergeTomlValuesAtPath rules existing v (path ++ [key])) key
        (get key base) (get key tab) := by
  rw [mergeTables_eq hbase ht, get_overlay ht.nodup]

/-- The value of a key in the merged table: of one side, or merged. -/
theorem get_mergeTables_cases (hbase : PlainTable rules path base)
    (ht : PlainTable rules path table) {key : Str} {x : TomlValue N}
    (h : get key (mergeTables rules path base table) = some x) :
    get key base = some x ∨ get key table = some x ∨
      ∃ old new, get key base = some old ∧ get key table = some new ∧
        x = mergeTomlValuesAtPath rules old new (path ++ [key]) := by
  rw [get_mergeTables hbase ht] at h
  cases ho : get key base with
  | none =>
    cases hn : get key table with
    | none => rw [ho, hn] at h; cases h
    | some new => rw [ho, hn] at h; exact .inr (.inl h)
  | some old =>
    cases hn : get key table with
    | none => rw [ho, hn] at h; exact .inl h
    | some new =>
      rw [ho, hn] at h
      exact .inr (.inr ⟨old, new, rfl, rfl, (Option.some.inj h).symm⟩)

theorem wellKeyed_of_plainTable (hv : asTable path v = some table) (h : PlainTable rules path table) :
    WellKeyed rules path v := by
  cases v with
  | table es =>
    cases hv
    exact .table h.nodup h.normalized fun e he => h.values e.1 e.2 (get_of_mem h.nodup he)
  | _ => exact .leaf (by simp)

/-- Induction over the tables that a value stands for. -/
theorem viewInduction {P : List Str → TomlValue N → Prop} (leaf : ∀ path v, asTable path v = none → P path v)
    (tables : ∀ path v table, asTable path v = some table →
      (∀ key x, get key table = some x → P (path ++ [key]) x) → P path v) (path : List Str) (v : TomlValue N) :
    P path v := by
  induction v using TomlValue.tableInduction generalizing path with
  | table es ih => exact tables path _ es rfl fun key x hx => ih (key, x) (mem_of_get hx) (path ++ [key])
  | boolean en =>
    by_cases hm : isMultiAgentV2FeaturePath path = true
    · exact tables path _ (enabledTable en) (if_pos hm) fun key x hx =>
        leaf _ x (get_enabledTable hm hx).2
    · exact leaf path _ (if_neg hm)
  | _ => exact leaf path _ rfl

/-- A merged table keeps its keys if the merged values do. -/
theorem PlainTable.merge (hbase : PlainTable rules path base) (ht : PlainTable rules path table)
    (hv : ∀ key old new, get key base = some old → get key table = some new →
      WellKeyed rules (path ++ [key]) (mergeTomlValuesAtPath rules old new (path ++ [key]))) :
    PlainTable rules path (mergeTables rules path base table) := by
  refine ⟨?_, ?_, ?_⟩
  · rw [mergeTables_eq hbase ht]
    exact nodup_overlay hbase.nodup table
  · rw [mergeTables_eq hbase ht, keys_overlay ht.nodup]
    intro key hk
    cases mem_append.mp hk with
    | inl h => exact hbase.normalized key h
    | inr h => exact ht.normalized key (mem_of_mem_filter h)
  · intro key x hx
    rcases get_mergeTables_cases hbase ht hx with ho | hn | ⟨old, new, ho, hn, rfl⟩
    · exact hbase.values key x ho
    · exact ht.values key x hn
    · exact hv key old new ho hn

/-- The merged value has distinct and normalized keys. -/
theorem wellKeyed_merge {v w : TomlValue N} (hv : WellKeyed rules path v) (hw : WellKeyed rules path w) :
    WellKeyed rules path (mergeTomlValuesAtPath rules v w path) := by
  induction path, v using viewInduction generalizing w with
  | leaf path v hl =>
    rw [merge_into_leaf hl]
    exact hw
  | tables path v tab ht ih =>
    cases hover : asTable path w with
    | none =>
      rw [merge_overlay_leaf hover]
      exact hw
    | some overlay =>
      have hbase := hv.plainTable ht
      have ho := hw.plainTable hover
      refine wellKeyed_of_plainTable (merge_tables rules ht hover).1 (hbase.merge ho ?_)
      intro key old new hold hn
      exact ih key old hold (hbase.values key old hold) (ho.values key new hn)

section Laws

variable {a b c : TomlValue N}

/-- Two values that agree are two leaves or two tables. -/
theorem agree_cases (h : Agree path a b) :
    (asTable path a = none ∧ asTable path b = none) ∨
      ∃ left right, asTable path a = some left ∧ asTable path b = some right ∧
        ∀ key x y, get key left = some x → get key right = some y → Agree (path ++ [key]) x y := by
  cases h with
  | leaves ha hb => exact .inl ⟨ha, hb⟩
  | tables ha hb hc => exact .inr ⟨_, _, ha, hb, hc⟩

theorem Agree.common (h : Agree path a b) (ha : asTable path a = some left)
    (hb : asTable path b = some right) {key : Str} {x y : TomlValue N} (hx : get key left = some x)
    (hy : get key right = some y) : Agree (path ++ [key]) x y := by
  rcases agree_cases h with ⟨hn, _⟩ | ⟨left', right', ha', hb', hc⟩
  · rw [ha] at hn
    cases hn
  · rw [ha] at ha'
    rw [hb] at hb'
    cases ha'
    cases hb'
    exact hc key x y hx hy

/-- A value agrees with itself. -/
theorem agree_self (path : List Str) (v : TomlValue N) : Agree path v v := by
  induction path, v using viewInduction with
  | leaf path v hl => exact .leaves hl hl
  | tables path v tab ht ih =>
    refine .tables ht ht fun key x y hx hy => ?_
    rw [hx] at hy
    cases hy
    exact ih key x hx

section

variable (ha : WellKeyed rules path a) (hb : WellKeyed rules path b)
include ha hb

/-- What agrees with two values agrees with the merged one. -/
theorem agree_merge (hab : Agree path a b)
    (hac : Agree path a c) (hbc : Agree path b c) : Agree path (mergeTomlValuesAtPath rules a b path) c := by
  induction path, a using viewInduction generalizing b c with
  | leaf path a hleaf =>
    rw [merge_into_leaf hleaf]
    exact hbc
  | tables path a left hl ih =>
    rcases agree_cases hab with ⟨hn, _⟩ | ⟨left', right, hl', hr, hc⟩
    · rw [hl] at hn
      cases hn
    rcases agree_cases hbc with ⟨hn, _⟩ | ⟨_, third, _, ht, _⟩
    · rw [hr] at hn
      cases hn
    have hbase := ha.plainTable hl
    have ho := hb.plainTable hr
    refine .tables (merge_tables rules hl hr).1 ht fun key x z hx hz => ?_
    rcases get_mergeTables_cases hbase ho hx with hold | hnew | ⟨old, new, hold, hnew, rfl⟩
    · exact hac.common hl ht hold hz
    · exact hbc.common hr ht hnew hz
    · exact ih key old hold (hbase.values key old hold) (ho.values key new hnew)
        (hab.common hl hr hold hnew) (hac.common hl ht hold hz) (hbc.common hr ht hnew hz)

/-- Layers that agree can be merged in any grouping. -/
theorem merge_assoc (hc : WellKeyed rules path c)
    (hab : Agree path a b) (hac : Agree path a c) (hbc : Agree path b c) :
    mergeTomlValuesAtPath rules (mergeTomlValuesAtPath rules a b path) c path =
      mergeTomlValuesAtPath rules a (mergeTomlValuesAtPath rules b c path) path := by
  induction path, a using viewInduction generalizing b c with
  | leaf path a hleaf => rw [merge_into_leaf hleaf, merge_into_leaf hleaf]
  | tables path a left hl ih =>
    rcases agree_cases hab with ⟨hn, _⟩ | ⟨_, right, _, hr, _⟩
    · rw [hl] at hn
      cases hn
    rcases agree_cases hbc with ⟨hn, _⟩ | ⟨_, third, _, ht, _⟩
    · rw [hr] at hn
      cases hn
    have hA := ha.plainTable hl
    have hB := hb.plainTable hr
    have hC := hc.plainTable ht
    have hAB := (wellKeyed_merge ha hb).plainTable (merge_tables rules hl hr).1
    have hBC := (wellKeyed_merge hb hc).plainTable (merge_tables rules hr ht).1
    have hs : mergeTables rules path (mergeTables rules path left right) third =
        mergeTables rules path left (mergeTables rules path right third) := by
      rw [mergeTables_eq hAB hC, mergeTables_eq hA hBC, mergeTables_eq hA hB, mergeTables_eq hB hC]
      refine overlay_assoc hA.nodup hB.nodup hC.nodup fun key x y z hx hy hz => ?_
      exact ih key x hx (hA.values key x hx) (hB.values key y hy) (hC.values key z hz)
        (hab.common hl hr hx hy) (hac.common hl ht hx hz) (hbc.common hr ht hy hz)
    obtain ⟨hab₁, hab₂⟩ := merge_tables rules hl hr
    obtain ⟨hbc₁, hbc₂⟩ := merge_tables rules hr ht
    obtain ⟨habc₁, habc₂⟩ := merge_tables rules hab₁ ht
    obtain ⟨habc₃, habc₄⟩ := merge_tables rules hl hbc₁
    refine eq_of_asTable habc₁ (habc₃.trans (congrArg some hs.symm)) ?_
    rw [habc₂, hab₂, habc₄, hbc₂, Bool.and_assoc]

omit ha hb in
/-- A layer merged into itself stays as it is. -/
theorem merge_self (ha : WellKeyed rules path a) : mergeTomlValuesAtPath rules a a path = a := by
  induction path, a using viewInduction with
  | leaf path a hl => exact merge_into_leaf hl a
  | tables path a table ht ih =>
    have hp := ha.plainTable ht
    obtain ⟨hm, ho⟩ := merge_tables rules ht ht
    have hs : mergeTables rules path table table = table := by
      rw [mergeTables_eq hp hp]
      exact overlay_self hp.nodup fun key x hx => ih key x hx (hp.values key x hx)
    exact eq_of_asTable (hm.trans (congrArg some hs)) ht (ho.trans (Bool.and_self _))

/-- A leaf of the merged value is the one of the overlay, or that of the base where the overlay has none. -/
theorem leafAt_merge (hab : Agree path a b) (place : List Str) :
    leafAt path (mergeTomlValuesAtPath rules a b path) place = (leafAt path b place).or (leafAt path a place) := by
  induction place generalizing path a b with
  | nil =>
    rcases agree_cases hab with ⟨hn, hn'⟩ | ⟨left, right, hl, hr, _⟩
    · rw [merge_overlay_leaf hn', leafAt, leafAt, hn, hn']
      rfl
    · rw [leafAt, leafAt, leafAt, (merge_tables rules hl hr).1, hl, hr]
      rfl
  | cons key rest ih =>
    rcases agree_cases hab with ⟨hn, hn'⟩ | ⟨left, right, hl, hr, _⟩
    · rw [merge_overlay_leaf hn', leafAt, leafAt, hn, hn']
      rfl
    · have hA := ha.plainTable hl
      have hB := hb.plainTable hr
      rw [leafAt, leafAt, leafAt, (merge_tables rules hl hr).1, hl, hr]
      simp only [Option.bind_some]
      rw [get_mergeTables hA hB]
      cases hx : get key left with
      | none =>
        cases hy : get key right with
        | none => rfl
        | some y => exact (Option.or_none).symm
      | some x =>
        cases hy : get key right with
        | none => rfl
        | some y => exact ih (hA.values key x hx) (hB.values key y hy) (hab.common hl hr hx hy)

end

/-- Each leaf of a stack of layers has the value of the last layer that defines it. -/
theorem leafAt_foldl {ls : List (TomlValue N)} (hs : WellKeyed rules [] start)
    (hy : ∀ layer ∈ ls, WellKeyed rules [] layer) (hagree : ∀ layer ∈ ls, Agree [] start layer)
    (hp : ls.Pairwise (Agree [])) :
    leafAt [] (ls.foldl (mergeTomlValues rules) start) place =
      (ls.reverse.findSome? fun layer => leafAt [] layer place).or (leafAt [] start place) := by
  induction ls generalizing start with
  | nil => rfl
  | cons layer ls ih =>
    obtain ⟨hl, hrest⟩ := forall_mem_cons.mp hy
    obtain ⟨hf, hlater⟩ := forall_mem_cons.mp hagree
    obtain ⟨hbelow, hp'⟩ := pairwise_cons.mp hp
    have hm : ∀ other ∈ ls, Agree [] (mergeTomlValues rules start layer) other := fun other ho =>
      agree_merge hs hl hf (hlater other ho) (hbelow other ho)
    have hleaf : leafAt [] (mergeTomlValues rules start layer) place =
        (leafAt [] layer place).or (leafAt [] start place) := leafAt_merge hs hl hf place
    have hr : leafAt [] (ls.foldl (mergeTomlValues rules) (mergeTomlValues rules start layer)) place = _ :=
      ih (wellKeyed_merge hs hl) hrest hm hp'
    rw [foldl_cons, hr, hleaf, reverse_cons, findSome?_append, Option.or_assoc]
    congr 2
    exact findSome?_singleton.symm

theorem leafAt_composeLayers {ls : List (Table N)} (hy : ∀ layer ∈ ls, WellKeyed rules [] (.table layer))
    (hp : ls.Pairwise fun lower upper => Agree [] (.table lower) (.table upper)) :
    leafAt [] (composeLayers rules (ls.map .table)) place =
      (ls.map TomlValue.table).reverse.findSome? fun layer => leafAt [] layer place := by
  have he : WellKeyed rules [] (.table [] : TomlValue N) :=
    .table nodup_nil (fun key hk => by cases hk) fun e hentry => by cases hentry
  have hagree : ∀ layer : Table N, Agree [] (.table []) (.table layer) := fun layer =>
    .tables rfl rfl fun key x y hx _ => by cases hx
  have hw : ∀ layer ∈ ls.map TomlValue.table, WellKeyed rules [] layer := by
    intro layer hl
    obtain ⟨tab, ht, rfl⟩ := mem_map.mp hl
    exact hy tab ht
  have hs : ∀ layer ∈ ls.map TomlValue.table, Agree [] (.table []) layer := by
    intro layer hl
    obtain ⟨tab, ht, rfl⟩ := mem_map.mp hl
    exact hagree tab
  have hn : leafAt [] (.table [] : TomlValue N) place = none := by cases place <;> rfl
  rw [composeLayers, leafAt_foldl he hw hs (pairwise_map.mpr hp), hn, Option.or_none]

/-- Layers that agree on what is a table and have normalized keys: merging is associative, merging a layer twice in a
row is merging it once, and the last layer that defines a leaf gives its value. -/
theorem layering_laws (rules : KeyRules) {a b c : Table N} (ha : WellKeyed rules [] (.table a))
    (hb : WellKeyed rules [] (.table b)) (hc : WellKeyed rules [] (.table c)) (hab : Agree [] (.table a) (.table b))
    (hac : Agree [] (.table a) (.table c)) (hbc : Agree [] (.table b) (.table c)) :
    mergeTomlValues rules (mergeTomlValues rules (.table a) (.table b)) (.table c) =
        mergeTomlValues rules (.table a) (mergeTomlValues rules (.table b) (.table c)) ∧
      mergeTomlValues rules (mergeTomlValues rules (.table a) (.table b)) (.table b) =
        mergeTomlValues rules (.table a) (.table b) ∧
      ∀ place, leafAt [] (mergeTomlValues rules (mergeTomlValues rules (.table a) (.table b)) (.table c)) place =
        (leafAt [] (.table c) place).or ((leafAt [] (.table b) place).or (leafAt [] (.table a) place)) := by
  refine ⟨merge_assoc ha hb hc hab hac hbc, ?_, fun place => ?_⟩
  · have hassoc := merge_assoc ha hb hb hab hab (agree_self [] _)
    rw [merge_self hb] at hassoc
    exact hassoc
  · have hm := leafAt_merge (wellKeyed_merge ha hb) hc (agree_merge ha hb hab hac hbc) place
    rw [leafAt_merge ha hb hab] at hm
    exact hm

end Laws

/-- A table with one entry. -/
def one (key : Str) (v : TomlValue N) : Table N := [(key, v)]

theorem wellKeyed_one (hk : NormalizedKey rules path key) (hv : WellKeyed rules (path ++ [key]) v) :
    WellKeyed rules path (.table (one key v)) := by
  refine .table (nodup_singleton _) (fun x ho => ?_) fun e he => ?_
  · rw [mem_singleton.mp ho]
    exact hk
  · cases mem_singleton.mp he
    exact hv

theorem agree_one (h : Agree (path ++ [key]) v w) : Agree path (.table (one key v)) (.table (one key w)) := by
  refine .tables rfl rfl fun other x y hx hy => ?_
  rw [one, get_cons] at hx hy
  split at hx
  · rename_i hk
    rw [if_pos hk] at hy
    cases hx
    cases hy
    exact hk ▸ h
  · cases hx

theorem agree_booleans : Agree path (.boolean v : TomlValue N) (.boolean w) := by
  by_cases hm : isMultiAgentV2FeaturePath path = true
  · exact .tables (if_pos hm) (if_pos hm) fun key x y hx hy =>
      .leaves (get_enabledTable hm hx).2 (get_enabledTable hm hy).2
  · exact .leaves (if_neg hm) (if_neg hm)

def featureLayer (feature : TomlValue Unit) : Table Unit :=
  one "features".toList (.table (one "multi_agent_v2".toList feature))

def plainRules : KeyRules where
  libs := plainLibraries
  toLowercase := id

theorem normalizedKey_of_other_path (hd : isPermissionNetworkDomainsPath path = false)
    (hf : isShellEnvironmentFiltersPath path = false) : NormalizedKey rules path key :=
  ⟨fun h => by simp [hd] at h, fun h => by simp [hf] at h⟩

theorem wellKeyed_featureLayer (h : WellKeyed plainRules ["features".toList, "multi_agent_v2".toList] feature) :
    WellKeyed plainRules [] (.table (featureLayer feature)) :=
  wellKeyed_one (normalizedKey_of_other_path rfl (by decide))
    (wellKeyed_one (normalizedKey_of_other_path rfl (by decide)) h)

theorem agree_featureLayer (h : Agree ["features".toList, "multi_agent_v2".toList] feature other) :
    Agree [] (.table (featureLayer feature)) (.table (featureLayer other)) :=
  agree_one (agree_one h)

def hintTable : TomlValue Unit := .table (one "hint".toList (.string "delegate".toList))

/-- A boolean, a table and a boolean again: the last boolean is the `enabled` leaf of the table. -/
theorem feature_layers_obey :
    leafAt [] (mergeTomlValues plainRules
        (mergeTomlValues plainRules (.table (featureLayer (.boolean true))) (.table (featureLayer hintTable)))
        (.table (featureLayer (.boolean false))))
      ["features".toList, "multi_agent_v2".toList, "enabled".toList] = some (.boolean false) := by
  have hflag : ∀ v, WellKeyed plainRules [] (.table (featureLayer (.boolean v))) := fun v =>
    wellKeyed_featureLayer (.leaf (by simp))
  have ht : WellKeyed plainRules [] (.table (featureLayer hintTable)) :=
    wellKeyed_featureLayer (wellKeyed_one (normalizedKey_of_other_path rfl (by decide)) (.leaf (by simp)))
  have hc : ∀ (v : Bool) (key : Str) (x y : TomlValue Unit), get key (enabledTable v) = some x →
      get key (one "hint".toList (.string "delegate".toList) : Table Unit) = some y → False := by
    intro v key x y hx hy
    have hk := mem_singleton.mp (get_isSome.mp (Option.isSome_of_eq_some hx))
    have hk' := mem_singleton.mp (get_isSome.mp (Option.isSome_of_eq_some hy))
    have hsame : "enabled".toList = "hint".toList := hk.symm.trans hk'
    exact absurd hsame (by decide)
  have hf : Agree [] (.table (featureLayer (.boolean true))) (.table (featureLayer hintTable)) :=
    agree_featureLayer (.tables rfl rfl fun key x y hx hy => (hc true key x y hx hy).elim)
  have hs : Agree [] (.table (featureLayer hintTable)) (.table (featureLayer (.boolean false))) :=
    agree_featureLayer (.tables rfl rfl fun key x y hx hy => (hc false key y x hy hx).elim)
  have houter : Agree [] (.table (featureLayer (.boolean true))) (.table (featureLayer (.boolean false))) :=
    agree_featureLayer (agree_booleans)
  rw [(layering_laws plainRules (hflag true) ht (hflag false) hf houter hs).2.2]
  rfl

theorem feature_stack_obeys :
    leafAt [] (composeLayers plainRules ([true, false].map fun v => .table (featureLayer (.boolean v))))
      ["features".toList, "multi_agent_v2".toList, "enabled".toList] = some (.boolean false) := by
  have hl : ∀ layer ∈ [true, false].map fun v => featureLayer (.boolean v), WellKeyed plainRules [] (.table layer) := by
    intro layer hl
    obtain ⟨v, -, rfl⟩ := mem_map.mp hl
    exact wellKeyed_featureLayer (.leaf (by simp))
  refine (leafAt_composeLayers hl (pairwise_map.mpr ?_)).trans rfl
  exact pairwise_of_forall fun _ _ => agree_featureLayer agree_booleans

end ConfigLaws
