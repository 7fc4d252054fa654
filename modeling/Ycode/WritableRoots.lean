import Ycode.PathCheck

/-!
# The writable roots against the path check

On a file system without symbolic links the list of writable roots comes down to the places of the entries, as the
direct check does. The two agree on every path but the protected metadata of a writable root that lies below
another one.
-/
namespace WritableRoots

open RustStr DeepestRule SandboxPolicy PathCheck List

section Vocabulary

variable (host : Host) (entries : List ResolvedFileSystemEntry) (cwd : Path)

/-- The metadata that stays read-only because it is there, or because it is the `.codex` of the working directory. -/
def KeptByDefault (root : Path) (name : Str) : Prop :=
  host.isDir (root ++ [name]) = true ∨ (name = ".git".toList ∧ host.isFile (root ++ [name]) = true) ∨
    (name = ".codex".toList ∧ cwd = root)

/-- What a writable root grants: no entry between it and the path takes the write back, and metadata of the root
has an entry of its own or is not protected. -/
structure Grants (root path : Path) : Prop where
  above : root <+: path
  isOpen : ∀ entry ∈ entries, root <+: entry.path → entry.path <+: path → entry.path = root ∨ IsOpen entries entry.path
  metadata : ∀ name ∈ protectedMetadataPathNames, root ++ [name] <+: path →
    HasEntry entries (root ++ [name]) ∨ (Excused entries root ∧ ¬KeptByDefault host cwd root name)

/-- Another writable root grants this one. -/
def Covered (root : Path) : Prop :=
  ∃ outer, IsOpen entries outer ∧ outer ≠ root ∧ Grants host entries cwd outer root

end Vocabulary

section Roots

/-- A file system without symbolic links and without `.git` files that point elsewhere. -/
structure PlainFileSystem (host : Host) : Prop where
  canonical : ∀ path canonical, host.canonicalize path = some canonical → canonical = path
  noGitPointer : ∀ root, host.isFile (root ++ [".git".toList]) = true →
    resolveGitdirFromFile host (root ++ [".git".toList]) = none

theorem isPathWritable_iff {w : WritableRoot} :
    w.isPathWritable path = true ↔ w.root <+: path ∧
      (∀ sub ∈ w.readOnlySubpaths, ¬sub <+: path) ∧
      ∀ name ∈ w.protectedMetadataNames, ¬w.root ++ [name] <+: path := by
  have hn : w.pathContainsProtectedMetadataName path = true ↔
      ∃ name ∈ w.protectedMetadataNames, w.root ++ [name] <+: path := by
    simp only [step_prefix_iff]
    unfold WritableRoot.pathContainsProtectedMetadataName
    split
    · rename_i first rest hr
      simp [hr]
    · rename_i hnot
      constructor
      · intro h
        cases h
      · rintro ⟨name, _, rest, hr⟩
        exact absurd hr (hnot name rest)
  have hu : (w.readOnlySubpaths.any fun sub => sub.isPrefixOf path) = true ↔
      ∃ sub ∈ w.readOnlySubpaths, sub <+: path := by
    simp only [any_eq_true, isPrefixOf_iff_prefix]
  unfold WritableRoot.isPathWritable
  by_cases ha : w.root <+: path
  · have ht : w.root.isPrefixOf path = true := isPrefixOf_iff_prefix.mpr ha
    by_cases hs : ∃ sub ∈ w.readOnlySubpaths, sub <+: path
    · obtain ⟨sub, hm, hb⟩ := hs
      rw [if_neg (by simp [ht]), if_pos (hu.mpr ⟨sub, hm, hb⟩)]
      constructor
      · intro h
        cases h
      · rintro ⟨_, hnone, _⟩
        exact absurd hb (hnone sub hm)
    · rw [if_neg (by simp [ht]), if_neg (fun h => hs (hu.mp h)), Bool.not_eq_true', ← Bool.not_eq_true, hn]
      push Not at hs
      push Not
      exact ⟨fun h => ⟨ha, hs, h⟩, fun h => h.2.2⟩
  · have ht : w.root.isPrefixOf path = false := by simpa [← isPrefixOf_iff_prefix] using ha
    simp [ht, ha]

variable {policy : FileSystemSandboxPolicy} (hplain : PlainFileSystem host)
include hplain

theorem normalizeEffectiveAbsolutePath_eq : normalizeEffectiveAbsolutePath host path = path := by
  unfold normalizeEffectiveAbsolutePath
  cases hf : (ancestors path).find? host.present with
  | none => rfl
  | some ancestor =>
    have hm : ancestor ∈ path.inits := mem_reverse.mp (mem_of_find?_eq_some hf)
    have hc : canonicalizePreservingSymlinks host ancestor = ancestor := by
      unfold canonicalizePreservingSymlinks
      cases hc : host.canonicalize ancestor with
      | none => rfl
      | some canonical =>
        obtain rfl := hplain.canonical _ _ hc
        simp only [ite_self]
    simp only [hc]
    exact prefix_iff_eq_append.mp ((mem_inits ..).mp hm)

theorem mem_dedupAbsolutePaths {norm : Bool} : path ∈ dedupAbsolutePaths host paths norm ↔ path ∈ paths := by
  simp [dedupAbsolutePaths, normalizeEffectiveAbsolutePath_eq hplain]

omit hplain in
theorem mem_if_singleton [Decidable condition] :
    subpath ∈ (if condition then [path] else []) ↔ subpath = path ∧ condition := by
  by_cases h : condition
  · simp [h]
  · simp [h]

omit hplain in
theorem exists_protected_name {p : Str → Prop} :
    (∃ name ∈ protectedMetadataPathNames, p name) ↔ p ".git".toList ∨ p ".agents".toList ∨ p ".codex".toList := by
  simp [protectedMetadataPathNames]

theorem mem_defaultReadOnlySubpaths :
    subpath ∈ defaultReadOnlySubpathsForWritableRoot host root (decide (cwd = root)) ↔
      ∃ name ∈ protectedMetadataPathNames, subpath = root ++ [name] ∧ KeptByDefault host cwd root name := by
  have hp : (if host.isFile (root ++ [".git".toList]) = true
      then (resolveGitdirFromFile host (root ++ [".git".toList])).toList else []) = [] := by
    split
    · rename_i hf
      rw [hplain.noGitPointer root hf]
      rfl
    · rfl
  have hg : KeptByDefault host cwd root ".git".toList ↔
      (host.isDir (root ++ [".git".toList]) || host.isFile (root ++ [".git".toList])) = true := by
    simp [KeptByDefault]
  have ha : KeptByDefault host cwd root ".agents".toList ↔ host.isDir (root ++ [".agents".toList]) = true := by
    simp [KeptByDefault]
  have hc : KeptByDefault host cwd root ".codex".toList ↔
      (decide (cwd = root) || host.isDir (root ++ [".codex".toList])) = true := by
    simp [KeptByDefault, or_comm]
  unfold defaultReadOnlySubpathsForWritableRoot
  rw [mem_dedupAbsolutePaths hplain, hp, nil_append, mem_append, mem_append, mem_if_singleton,
    mem_if_singleton, mem_if_singleton, exists_protected_name, hg, ha, hc, or_assoc]

/-- On a plain file system the raw roots behind a writable root are that root. -/
theorem eq_of_mem_rawRoots (writableEntries : List Path) (top : Path) : ∀ raw ∈ writableEntries.filter fun path =>
    normalizeEffectiveAbsolutePath host path = top, raw = top := by
  intro raw hm
  have hr := of_decide_eq_true (mem_filter.mp hm).2
  rwa [normalizeEffectiveAbsolutePath_eq hplain] at hr

theorem carveout_eq_some (hraw : ∀ raw ∈ rawRoots, raw = root) :
    FileSystemSandboxPolicy.carveout host root rawRoots entryPath = some subpath ↔
      subpath = entryPath ∧ root <+: entryPath ∧ entryPath ≠ root := by
  unfold FileSystemSandboxPolicy.carveout
  simp only [normalizeEffectiveAbsolutePath_eq hplain]
  by_cases hr : root <+: entryPath
  · have ht : root.isPrefixOf entryPath = true := isPrefixOf_iff_prefix.mpr hr
    by_cases he : entryPath = root
    · simp [he]
    · by_cases hn : root = []
      · simp [hn, hn ▸ he, eq_comm]
      · simp [hn, he, ht, hr, eq_comm]
  · have ht : root.isPrefixOf entryPath = false := by simpa [← isPrefixOf_iff_prefix] using hr
    have hf : rawRoots.findSome? (FileSystemSandboxPolicy.rebase root entryPath) = none := by
      refine findSome?_eq_none_iff.mpr fun raw hm => ?_
      rw [hraw raw hm, FileSystemSandboxPolicy.rebase]
      split
      · rename_i hd
        exact absurd ⟨_, (dropPrefix_eq_some.mp hd).symm⟩ hr
      · rfl
    simp [ht, hf, hr]

variable (hkind : policy.kind = .restricted) (hdisk : policy.hasFullDiskWriteAccess = false)
include hkind hdisk

omit hplain in
theorem mem_writableEntries :
    root ∈ (((policy.resolvedEntriesWithCwd host cwd).filter fun e => e.access.canWrite).filter fun e =>
      policy.canWritePathWithCwd host cwd e.path).map (·.path) ↔
        IsOpen (policy.resolvedEntriesWithCwd host cwd) root := by
  rw [mem_map]
  constructor
  · rintro ⟨e, hm, rfl⟩
    obtain ⟨hm, hc⟩ := mem_filter.mp hm
    obtain ⟨hm, _⟩ := mem_filter.mp hm
    rw [canWritePathWithCwd_iff hkind hdisk] at hc
    exact (writable_at_entry ⟨e, hm, rfl⟩).mp hc
  · intro ho
    have hc := (canWritePathWithCwd_iff hkind hdisk).mpr ((writable_at_entry ⟨_, ho.1, rfl⟩).mpr ho)
    exact ⟨⟨root, .write⟩, mem_filter.mpr ⟨mem_filter.mpr ⟨ho.1, rfl⟩, hc⟩, rfl⟩

omit hplain in
theorem mem_protectedMetadataNames {rawRoots : List Path} (hraw : ∀ raw ∈ rawRoots, raw = root) :
    name ∈ policy.protectedMetadataNamesForWritableRoot host cwd root rawRoots ↔
      name ∈ protectedMetadataPathNames ∧ ¬Writable (policy.resolvedEntriesWithCwd host cwd) (root ++ [name]) := by
  rw [FileSystemSandboxPolicy.protectedMetadataNamesForWritableRoot, mem_filter,
    ← canWritePathWithCwd_iff hkind hdisk, all_eq_true]
  refine and_congr_right fun _ => ⟨fun ha => ?_, fun hc metadataPath hm => ?_⟩
  · simpa using ha _ mem_cons_self
  · obtain rfl : metadataPath = root ++ [name] := by
      rcases mem_cons.mp hm with he | hm
      · exact he
      · obtain ⟨raw, hr, rfl⟩ := mem_map.mp hm
        rw [hraw raw hr]
    simpa using hc

theorem mem_readOnlySubpaths {sub : Path} :
    sub ∈ (policy.writableRoot host cwd (policy.resolvedEntriesWithCwd host cwd) writableEntries
        root).readOnlySubpaths ↔
      (¬HasEntry (policy.resolvedEntriesWithCwd host cwd) sub ∧ ∃ name ∈ protectedMetadataPathNames,
        sub = root ++ [name] ∧ KeptByDefault host cwd root name) ∨
      (HasEntry (policy.resolvedEntriesWithCwd host cwd) sub ∧
        ¬IsOpen (policy.resolvedEntriesWithCwd host cwd) sub ∧ root <+: sub ∧ sub ≠ root) := by
  have hr := eq_of_mem_rawRoots hplain writableEntries root
  unfold FileSystemSandboxPolicy.writableRoot
  rw [mem_dedupAbsolutePaths hplain, mem_append]
  refine or_congr ?_ ?_
  · rw [mem_filter, normalizeEffectiveAbsolutePath_eq hplain, mem_defaultReadOnlySubpaths hplain, and_comm]
    simp [hasExplicitResolvedPathEntry, HasEntry, HasRule]
  · rw [mem_filterMap]
    constructor
    · rintro ⟨e, hm, hc⟩
      obtain ⟨rfl, hb, hne⟩ := (carveout_eq_some hplain hr).mp hc
      obtain ⟨hm, hcan⟩ := mem_filter.mp hm
      have he : HasEntry (policy.resolvedEntriesWithCwd host cwd) e.path :=
        ⟨e, (mem_filter.mp hm).1, rfl⟩
      have hn : ¬policy.canWritePathWithCwd host cwd e.path = true := by simpa using hcan
      rw [canWritePathWithCwd_iff hkind hdisk, writable_at_entry he] at hn
      exact ⟨he, hn, hb, hne⟩
    · rintro ⟨he, hl, hb, hne⟩
      obtain ⟨e, hm, rfl, hread⟩ := exists_closing_entry he hl
      have hcan : ¬policy.canWritePathWithCwd host cwd e.path = true := by
        rwa [canWritePathWithCwd_iff hkind hdisk, writable_at_entry he]
      refine ⟨e, mem_filter.mpr ⟨mem_filter.mpr ⟨hm, ?_⟩, ?_⟩, ?_⟩
      · rw [hread]
        rfl
      · simpa using hcan
      · exact (carveout_eq_some hplain hr).mpr ⟨rfl, hb, hne⟩

/-- A writable root of the list grants what the entries let it grant. -/
theorem isPathWritable_iff_grants (ho : IsOpen (policy.resolvedEntriesWithCwd host cwd) root) :
    (policy.writableRoot host cwd (policy.resolvedEntriesWithCwd host cwd) writableEntries root).isPathWritable path =
      true ↔ Grants host (policy.resolvedEntriesWithCwd host cwd) cwd root path := by
  have hr := eq_of_mem_rawRoots hplain writableEntries root
  have hnames : ∀ name, name ∈ (policy.writableRoot host cwd (policy.resolvedEntriesWithCwd host cwd) writableEntries
      root).protectedMetadataNames ↔ name ∈ protectedMetadataPathNames ∧
        ¬Writable (policy.resolvedEntriesWithCwd host cwd) (root ++ [name]) :=
    fun name => mem_protectedMetadataNames hkind hdisk hr
  rw [isPathWritable_iff]
  simp only [mem_readOnlySubpaths hplain hkind hdisk, hnames]
  constructor
  · rintro ⟨ha, hs, hp⟩
    refine ⟨ha, fun e he hb ht => ?_, fun name hname hn => ?_⟩
    · by_contra hc
      obtain ⟨hne, hc⟩ := not_or.mp hc
      exact hs e.path (.inr ⟨⟨e, he, rfl⟩, hc, hb, hne⟩) ht
    · by_cases he : HasEntry (policy.resolvedEntriesWithCwd host cwd) (root ++ [name])
      · exact .inl he
      · refine .inr ⟨?_, fun hk => hs _ (.inl ⟨he, name, hname, rfl, hk⟩) hn⟩
        rw [← writable_child ho hname he]
        by_contra hnot
        exact hp name ⟨hname, hnot⟩ hn
  · intro hg
    refine ⟨hg.above, ?_, ?_⟩
    · rintro subpath (⟨hnone, name, hname, rfl, hk⟩ | ⟨⟨e, he, rfl⟩, hc, hb, hne⟩) hu
      · rcases hg.metadata name hname hu with he | ⟨_, hnotKept⟩
        · exact hnone he
        · exact hnotKept hk
      · rcases hg.isOpen e he hb hu with heq | hentryOpen
        · exact hne heq
        · exact hc hentryOpen
    · rintro name ⟨hname, hnot⟩ hn
      refine hnot ?_
      by_cases he : HasEntry (policy.resolvedEntriesWithCwd host cwd) (root ++ [name])
      · rw [writable_at_entry he]
        obtain ⟨e, hm, hpath⟩ := he
        rcases hg.isOpen e hm (hpath ▸ prefix_append ..) (hpath ▸ hn) with heq | hentryOpen
        · exact absurd (hpath.symm.trans heq) (by simp)
        · rwa [hpath] at hentryOpen
      · rw [writable_child ho hname he]
        exact ((hg.metadata name hname hn).resolve_left he).1

/-- The list grants a write if one of the open entries does. -/
theorem granted_iff :
    (∃ w ∈ policy.getWritableRootsWithCwd host cwd, w.isPathWritable path = true) ↔
      ∃ root, IsOpen (policy.resolvedEntriesWithCwd host cwd) root ∧
        Grants host (policy.resolvedEntriesWithCwd host cwd) cwd root path := by
  unfold FileSystemSandboxPolicy.getWritableRootsWithCwd
  rw [if_neg (by simp [hdisk])]
  simp only [mem_map, mem_dedupAbsolutePaths hplain]
  constructor
  · rintro ⟨_, ⟨root, hr, rfl⟩, hw⟩
    have ho := (mem_writableEntries hkind hdisk).mp (mem_map.mpr hr)
    exact ⟨root, ho, (isPathWritable_iff_grants hplain hkind hdisk ho).mp hw⟩
  · rintro ⟨root, ho, hg⟩
    have hr := mem_map.mp ((mem_writableEntries hkind hdisk).mpr ho)
    exact ⟨_, ⟨root, hr, rfl⟩, (isPathWritable_iff_grants hplain hkind hdisk ho).mpr hg⟩

end Roots

section Agreement

section

variable (h : Nearest entries path root)
include h

/-- A root above the nearest entry grants the path if it grants the entry. -/
theorem grants_outer_iff (ho : HasEntry entries outer) (hne : outer ≠ root) :
    Grants host entries cwd outer path ↔ Grants host entries cwd outer root := by
  constructor
  · intro hg
    refine ⟨h.le_of_hasRule ho hg.above, ?_, ?_⟩
    · intro e he hb ha
      exact hg.isOpen e he hb (ha.trans h.above)
    · intro name hn ha
      exact hg.metadata name hn (ha.trans h.above)
  · intro hg
    refine ⟨hg.above.trans h.above, ?_, ?_⟩
    · intro e he hb ha
      exact hg.isOpen e he hb (h.max e he ha)
    · intro name hn ha
      have hs := (prefix_step ha h.above hg.above).resolve_left hne
      exact hg.metadata name hn hs

/-- What the nearest entry itself grants. -/
theorem grants_nearest_iff :
    Grants host entries cwd root path ↔ ∀ name ∈ protectedMetadataPathNames, root ++ [name] <+: path →
      Excused entries root ∧ ¬KeptByDefault host cwd root name := by
  constructor
  · intro hg name hn ha
    refine (hg.metadata name hn ha).resolve_left fun he => ?_
    exact not_step_below (h.le_of_hasRule he ha)
  · intro hm
    refine ⟨h.above, ?_, fun name hn ha => .inr (hm name hn ha)⟩
    intro e he hb ha
    exact .inl ((h.max e he ha).eq_of_length_le hb.length_le)

theorem granted_of_nearest (hopen : IsOpen entries root) :
    (∃ root, IsOpen entries root ∧ Grants host entries cwd root path) ↔
      Covered host entries cwd root ∨ Grants host entries cwd root path := by
  constructor
  · rintro ⟨outer, ho, hg⟩
    by_cases he : outer = root
    · exact .inr (he ▸ hg)
    · exact .inl ⟨outer, ho, he, (grants_outer_iff h ⟨_, ho.1, rfl⟩ he).mp hg⟩
  · rintro (⟨outer, ho, hne, hg⟩ | hg)
    · exact ⟨outer, ho, (grants_outer_iff h ⟨_, ho.1, rfl⟩ hne).mpr hg⟩
    · exact ⟨root, hopen, hg⟩

/-- Nothing is granted where the nearest entry does not let it be written. -/
theorem not_granted_of_closed (hc : ¬IsOpen entries root) (ho : IsOpen entries outer) :
    ¬Grants host entries cwd outer path := by
  intro hg
  obtain ⟨e, he, rfl⟩ := h.hasRule
  have hb := h.le_of_hasRule ⟨_, ho.1, rfl⟩ hg.above
  rcases hg.isOpen e he hb h.above with heq | hopen
  · exact hc (heq ▸ ho)
  · exact hc hopen

end

/-- The two checks can differ only on the metadata of the innermost writable root. There the path check goes by the
order of the entries, and the list by what other roots grant and what is there on the disk. -/
def ChecksAgree (host : Host) (entries : List ResolvedFileSystemEntry) (cwd path : Path) : Prop :=
  ∀ root name, Nearest entries path root → IsOpen entries root → name ∈ protectedMetadataPathNames →
    root ++ [name] <+: path →
      (Covered host entries cwd root → Excused entries root) ∧
      (Excused entries root → KeptByDefault host cwd root name → Covered host entries cwd root)

theorem checksAgree_of_nearest (h : Nearest entries path root) (hopen : IsOpen entries root) :
    ChecksAgree host entries cwd path ↔ ∀ name ∈ protectedMetadataPathNames, root ++ [name] <+: path →
      (Covered host entries cwd root → Excused entries root) ∧
      (Excused entries root → KeptByDefault host cwd root name → Covered host entries cwd root) := by
  constructor
  · intro ha name
    exact ha root name h hopen
  · intro ha x name ho _ hn habove
    obtain rfl := h.unique ho
    exact ha name hn habove

/-- The checks in the metadata of the innermost writable root. -/
theorem checks_in_metadata (h : Nearest entries path root) (hopen : IsOpen entries root)
    (hn : name ∈ protectedMetadataPathNames) (ha : root ++ [name] <+: path) :
    (Writable entries path ↔ Excused entries root) ∧
    ((∃ root, IsOpen entries root ∧ Grants host entries cwd root path) ↔
      Covered host entries cwd root ∨ (Excused entries root ∧ ¬KeptByDefault host cwd root name)) := by
  constructor
  · rw [writable_of_nearest h]
    exact ⟨fun hw => hw.2 ⟨name, hn, ha⟩, fun he => ⟨hopen, fun _ => he⟩⟩
  · rw [granted_of_nearest h hopen, grants_nearest_iff h]
    refine or_congr_right ⟨fun hall => hall name hn ha, fun hg x _ ho => ?_⟩
    obtain rfl := step_unique ha ho
    exact hg

theorem checksAgree_iff :
    (Writable entries path ↔ ∃ root, IsOpen entries root ∧ Grants host entries cwd root path) ↔
      ChecksAgree host entries cwd path := by
  by_cases he : ∃ root, Nearest entries path root
  · obtain ⟨root, hn⟩ := he
    by_cases hopen : IsOpen entries root
    · rw [checksAgree_of_nearest hn hopen]
      by_cases hm : InMetadata root path
      · obtain ⟨name, hname, ha⟩ := hm
        obtain ⟨hd, hl⟩ := checks_in_metadata hn hopen hname ha
        rw [hd, hl]
        constructor
        · intro hi x _ hother
          obtain rfl := step_unique ha hother
          tauto
        · intro hagree
          have hname := hagree name hname ha
          tauto
      · have hd : Writable entries path := ⟨root, hn, hopen, fun h => absurd h hm⟩
        have hl : Grants host entries cwd root path :=
          (grants_nearest_iff hn).mpr fun name hname ha => absurd ⟨name, hname, ha⟩ hm
        refine iff_of_true (iff_of_true hd ⟨root, hopen, hl⟩) fun name hname ha => ?_
        exact absurd ⟨name, hname, ha⟩ hm
    · refine iff_of_true (iff_of_false ?_ ?_) ?_
      · rw [writable_of_nearest hn]
        exact fun h => hopen h.1
      · rintro ⟨outer, ho, hg⟩
        exact not_granted_of_closed hn hopen ho hg
      · intro x name hother ht
        obtain rfl := hn.unique hother
        exact absurd ht hopen
  · refine iff_of_true (iff_of_false ?_ ?_) ?_
    · rintro ⟨root, hn, _⟩
      exact he ⟨root, hn⟩
    · rintro ⟨outer, ho, hg⟩
      exact he (exists_nearest ⟨_, ho.1, hg.above⟩)
    · intro root name hn
      exact absurd ⟨root, hn⟩ he

/-- Where no writable entry lies below another one, the checks agree on every path. -/
theorem checksAgree_of_separate
    (h : ∀ outer inner, ⟨outer, .write⟩ ∈ entries → ⟨inner, .write⟩ ∈ entries → outer <+: inner → outer = inner) :
    ChecksAgree host entries cwd path := by
  intro root name _ hopen _ _
  constructor
  · rintro ⟨outer, ho, hne, hg⟩
    exact absurd (h outer root ho.1 hopen.1 hg.above) hne
  · rintro ⟨⟨holder, access⟩, hf, hne⟩
    have ht := find?_some hf
    obtain ⟨rfl, he | ⟨inner, _, hi⟩⟩ := of_decide_eq_true ht
    · exact absurd he hne
    · have hm := mem_of_find?_eq_some hf
      exact absurd (h holder root hm hopen.1 ((prefix_append ..).trans hi)) hne

/-- The direct check of a path and the list of writable roots grant the same write exactly where the checks agree. -/
theorem path_check_iff_writable_roots (hplain : PlainFileSystem host) (policy : FileSystemSandboxPolicy)
    (hkind : policy.kind = .restricted) (hdisk : policy.hasFullDiskWriteAccess = false) (cwd path : Path) :
    (policy.canWritePathWithCwd host cwd path = true ↔
      ∃ writable ∈ policy.getWritableRootsWithCwd host cwd, writable.isPathWritable path = true) ↔
    ChecksAgree host (policy.resolvedEntriesWithCwd host cwd) cwd path := by
  rw [canWritePathWithCwd_iff hkind hdisk, granted_iff hplain hkind hdisk]
  exact checksAgree_iff

end Agreement

theorem emptyHost_plain : PlainFileSystem emptyHost := ⟨fun _ _ h => (nomatch h), fun _ h => (nomatch h)⟩

def policyOf (entries : List (List String × FileSystemAccessMode)) : FileSystemSandboxPolicy where
  kind := .restricted
  entries := entries.map fun entry => ⟨.path (entry.1.map String.toList), entry.2⟩

def carvedPolicy : FileSystemSandboxPolicy := policyOf [(["w"], .write), (["w", "private"], .deny)]

/-- The checks agree on a writable root with a part that is taken out of it. -/
theorem carved_root_checks_agree :
    carvedPolicy.canWritePathWithCwd emptyHost [] (["w", "src"].map String.toList) = true ∧
    ∃ writable ∈ carvedPolicy.getWritableRootsWithCwd emptyHost [],
      writable.isPathWritable (["w", "src"].map String.toList) = true := by
  have hs : ∀ path, ⟨path, .write⟩ ∈ carvedPolicy.resolvedEntriesWithCwd emptyHost [] →
      path = ["w".toList] := by
    intro path hm
    change _ ∈ [ResolvedFileSystemEntry.mk ["w".toList] .write, ⟨["w".toList, "private".toList], .deny⟩] at hm
    simpa using hm
  have ha := path_check_iff_writable_roots emptyHost_plain carvedPolicy rfl (by decide) []
    (["w", "src"].map String.toList)
  have hc : carvedPolicy.canWritePathWithCwd emptyHost [] (["w", "src"].map String.toList) = true := by decide
  refine ⟨hc, (ha.mpr (checksAgree_of_separate fun outer inner ho hi _ => ?_)).mp hc⟩
  rw [hs outer ho, hs inner hi]

def nestedPolicy : FileSystemSandboxPolicy := policyOf [(["w"], .write), (["w", "sub"], .write)]

/-- Of a writable root below another one the metadata is protected by the direct check only: the outer root of the
list grants it. -/
theorem nested_root_metadata_granted :
    PlainFileSystem emptyHost ∧ nestedPolicy.kind = .restricted ∧ nestedPolicy.hasFullDiskWriteAccess = false ∧
    nestedPolicy.canWritePathWithCwd emptyHost ["w".toList] (["w", "sub", ".git", "config"].map String.toList) =
      false ∧
    ∃ writable ∈ nestedPolicy.getWritableRootsWithCwd emptyHost ["w".toList],
      writable.isPathWritable (["w", "sub", ".git", "config"].map String.toList) = true := by
  exact ⟨emptyHost_plain, rfl, by decide, by decide, by decide⟩

end WritableRoots
