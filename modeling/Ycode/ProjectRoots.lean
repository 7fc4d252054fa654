import Ycode.EntryOrder

/-!
# Materialised project roots

Replacing the symbolic project roots by the working directory keeps the place of every entry, so a path gets the same
mode as before. What it can change is whether the policy counts as one with full-disk write access: a read entry for
the project roots that no write entry overrode may share its place with a write entry once both are paths, and then
the protection of metadata is skipped.
-/
namespace ProjectRoots

open RustStr DeepestRule SandboxPolicy PathCheck EntryOrder List

section Vocabulary

variable (host : Host) (policy : FileSystemSandboxPolicy) (cwd : Path)

def NoGlobs : Prop := ∀ entry ∈ policy.entries, ∀ pattern, entry.path ≠ .globPattern pattern

/-- The entry takes something back from a policy that lets the root be written. -/
def Narrows (entry : FileSystemSandboxEntry) : Prop :=
  entry.access ≠ .write ∧
    match entry.path with
    | .path _ => policy.hasSameTargetWriteOverride entry = false
    | .globPattern _ => True
    | .special .root => entry.access = .deny
    | .special .minimal => False
    | .special (.unknown _ _) => False
    | .special _ => policy.hasSameTargetWriteOverride entry = false

/-- A path of an entry with its project roots in place. -/
def placed : FileSystemPath → FileSystemPath
  | .special (.projectRoots (some subpath)) => .path (resolvePathAgainstBase host subpath cwd)
  | .special (.projectRoots none) => .path cwd
  | path => path

/-- A read entry that shares its place with a write entry. -/
def OverriddenInPlace (entry : FileSystemSandboxEntry) : Prop :=
  entry.access = .read ∧ ∃ candidate ∈ policy.entries, candidate.access = .write ∧
    fileSystemPathsShareTarget (placed host cwd candidate.path) (placed host cwd entry.path) = true

/-- Only read entries that share their place with a write entry narrow what the root lets be written. -/
structure GainsFullDisk : Prop where
  kind : policy.kind = .restricted
  root : ⟨.special .root, .write⟩ ∈ policy.entries
  narrows : ∃ entry ∈ policy.entries, Narrows policy entry
  overridden : ∀ entry ∈ policy.entries, Narrows policy entry → OverriddenInPlace host policy cwd entry

/-- Metadata of the nearest entry, which lets it be written and is not excused. -/
def ProtectedMetadata (entries : List ResolvedFileSystemEntry) (path : Path) : Prop :=
  ∃ root, Nearest entries path root ∧ IsOpen entries root ∧ InMetadata root path ∧ ¬Excused entries root

/-- The other policy answers at every working directory what the policy answers at this one. -/
structure KeepsAuthority (policy other : FileSystemSandboxPolicy) (cwd path : Path) : Prop where
  canRead : ∀ otherCwd, other.canReadPathWithCwd host otherCwd path = policy.canReadPathWithCwd host cwd path
  canWrite : ∀ otherCwd, other.canWritePathWithCwd host otherCwd path = policy.canWritePathWithCwd host cwd path

end Vocabulary

variable {policy : FileSystemSandboxPolicy}

theorem materializeWithCwd_eq (h : ∀ pat, path ≠ .globPattern pat) :
    materializeWithCwd host cwd path = placed host cwd path := by
  cases path with
  | path path => rfl
  | globPattern pat => exact absurd rfl (h pat)
  | special v =>
    cases v with
    | projectRoots sub => cases sub <;> rfl
    | _ => rfl

/-- With one workspace root the two ways to materialise are one. -/
theorem materialize_workspaceRoot_eq :
    policy.materializeProjectRootsWithWorkspaceRoots host [cwd] = policy.materializeProjectRootsWithCwd host cwd := by
  have hpath : ∀ path, materializeWithWorkspaceRoots host [cwd] path = [materializeWithCwd host cwd path] := by
    intro path
    cases path with
    | path path => rfl
    | globPattern pat =>
      unfold materializeWithWorkspaceRoots materializeWithCwd
      cases hp : parseProjectRootsGlobPattern pat <;> simp only [hp, map_cons, map_nil]
    | special v =>
      cases v with
      | projectRoots sub => cases sub <;> rfl
      | _ => rfl
  unfold FileSystemSandboxPolicy.materializeProjectRootsWithWorkspaceRoots
    FileSystemSandboxPolicy.materializeProjectRootsWithCwd
  simp only [hpath, map_cons, map_nil]
  rw [← map_eq_flatMap]

theorem resolveEntryPath_materialize :
    resolveEntryPath host (materializeWithCwd host cwd path) otherCwd = resolveEntryPath host path cwd := by
  cases path with
  | path path => rfl
  | globPattern pat =>
    unfold materializeWithCwd
    cases hp : parseProjectRootsGlobPattern pat <;> simp only [hp, resolveEntryPath]
  | special v =>
    cases v with
    | projectRoots sub => cases sub <;> rfl
    | _ => rfl

/-- Every entry stays where it was, at any working directory. -/
theorem resolvedEntries_materialize :
    (policy.materializeProjectRootsWithCwd host cwd).resolvedEntriesWithCwd host otherCwd =
      policy.resolvedEntriesWithCwd host cwd := by
  unfold FileSystemSandboxPolicy.resolvedEntriesWithCwd FileSystemSandboxPolicy.materializeProjectRootsWithCwd
  rw [filterMap_map]
  simp only [Function.comp_apply, resolveEntryPath_materialize]

/-- What shared a target still shares it in place. -/
theorem share_placed (h : fileSystemPathsShareTarget left right = true) :
    fileSystemPathsShareTarget (placed host cwd left) (placed host cwd right) = true := by
  cases left with
  | globPattern left => cases right <;> simp_all [fileSystemPathsShareTarget, placed]
  | path left =>
    cases right with
    | special v => cases v <;> simp_all [fileSystemPathsShareTarget, placed, specialPathMatchesAbsolutePath]
    | _ => simp_all [fileSystemPathsShareTarget, placed]
  | special left =>
    cases right with
    | globPattern right => simp [fileSystemPathsShareTarget] at h
    | path right => cases left <;> simp_all [fileSystemPathsShareTarget, placed, specialPathMatchesAbsolutePath]
    | special right =>
      cases left <;> cases right <;>
        simp_all [fileSystemPathsShareTarget, placed, specialPathsShareTarget]
      rename_i left right
      cases right <;> simp

section FullDisk

theorem override_iff :
    policy.hasSameTargetWriteOverride entry = true ↔ entry.access = .read ∧ ∃ candidate ∈ policy.entries,
      candidate.access = .write ∧ fileSystemPathsShareTarget candidate.path entry.path = true := by
  have hr : ∀ access : FileSystemAccessMode, access.rank < FileSystemAccessMode.rank .write ↔ access = .read := by
    intro access
    cases access <;> simp [FileSystemAccessMode.rank]
  simp only [FileSystemSandboxPolicy.hasSameTargetWriteOverride, any_eq_true, Bool.and_eq_true,
    decide_eq_true_eq, FileSystemAccessMode.canWrite]
  constructor
  · rintro ⟨candidate, hm, ⟨hw, hlt⟩, hs⟩
    rw [hw, hr] at hlt
    exact ⟨hlt, candidate, hm, hw, hs⟩
  · rintro ⟨hread, candidate, hm, hw, hs⟩
    refine ⟨candidate, hm, ⟨hw, ?_⟩, hs⟩
    rw [hw, hr]
    exact hread

theorem hasWriteNarrowingEntries_iff (hk : policy.kind = .restricted) :
    policy.hasWriteNarrowingEntries = true ↔ ∃ entry ∈ policy.entries, Narrows policy entry := by
  unfold FileSystemSandboxPolicy.hasWriteNarrowingEntries
  rw [Bool.and_eq_true, any_eq_true]
  simp only [hk, decide_true, true_and]
  refine exists_congr fun entry => and_congr_right fun _ => ?_
  unfold Narrows
  by_cases hw : entry.access = .write
  · simp [hw, FileSystemAccessMode.canWrite]
  · have hc : entry.access.canWrite = false := decide_eq_false hw
    rw [hc]
    simp only [Bool.false_eq_true, if_false, hw, ne_eq, not_false_eq_true, true_and]
    cases entry.path with
    | special v => cases v <;> simp
    | _ => simp

theorem hasFullDiskWriteAccess_iff (hk : policy.kind = .restricted) :
    policy.hasFullDiskWriteAccess = true ↔
      ⟨.special .root, .write⟩ ∈ policy.entries ∧ ∀ entry ∈ policy.entries, ¬Narrows policy entry := by
  have hr : policy.hasRootAccess FileSystemAccessMode.canWrite = true ↔
      ⟨.special .root, .write⟩ ∈ policy.entries := by
    simp only [FileSystemSandboxPolicy.hasRootAccess, hk, decide_true, Bool.true_and, any_eq_true,
      Bool.and_eq_true, decide_eq_true_eq, FileSystemAccessMode.canWrite]
    constructor
    · rintro ⟨⟨path, access⟩, hm, rfl, rfl⟩
      exact hm
    · exact fun hm => ⟨_, hm, rfl, rfl⟩
  unfold FileSystemSandboxPolicy.hasFullDiskWriteAccess
  rw [hk]
  simp only [Bool.and_eq_true, hr, Bool.not_eq_true', ← Bool.not_eq_true, hasWriteNarrowingEntries_iff hk]
  push Not
  rfl

variable (hglobs : NoGlobs policy)
include hglobs

theorem mem_materialize :
    entry ∈ (policy.materializeProjectRootsWithCwd host cwd).entries ↔
      ∃ orig ∈ policy.entries, entry = ⟨placed host cwd orig.path, orig.access⟩ := by
  unfold FileSystemSandboxPolicy.materializeProjectRootsWithCwd
  rw [mem_map]
  refine exists_congr fun orig => and_congr_right fun hm => ?_
  rw [materializeWithCwd_eq (hglobs orig hm), eq_comm]

theorem override_materialize :
    (policy.materializeProjectRootsWithCwd host cwd).hasSameTargetWriteOverride
      ⟨placed host cwd entry.path, entry.access⟩ = true ↔ OverriddenInPlace host policy cwd entry := by
  rw [override_iff, OverriddenInPlace]
  refine and_congr_right fun _ => ?_
  constructor
  · rintro ⟨cand, hm, hw, hs⟩
    obtain ⟨orig, ho, rfl⟩ := (mem_materialize hglobs).mp hm
    exact ⟨orig, ho, hw, hs⟩
  · rintro ⟨orig, ho, hw, hs⟩
    exact ⟨_, (mem_materialize hglobs).mpr ⟨orig, ho, rfl⟩, hw, hs⟩

/-- Materialising takes from the narrowing entries those that share their place with a write entry. -/
theorem narrows_materialize (he : entry ∈ policy.entries) :
    Narrows (policy.materializeProjectRootsWithCwd host cwd) ⟨placed host cwd entry.path, entry.access⟩ ↔
      Narrows policy entry ∧ ¬OverriddenInPlace host policy cwd entry := by
  have ho : _ ↔ OverriddenInPlace host policy cwd entry := override_materialize hglobs
  rw [← Bool.not_eq_false, not_iff_comm] at ho
  have hk : ¬OverriddenInPlace host policy cwd entry → policy.hasSameTargetWriteOverride entry = false := by
    intro hn
    rw [← Bool.not_eq_true, override_iff]
    rintro ⟨hr, cand, hm, hw, hs⟩
    exact hn ⟨hr, cand, hm, hw, share_placed hs⟩
  have hr : entry.access = .deny → ¬OverriddenInPlace host policy cwd entry := by
    rintro hd ⟨hr, _⟩
    rw [hd] at hr
    cases hr
  have hg := hglobs entry he
  obtain ⟨path, access⟩ := entry
  unfold Narrows
  rw [and_assoc]
  refine and_congr_right fun _ => ?_
  cases path with
  | globPattern pat => exact absurd rfl (hg pat)
  | path path => exact ⟨fun h => ⟨hk (ho.mpr h), ho.mpr h⟩, fun h => ho.mp h.2⟩
  | special v =>
    cases v with
    | root => exact ⟨fun h => ⟨h, hr h⟩, fun h => h.1⟩
    | minimal => exact ⟨fun h => h.elim, fun h => h.1⟩
    | unknown path sub => exact ⟨fun h => h.elim, fun h => h.1⟩
    | projectRoots sub => cases sub <;> exact ⟨fun h => ⟨hk (ho.mpr h), ho.mpr h⟩, fun h => ho.mp h.2⟩
    | _ => exact ⟨fun h => ⟨hk (ho.mpr h), ho.mpr h⟩, fun h => ho.mp h.2⟩

theorem hasFullDiskWriteAccess_materialize (hk : policy.kind = .restricted) :
    (policy.materializeProjectRootsWithCwd host cwd).hasFullDiskWriteAccess = true ↔
      ⟨.special .root, .write⟩ ∈ policy.entries ∧
        ∀ entry ∈ policy.entries, Narrows policy entry → OverriddenInPlace host policy cwd entry := by
  have hr : ⟨.special .root, .write⟩ ∈ (policy.materializeProjectRootsWithCwd host cwd).entries ↔
      ⟨.special .root, .write⟩ ∈ policy.entries := by
    rw [mem_materialize hglobs]
    constructor
    · rintro ⟨⟨path, access⟩, hm, heq⟩
      injection heq with hp ha
      subst ha
      cases path with
      | special v =>
        cases v with
        | root => exact hm
        | projectRoots sub => cases sub <;> cases hp
        | _ => cases hp
      | _ => cases hp
    · exact fun hm => ⟨_, hm, rfl⟩
  have hn : (∀ entry ∈ (policy.materializeProjectRootsWithCwd host cwd).entries,
      ¬Narrows (policy.materializeProjectRootsWithCwd host cwd) entry) ↔
      ∀ entry ∈ policy.entries, Narrows policy entry → OverriddenInPlace host policy cwd entry := by
    constructor
    · intro hnone entry he hn
      by_contra hnot
      exact hnone _ ((mem_materialize hglobs).mpr ⟨entry, he, rfl⟩)
        ((narrows_materialize hglobs he).mpr ⟨hn, hnot⟩)
    · intro hall entry he hn
      obtain ⟨orig, ho, rfl⟩ := (mem_materialize hglobs).mp he
      obtain ⟨hn, hnot⟩ := (narrows_materialize hglobs ho).mp hn
      exact hnot (hall orig ho hn)
  have hk' : (policy.materializeProjectRootsWithCwd host cwd).kind = .restricted := hk
  rw [hasFullDiskWriteAccess_iff hk', hr, hn]

/-- Materialising never loses full-disk write access, and gains it exactly here. -/
theorem fullDisk_materialize_iff (hk : policy.kind = .restricted) :
    (policy.materializeProjectRootsWithCwd host cwd).hasFullDiskWriteAccess = true ↔
      policy.hasFullDiskWriteAccess = true ∨ GainsFullDisk host policy cwd := by
  rw [hasFullDiskWriteAccess_materialize hglobs hk, hasFullDiskWriteAccess_iff hk]
  constructor
  · rintro ⟨hr, ha⟩
    by_cases hn : ∃ e ∈ policy.entries, Narrows policy e
    · exact .inr ⟨hk, hr, hn, ha⟩
    · push Not at hn
      exact .inl ⟨hr, hn⟩
  · rintro (⟨hr, hnone⟩ | hg)
    · exact ⟨hr, fun e he hn => absurd hn (hnone e he)⟩
    · exact ⟨hg.root, hg.overridden⟩

end FullDisk

theorem GainsFullDisk.not_fullDisk (h : GainsFullDisk host policy cwd) : ¬policy.hasFullDiskWriteAccess = true := by
  rw [hasFullDiskWriteAccess_iff h.kind]
  rintro ⟨_, hnone⟩
  obtain ⟨e, he, hn⟩ := h.narrows
  exact hnone e he hn

theorem protectedMetadata_iff (es : List ResolvedFileSystemEntry) (path : Path) :
    ProtectedMetadata es path ↔ NearestOpen es path ∧ isMetadataWriteDenied es path = true := by
  constructor
  · rintro ⟨root, hn, ho, hm, he⟩
    exact ⟨⟨root, hn, ho⟩, (isMetadataWriteDenied_of_nearest hn ho).mpr ⟨hm, he⟩⟩
  · rintro ⟨⟨root, hn, ho⟩, hd⟩
    obtain ⟨hm, he⟩ := (isMetadataWriteDenied_of_nearest hn ho).mp hd
    exact ⟨root, hn, ho, hm, he⟩

theorem resolveAccess_materialize (otherCwd : Path) :
    (policy.materializeProjectRootsWithCwd host cwd).resolveAccessWithCwd host otherCwd path =
      policy.resolveAccessWithCwd host cwd path := by
  unfold FileSystemSandboxPolicy.resolveAccessWithCwd
  rw [resolvedEntries_materialize]
  rfl

/-- The materialised policy lets in addition the protected metadata be written where it gains the full disk. -/
theorem canWrite_materialize_iff (hglobs : NoGlobs policy) (hk : policy.kind = .restricted) (otherCwd : Path) :
    (policy.materializeProjectRootsWithCwd host cwd).canWritePathWithCwd host otherCwd path = true ↔
      policy.canWritePathWithCwd host cwd path = true ∨ (GainsFullDisk host policy cwd ∧
        ProtectedMetadata (policy.resolvedEntriesWithCwd host cwd) path) := by
  have hk' : (policy.materializeProjectRootsWithCwd host cwd).kind = .restricted := hk
  rw [canWrite_iff hk', resolvedEntries_materialize, fullDisk_materialize_iff hglobs hk, canWrite_iff hk,
    protectedMetadata_iff]
  tauto

theorem canWrite_of_not_restricted (hk : policy.kind ≠ .restricted) :
    policy.canWritePathWithCwd host cwd path = true := by
  unfold FileSystemSandboxPolicy.canWritePathWithCwd FileSystemSandboxPolicy.resolveAccessWithCwd
    FileSystemSandboxPolicy.hasFullDiskWriteAccess
  cases h : policy.kind with
  | restricted => exact absurd h hk
  | unrestricted => rfl
  | externalSandbox => rfl

theorem keepsAuthority_iff (hglobs : NoGlobs policy) :
    KeepsAuthority host policy (policy.materializeProjectRootsWithCwd host cwd) cwd path ↔
      ¬(GainsFullDisk host policy cwd ∧ ProtectedMetadata (policy.resolvedEntriesWithCwd host cwd) path) := by
  constructor
  · rintro ⟨_, hw⟩ ⟨hg, hp⟩
    have hc := (canWrite_materialize_iff hglobs hg.kind cwd).mpr (.inr ⟨hg, hp⟩)
    rw [hw cwd, canWrite_iff hg.kind] at hc
    rcases hc.2 with hd | ha
    · exact hg.not_fullDisk hd
    · exact ha ((protectedMetadata_iff _ _).mp hp).2
  · intro hn
    refine ⟨fun otherCwd => ?_, fun otherCwd => ?_⟩
    · rw [FileSystemSandboxPolicy.canReadPathWithCwd, resolveAccess_materialize,
        FileSystemSandboxPolicy.canReadPathWithCwd]
    · by_cases hk : policy.kind = .restricted
      · rw [Bool.eq_iff_iff, canWrite_materialize_iff hglobs hk]
        exact or_iff_left hn
      · have hk' : (policy.materializeProjectRootsWithCwd host cwd).kind ≠ .restricted := hk
        rw [canWrite_of_not_restricted hk, canWrite_of_not_restricted hk']

/-- Materialising keeps the answers for a path exactly where it does not gain the full disk over its metadata. -/
theorem materialized_roots_keep_authority_iff (host : Host) (policy : FileSystemSandboxPolicy)
    (hglobs : NoGlobs policy) (cwd path : Path) :
    (KeepsAuthority host policy (policy.materializeProjectRootsWithCwd host cwd) cwd path ∧
      KeepsAuthority host policy (policy.materializeProjectRootsWithWorkspaceRoots host [cwd]) cwd path) ↔
      ¬(GainsFullDisk host policy cwd ∧ ProtectedMetadata (policy.resolvedEntriesWithCwd host cwd) path) := by
  rw [materialize_workspaceRoot_eq, and_self, keepsAuthority_iff hglobs]

/-- The workspace may be written and its `.git` may not. -/
def workspacePolicy : FileSystemSandboxPolicy :=
  ⟨.restricted, [⟨.special .root, .read⟩, ⟨.special (.projectRoots none), .write⟩]⟩

theorem workspace_git_keeps_authority :
    NoGlobs workspacePolicy ∧
      KeepsAuthority emptyHost workspacePolicy (workspacePolicy.materializeProjectRootsWithCwd emptyHost ["w".toList])
        ["w".toList] ["w".toList, ".git".toList] ∧
      KeepsAuthority emptyHost workspacePolicy
        (workspacePolicy.materializeProjectRootsWithWorkspaceRoots emptyHost [["w".toList]])
        ["w".toList] ["w".toList, ".git".toList] := by
  have hglobs : NoGlobs workspacePolicy := by simp [NoGlobs, workspacePolicy]
  refine ⟨hglobs, (materialized_roots_keep_authority_iff emptyHost workspacePolicy hglobs ["w".toList]
    ["w".toList, ".git".toList]).mpr ?_⟩
  rintro ⟨hg, _⟩
  have hr := hg.root
  simp [workspacePolicy] at hr

/-- The project roots are read-only in a policy that lets everything else be written, the working directory too. -/
def shadowedPolicy : FileSystemSandboxPolicy :=
  ⟨.restricted, [⟨.special .root, .write⟩, ⟨.special (.projectRoots none), .read⟩, writeEntry ["w".toList]]⟩

/-- Materialising opens the `.git` of a working directory that is named as a path too. -/
theorem materialized_shadowed_policy_opens_git :
    ¬∀ (host : Host) (policy : FileSystemSandboxPolicy) (cwd path : Path), NoGlobs policy →
      KeepsAuthority host policy (policy.materializeProjectRootsWithCwd host cwd) cwd path := by
  intro ha
  have hk := ha emptyHost shadowedPolicy ["w".toList] ["w".toList, ".git".toList]
    (by simp [NoGlobs, shadowedPolicy, writeEntry])
  have hc := hk.canWrite []
  revert hc
  decide

end ProjectRoots
