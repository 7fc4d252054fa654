import Ycode.PathCheck

/-!
# The full-disk flags

A policy reports full access to the disk from the text of its entries alone: it has an entry for the root, and
each entry that could narrow it has another one with the same target beside it that wins. The access of a path is
decided by the places that the entries resolve to. Entries with the same target resolve to the same place, so a
flag that is set says the truth for every path.
-/
namespace FullDiskAccess

open RustStr DeepestRule SandboxPolicy PathCheck

variable {policy : FileSystemSandboxPolicy}

theorem mem_resolvedEntries :
    entry ∈ policy.resolvedEntriesWithCwd host cwd ↔
      ∃ source ∈ policy.entries, resolveEntryPath host source.path cwd = some entry.path ∧
        source.access = entry.access := by
  rw [FileSystemSandboxPolicy.resolvedEntriesWithCwd, List.mem_filterMap]
  constructor
  · rintro ⟨source, hs, hr⟩
    obtain ⟨place, hp, rfl⟩ := Option.map_eq_some_iff.mp hr
    exact ⟨source, hs, hp, rfl⟩
  · rintro ⟨source, hs, hp, ha⟩
    refine ⟨source, hs, ?_⟩
    rw [hp, ha]
    rfl

/-- An entry for the root resolves to a place on the way to every path. -/
theorem root_resolved (h : policy.hasRootAccess predicate = true) :
    ∃ access, predicate access = true ∧ ⟨[], access⟩ ∈ policy.resolvedEntriesWithCwd host cwd := by
  rw [FileSystemSandboxPolicy.hasRootAccess, Bool.and_eq_true, List.any_eq_true] at h
  obtain ⟨_, src, hs, hr⟩ := h
  rw [Bool.and_eq_true, decide_eq_true_eq] at hr
  exact ⟨src.access, hr.2, mem_resolvedEntries.mpr ⟨src, hs, by rw [hr.1]; rfl, rfl⟩⟩

theorem special_resolve_of_shareTarget (h : specialPathsShareTarget left right = true) : left = right := by
  cases left <;> cases right <;> simp_all [specialPathsShareTarget]

/-- Two paths with the same target resolve to one place. The entry for `/tmp` does so as long as `/tmp` is a
directory; where it is not, the entry resolves to nothing while the literal path still does. -/
theorem resolve_of_shareTarget (ht : host.isDir ["tmp".toList] = true)
    (h : fileSystemPathsShareTarget left right = true) :
    resolveEntryPath host left cwd = resolveEntryPath host right cwd := by
  have hs : ∀ (v : FileSystemSpecialPath) (place : Path),
      specialPathMatchesAbsolutePath v place = true → resolveEntryPath host (.special v) cwd = some place := by
    intro v place hm
    cases v with
    | root => rw [of_decide_eq_true hm]; rfl
    | slashTmp =>
      rw [of_decide_eq_true hm]
      exact if_pos ht
    | _ => cases hm
  cases left with
  | path left =>
    cases right with
    | path right => rw [of_decide_eq_true h]
    | globPattern pat => cases h
    | special v => exact (hs v left h).symm
  | globPattern left =>
    cases right with
    | globPattern right => rw [of_decide_eq_true h]
    | _ => cases h
  | special left =>
    cases right with
    | path right => exact hs left right h
    | globPattern pat => cases h
    | special right => rw [special_resolve_of_shareTarget h]

/-- A write entry for the target of another entry resolves to the place of that entry. -/
theorem override_resolved (htmp : host.isDir ["tmp".toList] = true)
    (hp : resolveEntryPath host source.path cwd = some place)
    (h : policy.hasSameTargetWriteOverride source = true) :
    source.access = .read ∧ ⟨place, .write⟩ ∈ policy.resolvedEntriesWithCwd host cwd := by
  rw [FileSystemSandboxPolicy.hasSameTargetWriteOverride, List.any_eq_true] at h
  obtain ⟨cand, hc, hwins⟩ := h
  rw [Bool.and_eq_true, Bool.and_eq_true, decide_eq_true_eq] at hwins
  obtain ⟨⟨hw, hr⟩, ht⟩ := hwins
  have ha : cand.access = .write := of_decide_eq_true hw
  constructor
  · rw [ha] at hr
    cases hs : source.access with
    | read => rfl
    | _ => simp [hs, FileSystemAccessMode.rank] at hr
  · refine mem_resolvedEntries.mpr ⟨cand, hc, ?_, ha⟩
    rw [resolve_of_shareTarget htmp ht]
    exact hp

/-- What stands at a place of a policy without narrowing entries: an entry that does not let it be written lets
it be read, and a write entry stands beside it. -/
theorem write_beside (ht : host.isDir ["tmp".toList] = true)
    (hr : policy.hasRootAccess FileSystemAccessMode.canWrite = true)
    (hn : policy.hasWriteNarrowingEntries = false)
    (he : entry ∈ policy.resolvedEntriesWithCwd host cwd) :
    entry.access ≠ .deny ∧ ⟨entry.path, .write⟩ ∈ policy.resolvedEntriesWithCwd host cwd := by
  obtain ⟨src, hs, hp, ha⟩ := mem_resolvedEntries.mp he
  have hkind : policy.kind = .restricted := by
    rw [FileSystemSandboxPolicy.hasRootAccess, Bool.and_eq_true] at hr
    exact of_decide_eq_true hr.1
  by_cases hw : src.access = .write
  · rw [← ha, hw]
    refine ⟨by simp, ?_⟩
    have hi : entry = ⟨entry.path, .write⟩ := by rw [← hw, ha]
    exact hi ▸ he
  · have hk := hn
    rw [FileSystemSandboxPolicy.hasWriteNarrowingEntries, decide_eq_true hkind, Bool.true_and, List.any_eq_false] at hk
    have hsame := hk src hs
    rw [FileSystemAccessMode.canWrite, if_neg (by simpa using hw)] at hsame
    -- the entries that need a write entry for the same target have one
    have ho : policy.hasSameTargetWriteOverride src = true →
        entry.access ≠ .deny ∧ ⟨entry.path, .write⟩ ∈ policy.resolvedEntriesWithCwd host cwd := by
      intro h
      obtain ⟨hread, hm⟩ := override_resolved ht hp h
      exact ⟨by rw [← ha, hread]; simp, hm⟩
    cases hpath : src.path with
    | path place =>
      rw [hpath] at hsame
      exact ho (by simpa using hsame)
    | globPattern pat => simp [hpath] at hsame
    | special v =>
      rw [hpath] at hsame hp
      cases v with
      | root =>
        obtain ⟨access, hc, hm⟩ := root_resolved hr
        rw [of_decide_eq_true hc] at hm
        rw [← Option.some.inj hp, ← ha]
        exact ⟨by simpa using hsame, hm⟩
      | minimal => cases hp
      | unknown name sub => cases hp
      | _ => exact ho (by simpa using hsame)

/-- A path of a policy with a root entry has an entry on the way to it. -/
theorem exists_nearest_of_root (h : policy.hasRootAccess predicate = true) :
    ∃ root, Nearest (policy.resolvedEntriesWithCwd host cwd) path root := by
  obtain ⟨access, _, hm⟩ := root_resolved h
  exact exists_nearest ⟨_, hm, List.nil_prefix⟩

/-- A set flag says the truth for every path: full write access lets every path be written, and full read access
denies none. -/
theorem full_disk_flags_sound (host : Host) (policy : FileSystemSandboxPolicy) (cwd path : Path)
    (htmp : host.isDir ["tmp".toList] = true) :
    (policy.hasFullDiskWriteAccess = true → policy.resolveAccessWithCwd host cwd path = .write) ∧
      (policy.hasFullDiskReadAccess = true → policy.resolveAccessWithCwd host cwd path ≠ .deny) := by
  cases hk : policy.kind with
  | restricted =>
    simp only [FileSystemSandboxPolicy.hasFullDiskWriteAccess, FileSystemSandboxPolicy.hasFullDiskReadAccess,
      FileSystemSandboxPolicy.resolveAccessWithCwd, hk, Bool.and_eq_true, Bool.not_eq_true']
    constructor
    · rintro ⟨hr, ho⟩
      obtain ⟨root, hn⟩ := exists_nearest_of_root hr
      obtain ⟨e, he, hp⟩ := hn.hasRule
      refine (resolveAccess_eq_write hn).mpr ⟨hp ▸ (write_beside htmp hr ho he).2, ?_⟩
      intro hdeny
      exact (write_beside htmp hr ho hdeny).1 rfl
    · rintro ⟨hr, hd⟩
      obtain ⟨root, hn⟩ := exists_nearest_of_root hr
      obtain ⟨e, he, hw, _⟩ := hn.winner fun e => e.access.rank
      rw [resolveAccess, hw]
      obtain ⟨src, hs, _, hc⟩ := mem_resolvedEntries.mp he
      rw [FileSystemSandboxPolicy.hasDeniedReadRestrictions, decide_eq_true hk, Bool.true_and,
        List.any_eq_false] at hd
      have ha : e.access ≠ .deny := by
        rw [← hc]
        simpa using hd src hs
      exact ha
  | _ => simp [FileSystemSandboxPolicy.resolveAccessWithCwd, hk]

/-- A host on which only `/tmp` is a directory. -/
def tmpHost : Host where
  home := none
  currentDir := none
  tmpdir := none
  present := fun _ => false
  isSymlink := fun _ => false
  canonicalize := fun _ => none
  isFile := fun _ => false
  isDir := fun path => path = ["tmp".toList]
  readToString := fun _ => none

/-- The disk is writable, and so is `/tmp`, which a second entry would make read-only. -/
def shadowedRead : FileSystemSandboxPolicy where
  kind := .restricted
  entries := [⟨.special .root, .write⟩, ⟨.special .slashTmp, .write⟩, ⟨.path ["tmp".toList], .read⟩]

theorem shadowedRead_is_writable :
    shadowedRead.hasFullDiskWriteAccess = true ∧ shadowedRead.hasFullDiskReadAccess = true ∧
      shadowedRead.resolveAccessWithCwd tmpHost [] ["tmp".toList] = .write ∧
      shadowedRead.resolveAccessWithCwd tmpHost [] ["tmp".toList] ≠ .deny := by
  have hs := full_disk_flags_sound tmpHost shadowedRead [] ["tmp".toList] (by decide)
  have hw : shadowedRead.hasFullDiskWriteAccess = true := by decide
  have hr : shadowedRead.hasFullDiskReadAccess = true := by decide
  exact ⟨hw, hr, hs.1 hw, hs.2 hr⟩

end FullDiskAccess
