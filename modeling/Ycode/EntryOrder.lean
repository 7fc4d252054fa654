import Ycode.PathCheck

/-!
# The order of the entries

Which mode a path gets does not depend on the order in which the entries are listed. The metadata rule takes the
first writable entry that has the path in its metadata, so its answer does depend on the order: where one such entry
lies in the metadata of another, the outer one excuses the write and the inner one refuses it.
-/
namespace EntryOrder

open RustStr DeepestRule SandboxPolicy PathCheck List

section Vocabulary

variable (entries : List ResolvedFileSystemEntry) (path : Path)

/-- The deepest writable entry on the way to the path has it in its metadata, and lies itself in the metadata of
another writable entry. -/
def NestedHolders : Prop :=
  ∃ outer inner : Path, ⟨outer, .write⟩ ∈ entries ∧ ⟨inner, .write⟩ ∈ entries ∧ InMetadata outer inner ∧
    InMetadata inner path ∧ ∀ other, ⟨other, .write⟩ ∈ entries → other <+: path → other <+: inner

/-- The nearest entry lets the path be written. -/
def NearestOpen : Prop := ∃ root, Nearest entries path root ∧ IsOpen entries root

/-- The answers of two policies for one path. -/
structure SameAnswers (host : Host) (cwd path : Path) (policy other : FileSystemSandboxPolicy) : Prop where
  access : policy.resolveAccessWithCwd host cwd path = other.resolveAccessWithCwd host cwd path
  canRead : policy.canReadPathWithCwd host cwd path = other.canReadPathWithCwd host cwd path
  canWrite : policy.canWritePathWithCwd host cwd path = other.canWritePathWithCwd host cwd path
  forbidden : policy.forbiddenAgentMetadataWrite host cwd path = other.forbiddenAgentMetadataWrite host cwd path

end Vocabulary

section Holders

variable {entries others : List ResolvedFileSystemEntry}

/-- No writable entry below the metadata of the holder leads to the path. -/
def Refuses (entries : List ResolvedFileSystemEntry) (path holder : Path) : Prop :=
  ∃ name ∈ protectedMetadataPathNames, holder ++ [name] <+: path ∧
    ∀ other, ⟨other, .write⟩ ∈ entries → other <+: path → ¬holder ++ [name] <+: other

theorem isMetadataWriteDenied_iff_refuses :
    isMetadataWriteDenied entries path = true ↔
      ∃ entry, firstHolder entries path = some entry ∧ Refuses entries path entry.path := by
  rw [isMetadataWriteDenied_iff]
  constructor
  · rintro ⟨entry, name, hf, hn, ha, hnone⟩
    exact ⟨entry, hf, name, hn, ha, hnone⟩
  · rintro ⟨entry, hf, name, hn, ha, hnone⟩
    exact ⟨entry, name, hf, hn, ha, hnone⟩

theorem firstHolder_spec (h : firstHolder entries path = some entry) :
    ⟨entry.path, .write⟩ ∈ entries ∧ InMetadata entry.path path := by
  have hm := mem_of_find?_eq_some h
  have hh : entry.access = .write ∧ InMetadata entry.path path := by simpa using find?_some h
  refine ⟨?_, hh.2⟩
  rw [← hh.1]
  exact hm

/-- Of two holders of a path that are not at one place, the inner one lies in the metadata of the outer one. -/
theorem holders_nested (hf : InMetadata first path) (hs : InMetadata second path) :
    first = second ∨ InMetadata first second ∨ InMetadata second first := by
  obtain ⟨name, hn, ha⟩ := hf
  obtain ⟨name', hn', ha'⟩ := hs
  have hp := (prefix_append first [name]).trans ha
  have hp' := (prefix_append second [name']).trans ha'
  rcases prefix_or_prefix_of_prefix hp hp' with hle | hle
  · rcases prefix_step ha hp' hle with he | hi
    · exact .inl he
    · exact .inr (.inl ⟨name, hn, hi⟩)
  · rcases prefix_step ha' hp hle with he | hi
    · exact .inl he.symm
    · exact .inr (.inr ⟨name', hn', hi⟩)

theorem not_refuses_of_inner {outer inner : Path} (hw : ⟨inner, .write⟩ ∈ entries) (hi : inner <+: path)
    (hm : InMetadata outer inner) : ¬Refuses entries path outer := by
  rintro ⟨name, _, ha, hn⟩
  obtain ⟨name', _, hb⟩ := hm
  have hl : (outer ++ [name]).length ≤ inner.length := by simpa using hb.length_le
  exact hn inner hw hi (prefix_of_prefix_length_le ha hi hl)

theorem above_of_inMetadata (h : InMetadata root path) : root <+: path := by
  obtain ⟨name, _, ha⟩ := h
  exact (prefix_append root [name]).trans ha

/-- The innermost writable entry on the way to the path refuses what lies in its metadata. -/
theorem refuses_of_deepest {inner : Path} (hm : InMetadata inner path)
    (hd : ∀ other, ⟨other, .write⟩ ∈ entries → other <+: path → other <+: inner) :
    Refuses entries path inner := by
  obtain ⟨name, hn, ha⟩ := hm
  refine ⟨name, hn, ha, fun other hother ho hb => ?_⟩
  exact not_step_below (hb.trans (hd other hother ho))

/-- A holder that refuses, with another holder elsewhere, is the inner one of nested holders. -/
theorem nestedHolders_of_refuses (hl : ⟨holder, .write⟩ ∈ entries)
    (ho : ⟨other, .write⟩ ∈ entries) (hm : InMetadata other path) (hr : Refuses entries path holder)
    (hne : other ≠ holder) : NestedHolders entries path := by
  obtain ⟨name, hn, ha, hnone⟩ := hr
  have hh : InMetadata holder path := ⟨name, hn, ha⟩
  rcases holders_nested hm hh with he | hi | hi
  · exact absurd he hne
  · refine ⟨other, holder, ho, hl, hi, hh, fun third hthird ht => ?_⟩
    rcases prefix_or_prefix_of_prefix ht (above_of_inMetadata hh) with hle | hle
    · exact hle
    · rcases prefix_step ha ht hle with he | hb
      · rw [he]
      · exact absurd hb (hnone third hthird ht)
  · exact absurd ⟨name, hn, ha, hnone⟩ (not_refuses_of_inner ho (above_of_inMetadata hm) hi)

section

variable (h : ∀ entry, entry ∈ entries ↔ entry ∈ others)
include h

theorem NestedHolders.congr (hn : NestedHolders entries path) : NestedHolders others path := by
  obtain ⟨outer, inner, ho, hi, hin, hm, hd⟩ := hn
  exact ⟨outer, inner, (h _).mp ho, (h _).mp hi, hin, hm, fun other hother => hd other ((h _).mpr hother)⟩

theorem refuses_congr (hr : Refuses entries path holder) : Refuses others path holder := by
  obtain ⟨name, hn, ha, hnone⟩ := hr
  exact ⟨name, hn, ha, fun other ho => hnone other ((h _).mpr ho)⟩

omit h in
theorem exists_firstHolder (hm : entry ∈ entries)
    (hw : entry.access = .write) (hmeta : InMetadata entry.path path) :
    ∃ first, firstHolder entries path = some first := by
  rw [← Option.isSome_iff_exists, firstHolder, find?_isSome]
  exact ⟨entry, hm, decide_eq_true ⟨hw, hmeta⟩⟩

/-- Without nested holders the first holder of one order refuses where that of another order does, at one place. -/
theorem firstHolder_congr (hn : ¬NestedHolders entries path)
    (hf : firstHolder entries path = some entry) (hr : Refuses entries path entry.path) :
    ∃ other, firstHolder others path = some other ∧ other.path = entry.path := by
  obtain ⟨hm, hmeta⟩ := firstHolder_spec hf
  obtain ⟨other, ho⟩ := exists_firstHolder ((h _).mp hm) rfl hmeta
  obtain ⟨hme', hm'⟩ := firstHolder_spec ho
  refine ⟨other, ho, ?_⟩
  by_contra hne
  exact hn (nestedHolders_of_refuses hm ((h _).mpr hme') hm' hr hne)

/-- Without nested holders the metadata rule gives the same answer for every order. -/
theorem isMetadataWriteDenied_congr (ht : ¬NestedHolders entries path) :
    isMetadataWriteDenied entries path = true ↔ isMetadataWriteDenied others path = true := by
  rw [isMetadataWriteDenied_iff_refuses, isMetadataWriteDenied_iff_refuses]
  constructor
  · rintro ⟨entry, hf, hr⟩
    obtain ⟨other, ho, he⟩ := firstHolder_congr h ht hf hr
    exact ⟨other, ho, he ▸ refuses_congr h hr⟩
  · rintro ⟨entry, hf, hr⟩
    have hs : ∀ entry, entry ∈ others ↔ entry ∈ entries := fun entry => (h entry).symm
    obtain ⟨other, ho, he⟩ := firstHolder_congr hs (fun hn => ht (hn.congr hs)) hf hr
    exact ⟨other, ho, he ▸ refuses_congr hs hr⟩

end

end Holders

section Policies

variable {policy other : FileSystemSandboxPolicy}

theorem forbidden_eq_some_iff (hkind : policy.kind = .restricted) :
    policy.forbiddenAgentMetadataWrite host cwd path = some name ↔
      ∃ entry, firstHolder (policy.resolvedEntriesWithCwd host cwd) path = some entry ∧
        Refuses (policy.resolvedEntriesWithCwd host cwd) path entry.path ∧ entry.path ++ [name] <+: path ∧
        policy.canWritePathWithCwd host cwd path = false := by
  have hnot : ¬policy.kind ≠ .restricted := not_not.mpr hkind
  unfold FileSystemSandboxPolicy.forbiddenAgentMetadataWrite
  rw [if_neg hnot, metadataChildOfWritableRoot_eq]
  cases hfirst : firstHolder (policy.resolvedEntriesWithCwd host cwd) path with
  | none => simp
  | some entry =>
    obtain ⟨found, hf, ha⟩ := (firstHolder_spec hfirst).2
    have hr : Refuses (policy.resolvedEntriesWithCwd host cwd) path entry.path ↔
        hasExplicitWriteEntryForMetadataPath (policy.resolvedEntriesWithCwd host cwd) (entry.path ++ [found]) path =
          false := by
      rw [hasExplicitWriteEntry_eq_false]
      constructor
      · rintro ⟨name, _, hname, hn⟩
        rwa [step_unique ha hname]
      · exact fun hn => ⟨found, hf, ha, hn⟩
    have hs : entry.path ++ [name] <+: path ↔ found = name := ⟨step_unique ha, fun he => he ▸ ha⟩
    rw [Option.bind_some, metadataChild_eq_some.mpr ⟨hf, ha, rfl⟩]
    simp only [Option.some.injEq, exists_eq_left', hr, hs]
    cases hasExplicitWriteEntryForMetadataPath (policy.resolvedEntriesWithCwd host cwd) (entry.path ++ [found]) path
    · cases policy.canWritePathWithCwd host cwd path <;> simp
    · simp

theorem nearestOpen_iff : NearestOpen (policy.resolvedEntriesWithCwd host cwd) path ↔
    resolveAccess (policy.resolvedEntriesWithCwd host cwd) path = .write := by
  by_cases he : ∃ entry ∈ policy.resolvedEntriesWithCwd host cwd, entry.path <+: path
  · obtain ⟨root, hn⟩ := exists_nearest he
    rw [resolveAccess_eq_write hn]
    constructor
    · rintro ⟨other, ho, hopen⟩
      rwa [hn.unique ho]
    · exact fun hopen => ⟨root, hn, hopen⟩
  · push Not at he
    rw [resolveAccess_of_no_entry he]
    constructor
    · rintro ⟨root, ⟨⟨entry, hm, rfl⟩, ha, _⟩, _⟩
      exact absurd ha (he entry hm)
    · intro hd
      cases hd

theorem canWrite_iff (hkind : policy.kind = .restricted) :
    policy.canWritePathWithCwd host cwd path = true ↔
      NearestOpen (policy.resolvedEntriesWithCwd host cwd) path ∧ (policy.hasFullDiskWriteAccess = true ∨
        ¬isMetadataWriteDenied (policy.resolvedEntriesWithCwd host cwd) path = true) := by
  rw [nearestOpen_iff]
  simp [FileSystemSandboxPolicy.canWritePathWithCwd, FileSystemSandboxPolicy.resolveAccessWithCwd, hkind,
    FileSystemAccessMode.canWrite, or_iff_not_imp_left]

/-- The same policy with its entries listed in another order. -/
structure Reordered (other policy : FileSystemSandboxPolicy) : Prop where
  kind : other.kind = policy.kind
  entries : other.entries.Perm policy.entries

section

variable (h : Reordered other policy)
include h

theorem Reordered.symm : Reordered policy other := ⟨h.kind.symm, h.entries.symm⟩

theorem Reordered.mem_resolvedEntries (host : Host) (cwd : Path) (entry : ResolvedFileSystemEntry) :
    entry ∈ other.resolvedEntriesWithCwd host cwd ↔ entry ∈ policy.resolvedEntriesWithCwd host cwd :=
  (h.entries.filterMap _).mem_iff

/-- Which mode a path gets is a matter of which entries there are. -/
theorem Reordered.resolveAccessWithCwd (host : Host) (cwd path : Path) :
    other.resolveAccessWithCwd host cwd path = policy.resolveAccessWithCwd host cwd path := by
  have hrank : (winner ResolvedFileSystemEntry.path (fun entry => entry.access.rank)
      (other.resolvedEntriesWithCwd host cwd) path).map (fun entry => entry.access.rank) =
      (winner ResolvedFileSystemEntry.path (fun entry => entry.access.rank)
        (policy.resolvedEntriesWithCwd host cwd) path).map (fun entry => entry.access.rank) :=
    winner_rank_congr _ (h.mem_resolvedEntries host cwd)
  have hr : resolveAccess (other.resolvedEntriesWithCwd host cwd) path =
      resolveAccess (policy.resolvedEntriesWithCwd host cwd) path := by
    unfold resolveAccess
    cases hf : winner ResolvedFileSystemEntry.path (fun entry => entry.access.rank)
        (other.resolvedEntriesWithCwd host cwd) path with
    | none =>
      rw [hf, Option.map_none] at hrank
      rw [Option.map_eq_none_iff.mp hrank.symm]
    | some first =>
      rw [hf, Option.map_some] at hrank
      obtain ⟨second, hs, he⟩ := Option.map_eq_some_iff.mp hrank.symm
      rw [hs]
      exact FileSystemAccessMode.rank_injective he.symm
  rw [FileSystemSandboxPolicy.resolveAccessWithCwd, FileSystemSandboxPolicy.resolveAccessWithCwd, h.kind, hr]

theorem Reordered.hasFullDiskWriteAccess : other.hasFullDiskWriteAccess = policy.hasFullDiskWriteAccess := by
  have ho : ∀ entry, other.hasSameTargetWriteOverride entry = policy.hasSameTargetWriteOverride entry :=
    fun entry => h.entries.any_eq
  have hn : other.hasWriteNarrowingEntries = policy.hasWriteNarrowingEntries := by
    unfold FileSystemSandboxPolicy.hasWriteNarrowingEntries
    simp only [h.kind, ho, h.entries.any_eq]
  have hr : other.hasRootAccess FileSystemAccessMode.canWrite =
      policy.hasRootAccess FileSystemAccessMode.canWrite := by
    unfold FileSystemSandboxPolicy.hasRootAccess
    simp only [h.kind, h.entries.any_eq]
  rw [FileSystemSandboxPolicy.hasFullDiskWriteAccess, FileSystemSandboxPolicy.hasFullDiskWriteAccess, h.kind, hr, hn]

theorem Reordered.nearestOpen (hkind : policy.kind = .restricted) :
    NearestOpen (other.resolvedEntriesWithCwd host cwd) path ↔
      NearestOpen (policy.resolvedEntriesWithCwd host cwd) path := by
  have ha : resolveAccess (other.resolvedEntriesWithCwd host cwd) path =
      resolveAccess (policy.resolvedEntriesWithCwd host cwd) path := by
    have he := h.resolveAccessWithCwd host cwd path
    unfold FileSystemSandboxPolicy.resolveAccessWithCwd at he
    rwa [h.kind, hkind] at he
  rw [nearestOpen_iff, nearestOpen_iff, ha]

end

end Policies

section Orders

/-- The path has nested holders, and the policy is not one with full disk access whose nearest entry lets the path
be written. -/
def OrderMatters (host : Host) (policy : FileSystemSandboxPolicy) (cwd path : Path) : Prop :=
  NestedHolders (policy.resolvedEntriesWithCwd host cwd) path ∧
    ¬(policy.hasFullDiskWriteAccess = true ∧ NearestOpen (policy.resolvedEntriesWithCwd host cwd) path)

section

variable (h : Reordered other policy) (hkind : policy.kind = .restricted)
  (horder : ¬OrderMatters host policy cwd path)
include h hkind horder

theorem Reordered.canWrite : other.canWritePathWithCwd host cwd path = policy.canWritePathWithCwd host cwd path := by
  rw [Bool.eq_iff_iff, canWrite_iff hkind, canWrite_iff (h.kind.trans hkind), h.nearestOpen hkind,
    h.hasFullDiskWriteAccess]
  by_cases hn : NestedHolders (policy.resolvedEntriesWithCwd host cwd) path
  · have hd : policy.hasFullDiskWriteAccess = true := by
      by_contra hd
      exact horder ⟨hn, fun hb => hd hb.1⟩
    simp [hd]
  · rw [isMetadataWriteDenied_congr (fun entry => (h.mem_resolvedEntries host cwd entry).symm) hn]

theorem Reordered.forbidden_of_eq_some (hname : policy.forbiddenAgentMetadataWrite host cwd path = some name) :
    other.forbiddenAgentMetadataWrite host cwd path = some name := by
  have hm := h.symm.mem_resolvedEntries host cwd
  rw [forbidden_eq_some_iff hkind] at hname
  rw [forbidden_eq_some_iff (h.kind.trans hkind), h.canWrite hkind horder]
  obtain ⟨entry, hf, hr, ha, hc⟩ := hname
  have hn : ¬NestedHolders (policy.resolvedEntriesWithCwd host cwd) path := by
    intro hn
    have hb : policy.hasFullDiskWriteAccess = true ∧ NearestOpen (policy.resolvedEntriesWithCwd host cwd) path := by
      by_contra hb
      exact horder ⟨hn, hb⟩
    rw [(canWrite_iff hkind).mpr ⟨hb.2, .inl hb.1⟩] at hc
    cases hc
  obtain ⟨second, hs, he⟩ := firstHolder_congr hm hn hf hr
  exact ⟨second, hs, he ▸ refuses_congr hm hr, he ▸ ha, hc⟩

theorem Reordered.not_orderMatters : ¬OrderMatters host other cwd path := by
  rintro ⟨hn, hnot⟩
  rw [h.hasFullDiskWriteAccess, h.nearestOpen hkind] at hnot
  exact horder ⟨hn.congr (h.mem_resolvedEntries host cwd), hnot⟩

theorem Reordered.sameAnswers : SameAnswers host cwd path policy other := by
  have ha := h.symm.resolveAccessWithCwd host cwd path
  refine ⟨ha, ?_, (h.canWrite hkind horder).symm, ?_⟩
  · rw [FileSystemSandboxPolicy.canReadPathWithCwd, ha, FileSystemSandboxPolicy.canReadPathWithCwd]
  · refine Option.ext fun name => ⟨h.forbidden_of_eq_some hkind horder, ?_⟩
    exact h.symm.forbidden_of_eq_some (h.kind.trans hkind) (h.not_orderMatters hkind horder)

end

/-- The policy with the entry listed first. -/
def listedFirst (policy : FileSystemSandboxPolicy) (entry : FileSystemSandboxEntry) : FileSystemSandboxPolicy :=
  { policy with entries := entry :: policy.entries.erase entry }

theorem listedFirst_reordered (h : entry ∈ policy.entries) : Reordered (listedFirst policy entry) policy :=
  ⟨rfl, (perm_cons_erase h).symm⟩

/-- Every holder of the path is the first one in some order. -/
theorem exists_order_with_holder
    (hh : ⟨holder, .write⟩ ∈ policy.resolvedEntriesWithCwd host cwd) (hmeta : InMetadata holder path) :
    ∃ other, Reordered other policy ∧
      firstHolder (other.resolvedEntriesWithCwd host cwd) path = some ⟨holder, .write⟩ := by
  obtain ⟨entry, hm, hr⟩ := mem_filterMap.mp hh
  refine ⟨listedFirst policy entry, listedFirst_reordered hm, ?_⟩
  unfold FileSystemSandboxPolicy.resolvedEntriesWithCwd listedFirst
  rw [filterMap_cons, hr, firstHolder]
  exact find?_cons_of_pos (decide_eq_true ⟨rfl, hmeta⟩)

/-- The outer one of nested holders, listed first, lets the path pass; the inner one does not. -/
theorem OrderMatters.exists_disagreement (h : OrderMatters host policy cwd path) (hkind : policy.kind = .restricted) :
    ∃ first second, Reordered first policy ∧ Reordered second policy ∧ ¬SameAnswers host cwd path first second := by
  obtain ⟨⟨outer, inner, houter, hi, hin, hm, hd⟩, hnot⟩ := h
  have ho : InMetadata outer path := by
    obtain ⟨name, hn, ha⟩ := hin
    exact ⟨name, hn, ha.trans (above_of_inMetadata hm)⟩
  obtain ⟨first, hfirst, hf⟩ := exists_order_with_holder houter ho
  obtain ⟨second, hs, hh⟩ := exists_order_with_holder hi hm
  refine ⟨first, second, hfirst, hs, fun hsame => ?_⟩
  have hp : ¬Refuses (first.resolvedEntriesWithCwd host cwd) path outer :=
    not_refuses_of_inner ((hfirst.mem_resolvedEntries host cwd _).mpr hi) (above_of_inMetadata hm) hin
  have hr : Refuses (second.resolvedEntriesWithCwd host cwd) path inner :=
    refuses_of_deepest hm fun other hother => hd other ((hs.mem_resolvedEntries host cwd _).mp hother)
  have hdenied : isMetadataWriteDenied (second.resolvedEntriesWithCwd host cwd) path = true :=
    isMetadataWriteDenied_iff_refuses.mpr ⟨_, hh, hr⟩
  have hl : ¬isMetadataWriteDenied (first.resolvedEntriesWithCwd host cwd) path = true := by
    rw [isMetadataWriteDenied_iff_refuses, hf]
    rintro ⟨entry, heq, he⟩
    cases heq
    exact hp he
  by_cases hopen : NearestOpen (policy.resolvedEntriesWithCwd host cwd) path
  · have hdisk : ¬policy.hasFullDiskWriteAccess = true := fun hdisk => hnot ⟨hdisk, hopen⟩
    have hc : first.canWritePathWithCwd host cwd path = true :=
      (canWrite_iff (hfirst.kind.trans hkind)).mpr ⟨(hfirst.nearestOpen hkind).mpr hopen, .inr hl⟩
    rw [hsame.canWrite, canWrite_iff (hs.kind.trans hkind), hs.hasFullDiskWriteAccess] at hc
    rcases hc.2 with hy | hnone
    · exact hdisk hy
    · exact hnone hdenied
  · have hc : second.canWritePathWithCwd host cwd path = false := by
      rw [← Bool.not_eq_true, canWrite_iff (hs.kind.trans hkind), hs.nearestOpen hkind]
      exact fun hc => hopen hc.1
    have ⟨name, _, ha, _⟩ := hr
    have hb := (forbidden_eq_some_iff (hs.kind.trans hkind)).mpr
      ⟨_, hh, hr, ha, hc⟩
    rw [← hsame.forbidden, forbidden_eq_some_iff (hfirst.kind.trans hkind), hf] at hb
    obtain ⟨entry, heq, he, _⟩ := hb
    cases heq
    exact hp he

/-- The answers for a path are the same for every order of the entries exactly where no order matters. -/
theorem answers_ignore_entry_order_iff (host : Host) (policy : FileSystemSandboxPolicy)
    (hkind : policy.kind = .restricted) (cwd : Path) (text : Str) :
    (∀ other, Reordered other policy →
      SameAnswers host cwd (resolveCandidatePath host text cwd) policy other) ↔
      ¬OrderMatters host policy cwd (resolveCandidatePath host text cwd) := by
  constructor
  · intro ha horder
    obtain ⟨first, second, hf, hs, hne⟩ := horder.exists_disagreement hkind
    have hf := ha first hf
    have hs := ha second hs
    exact hne ⟨hf.access.symm.trans hs.access, hf.canRead.symm.trans hs.canRead,
      hf.canWrite.symm.trans hs.canWrite, hf.forbidden.symm.trans hs.forbidden⟩
  · intro horder other ho
    exact ho.sameAnswers hkind horder

def writeEntry (path : Path) : FileSystemSandboxEntry := ⟨.path path, .write⟩

/-- A workspace that may be written, and a directory in its `.git` that may be written. -/
def workspaceEntry : FileSystemSandboxEntry := writeEntry ["a".toList]
def hooksEntry : FileSystemSandboxEntry := writeEntry ["a".toList, ".git".toList, "hooks".toList]

/-- One writable root: no order matters for its metadata. -/
theorem one_root_ignores_entry_order :
    (FileSystemSandboxPolicy.mk .restricted [⟨.special .root, .read⟩, workspaceEntry]).kind = .restricted ∧
    ∀ other, Reordered other ⟨.restricted, [⟨.special .root, .read⟩, workspaceEntry]⟩ →
      SameAnswers emptyHost [] (resolveCandidatePath emptyHost "/a/.git/config".toList [])
        ⟨.restricted, [⟨.special .root, .read⟩, workspaceEntry]⟩ other := by
  refine ⟨rfl, (answers_ignore_entry_order_iff emptyHost ⟨.restricted, [⟨.special .root, .read⟩, workspaceEntry]⟩ rfl []
    "/a/.git/config".toList).mpr ?_⟩
  rintro ⟨⟨outer, inner, ho, hi, ⟨name, _, hin⟩, _⟩, _⟩
  have he : FileSystemSandboxPolicy.resolvedEntriesWithCwd emptyHost
      ⟨.restricted, [⟨.special .root, .read⟩, workspaceEntry]⟩ [] = [⟨[], .read⟩, ⟨["a".toList], .write⟩] := rfl
  rw [he] at ho hi
  have ho : outer = ["a".toList] := by simpa using ho
  have hi : inner = ["a".toList] := by simpa using hi
  subst ho hi
  exact not_step_below hin

/-- The hooks directory may be written in one order of the entries only. -/
theorem hooks_metadata_depends_on_entry_order :
    ¬∀ (host : Host) (policy other : FileSystemSandboxPolicy) (cwd : Path) (text : Str),
      policy.kind = .restricted → Reordered other policy →
        SameAnswers host cwd (resolveCandidatePath host text cwd) policy other := by
  intro ha
  have hs := ha emptyHost ⟨.restricted, [workspaceEntry, hooksEntry]⟩ ⟨.restricted, [hooksEntry, workspaceEntry]⟩
    [] "/a/.git/hooks/.git/x".toList rfl ⟨rfl, List.Perm.swap ..⟩
  have hc := hs.canWrite
  revert hc
  decide

end Orders

end EntryOrder
