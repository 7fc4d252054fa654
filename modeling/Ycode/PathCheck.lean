import Ycode.SandboxPolicy

/-!
# The direct check of a path

The direct check of a write comes down to the nearest entry on the way to the path. It must let the path be
written, and where the path lies in the metadata of the entry, the entry must be excused: listed after a writable
entry in whose metadata it lies itself.
-/
namespace PathCheck

open RustStr DeepestRule SandboxPolicy List

section Vocabulary

variable (entries : List ResolvedFileSystemEntry)

abbrev HasEntry (path : Path) : Prop := HasRule ResolvedFileSystemEntry.path entries path

/-- The entry of a path on the way to it that is nearest to it. -/
abbrev Nearest (path root : Path) : Prop := Deepest ResolvedFileSystemEntry.path entries path root

/-- The entries of the path itself let it be written. -/
def IsOpen (path : Path) : Prop := ⟨path, .write⟩ ∈ entries ∧ ⟨path, .deny⟩ ∉ entries

instance (path : Path) : Decidable (IsOpen entries path) := inferInstanceAs (Decidable (_ ∧ _))

def InMetadata (root path : Path) : Prop := ∃ name ∈ protectedMetadataPathNames, root ++ [name] <+: path

instance (root path : Path) : Decidable (InMetadata root path) :=
  inferInstanceAs (Decidable (∃ name ∈ protectedMetadataPathNames, _))

/-- The root lies in the metadata of a writable entry that is listed before its own. -/
def Excused (root : Path) : Prop :=
  ∃ entry, entries.find? (fun entry => entry.access = .write ∧ (entry.path = root ∨ InMetadata entry.path root)) =
    some entry ∧ entry.path ≠ root

end Vocabulary

variable {path root : Path}

theorem step_unique (h : root ++ [name] <+: path) (h' : root ++ [other] <+: path) : name = other := by
  have he := (prefix_of_prefix_length_le h h' (by simp)).eq_of_length (by simp)
  exact singleton_inj.mp (append_cancel_left he)

theorem resolveAccess_eq_write (h : Nearest entries path root) :
    resolveAccess entries path = .write ↔ IsOpen entries root := by
  obtain ⟨⟨_, access⟩, he, hw, rfl, hm⟩ := h.winner fun e => e.access.rank
  have hr : resolveAccess entries path = access := by rw [resolveAccess, hw]
  rw [hr]
  constructor
  · rintro rfl
    exact ⟨he, fun hd => absurd (hm _ hd rfl) (by simp [FileSystemAccessMode.rank])⟩
  · rintro ⟨hwrite, hd⟩
    have hle := hm _ hwrite rfl
    cases access with
    | read => simp [FileSystemAccessMode.rank] at hle
    | write => rfl
    | deny => exact absurd he hd

theorem exists_nearest (h : ∃ e ∈ entries, e.path <+: path) : ∃ root, Nearest entries path root := by
  obtain ⟨e, _, _, hn, _⟩ := winner_eq_some (fun e => e.access.rank) h
  exact ⟨e.path, hn⟩

theorem resolveAccess_of_no_entry (h : ∀ e ∈ entries, ¬e.path <+: path) : resolveAccess entries path = .deny := by
  rw [resolveAccess, winner_eq_none h]

theorem metadataPathName_eq_some :
    metadataPathName first = some name ↔ first = name ∧ name ∈ protectedMetadataPathNames := by
  constructor
  · intro h
    have he := find?_some h
    exact ⟨of_decide_eq_true he, mem_of_find?_eq_some h⟩
  · rintro ⟨rfl, hm⟩
    revert first
    decide

theorem prefix_step {outer inner : Path} (hn : outer ++ [name] <+: path) (hi : inner <+: path)
    (h : outer <+: inner) : outer = inner ∨ outer ++ [name] <+: inner := by
  rcases Nat.lt_or_ge outer.length inner.length with hlt | hg
  · right
    exact prefix_of_prefix_length_le hn hi (by simpa using Nat.succ_le_of_lt hlt)
  · left
    exact h.eq_of_length_le hg

theorem not_step_below : ¬path ++ [name] <+: path := by
  intro h
  have hle := h.length_le
  rw [length_append, length_singleton] at hle
  omega

theorem dropPrefix_eq_some : target.dropPrefix? root = some rest ↔ target = root ++ rest := by
  rw [dropPrefix?_eq_some_iff]
  constructor
  · rintro ⟨_, rfl, he⟩
    rw [eq_of_beq he]
  · rintro rfl
    exact ⟨root, rfl, beq_self_eq_true root⟩

theorem step_prefix_iff : root ++ [name] <+: target ↔ ∃ rest, target.dropPrefix? root = some (name :: rest) := by
  simp only [dropPrefix_eq_some]
  constructor
  all_goals
    rintro ⟨rest, rfl⟩
    exact ⟨rest, by rw [append_assoc]; rfl⟩

theorem metadataChild_eq_some :
    metadataChild root target = some (protectedPath, name) ↔
      name ∈ protectedMetadataPathNames ∧ root ++ [name] <+: target ∧ protectedPath = root ++ [name] := by
  rw [step_prefix_iff, metadataChild]
  constructor
  · intro h
    split at h
    · rename_i first rest hr
      obtain ⟨found, hf, he⟩ := Option.map_eq_some_iff.mp h
      cases he
      obtain ⟨rfl, hm⟩ := metadataPathName_eq_some.mp hf
      exact ⟨hm, ⟨rest, hr⟩, rfl⟩
    · cases h
  · rintro ⟨hm, ⟨rest, hr⟩, rfl⟩
    simp only [hr, metadataPathName_eq_some.mpr ⟨rfl, hm⟩, Option.map_some]

theorem metadataChild_eq_none : metadataChild root target = none ↔ ¬InMetadata root target := by
  rw [Option.eq_none_iff_forall_ne_some]
  constructor
  · rintro h ⟨name, hn, ha⟩
    exact h _ (metadataChild_eq_some.mpr ⟨hn, ha, rfl⟩)
  · rintro h ⟨protectedPath, name⟩ he
    obtain ⟨hn, ha, _⟩ := metadataChild_eq_some.mp he
    exact h ⟨name, hn, ha⟩

/-- The first writable entry that has the target in its metadata. -/
def firstHolder (entries : List ResolvedFileSystemEntry) (target : Path) : Option ResolvedFileSystemEntry :=
  entries.find? fun entry => entry.access = .write ∧ InMetadata entry.path target

theorem metadataChildOfWritableRoot_eq :
    metadataChildOfWritableRoot entries target =
      (firstHolder entries target).bind fun e => metadataChild e.path target := by
  induction entries with
  | nil => rfl
  | cons e entries ih =>
    rw [metadataChildOfWritableRoot, firstHolder, filter_cons, find?_cons]
    by_cases hw : e.access = .write
    · have hcan : e.access.canWrite = true := decide_eq_true hw
      rw [if_pos hcan, findSome?_cons]
      cases hc : metadataChild e.path target with
      | some ch =>
        have hm : InMetadata e.path target := by
          by_contra hn
          rw [metadataChild_eq_none.mpr hn] at hc
          cases hc
        simp [hw, hm, hc]
      | none =>
        have hm := metadataChild_eq_none.mp hc
        simp only [hm, and_false, decide_false]
        exact ih
    · have hcan : ¬e.access.canWrite = true := by simpa [FileSystemAccessMode.canWrite] using hw
      rw [if_neg hcan]
      simp only [hw, false_and, decide_false]
      exact ih

theorem hasExplicitWriteEntry_eq_false :
    hasExplicitWriteEntryForMetadataPath entries protectedPath path = false ↔
      ∀ other, ⟨other, .write⟩ ∈ entries → other <+: path → ¬protectedPath <+: other := by
  have he : ∀ entry : ResolvedFileSystemEntry, (entry.access.canWrite && entry.path.isPrefixOf path &&
      protectedPath.isPrefixOf entry.path) = true ↔
        entry.access = .write ∧ entry.path <+: path ∧ protectedPath <+: entry.path := by
    intro entry
    rw [Bool.and_eq_true, Bool.and_eq_true, isPrefixOf_iff_prefix, isPrefixOf_iff_prefix, and_assoc,
      FileSystemAccessMode.canWrite, decide_eq_true_eq]
  rw [hasExplicitWriteEntryForMetadataPath, any_eq_false]
  constructor
  · intro h other hm ha hb
    exact h _ hm ((he _).mpr ⟨rfl, ha, hb⟩)
  · rintro h ⟨other, access⟩ hm hall
    obtain ⟨rfl, ha, hb⟩ := (he _).mp hall
    exact h other hm ha hb

theorem isMetadataWriteDenied_iff :
    isMetadataWriteDenied entries path = true ↔ ∃ e name, firstHolder entries path = some e ∧
      name ∈ protectedMetadataPathNames ∧ e.path ++ [name] <+: path ∧
      ∀ other, ⟨other, .write⟩ ∈ entries → other <+: path → ¬e.path ++ [name] <+: other := by
  unfold isMetadataWriteDenied
  rw [metadataChildOfWritableRoot_eq]
  constructor
  · intro h
    split at h
    · rename_i protectedPath name hc
      obtain ⟨e, hf, hc⟩ := Option.bind_eq_some_iff.mp hc
      obtain ⟨hn, ha, rfl⟩ := metadataChild_eq_some.mp hc
      rw [Bool.not_eq_true'] at h
      exact ⟨e, name, hf, hn, ha, hasExplicitWriteEntry_eq_false.mp h⟩
    · cases h
  · rintro ⟨e, name, hf, hn, ha, hnone⟩
    rw [hf, Option.bind_some, metadataChild_eq_some.mpr ⟨hn, ha, rfl⟩]
    simp only [hasExplicitWriteEntry_eq_false.mpr hnone, Bool.not_false]

/-- Below the nearest entry the holders of a path are those of the entry, and the entry itself. -/
theorem firstHolder_of_nearest (h : Nearest entries path root) (hm : InMetadata root path) :
    firstHolder entries path =
      entries.find? fun e => e.access = .write ∧ (e.path = root ∨ InMetadata e.path root) := by
  refine find?_congr fun e he => decide_eq_decide.mpr (and_congr_right fun _ => ?_)
  constructor
  · rintro ⟨name, hn, ha⟩
    have hb := h.max e he ((prefix_append ..).trans ha)
    rcases prefix_step ha h.above hb with heq | hi
    · exact .inl heq
    · exact .inr ⟨name, hn, hi⟩
  · rintro (heq | ⟨name, hn, hi⟩)
    · rwa [heq]
    · exact ⟨name, hn, hi.trans h.above⟩

theorem isMetadataWriteDenied_of_nearest (h : Nearest entries path root) (hopen : IsOpen entries root) :
    isMetadataWriteDenied entries path = true ↔ InMetadata root path ∧ ¬Excused entries root := by
  rw [isMetadataWriteDenied_iff]
  constructor
  · rintro ⟨entry, name, hf, hn, ha, hnone⟩
    have he := mem_of_find?_eq_some hf
    have ht := h.max entry he ((prefix_append ..).trans ha)
    rcases prefix_step ha h.above ht with heq | hi
    · rw [heq] at ha
      refine ⟨⟨name, hn, ha⟩, ?_⟩
      rintro ⟨x, ho, hne⟩
      rw [firstHolder_of_nearest h ⟨name, hn, ha⟩, ho] at hf
      cases hf
      exact hne heq
    · exact absurd hi (hnone root hopen.1 h.above)
  · rintro ⟨⟨name, hn, ha⟩, hx⟩
    have hf := firstHolder_of_nearest h ⟨name, hn, ha⟩
    obtain ⟨entry, he⟩ : ∃ entry, firstHolder entries path = some entry := by
      rw [← Option.isSome_iff_exists, hf, find?_isSome]
      exact ⟨_, hopen.1, by simp⟩
    have heq : entry.path = root := by
      by_contra hne
      exact hx ⟨entry, hf ▸ he, hne⟩
    refine ⟨entry, name, he, hn, heq ▸ ha, ?_⟩
    intro x ho hh hb
    rw [heq] at hb
    exact not_step_below (hb.trans (h.max _ ho hh))

/-- Where the entries of a path do not let it be written, one of them is not a write entry. -/
theorem exists_closing_entry (h : HasEntry entries path) (hc : ¬IsOpen entries path) :
    ∃ e ∈ entries, e.path = path ∧ e.access.canWrite = false := by
  by_cases hd : ⟨path, .deny⟩ ∈ entries
  · exact ⟨_, hd, rfl, rfl⟩
  · obtain ⟨⟨_, access⟩, hm, rfl⟩ := h
    refine ⟨_, hm, rfl, decide_eq_false ?_⟩
    rintro rfl
    exact hc ⟨hm, hd⟩

/-- The direct check in terms of the entries. -/
def Writable (entries : List ResolvedFileSystemEntry) (path : Path) : Prop :=
  ∃ root, Nearest entries path root ∧ IsOpen entries root ∧ (InMetadata root path → Excused entries root)

theorem writable_of_nearest (h : Nearest entries path root) :
    Writable entries path ↔ IsOpen entries root ∧ (InMetadata root path → Excused entries root) := by
  constructor
  · rintro ⟨x, ho, hw⟩
    rwa [h.unique ho]
  · intro hw
    exact ⟨root, h, hw⟩

/-- At an entry only the entries there count. -/
theorem writable_at_entry (h : HasEntry entries path) : Writable entries path ↔ IsOpen entries path := by
  rw [writable_of_nearest (Deepest.self h)]
  constructor
  · exact And.left
  · intro ho
    refine ⟨ho, ?_⟩
    rintro ⟨name, _, hs⟩
    exact absurd hs (not_step_below)

/-- The metadata of a root that has no entry of its own. -/
theorem writable_child (ho : IsOpen entries root) (hn : name ∈ protectedMetadataPathNames)
    (hnone : ¬HasEntry entries (root ++ [name])) : Writable entries (root ++ [name]) ↔ Excused entries root := by
  rw [writable_of_nearest (Deepest.step ⟨_, ho.1, rfl⟩ hnone)]
  constructor
  · rintro ⟨_, he⟩
    exact he ⟨name, hn, prefix_refl _⟩
  · intro he
    exact ⟨ho, fun _ => he⟩

variable {policy : FileSystemSandboxPolicy}

theorem canWritePathWithCwd_iff (hk : policy.kind = .restricted) (hdisk : policy.hasFullDiskWriteAccess = false) :
    policy.canWritePathWithCwd host cwd path = true ↔ Writable (policy.resolvedEntriesWithCwd host cwd) path := by
  have hc : policy.canWritePathWithCwd host cwd path = true ↔
      resolveAccess (policy.resolvedEntriesWithCwd host cwd) path = .write ∧
        ¬isMetadataWriteDenied (policy.resolvedEntriesWithCwd host cwd) path = true := by
    simp [FileSystemSandboxPolicy.canWritePathWithCwd, FileSystemSandboxPolicy.resolveAccessWithCwd, hk, hdisk,
      FileSystemAccessMode.canWrite]
  rw [hc]
  by_cases he : ∃ e ∈ policy.resolvedEntriesWithCwd host cwd, e.path <+: path
  · obtain ⟨root, hn⟩ := exists_nearest he
    rw [writable_of_nearest hn, resolveAccess_eq_write hn]
    refine and_congr_right fun ho => ?_
    rw [isMetadataWriteDenied_of_nearest hn ho, not_and, not_not]
  · push Not at he
    rw [resolveAccess_of_no_entry he]
    constructor
    · rintro ⟨hd, _⟩
      cases hd
    · rintro ⟨root, ⟨⟨e, hm, rfl⟩, ha, _⟩, _⟩
      exact absurd ha (he e hm)

end PathCheck
