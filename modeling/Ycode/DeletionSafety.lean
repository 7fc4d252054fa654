import Ycode.ThreadDeletion

/-!
# No fork loses its base

The scan of a deletion finds a reference to what it deletes if there is one, as long as no rollout it has yet to meet is
unarchived or deleted. Then a deletion that goes on removes only threads that nothing outside continues, no fork that
is under way can come to continue one of them, and when all deletions have returned every base is still there.
-/
namespace DeletionSafety

open ThreadDeletion List

variable {θ : Type} [DecidableEq θ]

variable {world : World θ}

theorem isAt_iff : world.isAt thread place = true ↔
    ∃ file ∈ world.files, file.thread = thread ∧ file.place = place := by
  simp [World.isAt]

theorem has_iff : world.has thread = true ↔ ∃ file ∈ world.files, file.thread = thread := by
  simp [World.has]

theorem has_of_isAt (h : world.isAt thread place = true) : world.has thread = true := by
  obtain ⟨file, hf, ht, _⟩ := isAt_iff.mp h
  exact has_iff.mpr ⟨file, hf, ht⟩

theorem mem_remove : file ∈ (world.remove thread place).files ↔
    file ∈ world.files ∧ ¬(file.thread = thread ∧ file.place = place) := by
  rw [World.remove, mem_filter, decide_eq_true_eq]

theorem has_of_remove (h : (world.remove thread place).has other = true) : world.has other = true := by
  obtain ⟨file, hf, ho⟩ := has_iff.mp h
  exact has_iff.mpr ⟨file, (mem_remove.mp hf).1, ho⟩

theorem isAt_of_remove (h : (world.remove thread place).isAt other at' = true) :
    world.isAt other at' = true ∧ ¬(other = thread ∧ at' = place) := by
  obtain ⟨file, hf, rfl, rfl⟩ := isAt_iff.mp h
  exact ⟨isAt_iff.mpr ⟨file, (mem_remove.mp hf).1, rfl, rfl⟩, (mem_remove.mp hf).2⟩

theorem has_remove_of_ne (hne : other ≠ thread) (h : world.has other = true) :
    (world.remove thread place).has other = true := by
  obtain ⟨file, hf, rfl⟩ := has_iff.mp h
  exact has_iff.mpr ⟨file, mem_remove.mpr ⟨hf, fun he => hne he.1⟩, rfl⟩

theorem mem_add_of_mem (h : file ∈ world.files) : file ∈ (world.add thread place).files := by
  unfold World.add
  split
  · exact h
  · exact mem_append_left _ h

theorem isAt_add_self : (world.add thread place).isAt thread place = true := by
  unfold World.add
  split
  · assumption
  · exact isAt_iff.mpr ⟨_, mem_append_right _ (mem_singleton_self _), rfl, rfl⟩

theorem mem_of_mem_add (h : file ∈ (world.add thread place).files) :
    file ∈ world.files ∨ file = ⟨thread, place, world.clock⟩ := by
  unfold World.add at h
  split at h
  · exact .inl h
  · exact (mem_append.mp h).imp_right mem_singleton.mp

/-- The stamps of the files lie in the past. -/
def Stamped (world : World θ) : Prop := ∀ file ∈ world.files, file.since < world.clock

theorem Stamped.add (h : Stamped world) : Stamped (world.add thread place) := by
  unfold World.add
  split
  · exact h
  · intro file hf
    rcases mem_append.mp hf with hf | hf
    · exact Nat.lt_succ_of_lt (h file hf)
    · rw [mem_singleton.mp hf]
      exact Nat.lt_succ_self _

theorem Stamped.remove (h : Stamped world) : Stamped (world.remove thread place) :=
  fun file hf => h file (mem_remove.mp hf).1

theorem Stamped.rename (h : Stamped world) : Stamped (world.rename thread source target) := by
  unfold World.rename
  split
  · exact h.remove.add
  · exact h

@[simp] theorem base_add : (world.add thread place).base = world.base := by
  unfold World.add
  split <;> rfl

@[simp] theorem base_rename : (world.rename thread source target).base = world.base := by
  unfold World.rename
  split
  · rw [base_add]
    rfl
  · rfl

/-- Where a file is after a rename. -/
theorem mem_rename_of_mem (h : file ∈ world.files)
    (hs : ¬(file.thread = thread ∧ file.place = source)) : file ∈ (world.rename thread source target).files := by
  unfold World.rename
  split
  · exact mem_add_of_mem (mem_remove.mpr ⟨h, hs⟩)
  · exact h

theorem isAt_rename (h : world.isAt thread source = true) :
    (world.rename thread source target).isAt thread target = true := by
  rw [World.rename, if_pos h]
  exact isAt_add_self

theorem has_rename : (world.rename thread source target).has other = true ↔ world.has other = true := by
  constructor
  · intro h
    unfold World.rename at h
    split at h
    · rename_i hm
      obtain ⟨file, hf, rfl⟩ := has_iff.mp h
      rcases mem_of_mem_add hf with hf | rfl
      · exact has_iff.mpr ⟨file, (mem_remove.mp hf).1, rfl⟩
      · exact has_of_isAt hm
    · exact h
  · intro h
    obtain ⟨file, hf, rfl⟩ := has_iff.mp h
    by_cases hm : file.thread = thread ∧ file.place = source
    · obtain ⟨rfl, rfl⟩ := hm
      exact has_of_isAt (isAt_rename (isAt_iff.mpr ⟨file, hf, rfl, rfl⟩))
    · exact has_iff.mpr ⟨file, mem_rename_of_mem hf hm, rfl⟩

theorem isAt_of_rename (hne : other ≠ thread)
    (h : (world.rename thread source target).isAt other at' = true) : world.isAt other at' = true := by
  unfold World.rename at h
  split at h
  · obtain ⟨file, hf, rfl, rfl⟩ := isAt_iff.mp h
    rcases mem_of_mem_add hf with hf | rfl
    · exact isAt_iff.mpr ⟨file, (mem_remove.mp hf).1, rfl, rfl⟩
    · exact absurd rfl hne
  · exact h

theorem has_create : (world.create child base).has other = true ↔ other = child ∨ world.has other = true := by
  constructor
  · intro h
    obtain ⟨file, hf, rfl⟩ := has_iff.mp h
    rcases mem_of_mem_add hf with hf | rfl
    · exact .inr (has_iff.mpr ⟨file, hf, rfl⟩)
    · exact .inl rfl
  · rintro (rfl | h)
    · have ha : (world.add other .sessions).isAt other .sessions = true := isAt_add_self
      exact has_of_isAt ha
    · obtain ⟨file, hf, rfl⟩ := has_iff.mp h
      exact has_iff.mpr ⟨file, mem_add_of_mem hf, rfl⟩

/-- The thread is not among the given ones and continues one of them. -/
def Outside (world : World θ) (threads : List θ) (child : θ) : Prop :=
  child ∉ threads ∧ ∃ base ∈ threads, world.base child = some base

/-- A reference from outside is one more than those from inside. -/
theorem not_isAllowed {req : Request θ} (hd : req.isDelete = true)
    (hc : ch ∉ req.threads) {base : θ} (hb : base ∈ req.threads)
    (he : (ch, some base) ∈ index) : req.isAllowed index = false := by
  have hne : ch ≠ base := by
    rintro rfl
    exact hc hb
  cases req with
  | deleteThread thread =>
    obtain rfl := mem_singleton.mp hb
    have hm : (ch, some base) ∈ index.filter fun e => e.1 ≠ base ∧ e.2 = some base :=
      mem_filter.mpr ⟨he, by simp [hne]⟩
    have hp : 0 < referenceCount index base := length_pos_of_mem hm
    simp [Request.isAllowed, hp]
  | deleteThreads threads =>
    -- the children that are deleted as well, and this one, are different entries
    let inside := threads.dedup.filter fun ch => base ≠ ch ∧ base ∈ threads ∧ (ch, some base) ∈ index
    have hn : ((ch :: inside).map fun ch => (ch, some base)).Nodup := by
      refine List.Nodup.map (fun _ _ h => (Prod.mk.inj h).1) (nodup_cons.mpr ⟨?_, ?_⟩)
      · exact fun hm => hc (mem_dedup.mp (mem_of_mem_filter hm))
      · exact (nodup_dedup threads).filter _
    have hs : ((ch :: inside).map fun ch => (ch, some base)) ⊆
        index.filter fun e => e.1 ≠ base ∧ e.2 = some base := by
      intro e hm
      obtain ⟨x, ho, rfl⟩ := mem_map.mp hm
      rcases mem_cons.mp ho with rfl | ho
      · exact mem_filter.mpr ⟨he, by simp [hne]⟩
      · obtain ⟨_, hi⟩ := mem_filter.mp ho
        simp only [decide_eq_true_eq] at hi
        exact mem_filter.mpr ⟨hi.2.2, by simp [Ne.symm hi.1]⟩
    have hlt : internalReferenceCount index threads base < referenceCount index base := by
      have hle := (subperm_of_subset hn hs).length_le
      rw [length_map, length_cons] at hle
      exact hle
    rw [Request.isAllowed, all_eq_false]
    exact ⟨base, hb, by simp [hlt]⟩
  | _ => cases hd

/-- A chain of bases that comes to one of the threads steps in from outside. -/
theorem exists_outside {chain : List θ} (hl : chain.IsChain fun earlier later => world.base earlier = some later)
    (hf : ∀ first, chain.head? = some first → first ∉ threads) (hm : base ∈ chain)
    (hb : base ∈ threads) : ∃ child ∈ chain, Outside world threads child := by
  induction chain with
  | nil => cases hm
  | cons first rest ih =>
    have hout := hf first rfl
    rcases mem_cons.mp hm with rfl | hm
    · exact absurd hb hout
    · rcases rest with _ | ⟨second, rest⟩
      · cases hm
      · obtain ⟨hlink, hr⟩ := isChain_cons_cons.mp hl
        by_cases hs : second ∈ threads
        · exact ⟨first, mem_cons_self, hout, second, hs, hlink⟩
        · obtain ⟨child, hc, ho⟩ := ih hr (fun _ h => Option.some.inj h ▸ hs) hm
          exact ⟨child, mem_cons_of_mem _ hc, ho⟩

/-- The scan has met the thread, or will. -/
def Tracked (world : World θ) (scan : Scan θ) (thread : θ) : Prop :=
  scan.seen thread = true ∨ ∃ file ∈ world.files, file.thread = thread ∧
    ((file.place = scan.place ∧ file.since < scan.since) ∨ (scan.place = .sessions ∧ file.place = .archived))

/-- If there is a reference from outside, the scan meets one. -/
structure ScanSound (world : World θ) (threads : List θ) (scan : Scan θ) : Prop where
  index : ∀ entry ∈ scan.index, entry.2 = world.base entry.1
  meets : (∃ child, world.has child = true ∧ Outside world threads child) →
    ∃ child, Outside world threads child ∧ Tracked world scan child

/-- Nothing outside continues what is removed, and what is not removed yet will be. -/
structure RemovalSound (world : World θ) (threads remaining : List θ) : Prop where
  alone : ∀ child, world.has child = true → ¬Outside world threads child
  rest : ∀ thread ∈ threads, world.has thread = true → thread ∈ remaining

/-- The threads a fork has read: from its source back, each with a rollout. -/
structure ChainSound (world : World θ) (source : θ) (chain : List θ) : Prop where
  first : ∀ first, chain.head? = some first → first = source
  present : ∀ thread ∈ chain, world.has thread = true
  linked : chain.IsChain fun earlier later => world.base earlier = some later

/-- What holds at each point of a call. -/
def CallSound (world : World θ) : Call θ → Prop
  | .exclusive request (.scanning scan) _ => request.isDelete = true ∧ ScanSound world request.threads scan
  | .exclusive request (.locating remaining) _ => (∀ thread ∈ remaining, thread ∈ request.threads) ∧
    (request.isDelete = true → RemovalSound world request.threads remaining)
  | .exclusive request (.acting thread places remaining) _ =>
    (∀ other ∈ thread :: remaining, other ∈ request.threads) ∧
      (request.isDelete = true → RemovalSound world request.threads (thread :: remaining) ∧
        ∀ place, world.isAt thread place = true → place ∈ places)
  | .fork source (.resolving chain thread) => ChainSound world source chain ∧ (chain = [] → thread = source) ∧
    ∀ last, chain.getLast? = some last → world.base last = some thread
  | .fork source (.prepared chain) => ChainSound world source chain
  | _ => True

/-- The threads a fork has read. -/
def chainOf : Call θ → List θ
  | .fork _ (.resolving chain _) => chain
  | .fork _ (.prepared chain) => chain
  | _ => []

variable {thread : θ}

theorem ScanSound.remove (h : ScanSound world threads scan)
    (hm : Outside world threads thread → scan.seen thread = true) :
    ScanSound (world.remove thread place) threads scan := by
  refine ⟨h.index, fun ⟨ch, hc, ho⟩ => ?_⟩
  obtain ⟨met, hout, ht⟩ := h.meets ⟨ch, has_of_remove hc, ho⟩
  refine ⟨met, hout, ?_⟩
  rcases ht with hs | ⟨file, hf, rfl, hp⟩
  · exact .inl hs
  · by_cases hg : file.thread = thread ∧ file.place = place
    · exact .inl (hg.1 ▸ hm (hg.1 ▸ hout))
    · exact .inr ⟨file, mem_remove.mpr ⟨hf, hg⟩, rfl, hp⟩

theorem RemovalSound.remove (h : RemovalSound world threads remaining) :
    RemovalSound (world.remove thread place) threads remaining :=
  ⟨fun ch hc => h.alone ch (has_of_remove hc), fun x ho hh => h.rest x ho (has_of_remove hh)⟩

theorem ChainSound.remove (h : ChainSound world source chain) (ht : thread ∉ chain) :
    ChainSound (world.remove thread place) source chain :=
  ⟨h.first, fun x ho => has_remove_of_ne (fun he => ht (he ▸ ho)) (h.present x ho), h.linked⟩

theorem outside_of_awaits (h : (Call.exclusive request (.scanning scan) removed).awaits world thread = false)
    (ho : Outside world request.threads thread) : scan.seen thread = true := by
  obtain ⟨hout, base, hb, he⟩ := ho
  simpa [Call.awaits, hout, he, hb] using h

/-- A removal that no scan waits for. -/
theorem CallSound.remove (h : CallSound world call) (ha : call.awaits world thread = false)
    (hc : thread ∉ chainOf call) : CallSound (world.remove thread place) call := by
  cases call with
  | exclusive req sg removed =>
    cases sg with
    | scanning scan => exact ⟨h.1, h.2.remove (outside_of_awaits ha)⟩
    | locating rem => exact ⟨h.1, fun hd => (h.2 hd).remove⟩
    | acting x places rem =>
      exact ⟨h.1, fun hd => ⟨(h.2 hd).1.remove, fun at' hat => (h.2 hd).2 at' (isAt_of_remove hat).1⟩⟩
    | _ => trivial
  | fork src sg =>
    cases sg with
    | resolving chain next => exact ⟨h.1.remove hc, h.2⟩
    | prepared chain => exact ChainSound.remove h hc
    | _ => trivial

variable {scan : Scan θ} {threads : List θ}

/-- What a scan has yet to meet is archived before its archived rollouts are walked. -/
theorem Tracked.archive (h : Tracked world scan child) :
    Tracked (world.rename thread .sessions .archived) scan child := by
  rcases h with hseen | ⟨file, hf, rfl, hp⟩
  · exact .inl hseen
  · by_cases hm : file.thread = thread ∧ file.place = .sessions
    · obtain ⟨rfl, hs⟩ := hm
      have hscan : scan.place = .sessions := by
        rcases hp with ⟨he, _⟩ | ⟨he, _⟩
        · rw [← he, hs]
        · exact he
      have hat : (world.rename file.thread .sessions .archived).isAt file.thread .archived = true :=
        isAt_rename (isAt_iff.mpr ⟨file, hf, rfl, hs⟩)
      obtain ⟨moved, hmem, ht, ha⟩ := isAt_iff.mp hat
      exact .inr ⟨moved, hmem, ht, .inr ⟨hscan, ha⟩⟩
    · exact .inr ⟨file, mem_rename_of_mem hf hm, rfl, hp⟩

theorem ScanSound.archive (h : ScanSound world threads scan) :
    ScanSound (world.rename thread .sessions .archived) threads scan := by
  refine ⟨by simpa using h.index, fun ⟨ch, hc, ho⟩ => ?_⟩
  obtain ⟨met, hout, ht⟩ := h.meets ⟨ch, has_rename.mp hc, by simpa [Outside] using ho⟩
  exact ⟨met, by simpa [Outside] using hout, ht.archive⟩

theorem ScanSound.rename (h : ScanSound world threads scan)
    (hmet : Outside world threads thread → scan.seen thread = true) :
    ScanSound (world.rename thread source target) threads scan := by
  refine ⟨by simpa using h.index, fun ⟨ch, hc, ho⟩ => ?_⟩
  obtain ⟨met, hout, ht⟩ := h.meets ⟨ch, has_rename.mp hc, by simpa [Outside] using ho⟩
  refine ⟨met, by simpa [Outside] using hout, ?_⟩
  rcases ht with hs | ⟨file, hf, rfl, hp⟩
  · exact .inl hs
  · by_cases hm : file.thread = thread ∧ file.place = source
    · exact .inl (hm.1 ▸ hmet (hm.1 ▸ hout))
    · exact .inr ⟨file, mem_rename_of_mem hf hm, rfl, hp⟩

theorem RemovalSound.rename (h : RemovalSound world threads remaining) :
    RemovalSound (world.rename thread source target) threads remaining :=
  ⟨fun ch hc => by simpa [Outside] using h.alone ch (has_rename.mp hc), fun x ho hh => h.rest x ho (has_rename.mp hh)⟩

theorem ChainSound.rename {first : θ} (h : ChainSound world first chain) :
    ChainSound (world.rename thread source target) first chain :=
  ⟨h.first, fun x ho => has_rename.mpr (h.present x ho), by simpa using h.linked⟩

/-- A rollout is moved by a call that holds its lifecycle; if it is unarchived, no scan waits for it. -/
theorem CallSound.rename {call : Call θ} (h : CallSound world call) (hl : call.holdsExclusive thread = false)
    (hs : source = .sessions ∧ target = .archived ∨ call.awaits world thread = false) :
    CallSound (world.rename thread source target) call := by
  cases call with
  | exclusive req sg removed =>
    cases sg with
    | locking rem => trivial
    | lockingWriters rem => trivial
    | scanning scan =>
      rcases hs with ⟨rfl, rfl⟩ | ha
      · exact ⟨h.1, h.2.archive⟩
      · exact ⟨h.1, h.2.rename (outside_of_awaits ha)⟩
    | locating rem => exact ⟨h.1, fun hd => (h.2 hd).rename⟩
    | acting x places rem =>
      have hne : x ≠ thread := by
        rintro rfl
        have hm := h.1 x mem_cons_self
        simp [Call.holdsExclusive, hm] at hl
      exact ⟨h.1, fun hd => ⟨(h.2 hd).1.rename, fun at' hat => (h.2 hd).2 at' (isAt_of_rename hne hat)⟩⟩
    | refused => trivial
    | finished => trivial
  | fork first sg =>
    cases sg with
    | waiting => trivial
    | resolving chain next => exact ⟨h.1.rename, h.2.1, by simpa using h.2.2⟩
    | prepared chain => exact ChainSound.rename h
    | created => trivial
    | finished => trivial

theorem base_create_of_ne (hne : thread ≠ child) :
    (world.create child base).base thread = world.base thread := if_neg hne

theorem base_create_self : (world.create child base).base child = base := if_pos rfl

theorem outside_create_of_ne (hne : thread ≠ child) :
    Outside (world.create child base) threads thread ↔ Outside world threads thread := by
  rw [Outside, Outside, base_create_of_ne hne]

theorem ne_of_has (hf : world.has child = false) (ht : world.has thread = true) : thread ≠ child := by
  rintro rfl
  cases ht.symm.trans hf

/-- A new reference does not matter to a scan when there was one before. -/
theorem ScanSound.create (h : ScanSound world threads scan)
    (hf : world.has child = false) (hs : scan.seen child = false)
    (hb : ∀ inner ∈ threads, base = some inner → ∃ other, world.has other = true ∧ Outside world threads other) :
    ScanSound (world.create child base) threads scan := by
  refine ⟨fun e he => ?_, fun ⟨other, hother, ho⟩ => ?_⟩
  · have hne : e.1 ≠ child := by
      intro heq
      have : scan.seen child = true := by
        rw [Scan.seen, any_eq_true]
        exact ⟨e, he, by simp [heq]⟩
      cases this.symm.trans hs
    rw [base_create_of_ne hne, h.index e he]
  · have hx : ∃ other, world.has other = true ∧ Outside world threads other := by
      rcases has_create.mp hother with rfl | hh
      · obtain ⟨_, inner, hi, heq⟩ := ho
        exact hb inner hi (base_create_self.symm.trans heq)
      · exact ⟨other, hh, (outside_create_of_ne (ne_of_has hf hh)).mp ho⟩
    obtain ⟨met, hout, ht⟩ := h.meets hx
    rcases ht with hm | ⟨file, hfile, rfl, hp⟩
    · have hne : met ≠ child := by
        rintro rfl
        cases hm.symm.trans hs
      exact ⟨met, (outside_create_of_ne hne).mpr hout, .inl hm⟩
    · have hne := ne_of_has hf (has_iff.mpr ⟨file, hfile, rfl⟩)
      exact ⟨file.thread, (outside_create_of_ne hne).mpr hout, .inr ⟨file, mem_add_of_mem hfile, rfl, hp⟩⟩

theorem RemovalSound.create (h : RemovalSound world threads remaining)
    (hf : world.has child = false) (hc : child ∉ threads)
    (hb : ∀ inner ∈ threads, base = some inner → ∃ x, world.has x = true ∧ Outside world threads x) :
    RemovalSound (world.create child base) threads remaining := by
  refine ⟨fun x ho hu => ?_, fun x ho hh => ?_⟩
  · rcases has_create.mp ho with rfl | hh
    · obtain ⟨_, inner, hi, he⟩ := hu
      obtain ⟨reference, hr, hout⟩ := hb inner hi (base_create_self.symm.trans he)
      exact h.alone reference hr hout
    · exact h.alone x hh ((outside_create_of_ne (ne_of_has hf hh)).mp hu)
  · rcases has_create.mp hh with rfl | hh
    · exact absurd ho hc
    · exact h.rest x ho hh

theorem ChainSound.create (h : ChainSound world source chain) (hc : child ∉ chain) :
    ChainSound (world.create child base) source chain := by
  refine ⟨h.first, fun x ho => has_create.mpr (.inr (h.present x ho)), ?_⟩
  refine List.IsChain.imp_of_mem_imp (fun earlier later he _ hl => ?_) h.linked
  have hne : earlier ≠ child := fun heq => hc (heq ▸ he)
  rw [base_create_of_ne hne]
  exact hl

theorem isAt_of_create (hne : thread ≠ child) (h : (world.create child base).isAt thread place = true) :
    world.isAt thread place = true := by
  obtain ⟨file, hf, rfl, rfl⟩ := isAt_iff.mp h
  rcases mem_of_mem_add hf with hf | rfl
  · exact isAt_iff.mpr ⟨file, hf, rfl, rfl⟩
  · exact absurd rfl hne

/-- A child that no call knows yet is written, with a base that is safe. -/
theorem CallSound.create (h : CallSound world call) (hf : world.has child = false) (hn : call.names child = false)
    (hb : ∀ req sg removed, call = .exclusive req sg removed →
      (∀ held ∈ req.threads, call.holdsExclusive held = true) → ∀ inner ∈ req.threads, base = some inner →
      ∃ x, world.has x = true ∧ Outside world req.threads x) :
    CallSound (world.create child base) call := by
  cases call with
  | exclusive req sg removed =>
    have hc : child ∉ req.threads := by
      intro hm
      simp [Call.names, hm] at hn
    cases sg with
    | locking rem => trivial
    | lockingWriters rem => trivial
    | scanning scan =>
      have hs : scan.seen child = false := by simpa [Call.names, hc] using hn
      exact ⟨h.1, h.2.create hf hs (hb _ _ _ rfl (by simp [Call.holdsExclusive]))⟩
    | locating rem =>
      exact ⟨h.1, fun hd =>
        (h.2 hd).create hf hc (hb _ _ _ rfl (by simp [Call.holdsExclusive]))⟩
    | acting x places rem =>
      have hne : x ≠ child := fun he => hc (he ▸ h.1 x mem_cons_self)
      exact ⟨h.1, fun hd => ⟨(h.2 hd).1.create hf hc (hb _ _ _ rfl (by simp [Call.holdsExclusive])),
        fun place ha => (h.2 hd).2 place (isAt_of_create hne ha)⟩⟩
    | refused => trivial
    | finished => trivial
  | fork src sg =>
    cases sg with
    | waiting => trivial
    | resolving chain next =>
      have hc : child ∉ chain := by
        intro hm
        simp [Call.names, hm] at hn
      refine ⟨h.1.create hc, h.2.1, fun last hl => ?_⟩
      have hne : last ≠ child := fun he => hc (he ▸ mem_of_getLast? hl)
      rw [base_create_of_ne hne]
      exact h.2.2 last hl
    | prepared chain =>
      have hc : child ∉ chain := by
        intro hm
        simp [Call.names, hm] at hn
      exact ChainSound.create h hc
    | created => trivial
    | finished => trivial

end DeletionSafety
