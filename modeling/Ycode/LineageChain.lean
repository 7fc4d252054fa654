import Ycode.Fallible
import Ycode.ThreadLineage

/-!
# The chain of bases behind a lineage

A lineage resolves exactly when the bases lead back from its thread to a root. Such a chain never visits a thread
twice, and it depends only on the rollouts it visits.
-/
namespace LineageChain

open RustStr (Str)
open RolloutWriter (HistoryPosition)
open ThreadLineage Fallible
open List hiding after

variable {β θ : Type}

/-- The first ordinal of a rollout after its session metadata. -/
def firstOrdinal (rollout : Rollout β θ) : Nat :=
  rollout.sessionMeta.historyBase.elim 1 fun base => base.endOrdinalExclusive + 1

theorem validateCutoffBounds_ok_iff :
    validateCutoffBounds threadText requested rollout position = .ok () ↔
      position.endOrdinalExclusive ≠ 0 ∧ position.endByteOffset ≤ rollout.file.length := by
  unfold validateCutoffBounds
  split
  · rename_i hz
    simp [hz]
  · split
    · simp only [reduceCtorEq, false_iff]
      omega
    · simp only [true_iff]
      omega

theorem startOrdinal_ok_iff :
    startOrdinal threadText requested rollout = .ok start ↔ start = firstOrdinal rollout ∧
      ∀ base, rollout.sessionMeta.historyBase = some base → base.endOrdinalExclusive + 1 < 2 ^ 64 := by
  unfold startOrdinal firstOrdinal
  cases rollout.sessionMeta.historyBase with
  | none => simp [eq_comm]
  | some base =>
    simp only [Option.some.injEq, forall_eq', Option.elim_some]
    split
    · rename_i hlt
      rw [Except.ok.injEq, and_iff_left hlt]
      exact eq_comm
    · rename_i hlt
      exact iff_of_false (by rintro ⟨⟩) fun h => hlt h.2

variable [DecidableEq θ] {store : Store β θ}

/-- What the loop checks on a thread. -/
structure Admitted (store : Store β θ) (thread : θ) (cutoff : Option (HistoryPosition θ)) (rollout : Rollout β θ) :
    Prop where
  found : rolloutOf store thread = some rollout
  id : rollout.sessionMeta.id = thread
  paginated : rollout.sessionMeta.historyMode = .paginated
  inBounds {position : HistoryPosition θ} (h : cutoff = some position) :
    position.endOrdinalExclusive ≠ 0 ∧ position.endByteOffset ≤ rollout.file.length
  noOverflow {base : HistoryPosition θ} (h : rollout.sessionMeta.historyBase = some base) :
    base.endOrdinalExclusive + 1 < 2 ^ 64

/-- The segments of a thread up to the cutoff: those of its base, and its own. -/
inductive Chain (store : Store β θ) : θ → Option (HistoryPosition θ) → List (RolloutLineageSegment θ) → Prop
  | root {thread : θ} {cutoff : Option (HistoryPosition θ)} {rollout : Rollout β θ}
    (admitted : Admitted store thread cutoff rollout) (hbase : rollout.sessionMeta.historyBase = none) :
    Chain store thread cutoff [⟨thread, firstOrdinal rollout, cutoff⟩]
  | forked {thread : θ} {cutoff : Option (HistoryPosition θ)} {rollout : Rollout β θ} {base : HistoryPosition θ}
    {older : List (RolloutLineageSegment θ)} (admitted : Admitted store thread cutoff rollout)
    (hbase : rollout.sessionMeta.historyBase = some base) (holder : Chain store base.threadId (some base) older) :
    Chain store thread cutoff (older ++ [⟨thread, firstOrdinal rollout, cutoff⟩])

theorem resolveThread_ok_iff (threadText : θ → Str) (req : θ) :
    resolveThread threadText store req seen thread cutoff = .ok (rollout, start) ↔
      thread ∉ seen ∧ Admitted store thread cutoff rollout ∧ start = firstOrdinal rollout := by
  constructor
  · intro h
    unfold resolveThread at h
    split at h
    · cases h
    · rename_i hseen
      split at h
      · cases h
      · rename_i found hf
        split at h
        · cases h
        · rename_i hid
          split at h
          · cases h
          · rename_i hm
            obtain ⟨_, hb, h⟩ := ok_of_bind h
            obtain ⟨_, hs, h⟩ := ok_of_bind h
            cases h
            obtain ⟨rfl, ho⟩ := startOrdinal_ok_iff.mp hs
            refine ⟨hseen, ⟨hf, not_not.mp hid, not_not.mp hm, ?_, fun hbase => ho _ hbase⟩, rfl⟩
            rintro pos rfl
            exact validateCutoffBounds_ok_iff.mp hb
  · rintro ⟨hseen, ha, rfl⟩
    have hs : startOrdinal threadText req rollout = .ok (firstOrdinal rollout) :=
      startOrdinal_ok_iff.mpr ⟨rfl, fun base hbase => ha.noOverflow hbase⟩
    unfold resolveThread
    simp only [if_neg hseen, ha.found, ha.id, ha.paginated, ne_eq, not_true_eq_false, if_false]
    cases cutoff with
    | none => simp only [Option.elim_none, hs, bind, Except.bind]
    | some pos =>
      have hb : validateCutoffBounds threadText req rollout pos = .ok () :=
        validateCutoffBounds_ok_iff.mpr (ha.inBounds rfl)
      simp only [Option.elim_some, hb, hs, bind, Except.bind]

/-- The loop finds the chain, when it is long enough and no thread on it was seen before. -/
theorem resolveFrom_ok_iff :
    resolveFrom threadText store requested fuel seen thread cutoff = .ok segments ↔
      Chain store thread cutoff segments ∧ segments.length ≤ fuel ∧ (segments.map (·.threadId)).Nodup ∧
        ∀ segment ∈ segments, segment.threadId ∉ seen := by
  constructor
  · intro h
    induction fuel generalizing seen thread cutoff segments with
    | zero => cases h
    | succ fuel ih =>
      obtain ⟨⟨rollout, start⟩, ht, h⟩ := ok_of_bind h
      obtain ⟨hseen, ha, rfl⟩ := (resolveThread_ok_iff _ _).mp ht
      simp only at h
      split at h
      · rename_i hb
        cases h
        exact ⟨.root ha hb, by simp, by simp, by simpa using hseen⟩
      · rename_i base hb
        obtain ⟨older, holder, h⟩ := ok_of_bind h
        cases h
        obtain ⟨hc, hl, hn, hf⟩ := ih holder
        refine ⟨.forked ha hb hc, by simpa using hl, ?_, ?_⟩
        · rw [map_append, nodup_append]
          refine ⟨hn, by simp, ?_⟩
          intro older' ho' own ho he
          obtain ⟨segment, hs, rfl⟩ := mem_map.mp ho'
          simp only [map_cons, map_nil, mem_singleton] at ho
          exact hf segment hs (by simp [he, ho])
        · intro segment hs
          rcases mem_append.mp hs with hs | hs
          · exact fun hm => hf segment hs (mem_cons_of_mem _ hm)
          · rw [mem_singleton.mp hs]
            exact hseen
  · rintro ⟨hc, hl, hn, hf⟩
    induction hc generalizing fuel seen with
    | root ha hb =>
      obtain ⟨fuel, rfl⟩ : ∃ n, fuel = n + 1 := ⟨fuel - 1, by simp at hl; omega⟩
      have ht := (resolveThread_ok_iff threadText requested).mpr
        ⟨hf _ (mem_singleton_self _), ha, rfl⟩
      rw [resolveFrom, ht]
      simp only [bind, Except.bind, hb]
    | @forked thread cutoff rollout base older ha hb holder ih =>
      obtain ⟨fuel, rfl⟩ : ∃ n, fuel = n + 1 := ⟨fuel - 1, by simp at hl; omega⟩
      have ht := (resolveThread_ok_iff threadText requested).mpr
        ⟨hf _ (mem_append_right _ (mem_singleton_self _)), ha, rfl⟩
      rw [map_append, nodup_append] at hn
      have hu : ∀ segment ∈ older, segment.threadId ∉ thread :: seen := by
        intro segment hs hm
        rcases mem_cons.mp hm with he | hm
        · exact hn.2.2 _ (mem_map_of_mem hs) thread (by simp) he
        · exact hf segment (mem_append_left _ hs) hm
      have hr := ih (by simpa using hl) hn.1 hu
      rw [resolveFrom, ht]
      simp only [bind, Except.bind, hb, hr]

section Chain

variable {thread : θ} {cutoff : Option (HistoryPosition θ)} {segments : List (RolloutLineageSegment θ)}
  {segment : RolloutLineageSegment θ}

section

variable (h : Chain store thread cutoff segments)
include h

/-- The last segment of a chain is the thread's own. -/
theorem Chain.getLast? : ∃ older rollout, Admitted store thread cutoff rollout ∧
      segments = older ++ [⟨thread, firstOrdinal rollout, cutoff⟩] := by
  cases h with
  | root ha hb => exact ⟨[], _, ha, rfl⟩
  | forked ha hb holder => exact ⟨_, _, ha, rfl⟩

omit h in
/-- A beginning of a chain is the chain of its last segment. -/
theorem Chain.of_append (h : Chain store thread cutoff (pre ++ segment :: after)) :
    Chain store segment.threadId segment.cutoff (pre ++ [segment]) := by
  generalize hs : pre ++ segment :: after = segments at h
  induction h generalizing after with
  | root ha hb =>
    cases pre with
    | nil =>
      cases hs
      exact .root ha hb
    | cons first pre => simp at hs
  | @forked thread cutoff rollout base older ha hb holder ih =>
    rcases eq_nil_or_concat after with rfl | ⟨after, last, rfl⟩
    · obtain ⟨rfl, hl⟩ := append_inj' hs rfl
      cases hl
      exact .forked ha hb holder
    · rw [concat_eq_append, ← cons_append, ← append_assoc] at hs
      exact ih (append_inj' hs rfl).1

/-- The segments before the last do not depend on the cutoff. -/
theorem Chain.unique (h' : Chain store thread cutoff' segments') : segments.length = segments'.length := by
  induction h generalizing cutoff' segments' with
  | root ha hb =>
    cases h' with
    | root ha' hb' => rfl
    | forked ha' hb' ho' =>
      cases ha.found.symm.trans ha'.found
      cases hb.symm.trans hb'
  | forked ha hb holder ih =>
    cases h' with
    | root ha' hb' =>
      cases ha.found.symm.trans ha'.found
      cases hb.symm.trans hb'
    | forked ha' hb' ho' =>
      cases ha.found.symm.trans ha'.found
      cases hb.symm.trans hb'
      simp [ih ho']

/-- A chain that came back to a thread would be as long as its own beginning. -/
theorem Chain.nodup : (segments.map (·.threadId)).Nodup := by
  induction h with
  | root ha hb => simp
  | @forked thread cutoff rollout base older ha hb holder ih =>
    rw [map_append, nodup_append]
    refine ⟨ih, by simp, ?_⟩
    intro earlier he own ho heq
    obtain ⟨segment, hg, rfl⟩ := mem_map.mp he
    simp only [map_cons, map_nil, mem_singleton] at ho
    obtain ⟨pre, after, rfl⟩ := append_of_mem hg
    have hs := holder.of_append
    rw [heq, ho] at hs
    have hl := hs.unique (.forked ha hb holder)
    simp at hl

theorem Chain.found (hs : segment ∈ segments) :
    ∃ rollout, Admitted store segment.threadId segment.cutoff rollout ∧ segment.startOrdinal = firstOrdinal rollout := by
  obtain ⟨pre, after, rfl⟩ := append_of_mem hs
  obtain ⟨older, rollout, ha, he⟩ := h.of_append.getLast?
  refine ⟨rollout, ha, ?_⟩
  obtain ⟨_, hl⟩ := append_inj' he rfl
  rw [singleton_inj.mp hl]

theorem Chain.length_le : segments.length ≤ store.length := by
  have hsub : segments.map (·.threadId) ⊆ store.map Prod.fst := by
    intro id hid
    obtain ⟨segment, hs, rfl⟩ := mem_map.mp hid
    obtain ⟨rollout, ha, _⟩ := h.found hs
    have hf := ha.found
    rw [rolloutOf, Option.map_eq_some_iff] at hf
    obtain ⟨e, he, _⟩ := hf
    have hid := find?_some he
    rw [← of_decide_eq_true hid]
    exact mem_map_of_mem (mem_of_find?_eq_some he)
  have hle := (subperm_of_subset h.nodup hsub).length_le
  simpa using hle

end

theorem resolveRolloutLineage_ok_iff :
    resolveRolloutLineage threadText store thread = .ok segments ↔ Chain store thread none segments := by
  rw [resolveRolloutLineage, resolveFrom_ok_iff]
  constructor
  · exact fun h => h.1
  · intro h
    have hl := h.length_le
    exact ⟨h, by omega, h.nodup, by simp⟩

/-- Where a segment of a chain ends, the next thread forks off. -/
theorem Chain.link (h : Chain store thread cutoff (before ++ segment :: next' :: after)) :
    ∃ base rollout, segment.cutoff = some base ∧ base.threadId = segment.threadId ∧
      Admitted store next'.threadId next'.cutoff rollout ∧ rollout.sessionMeta.historyBase = some base ∧
      next'.startOrdinal = base.endOrdinalExclusive + 1 := by
  rw [← singleton_append, ← append_assoc] at h
  have hlink := h.of_append
  generalize hg : (before ++ [segment]) ++ [next'] = segments at hlink
  cases hlink with
  | root ha hb =>
    have hl := congrArg List.length hg
    simp at hl
  | @forked _ _ rollout base older ha hb holder =>
    obtain ⟨hlast, hn⟩ := append_inj' hg rfl
    obtain ⟨older', par, _, ho'⟩ := holder.getLast?
    obtain ⟨_, hs⟩ := append_inj' (hlast.trans ho') rfl
    rw [singleton_inj] at hs hn
    refine ⟨base, rollout, by rw [hs], by rw [hs], ha, hb, ?_⟩
    rw [hn, firstOrdinal, hb, Option.elim_some]

/-- A chain may be cut elsewhere in its last rollout. -/
theorem Chain.recut (h : Chain store thread cutoff (older ++ [own])) (ha : Admitted store thread other rollout) :
    Chain store thread other (older ++ [⟨thread, firstOrdinal rollout, other⟩]) := by
  generalize hs : older ++ [own] = segments at h
  cases h with
  | root ha' hb =>
    cases ha.found.symm.trans ha'.found
    obtain ⟨rfl, _⟩ := append_inj' (hs.trans (nil_append _).symm) rfl
    exact .root ha hb
  | forked ha' hb holder =>
    cases ha.found.symm.trans ha'.found
    obtain ⟨rfl, _⟩ := append_inj' hs rfl
    exact .forked ha hb holder

end Chain

variable {store later : Store β θ}

/-- Every rollout of the store is still there, with more bytes at its end. -/
def Grows (store later : Store β θ) : Prop :=
  ∀ thread rollout, rolloutOf store thread = some rollout →
    ∃ bytes, rolloutOf later thread = some { rollout with file := rollout.file ++ bytes }

theorem Grows.refl (store : Store β θ) : Grows store store := fun _ rollout h => ⟨[], by simpa using h⟩

theorem Grows.trans (h : Grows store middle) (hl : Grows middle later) : Grows store later := by
  intro thread rollout hr
  obtain ⟨bs, hm⟩ := h thread rollout hr
  obtain ⟨more, hr⟩ := hl thread _ hm
  exact ⟨bs ++ more, by simpa using hr⟩

theorem Admitted.mono (hg : Grows store later) (h : Admitted store thread cutoff rollout) :
    ∃ bs, Admitted later thread cutoff { rollout with file := rollout.file ++ bs } := by
  obtain ⟨bs, hf⟩ := hg thread rollout h.found
  refine ⟨bs, hf, h.id, h.paginated, fun hc => ?_, h.noOverflow⟩
  have hb := h.inBounds hc
  exact ⟨hb.1, by simp only [length_append]; omega⟩

/-- A chain is still there when the rollouts have grown. -/
theorem Chain.mono (hg : Grows store later) (h : Chain store thread cutoff segments) :
    Chain later thread cutoff segments := by
  induction h with
  | root ha hb =>
    obtain ⟨bs, hl⟩ := Admitted.mono hg ha
    have hc := Chain.root hl hb
    exact hc
  | forked ha hb holder ih =>
    obtain ⟨bs, hl⟩ := Admitted.mono hg ha
    have hc := Chain.forked hl hb ih
    exact hc

/-- The store with another rollout for a thread. -/
def update (store : Store β θ) (thread : θ) (rollout : Rollout β θ) : Store β θ :=
  store.map fun entry => if entry.1 = thread then (thread, rollout) else entry

theorem rolloutOf_cons :
    rolloutOf ((thread, rollout) :: store) other = if other = thread then some rollout else rolloutOf store other := by
  unfold rolloutOf
  by_cases he : thread = other
  · simp [he]
  · simp [he, Ne.symm he]

theorem rolloutOf_update :
    rolloutOf (update store thread rollout) other =
      if other = thread then (rolloutOf store thread).map fun _ => rollout else rolloutOf store other := by
  induction store with
  | nil => simp [update, rolloutOf]
  | cons e store ih =>
    obtain ⟨id, old⟩ := e
    rw [update, map_cons, ← update]
    by_cases hid : id = thread
    · rw [if_pos hid, rolloutOf_cons, ih, rolloutOf_cons, rolloutOf_cons, hid]
      by_cases ho : other = thread <;> simp [ho]
    · rw [if_neg hid, rolloutOf_cons, rolloutOf_cons, rolloutOf_cons, ih]
      by_cases ho : other = id
      · simp [ho, hid]
      · simp [ho, Ne.symm hid]

theorem grows_cons (fresh : rolloutOf store thread = none) : Grows store ((thread, rollout) :: store) := by
  intro x old ho
  have hne : x ≠ thread := by
    rintro rfl
    cases ho.symm.trans fresh
  exact ⟨[], by simpa [rolloutOf_cons, hne] using ho⟩

theorem grows_update (found : rolloutOf store thread = some rollout) :
    Grows store (update store thread { rollout with file := rollout.file ++ bytes }) := by
  intro x old ho
  by_cases he : x = thread
  · subst he
    cases ho.symm.trans found
    exact ⟨bytes, by simp [rolloutOf_update, found]⟩
  · exact ⟨[], by simpa [rolloutOf_update, he] using ho⟩

end LineageChain
