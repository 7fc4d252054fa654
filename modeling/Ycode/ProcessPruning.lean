import Mathlib

/-!
# Pruning of unified exec processes

A store at its cap gives up one process. The scan reads every process once and then tries candidates one by one, the
exited ones first and always from the least recently used on. It passes over a candidate whose interaction lock is
held, and meanwhile processes may exit.
-/
namespace ProcessPruning

open List

structure ProcessEntry (ι : Type) where
  processId : ι
  lastUsed : Nat
  deriving DecidableEq

/-- The processes under their ids, in the order in which the map is iterated. -/
structure ProcessStore (ι : Type) where
  processes : List (ProcessEntry ι)
  nodup : (processes.map (·.processId)).Nodup

/-- What the scan sees of a candidate: its exit state, its interaction lock, and its exit state once more. -/
structure Trial where
  exited : Bool
  locked : Bool
  exitedLater : Bool

/-- What happens to the processes: which have exited when the scan begins, which exit until they are tried and which
between the two looks of their trial, and whose interaction lock is held then. -/
structure Sight (ι : Type) where
  atStart : ι → Bool
  exitsSoon : ι → Bool
  exitsLate : ι → Bool
  locked : ι → Bool

def Sight.trial (sight : Sight ι) (id : ι) : Trial where
  exited := sight.atStart id || sight.exitsSoon id
  locked := sight.locked id
  exitedLater := sight.atStart id || sight.exitsSoon id || sight.exitsLate id

theorem Sight.atStart_of_live {sight : Sight ι} {id : ι} (h : (sight.trial id).exited = false) :
    sight.atStart id = false :=
  (Bool.or_eq_false_iff.mp h).1

structure ProcessMeta (ι : Type) where
  id : ι
  lastUsed : Nat
  exited : Bool

def maxUnifiedExecProcesses : Nat := 64

variable {ι : Type} [DecidableEq ι] (sight : Sight ι) (store : ProcessStore ι) (processes : List (ProcessMeta ι))

def ProcessStore.remove (processId : ι) : ProcessStore ι :=
  ⟨store.processes.filter (·.processId ≠ processId), store.nodup.sublist (filter_sublist.map _)⟩

def byRecency : List (ProcessMeta ι) := processes.insertionSort fun a b => b.lastUsed ≤ a.lastUsed

def lru : List (ProcessMeta ι) := processes.insertionSort fun a b => a.lastUsed ≤ b.lastUsed

def protectedIds : List ι := ((byRecency processes).take 8).map (·.id)

/-- `process_id_to_prune_from_meta`. -/
def processIdToPruneFromMeta : Option ι :=
  if processes.isEmpty then none
  else
    match (lru processes).find? fun m => m.id ∉ protectedIds processes && m.exited with
    | some m => some m.id
    | none => ((lru processes).find? fun m => m.id ∉ protectedIds processes).map (·.id)

theorem mem_of_processIdToPruneFromMeta {processes : List (ProcessMeta ι)}
    (h : processIdToPruneFromMeta processes = some processId) : ∃ m ∈ processes, m.id = processId := by
  unfold processIdToPruneFromMeta at h
  split at h
  · cases h
  · split at h
    · rename_i m hm
      cases h
      exact ⟨m, (mem_insertionSort _).mp (mem_of_find?_eq_some hm), rfl⟩
    · obtain ⟨m, hm, rfl⟩ := Option.map_eq_some_iff.mp h
      exact ⟨m, (mem_insertionSort _).mp (mem_of_find?_eq_some hm), rfl⟩

/-- The processes that are still to be tried when a candidate is given up. -/
def retain (processId : ι) : List (ProcessMeta ι) := processes.filter (·.id ≠ processId)

/-- The loop of `prune_processes_if_needed`, from the processes that are still to be tried. -/
def tryCandidates (sight : Sight ι) (store : ProcessStore ι) (foundLockedExitedProcess : Bool)
    (processes : List (ProcessMeta ι)) : Option ι :=
  match _h : processIdToPruneFromMeta processes with
  | none => none
  | some processId =>
    let candidate := store.processes.find? (·.processId = processId)
    let candidateHasExited := candidate.isSome && (sight.trial processId).exited
    if foundLockedExitedProcess && !candidateHasExited then none
    else if candidate.isSome && !(sight.trial processId).locked then some processId
    else tryCandidates sight store
      (foundLockedExitedProcess || candidateHasExited || candidate.isSome && (sight.trial processId).exitedLater)
      (retain processes processId)
termination_by processes.length
decreasing_by
  obtain ⟨m, hm, rfl⟩ := mem_of_processIdToPruneFromMeta _h
  refine length_filter_lt_length_iff_exists.mpr ⟨m, hm, ?_⟩
  simp

def read (entry : ProcessEntry ι) : ProcessMeta ι :=
  ⟨entry.processId, entry.lastUsed, sight.atStart entry.processId⟩

def scan : List (ProcessMeta ι) := store.processes.map (read sight)

/-- The process that is removed, if any. -/
def pruned : Option ι :=
  if store.processes.length < maxUnifiedExecProcesses then none
  else tryCandidates sight store false (scan sight store)

def pruneProcessesIfNeeded : ProcessStore ι :=
  match pruned sight store with
  | none => store
  | some processId => store.remove processId

/-- A stable sort and a filter may change places. -/
theorem filter_orderedInsert {r : α → α → Prop} [DecidableRel r] [IsTrans α r] {l : List α} (hl : l.Pairwise r)
    (p : α → Bool) (a : α) :
    (l.orderedInsert r a).filter p = if p a then (l.filter p).orderedInsert r a else l.filter p := by
  induction l with
  | nil => cases h : p a <;> simp [h]
  | cons b l ih =>
    obtain ⟨hb, hl⟩ := pairwise_cons.mp hl
    by_cases hr : r a b
    · -- what is left of the list still comes after the new element
      rw [orderedInsert_cons_of_le r l hr]
      cases h : p a with
      | false => simp [h]
      | true =>
        have ha : ∀ c ∈ (b :: l).filter p, r a c := by
          intro c hc
          rcases mem_cons.mp (mem_filter.mp hc).1 with rfl | hc
          · exact hr
          · exact trans_of r hr (hb c hc)
        rw [filter_cons_of_pos h, if_pos rfl]
        cases hf : (b :: l).filter p with
        | nil => rfl
        | cons c rest => rw [orderedInsert_cons_of_le r rest (ha c (by simp [hf]))]
    · rw [orderedInsert_of_not_le r l hr]
      cases hp : p b with
      | false => rw [filter_cons_of_neg (by simp [hp]), ih hl, filter_cons_of_neg (by simp [hp])]
      | true =>
        rw [filter_cons_of_pos hp, ih hl, filter_cons_of_pos hp]
        cases h : p a with
        | false => rfl
        | true => exact (orderedInsert_of_not_le r _ hr).symm

theorem filter_insertionSort {r : α → α → Prop} [DecidableRel r] [IsTrans α r] [Std.Total r] (l : List α)
    (p : α → Bool) : (l.insertionSort r).filter p = (l.filter p).insertionSort r := by
  induction l with
  | nil => rfl
  | cons a l ih =>
    rw [insertionSort_cons, filter_orderedInsert (pairwise_insertionSort r l), ih]
    cases h : p a with
    | false => simp [h]
    | true => simp [h]

theorem take_filter {l : List α} (h : ∀ a ∈ l.take n, p a = true) : (l.filter p).take n = l.take n := by
  conv_lhs => rw [← take_append_drop n l, filter_append, filter_eq_self.mpr h]
  by_cases hn : n ≤ l.length
  · rw [take_left' (by simp [hn])]
  · have hl : l.length ≤ n := by omega
    simp [drop_of_length_le hl, take_of_length_le hl]

/-- The processes that may be removed, from the least recently used on. -/
def unprotected : List (ProcessMeta ι) := (lru processes).filter (·.id ∉ protectedIds processes)

/-- The candidates in the order in which they are tried. -/
def candidates : List (ProcessMeta ι) :=
  (unprotected processes).filter (·.exited) ++ (unprotected processes).filter (!·.exited)

theorem processIdToPruneFromMeta_eq :
    processIdToPruneFromMeta processes = (candidates processes).head?.map (·.id) := by
  unfold processIdToPruneFromMeta
  split
  · rename_i h
    rw [isEmpty_iff.mp h]
    rfl
  · have hf : (lru processes).find? (fun m => m.id ∉ protectedIds processes && m.exited) =
        ((unprotected processes).filter (·.exited)).head? := by
      rw [← head?_filter, unprotected, filter_filter]
      simp only [Bool.and_comm]
    rw [hf, candidates, head?_append]
    split
    · rename_i m hm
      rw [hm]
      rfl
    · rename_i hn
      have hl : (unprotected processes).filter (!·.exited) = unprotected processes := by
        refine filter_eq_self.mpr fun m hm => ?_
        simpa using filter_eq_nil_iff.mp (head?_eq_none_iff.mp hn) m hm
      rw [hn, hl, Option.none_or, unprotected, head?_filter]

theorem candidates_perm : candidates processes ~ unprotected processes := by
  simpa only [candidates, Bool.not_eq_true] using filter_append_perm (·.exited) (unprotected processes)

/-- Exited candidates come first, and among the candidates of a kind the least recently used. -/
theorem candidates_ordered : (candidates processes).Pairwise fun a b =>
    (a.exited = false → b.exited = false) ∧ (b.exited = true ∨ a.exited = false → a.lastUsed ≤ b.lastUsed) := by
  have hlr : (unprotected processes).Pairwise fun a b => a.lastUsed ≤ b.lastUsed :=
    (pairwise_insertionSort _ _).sublist filter_sublist
  refine pairwise_append.mpr ⟨?_, ?_, fun a ha b hb => ?_⟩
  · refine Pairwise.imp_of_mem ?_ (hlr.sublist filter_sublist)
    intro a b ha _ hle
    exact ⟨by simp [(mem_filter.mp ha).2], fun _ => hle⟩
  · refine Pairwise.imp_of_mem ?_ (hlr.sublist filter_sublist)
    intro a b _ hb hle
    exact ⟨fun _ => by simpa using (mem_filter.mp hb).2, fun _ => hle⟩
  · have he := (mem_filter.mp ha).2
    have hl := (mem_filter.mp hb).2
    simp_all

variable {processes}

theorem mem_candidates : m ∈ candidates processes ↔ m ∈ processes ∧ m.id ∉ protectedIds processes := by
  rw [(candidates_perm processes).mem_iff, unprotected, mem_filter, lru, mem_insertionSort, decide_eq_true_eq]

theorem nodup_candidates (h : (processes.map (·.id)).Nodup) : ((candidates processes).map (·.id)).Nodup := by
  have hs : ((unprotected processes).map (·.id)).Sublist ((lru processes).map (·.id)) := filter_sublist.map _
  rw [((candidates_perm processes).map _).nodup_iff]
  exact (((perm_insertionSort _ processes).map _).nodup_iff.mpr h).sublist hs

/-- Who is protected does not change when a candidate is given up. -/
theorem candidates_filter (h : (processes.map (·.id)).Nodup) (hc : candidates processes = m :: rest) :
    candidates (retain processes m.id) = rest := by
  have hn : m.id ∉ protectedIds processes := (mem_candidates.mp (hc ▸ mem_cons_self)).2
  have hs : protectedIds (retain processes m.id) = protectedIds processes := by
    unfold protectedIds byRecency retain
    rw [← filter_insertionSort, take_filter]
    intro a ha
    simp only [decide_eq_true_eq]
    exact fun he => hn (mem_map.mpr ⟨a, ha, he⟩)
  have hr : candidates (retain processes m.id) = (candidates processes).filter (·.id ≠ m.id) := by
    unfold candidates unprotected
    rw [hs, lru, retain, ← filter_insertionSort, filter_append]
    simp only [filter_filter, Bool.and_comm, Bool.and_left_comm]
    rfl
  have hf := nodup_candidates h
  rw [hc, map_cons, nodup_cons] at hf
  rw [hr, hc, filter_cons_of_neg (by simp), filter_eq_self]
  intro a ha
  simp only [decide_eq_true_eq]
  exact fun he => hf.1 (mem_map.mpr ⟨a, ha, he⟩)

/-- The loop on the list of its candidates. -/
def tryInTurn (trial : ι → Trial) : Bool → List (ProcessMeta ι) → Option ι
  | _, [] => none
  | found, m :: rest =>
    if found && !(trial m.id).exited then none
    else if !(trial m.id).locked then some m.id
    else tryInTurn trial (found || (trial m.id).exited || (trial m.id).exitedLater) rest

theorem tryCandidates_eq (found : Bool)
    (hstored : ∀ m ∈ processes, (store.processes.find? (·.processId = m.id)).isSome = true)
    (h : (processes.map (·.id)).Nodup) :
    tryCandidates sight store found processes = tryInTurn sight.trial found (candidates processes) := by
  generalize hc : candidates processes = tried
  induction tried generalizing processes found with
  | nil =>
    rw [tryCandidates]
    split
    · rfl
    · rename_i processId hs
      rw [processIdToPruneFromMeta_eq, hc] at hs
      cases hs
  | cons m rest ih =>
    have hm := hstored m (mem_candidates.mp (hc ▸ mem_cons_self)).1
    rw [tryCandidates]
    split
    · rename_i hn
      rw [processIdToPruneFromMeta_eq, hc] at hn
      cases hn
    · rename_i processId hs
      rw [processIdToPruneFromMeta_eq, hc] at hs
      cases hs
      simp only [hm, Bool.true_and, tryInTurn]
      rw [ih _ ?_ ?_ (candidates_filter h hc)]
      · exact fun a ha => hstored a (mem_of_mem_filter ha)
      · exact h.sublist (filter_sublist.map _)

omit [DecidableEq ι] in
/-- What is removed is the first candidate whose lock is free. If it has not exited, then none of those before it has. -/
theorem tryInTurn_some {trial : ι → Trial} (h : tryInTurn trial found tried = some processId) : ∃ pre m post,
    tried = pre ++ m :: post ∧ m.id = processId ∧ (trial m.id).locked = false ∧
      (∀ a ∈ pre, (trial a.id).locked = true) ∧
      ((trial m.id).exited = false → found = false ∧ ∀ a ∈ pre, (trial a.id).exited = false) := by
  induction tried generalizing found with
  | nil => cases h
  | cons a rest ih =>
    simp only [tryInTurn] at h
    split at h
    · cases h
    · rename_i hg
      split at h
      · rename_i hfree
        cases h
        refine ⟨[], a, rest, rfl, rfl, by simpa using hfree, by simp, fun hlive => ?_⟩
        simpa [hlive] using hg
      · rename_i hlock
        obtain ⟨pre, m, post, rfl, hid, hfree, hb, hl⟩ := ih h
        refine ⟨a :: pre, m, post, rfl, hid, hfree, ?_, fun hlive => ?_⟩
        · simpa using ⟨by simpa using hlock, hb⟩
        · obtain ⟨hf, hbefore⟩ := hl hlive
          simp only [Bool.or_eq_false_iff] at hf
          exact ⟨hf.1.1, by simpa using ⟨hf.1.2, hbefore⟩⟩

omit [DecidableEq ι] in
/-- If nothing is removed, then each candidate whose lock is free stands at or behind one that has not exited, and that
one behind a locked one that has. -/
theorem tryInTurn_none {trial : ι → Trial} (h : tryInTurn trial found tried = none)
    (ht : tried = pre ++ m :: post) (hf : (trial m.id).locked = false) : ∃ front live back,
    pre ++ [m] = front ++ live :: back ∧ (trial live.id).exited = false ∧
      (found = true ∨ ∃ busy ∈ front, (trial busy.id).locked = true ∧
        ((trial busy.id).exited || (trial busy.id).exitedLater) = true) := by
  induction tried generalizing found pre with
  | nil => simp at ht
  | cons a rest ih =>
    simp only [tryInTurn] at h
    split at h
    · rename_i hg
      obtain ⟨hfound, he⟩ := Bool.and_eq_true_iff.mp hg
      cases pre with
      | nil =>
        cases ht
        exact ⟨[], m, [], rfl, by simpa using he, .inl hfound⟩
      | cons b pre =>
        cases ht
        exact ⟨[], a, pre ++ [m], rfl, by simpa using he, .inl hfound⟩
    · split at h
      · cases h
      · rename_i hlock
        cases pre with
        | nil =>
          cases ht
          simp [hf] at hlock
        | cons b pre =>
          cases ht
          obtain ⟨front, live, back, hs, hl, hb⟩ := ih h rfl
          refine ⟨a :: front, live, back, by rw [cons_append, hs, cons_append], hl, ?_⟩
          rcases hb with hb | ⟨busy, hbusy, hbl⟩
          · rw [Bool.or_assoc, Bool.or_eq_true] at hb
            exact hb.imp id fun ha => ⟨a, mem_cons_self, by simpa using hlock, ha⟩
          · exact .inr ⟨busy, mem_cons_of_mem _ hbusy, hbl⟩

/-- Eight other processes were used at least as recently as an unprotected one. -/
theorem eight_le_countP (hm : m ∈ processes) (hn : m.id ∉ protectedIds processes) :
    8 ≤ processes.countP fun x => x.id ≠ m.id ∧ m.lastUsed ≤ x.lastUsed := by
  have hp : byRecency processes ~ processes := perm_insertionSort _ _
  have hs : (byRecency processes).Pairwise fun a b => b.lastUsed ≤ a.lastUsed := pairwise_insertionSort _ _
  rw [← take_append_drop 8 (byRecency processes), pairwise_append] at hs
  have hl : m ∈ (byRecency processes).drop 8 := by
    have hmem := hp.mem_iff.mpr hm
    rw [← take_append_drop 8 (byRecency processes), mem_append] at hmem
    exact hmem.resolve_left fun ht => hn (mem_map_of_mem ht)
  have hal : ∀ a ∈ (byRecency processes).take 8, decide (a.id ≠ m.id ∧ m.lastUsed ≤ a.lastUsed) = true := by
    intro a ha
    refine decide_eq_true ⟨fun he => hn (he ▸ mem_map_of_mem ha), hs.2.2 a ha m hl⟩
  have hlen : ((byRecency processes).take 8).length = 8 := by
    have hpos := length_pos_of_mem hl
    rw [length_drop] at hpos
    rw [length_take]
    omega
  calc 8 = ((byRecency processes).take 8).countP _ := by rw [countP_eq_length.mpr hal, hlen]
    _ ≤ (byRecency processes).countP _ := (take_sublist 8 _).countP_le
    _ = processes.countP _ := hp.countP_eq _

/-- What may be removed: none of the eight most recently used processes and none whose lock is held; one that has not
exited only if no unprotected one had when the scan began; and of those that remain the least recently used. -/
structure Spared (entry : ProcessEntry ι) : Prop where
  stored : entry ∈ store.processes
  recent : 8 ≤ store.processes.countP fun other =>
    other.processId ≠ entry.processId ∧ entry.lastUsed ≤ other.lastUsed
  unprotected : entry.processId ∉ protectedIds (scan sight store)
  unlocked : (sight.trial entry.processId).locked = false
  live : (sight.trial entry.processId).exited = false → ∀ other ∈ store.processes,
    other.processId ∉ protectedIds (scan sight store) → sight.atStart other.processId = false
  exitedFirst : sight.atStart entry.processId = false → ∀ other ∈ store.processes,
    other.processId ∉ protectedIds (scan sight store) → sight.atStart other.processId = true →
      (sight.trial other.processId).locked = true
  oldest : ∀ other ∈ store.processes, other.processId ∉ protectedIds (scan sight store) →
    (sight.trial other.processId).locked = false →
      sight.atStart other.processId = true ∨ sight.atStart entry.processId = false → entry.lastUsed ≤ other.lastUsed

/-- Why a process that may be removed stays: a busy one has exited, and a live one that comes before it is not removed
instead. -/
structure Waits (entry busy live : ProcessEntry ι) : Prop where
  stored : busy ∈ store.processes ∧ live ∈ store.processes
  unprotected : busy.processId ∉ protectedIds (scan sight store) ∧ live.processId ∉ protectedIds (scan sight store)
  held : sight.locked busy.processId = true ∧ (sight.trial busy.processId).exitedLater = true
  running : (sight.trial live.processId).exited = false
  first : sight.atStart busy.processId = true ∨ busy.lastUsed ≤ live.lastUsed
  order : sight.atStart entry.processId = false ∧ live.lastUsed ≤ entry.lastUsed

omit [DecidableEq ι] in
theorem nodup_scan : ((scan sight store).map (·.id)).Nodup := by
  simpa [scan, read, Function.comp_def] using store.nodup

theorem pruned_eq (h : maxUnifiedExecProcesses ≤ store.processes.length) :
    pruned sight store = tryInTurn sight.trial false (candidates (scan sight store)) := by
  have hstored : ∀ m ∈ scan sight store, (store.processes.find? (·.processId = m.id)).isSome = true := by
    intro m hm
    obtain ⟨entry, he, rfl⟩ := mem_map.mp hm
    exact find?_isSome.mpr ⟨entry, he, decide_eq_true rfl⟩
  rw [pruned, if_neg (Nat.not_lt.mpr h), tryCandidates_eq sight store _ hstored (nodup_scan sight store)]

theorem spared_of_pruned (hcap : maxUnifiedExecProcesses ≤ store.processes.length)
    (h : pruned sight store = some processId) :
    ∃ entry : ProcessEntry ι, entry.processId = processId ∧ Spared sight store entry := by
  rw [pruned_eq sight store hcap] at h
  obtain ⟨pre, m, after, ht, hid, hf, hbefore, hl⟩ := tryInTurn_some h
  obtain ⟨hm, hn⟩ := mem_candidates.mp (by simp [ht] : m ∈ candidates (scan sight store))
  obtain ⟨entry, he, rfl⟩ := mem_map.mp hm
  have hor := candidates_ordered (scan sight store)
  rw [ht, pairwise_append, pairwise_cons] at hor
  have hrank : ∀ x ∈ store.processes, x.processId ∉ protectedIds (scan sight store) →
      read sight x ∈ pre ∨ read sight x = read sight entry ∨ read sight x ∈ after := by
    intro x ho hop
    have hmem : read sight x ∈ candidates (scan sight store) := mem_candidates.mpr ⟨mem_map_of_mem ho, hop⟩
    simpa only [ht, mem_append, mem_cons] using hmem
  have hc := eight_le_countP hm hn
  rw [scan, countP_map] at hc
  refine ⟨entry, hid, he, hc, hn, hf, ?_, ?_, ?_⟩
  · intro hr x ho hop
    rcases hrank x ho hop with hb | heq | ha
    · exact Sight.atStart_of_live ((hl hr).2 _ hb)
    · exact (congrArg ProcessMeta.exited heq).trans (Sight.atStart_of_live hr)
    · exact (hor.2.1.1 _ ha).1 (Sight.atStart_of_live hr)
  · intro hs x ho hop hexit
    rcases hrank x ho hop with hb | heq | ha
    · exact hbefore _ hb
    · cases hexit.symm.trans ((congrArg ProcessMeta.exited heq).trans hs)
    · cases hexit.symm.trans ((hor.2.1.1 _ ha).1 hs)
  · intro x ho hop hu hk
    rcases hrank x ho hop with hb | heq | ha
    · cases hu.symm.trans (hbefore _ hb)
    · exact (congrArg ProcessMeta.lastUsed heq).ge
    · exact (hor.2.1.1 _ ha).2 hk

theorem waits_of_not_pruned (hcap : maxUnifiedExecProcesses ≤ store.processes.length) (h : pruned sight store = none)
    {entry : ProcessEntry ι} (he : entry ∈ store.processes) (hp : entry.processId ∉ protectedIds (scan sight store))
    (hf : sight.locked entry.processId = false) : ∃ busy live, Waits sight store entry busy live := by
  rw [pruned_eq sight store hcap] at h
  have hm : read sight entry ∈ candidates (scan sight store) := mem_candidates.mpr ⟨mem_map_of_mem he, hp⟩
  obtain ⟨pre, post, hc⟩ := append_of_mem hm
  obtain ⟨front, live, back, hs, hl, hn | ⟨busy, hb, hlock, hx⟩⟩ := tryInTurn_none h hc hf
  · cases hn
  · have hsplit : candidates (scan sight store) = front ++ live :: (back ++ post) := by
      rw [hc, append_cons, hs, append_assoc, cons_append]
    obtain ⟨hbm, hbp⟩ := mem_candidates.mp (hsplit ▸ mem_append_left _ hb)
    obtain ⟨hlm, hlp⟩ := mem_candidates.mp (hsplit ▸ mem_append_right _ mem_cons_self)
    obtain ⟨busy, hbs, rfl⟩ := mem_map.mp hbm
    obtain ⟨live, hls, rfl⟩ := mem_map.mp hlm
    have hor := candidates_ordered (scan sight store)
    rw [hsplit, pairwise_append, pairwise_cons] at hor
    have hlive : sight.atStart live.processId = false := Sight.atStart_of_live hl
    have hentry : read sight entry = read sight live ∨ read sight entry ∈ back := by
      rcases eq_nil_or_concat back with rfl | ⟨init, last, rfl⟩
      · exact .inl (by simpa using congrArg getLast? hs)
      · rw [concat_eq_append, ← cons_append, ← append_assoc] at hs
        obtain rfl : read sight entry = last := singleton_inj.mp (append_inj' hs rfl).2
        exact .inr (by simp)
    refine ⟨busy, live, ⟨hbs, hls⟩, ⟨hbp, hlp⟩, ⟨hlock, ?_⟩, hl, ?_, ?_⟩
    · rcases Bool.or_eq_true_iff.mp hx with hx | hx
      · exact Bool.or_eq_true_iff.mpr (.inl hx)
      · exact hx
    · cases hbusy : sight.atStart busy.processId with
      | true => exact .inl rfl
      | false => exact .inr ((hor.2.2 _ hb _ mem_cons_self).2 (.inr hbusy))
    · rcases hentry with heq | hback
      · exact ⟨(congrArg ProcessMeta.exited heq).trans hlive, (congrArg ProcessMeta.lastUsed heq).ge⟩
      · have hlt := hor.2.1.1 _ (mem_append_left post hback)
        exact ⟨hlt.1 hlive, hlt.2 (.inr hlive)⟩

/-- Below its cap the store is left alone. At the cap one process goes, and it spares the recent, the busy and the live
ones, unless each one that may go has to wait for a busy one. -/
theorem prune_spares :
    (store.processes.length < maxUnifiedExecProcesses → pruneProcessesIfNeeded sight store = store) ∧
    (maxUnifiedExecProcesses ≤ store.processes.length →
      (∃ entry, Spared sight store entry ∧ pruneProcessesIfNeeded sight store = store.remove entry.processId) ∨
      pruneProcessesIfNeeded sight store = store ∧ ∀ entry ∈ store.processes,
        entry.processId ∉ protectedIds (scan sight store) → sight.locked entry.processId = false →
          ∃ busy live, Waits sight store entry busy live) := by
  constructor
  · intro hlt
    rw [pruneProcessesIfNeeded, pruned, if_pos hlt]
  · intro hcap
    unfold pruneProcessesIfNeeded
    split
    · rename_i h
      exact .inr ⟨rfl, fun entry he hp hf => waits_of_not_pruned sight store hcap h he hp hf⟩
    · rename_i processId h
      obtain ⟨entry, rfl, hs⟩ := spared_of_pruned sight store hcap h
      exact .inl ⟨entry, hs, rfl⟩

/-- Processes that were used one after the other. -/
def inOrder (n : Nat) : ProcessStore Nat where
  processes := (List.range n).map fun id => ⟨id, id⟩
  nodup := by simpa [Function.comp_def] using nodup_range

/-- Nobody exits, and the least recently used process is busy. -/
def firstBusy : Sight Nat where
  atStart _ := false
  exitsSoon _ := false
  exitsLate _ := false
  locked id := id = 0

/-- With 64 processes a free one goes, and with 63 none. -/
theorem full_store_loses_one :
    pruneProcessesIfNeeded firstBusy (inOrder 63) = inOrder 63 ∧
      ∃ entry, Spared firstBusy (inOrder 64) entry ∧
        pruneProcessesIfNeeded firstBusy (inOrder 64) = (inOrder 64).remove entry.processId := by
  refine ⟨(prune_spares firstBusy (inOrder 63)).1 (by decide), ?_⟩
  rcases (prune_spares firstBusy (inOrder 64)).2 (by decide) with hs | ⟨-, hw⟩
  · exact hs
  · have hp : (1 : Nat) ∉ protectedIds (scan firstBusy (inOrder 64)) := by decide +kernel
    obtain ⟨busy, live, h⟩ := hw ⟨1, 1⟩ (by decide) hp (by decide)
    cases h.held.2

end ProcessPruning
