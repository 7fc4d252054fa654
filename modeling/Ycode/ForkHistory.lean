import Ycode.ForkPositions

/-!
# What a fork inherits

Rollouts are created, grow, and are forked; a fork may be created long after its base was prepared. In every state that
is reached this way each base cuts the rollout of its thread. Hence a fork inherits the records of its source below the
cut, however far the source itself goes back, and nothing that is written later changes them.
-/
namespace ForkHistory

open RustStr (Str)
open RolloutWriter (HistoryPosition)
open ThreadLineage PaginatedFork LineageChain RolloutCuts ForkPositions Fallible List

section Runs

/-- The rollouts, and the bases that were prepared for forks. -/
structure State (β θ : Type) where
  store : Store β θ
  prepared : List (HistoryPosition θ)

variable {β ν τ ι κ υ θ : Type} [DecidableEq β] [DecidableEq θ] (formats : HistoryFormats β ν τ ι κ υ)

/-- The base is a cut of the rollout of its thread, behind its first record. -/
structure Based (store : Store β θ) (base : HistoryPosition θ) (rollout : Rollout β θ) : Prop where
  found : rolloutOf store base.threadId = some rollout
  paginated : rollout.sessionMeta.historyMode = .paginated
  cut : Cut formats rollout.file base
  behindStart : firstOrdinal rollout < base.endOrdinalExclusive
  small : base.endOrdinalExclusive ≤ 2 ^ 63

/-- What holds in every state. -/
structure Consistent (state : State β θ) : Prop where
  id : ∀ thread rollout, rolloutOf state.store thread = some rollout → rollout.sessionMeta.id = thread
  sound : ∀ thread rollout, rolloutOf state.store thread = some rollout →
    rollout.sessionMeta.historyMode = .paginated → Sound formats rollout
  bases : ∀ thread rollout base, rolloutOf state.store thread = some rollout →
    rollout.sessionMeta.historyBase = some base → ∃ parent, Based formats state.store base parent
  prepared : ∀ base ∈ state.prepared, ∃ parent, Based formats state.store base parent

variable {formats}

variable {rollout : Rollout β θ} {state : State β θ}

theorem consistent_empty : Consistent formats (⟨[], []⟩ : State β θ) where
  id := nofun
  sound := nofun
  bases := nofun
  prepared := nofun

/-- A base stays one when the rollouts grow. -/
theorem Based.mono (h : Based formats store base rollout) (hg : Grows store later)
    (hs : ∀ t rollout, rolloutOf later t = some rollout →
      rollout.sessionMeta.historyMode = .paginated → Sound formats rollout) :
    ∃ parent, Based formats later base parent := by
  obtain ⟨bs, hf⟩ := hg _ rollout h.found
  exact ⟨_, hf, h.paginated, h.cut.append (hs _ _ hf h.paginated) rfl, h.behindStart, h.small⟩

/-- Growing keeps the state consistent, if every base was there before. -/
theorem Consistent.grow (h : Consistent formats state) (hg : Grows state.store later)
    (hs : ∀ t rollout, rolloutOf later t = some rollout →
      rollout.sessionMeta.historyMode = .paginated → Sound formats rollout)
    (hid : ∀ t rollout, rolloutOf later t = some rollout → rollout.sessionMeta.id = t)
    (hbases : ∀ t rollout base, rolloutOf later t = some rollout →
      rollout.sessionMeta.historyBase = some base → ∃ par, Based formats state.store base par) :
    Consistent formats { state with store := later } where
  id := hid
  sound := hs
  bases t rollout base hr hbase := by
    obtain ⟨par, hb⟩ := hbases t rollout base hr hbase
    exact hb.mono hg hs
  prepared base hbase := by
    obtain ⟨par, hb⟩ := h.prepared base hbase
    exact hb.mono hg hs

/-- A new thread has a base that was prepared. -/
theorem Consistent.create (h : Consistent formats state) (fresh : rolloutOf state.store thread = none)
    (hs : rollout.sessionMeta.historyMode = .paginated → Sound formats rollout)
    (hid : rollout.sessionMeta.id = thread)
    (hb : ∀ base, rollout.sessionMeta.historyBase = some base → base ∈ state.prepared) :
    Consistent formats { state with store := (thread, rollout) :: state.store } := by
  have hc : ∀ x found, rolloutOf ((thread, rollout) :: state.store) x = some found →
      (x = thread ∧ found = rollout) ∨ rolloutOf state.store x = some found := by
    intro x found hf
    rw [rolloutOf_cons] at hf
    split at hf
    · rename_i he
      exact .inl ⟨he, (Option.some.inj hf).symm⟩
    · exact .inr hf
  refine h.grow (grows_cons fresh) ?_ ?_ ?_
  · intro x found hf hm
    rcases hc x found hf with ⟨_, rfl⟩ | ho
    · exact hs hm
    · exact h.sound x found ho hm
  · intro x found hf
    rcases hc x found hf with ⟨rfl, rfl⟩ | ho
    · exact hid
    · exact h.id x found ho
  · intro x found base hf hu
    rcases hc x found hf with ⟨_, rfl⟩ | ho
    · exact h.prepared base (hb base hu)
    · exact h.bases x found base ho hu

/-- A rollout that grows keeps its metadata. -/
theorem Consistent.append (h : Consistent formats state) (found : rolloutOf state.store thread = some rollout)
    (hs : rollout.sessionMeta.historyMode = .paginated →
      Sound formats { rollout with file := rollout.file ++ bytes }) :
    Consistent formats
      { state with store := update state.store thread { rollout with file := rollout.file ++ bytes } } := by
  have hc : ∀ x grown,
      rolloutOf (update state.store thread { rollout with file := rollout.file ++ bytes }) x = some grown →
      (x = thread ∧ grown = { rollout with file := rollout.file ++ bytes }) ∨
        rolloutOf state.store x = some grown := by
    intro x grown hg
    rw [rolloutOf_update, found, Option.map_some] at hg
    split at hg
    · rename_i he
      exact .inl ⟨he, (Option.some.inj hg).symm⟩
    · exact .inr hg
  refine h.grow (grows_update found) ?_ ?_ ?_
  · intro x grown hg hm
    rcases hc x grown hg with ⟨_, rfl⟩ | ho
    · exact hs hm
    · exact h.sound x grown ho hm
  · intro x grown hg
    rcases hc x grown hg with ⟨rfl, rfl⟩ | ho
    · exact h.id x rollout found
    · exact h.id x grown ho
  · intro x grown base hg hb
    rcases hc x grown hg with ⟨_, rfl⟩ | ho
    · exact h.bases thread rollout base found hb
    · exact h.bases x grown base ho hb

variable {segment next : RolloutLineageSegment θ}

/-- A cutoff of a chain is a base of the thread. -/
def Bounded (formats : HistoryFormats β ν τ ι κ υ) (store : Store β θ) (thread : θ)
    (cutoff : Option (HistoryPosition θ)) : Prop :=
  ∀ position, cutoff = some position → position.threadId = thread ∧ ∃ rollout, Based formats store position rollout

/-- The rollout of a segment in a consistent state, cut where the segment ends. -/
structure SegmentSound (formats : HistoryFormats β ν τ ι κ υ) (store : Store β θ) (segment : RolloutLineageSegment θ)
    (rollout : Rollout β θ) : Prop where
  admitted : Admitted store segment.threadId segment.cutoff rollout
  start : segment.startOrdinal = firstOrdinal rollout
  sound : Sound formats rollout
  cut : ∀ position, segment.cutoff = some position → Cut formats rollout.file position ∧
    segment.startOrdinal < position.endOrdinalExclusive

theorem Consistent.ownSegment (h : Consistent formats state)
    (ha : Admitted state.store thread cutoff rollout) (ho : Bounded formats state.store thread cutoff) :
    SegmentSound formats state.store ⟨thread, firstOrdinal rollout, cutoff⟩ rollout := by
  refine ⟨ha, rfl, h.sound _ _ ha.found ha.paginated, fun pos hp => ?_⟩
  obtain ⟨rfl, par, hb⟩ := ho pos hp
  cases ha.found.symm.trans hb.found
  exact ⟨hb.cut, hb.behindStart⟩

theorem Consistent.bounded_base (h : Consistent formats state)
    (hr : rolloutOf state.store thread = some rollout) (hb : rollout.sessionMeta.historyBase = some base) :
    Bounded formats state.store base.threadId (some base) := by
  intro pos hp
  cases hp
  exact ⟨rfl, h.bases _ _ _ hr hb⟩

theorem Consistent.segmentSound (h : Consistent formats state) (hc : Chain state.store thread cutoff segments)
    (hb : Bounded formats state.store thread cutoff) (hs : segment ∈ segments) :
    ∃ rollout, SegmentSound formats state.store segment rollout := by
  induction hc with
  | root ha hbase =>
    rw [mem_singleton.mp hs]
    exact ⟨_, h.ownSegment ha hb⟩
  | forked ha hbase holder ih =>
    rcases mem_append.mp hs with hs | hs
    · exact ih (h.bounded_base ha.found hbase) hs
    · rw [mem_singleton.mp hs]
      exact ⟨_, h.ownSegment ha hb⟩

/-- Each segment ends before all later ones start. -/
def Ordered (segments : List (RolloutLineageSegment θ)) : Prop :=
  segments.Pairwise fun earlier later => ∃ position, earlier.cutoff = some position ∧
    position.endOrdinalExclusive < later.startOrdinal

theorem Consistent.ordered (h : Consistent formats state) (hc : Chain state.store t cutoff segments)
    (hb : Bounded formats state.store t cutoff) :
    Ordered segments ∧ ∀ pos, cutoff = some pos → ∀ segment ∈ segments, ∃ stop,
      segment.cutoff = some stop ∧ stop.endOrdinalExclusive ≤ pos.endOrdinalExclusive := by
  induction hc with
  | root ha hbase =>
    refine ⟨pairwise_singleton _ _, fun pos hp segment hs => ?_⟩
    rw [mem_singleton.mp hs]
    exact ⟨pos, hp, Nat.le_refl _⟩
  | @forked t cutoff rollout base older ha hbase holder ih =>
    obtain ⟨ho, hstops⟩ := ih (h.bounded_base ha.found hbase)
    have hstart : firstOrdinal rollout = base.endOrdinalExclusive + 1 := by
      rw [firstOrdinal, hbase, Option.elim_some]
    refine ⟨pairwise_append.mpr ⟨ho, pairwise_singleton _ _, ?_⟩, ?_⟩
    · intro earlier he own hown
      obtain ⟨stop, hstop, hle⟩ := hstops base rfl earlier he
      rw [mem_singleton.mp hown]
      exact ⟨stop, hstop, by simp only; omega⟩
    · intro pos hp segment hs
      rcases mem_append.mp hs with hs | hs
      · obtain ⟨stop, hstop, hle⟩ := hstops base rfl segment hs
        have hh := ((h.ownSegment ha hb).cut pos hp).2
        simp only at hh
        exact ⟨stop, hstop, by omega⟩
      · rw [mem_singleton.mp hs]
        exact ⟨pos, hp, Nat.le_refl _⟩

omit [DecidableEq β] [DecidableEq θ] in
theorem Ordered.increasing (h : Ordered segments) : Increasing segments := by
  refine h.imp fun {earlier later} hlt first second hf hs => ?_
  obtain ⟨pos, hp, hlt⟩ := hlt
  have hf := (RolloutLineageSegment.contains_iff.mp hf).2 pos.endOrdinalExclusive
    (by rw [RolloutLineageSegment.endOrdinal, hp, Option.map_some])
  have hs := (RolloutLineageSegment.contains_iff.mp hs).1
  omega

theorem SegmentSound.records
    (h : SegmentSound formats store segment rollout) : segmentRecords formats store segment =
      (ownRecords formats rollout).filter fun r => r.ordinal.any segment.contains := by
  refine segmentRecords_eq h.sound h.admitted.found h.start fun pos hp => ?_
  obtain ⟨hc, hs⟩ := h.cut pos hp
  rw [h.start, firstOrdinal_eq] at hs
  exact ⟨hc, by omega⟩

theorem SegmentSound.contains (h : SegmentSound formats store segment rollout)
    (hr : record ∈ segmentRecords formats store segment) :
    ∃ ord, record.ordinal = some ord ∧ segment.contains ord = true := by
  rw [h.records, mem_filter, Option.any_eq_true] at hr
  exact hr.2

/-- Nothing written later changes the records before a cut. -/
theorem segmentRecords_of_grows (hg : Grows store grown) {pos : HistoryPosition θ}
    (ha : Admitted store segment.threadId segment.cutoff rollout) (hc : segment.cutoff = some pos) :
    segmentRecords formats grown segment = segmentRecords formats store segment := by
  obtain ⟨bs, hf⟩ := hg _ _ ha.found
  have hb := (ha.inBounds hc).2
  simp only [segmentRecords, hf, ha.found, hc, take_append_of_le_length hb]

end Runs

section Fork

variable {β ν τ ι κ υ θ : Type} [DecidableEq β] [DecidableEq θ] {formats : HistoryFormats β ν τ ι κ υ}
  {state : State β θ} {lineage before after : List (RolloutLineageSegment θ)} {segment : RolloutLineageSegment θ}

omit [DecidableEq β] in
/-- A fork at a position of the lineage: in its segment, at the end of the segment before, or at the very start. -/
theorem forkAt_ok (h : forkAt threadText store lineage position = .ok base) :
    ∃ before segment after, lineage = before ++ segment :: after ∧ segment.threadId = position.threadId ∧
      (∀ stop, segment.cutoff = some stop → position.endOrdinalExclusive ≤ stop.endOrdinalExclusive ∧
        position.endByteOffset ≤ stop.endByteOffset) ∧
      if position.endOrdinalExclusive = segment.startOrdinal then base = before.getLast?.bind (·.cutoff)
      else base = some position := by
  unfold forkAt at h
  split at h
  · cases h
  · rename_i index hi
    split at h
    · cases h
    · rename_i segment hs
      split at h
      · cases h
      · rename_i he
        obtain ⟨hlt, ht, _⟩ := findIdx?_eq_some_iff_getElem.mp hi
        obtain ⟨_, hg⟩ := List.getElem?_eq_some_iff.mp hs
        rw [hg, decide_eq_true_eq] at ht
        refine ⟨lineage.take index, segment, lineage.drop (index + 1), ?_, ht, ?_, ?_⟩
        · rw [← hg, getElem_cons_drop, take_append_drop]
        · intro stop hstop
          simp only [exceeds, hstop, Option.any_some, Bool.or_eq_true, decide_eq_true_eq, not_or] at he
          omega
        · have hb : base = historyBaseAt lineage index segment position := by
            split at h
            · rename_i hn
              rw [hn, Except.ok.inj h]
            · rename_i found hf
              obtain ⟨_, _, h⟩ := ok_of_bind h
              rw [hf, Except.ok.inj h]
          rw [hb, historyBaseAt]
          split
          · rcases index with _ | index
            · simp
            · have hp : lineage[index]? = some lineage[index] := getElem?_eq_getElem _
              simp [getLast?_take, hp]
          · rfl

theorem bounded_none (store : Store β θ) (t : θ) : Bounded formats store t none := nofun

/-- The record has an ordinal below the cut. -/
def below (cut : Nat) (record : Record τ ι) : Bool := record.ordinal.any (· < cut)

section

variable (h : Consistent formats state)
include h

/-- The records of the segments before the one that is cut are all below the cut. -/
theorem Consistent.filter_before (hc : Chain state.store source none (before ++ segment :: after))
    (hcut : segment.startOrdinal ≤ cut) :
    (visibleRecords formats state.store before).filter (below cut) = visibleRecords formats state.store before := by
  rw [filter_eq_self]
  intro r hr
  obtain ⟨earlier, he, hr⟩ := mem_flatMap.mp hr
  obtain ⟨rollout, hsound⟩ := h.segmentSound hc (bounded_none _ _) (mem_append_left _ he)
  obtain ⟨ord, ho, hhas⟩ := hsound.contains hr
  obtain ⟨stop, hs, hlt⟩ := (pairwise_append.mp (h.ordered hc (bounded_none _ _)).1).2.2 earlier he
    segment mem_cons_self
  have hb := (RolloutLineageSegment.contains_iff.mp hhas).2 stop.endOrdinalExclusive
    (by rw [RolloutLineageSegment.endOrdinal, hs, Option.map_some])
  simp only [below, ho, Option.any_some, decide_eq_true_eq]
  omega

/-- The records of the segments after the one that is cut are not below the cut. -/
theorem Consistent.filter_after (hc : Chain state.store source none (before ++ segment :: after))
    (hcut : ∀ stop, segment.cutoff = some stop → cut ≤ stop.endOrdinalExclusive) :
    (visibleRecords formats state.store after).filter (below cut) = [] := by
  rw [filter_eq_nil_iff]
  intro r hr
  obtain ⟨later, hl, hr⟩ := mem_flatMap.mp hr
  obtain ⟨rollout, hsound⟩ := h.segmentSound hc (bounded_none _ _)
    (mem_append_right _ (mem_cons_of_mem _ hl))
  obtain ⟨ord, hd, hhas⟩ := hsound.contains hr
  have ho := (pairwise_append.mp (h.ordered hc (bounded_none _ _)).1).2.1
  obtain ⟨stop, hstop, hlt⟩ := (pairwise_cons.mp ho).1 later hl
  have hle := hcut stop hstop
  have hs := (RolloutLineageSegment.contains_iff.mp hhas).1
  simp only [below, hd, Option.any_some, decide_eq_true_eq]
  omega

omit h in
/-- Cutting a segment keeps its records below the cut. -/
theorem SegmentSound.filter_below
    (h : SegmentSound formats store segment rollout) (hr : SegmentSound formats store recut rollout)
    (hc : recut.cutoff = some position)
    (hcut : ∀ stop, segment.cutoff = some stop → position.endOrdinalExclusive ≤ stop.endOrdinalExclusive) :
    (segmentRecords formats store segment).filter (below position.endOrdinalExclusive) =
      segmentRecords formats store recut := by
  rw [h.records, hr.records, filter_filter]
  refine filter_congr fun r _ => ?_
  simp only [below]
  cases r.ordinal with
  | none => rfl
  | some ord =>
    have hs : recut.endOrdinal = some position.endOrdinalExclusive := by
      rw [RolloutLineageSegment.endOrdinal, hc, Option.map_some]
    rw [Bool.eq_iff_iff]
    simp only [Option.any_some, Bool.and_eq_true, decide_eq_true_eq,
      RolloutLineageSegment.contains_iff, h.start, hr.start, hs, Option.some.injEq, forall_eq']
    constructor
    · exact fun hb => ⟨hb.2.1, hb.1⟩
    · refine fun hb => ⟨hb.2, hb.1, fun stop he => ?_⟩
      obtain ⟨last, hl, rfl⟩ := Option.map_eq_some_iff.mp he
      exact Nat.lt_of_lt_of_le hb.2 (hcut last hl)

/-- The history below the position, in a consistent state. -/
theorem Consistent.inherits (hc : Chain state.store source none lineage)
    (hposition : Positioned formats state.store lineage position)
    (hfork : forkAt threadText state.store lineage position = .ok base) :
    ∃ inherited, (base = none → inherited = []) ∧
      (∀ inner, base = some inner → Chain state.store inner.threadId (some inner) inherited ∧
        Bounded formats state.store inner.threadId (some inner)) ∧
      visibleRecords formats state.store inherited =
        (visibleRecords formats state.store lineage).filter (below position.endOrdinalExclusive) := by
  obtain ⟨before, segment, after, rfl, ht, hs, hbase⟩ := forkAt_ok hfork
  obtain ⟨x, ho, rollout, hsame, hf, hcut, hstart, hsmall⟩ := hposition
  obtain rfl : x = segment := inj_on_of_nodup_map hc.nodup ho (by simp) (hsame.trans ht.symm)
  obtain ⟨_, hsound⟩ := h.segmentSound hc (bounded_none _ _) ho
  cases hf.symm.trans hsound.admitted.found
  have hk := h.filter_before hc hstart
  have hd := h.filter_after hc fun stop hstop => (hs stop hstop).1
  have hv : visibleRecords formats state.store (before ++ x :: after) =
      visibleRecords formats state.store before ++ (segmentRecords formats state.store x ++
        visibleRecords formats state.store after) := by
    rw [visibleRecords, flatMap_append, flatMap_cons]
    rfl
  rw [hv, filter_append, filter_append, hk, hd, append_nil]
  split at hbase
  · rename_i hatStart
    -- nothing of this segment is inherited
    have hn : (segmentRecords formats state.store x).filter (below position.endOrdinalExclusive) = [] := by
      rw [filter_eq_nil_iff]
      intro r hrecord
      obtain ⟨ord, hl, hhas⟩ := hsound.contains hrecord
      have hle := (RolloutLineageSegment.contains_iff.mp hhas).1
      simp only [below, hl, Option.any_some, decide_eq_true_eq]
      omega
    rw [hn, append_nil]
    rcases eq_nil_or_concat before with rfl | ⟨earlier, prev, rfl⟩
    · subst hbase
      exact ⟨[], fun _ => rfl, nofun, rfl⟩
    · rw [concat_eq_append] at hc hbase ⊢
      rw [append_assoc, singleton_append] at hc
      obtain ⟨inner, forked, hu, hi, ha, hforked, _⟩ := Chain.link hc
      have hb' : base = some inner := by simpa [hu] using hbase
      have holder := hc.of_append
      rw [hu, ← hi] at holder
      refine ⟨earlier ++ [prev], by simp [hb'], ?_, rfl⟩
      rintro _ hsome
      cases hb'.symm.trans hsome
      exact ⟨holder, h.bounded_base ha.found hforked⟩
  · have hp : firstOrdinal rollout < position.endOrdinalExclusive := by
      rw [← hsound.start]
      omega
    have ha : Admitted state.store x.threadId (some position) rollout := by
      refine ⟨hf, hsound.admitted.id, hsound.admitted.paginated, ?_, hsound.admitted.noOverflow⟩
      intro _ hsome
      cases hsome
      exact ⟨by omega, hcut.inBounds⟩
    have hb : Bounded formats state.store x.threadId (some position) := by
      intro _ hsome
      cases hsome
      exact ⟨hsame.symm, rollout, hsame ▸ hf, hsound.admitted.paginated, hcut, hp, hsmall⟩
    have hr := hsound.filter_below (h.ownSegment ha hb) rfl fun stop hstop => (hs stop hstop).1
    rw [hr]
    refine ⟨before ++ [⟨x.threadId, firstOrdinal rollout, some position⟩], by simp [hbase], ?_, ?_⟩
    · intro _ hsome
      cases hbase.symm.trans hsome
      rw [← hsame]
      exact ⟨hc.of_append.recut ha, hb⟩
    · rw [visibleRecords, flatMap_append, flatMap_singleton]
      rfl

/-- The lineage of a fork is what its base has, and its own. -/
theorem Consistent.chain_of_fork
    (hc : rolloutOf state.store child = some rollout) (hm : rollout.sessionMeta.historyMode = .paginated)
    (hr : rollout.sessionMeta.historyBase = none → inherited = [])
    (hf : ∀ inner, rollout.sessionMeta.historyBase = some inner →
      Chain state.store inner.threadId (some inner) inherited) :
    Chain state.store child none (inherited ++ [⟨child, firstOrdinal rollout, none⟩]) := by
  have ha : Admitted state.store child none rollout := by
    refine ⟨hc, h.id child rollout hc, hm, nofun, fun hbase => ?_⟩
    obtain ⟨par, hb⟩ := h.bases child rollout _ hc hbase
    have hs := hb.small
    omega
  cases hbase : rollout.sessionMeta.historyBase with
  | none =>
    rw [hr hbase]
    exact .root ha hbase
  | some inner => exact .forked ha hbase (hf inner hbase)

/-- What is visible up to a base stays as it is. -/
theorem Consistent.visibleRecords_of_grows {inner : HistoryPosition θ} (hg : Grows state.store grown)
    (hc : Chain state.store inner.threadId (some inner) inherited)
    (hb : Bounded formats state.store inner.threadId (some inner)) :
    visibleRecords formats grown inherited = visibleRecords formats state.store inherited := by
  refine flatMap_congr fun segment hs => ?_
  obtain ⟨rollout, hsound⟩ := h.segmentSound hc hb hs
  obtain ⟨stop, hstop, _⟩ := (h.ordered hc hb).2 inner rfl segment hs
  exact segmentRecords_of_grows hg hsound.admitted hstop

/-- Every segment before the last is cut, and not empty. -/
theorem Consistent.cut_of_chain
    (hchain : Chain state.store child none (inherited ++ [own])) (hs : segment ∈ inherited) :
    ∃ par cutoff, rolloutOf state.store segment.threadId = some par ∧ segment.cutoff = some cutoff ∧
      Cut formats par.file cutoff ∧ segment.contains segment.startOrdinal = true := by
  obtain ⟨par, hsound⟩ := h.segmentSound hchain (bounded_none _ _) (mem_append_left _ hs)
  obtain ⟨cutoff, hc, _⟩ := (pairwise_append.mp (h.ordered hchain (bounded_none _ _)).1).2.2 segment hs
    own (mem_singleton_self _)
  obtain ⟨hcut, hlt⟩ := hsound.cut cutoff hc
  refine ⟨par, cutoff, hsound.admitted.found, hc, hcut, RolloutLineageSegment.contains_iff.mpr
    ⟨Nat.le_refl _, fun stop hstop => ?_⟩⟩
  rw [RolloutLineageSegment.endOrdinal, hc, Option.map_some, Option.some.injEq] at hstop
  omega

end

end Fork

end ForkHistory
