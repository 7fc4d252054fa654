import Ycode.RolloutWriter

/-!
# Lineages of forked threads

A forked thread continues the history of another thread from a position in that thread's rollout. Its lineage is the
list of rollouts its history is read from, each with the range of ordinals it contributes: from the first record after
its session metadata to the position at which the next thread forks off.
-/
namespace ThreadLineage

open RustStr (Str)
open RolloutWriter (HistoryPosition ThreadHistoryMode)

variable {β θ : Type}

/-- `RolloutLineageSegment`; `cutoff` is the source's `end`. -/
structure RolloutLineageSegment (θ : Type) where
  threadId : θ
  startOrdinal : Nat
  cutoff : Option (HistoryPosition θ)
  deriving DecidableEq, Repr

namespace RolloutLineageSegment

def endOrdinal (segment : RolloutLineageSegment θ) : Option Nat := segment.cutoff.map HistoryPosition.endOrdinalExclusive

/-- The ordinal lies in the range of the segment. -/
def contains (segment : RolloutLineageSegment θ) (ordinal : Nat) : Bool :=
  segment.startOrdinal ≤ ordinal && segment.endOrdinal.all (ordinal < ·)

theorem contains_iff {segment : RolloutLineageSegment θ} : segment.contains ordinal = true ↔
    segment.startOrdinal ≤ ordinal ∧ ∀ stop, segment.endOrdinal = some stop → ordinal < stop := by
  cases hs : segment.endOrdinal with
  | _ => simp [contains, hs]

end RolloutLineageSegment

/-- `RolloutLineage`: the segments of a thread, the oldest first. -/
structure RolloutLineage (θ : Type) where
  segments : List (RolloutLineageSegment θ)

def RolloutLineage.segmentIndexForOrdinal (lineage : RolloutLineage θ) (ordinal : Nat) : Option Nat :=
  lineage.segments.findIdx? (·.contains ordinal)

/-- The ranges of the segments do not overlap, and increase. -/
def Increasing (segments : List (RolloutLineageSegment θ)) : Prop :=
  segments.Pairwise fun earlier later =>
    ∀ first second, earlier.contains first = true → later.contains second = true → first < second

/-- No two segments contain the same ordinal. -/
theorem Increasing.length_filter_le {segs : List (RolloutLineageSegment θ)} (h : Increasing segs)
    (ord : Nat) : (segs.filter (·.contains ord)).length ≤ 1 := by
  have hp := h.filter (·.contains ord)
  have hc : ∀ seg ∈ segs.filter (·.contains ord), seg.contains ord = true :=
    fun seg hs => (List.mem_filter.mp hs).2
  generalize segs.filter (·.contains ord) = filtered at hp hc ⊢
  rcases filtered with _ | ⟨first, _ | ⟨second, rest⟩⟩
  · exact Nat.zero_le _
  · exact Nat.le_refl _
  · have hlt := (List.pairwise_cons.mp hp).1 second List.mem_cons_self ord ord
      (hc _ List.mem_cons_self) (hc _ (List.mem_cons_of_mem _ List.mem_cons_self))
    omega

variable [DecidableEq θ]

/-- The fields of `SessionMeta` that the history of a thread depends on. -/
structure SessionMeta (θ : Type) where
  id : θ
  historyMode : ThreadHistoryMode
  historyBase : Option (HistoryPosition θ)
  subagentHistoryStartOrdinal : Option Nat
  deriving DecidableEq, Repr

/-- A rollout: the metadata that its first record holds, and its bytes. -/
structure Rollout (β θ : Type) where
  sessionMeta : SessionMeta θ
  file : List β
  deriving DecidableEq, Repr

/-- The rollouts, each under the thread that its path names. -/
abbrev Store (β θ : Type) := List (θ × Rollout β θ)

/-- `resolve_rollout_path` -/
def rolloutOf (store : Store β θ) (thread : θ) : Option (Rollout β θ) :=
  (store.find? (·.1 = thread)).map Prod.snd

def malformedLineage (threadText : θ → Str) (thread : θ) (detail : Str) : Str :=
  "invalid paginated history lineage for ".toList ++ threadText thread ++ ": ".toList ++ detail

/-- `validate_cutoff_bounds` -/
def validateCutoffBounds (threadText : θ → Str) (requested : θ) (rollout : Rollout β θ) (cutoff : HistoryPosition θ) :
    Except Str Unit :=
  if cutoff.endOrdinalExclusive = 0 then
    .error (malformedLineage threadText requested "cutoff cannot include source session metadata".toList)
  else if rollout.file.length < cutoff.endByteOffset then
    .error (malformedLineage threadText requested "cutoff byte offset is past the source rollout".toList)
  else .ok ()

/-- The first ordinal after the session metadata. -/
def startOrdinal (threadText : θ → Str) (requested : θ) (rollout : Rollout β θ) : Except Str Nat :=
  match rollout.sessionMeta.historyBase with
  | none => .ok 1
  | some base =>
    if base.endOrdinalExclusive + 1 < 2 ^ 64 then .ok (base.endOrdinalExclusive + 1)
    else .error (malformedLineage threadText requested "source ordinal overflow".toList)

/-- The checks that the loop of `resolve_rollout_lineage_with_representation` makes on one thread: its rollout, and
where its own records start. -/
def resolveThread (threadText : θ → Str) (store : Store β θ) (requested : θ) (seen : List θ) (thread : θ)
    (cutoff : Option (HistoryPosition θ)) : Except Str (Rollout β θ × Nat) :=
  if thread ∈ seen then .error (malformedLineage threadText requested "cycle detected".toList)
  else match rolloutOf store thread with
    | none => .error (malformedLineage threadText thread "missing source rollout".toList)
    | some rollout =>
      if rollout.sessionMeta.id ≠ thread then
        .error (malformedLineage threadText requested "source rollout belongs to another thread".toList)
      else if rollout.sessionMeta.historyMode ≠ .paginated then
        .error (malformedLineage threadText requested "source rollout is not paginated".toList)
      else do
        let _ ← cutoff.elim (.ok ()) (validateCutoffBounds threadText requested rollout)
        let start ← startOrdinal threadText requested rollout
        .ok (rollout, start)

/-- The loop of `resolve_rollout_lineage_with_representation`, from a thread back to the root. Every turn of the loop
takes a thread of the store that was not seen before, so the number of threads bounds it. -/
def resolveFrom (threadText : θ → Str) (store : Store β θ) (requested : θ) :
    Nat → List θ → θ → Option (HistoryPosition θ) → Except Str (List (RolloutLineageSegment θ))
  | 0, _, _, _ => .error (malformedLineage threadText requested "cycle detected".toList)
  | fuel + 1, seen, thread, cutoff => do
    let (rollout, start) ← resolveThread threadText store requested seen thread cutoff
    match rollout.sessionMeta.historyBase with
    | none => .ok [⟨thread, start, cutoff⟩]
    | some base =>
      let older ← resolveFrom threadText store requested fuel (thread :: seen) base.threadId (some base)
      .ok (older ++ [⟨thread, start, cutoff⟩])

/-- `resolve_rollout_lineage` -/
def resolveRolloutLineage (threadText : θ → Str) (store : Store β θ) (requested : θ) :
    Except Str (List (RolloutLineageSegment θ)) :=
  resolveFrom threadText store requested (store.length + 1) [] requested none

/-- `truncate_at` -/
def truncateAt (threadText : θ → Str) (store : Store β θ) (segments : List (RolloutLineageSegment θ))
    (position : HistoryPosition θ) : Except Str (List (RolloutLineageSegment θ)) :=
  match segments.findIdx? (·.threadId = position.threadId) with
  | none => .error "fork position is outside the source lineage".toList
  | some index =>
    match (segments.take (index + 1)).getLast? with
    | none => .error "rollout lineage has no segments".toList
    | some segment =>
      match rolloutOf store segment.threadId with
      | none => .error "failed to read lineage metadata".toList
      | some rollout => do
        validateCutoffBounds threadText position.threadId rollout position
        .ok (segments.take index ++ [{ segment with cutoff := some position }])

end ThreadLineage
