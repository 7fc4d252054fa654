import Ycode.ForkHistory

/-!
# Runs of forks

A thread is created, from nothing or from a base that was prepared before; a rollout grows; a fork is prepared. Every
state that is reached is consistent, so a fork of a fork of a fork inherits what its source showed below the cut.
-/
namespace ForkRuns

open RustStr (Str)
open RolloutWriter (HistoryPosition)
open HistoryProjection ThreadLineage PaginatedFork LineageChain RolloutCuts ForkPositions ForkHistory Fallible
open Relation (ReflTransGen)

variable {β ν τ ι κ υ θ : Type} [DecidableEq β] [DecidableEq υ] [DecidableEq θ]
  (formats : HistoryFormats β ν τ ι κ υ) (threadText : θ → Str) (turnText : υ → Str)

inductive Step : State β θ → State β θ → Prop
  | create {state : State β θ} {thread : θ} {rollout : Rollout β θ} (fresh : rolloutOf state.store thread = none)
    (hsound : rollout.sessionMeta.historyMode = .paginated → Sound formats rollout)
    (hid : rollout.sessionMeta.id = thread)
    (hbase : ∀ base, rollout.sessionMeta.historyBase = some base → base ∈ state.prepared) :
    Step state { state with store := (thread, rollout) :: state.store }
  | append {state : State β θ} {thread : θ} {rollout : Rollout β θ} {bytes : List β}
    (found : rolloutOf state.store thread = some rollout)
    (hsound : rollout.sessionMeta.historyMode = .paginated →
      Sound formats { rollout with file := rollout.file ++ bytes }) :
    Step state { state with store := update state.store thread { rollout with file := rollout.file ++ bytes } }
  | prepare {state : State β θ} {source : θ} {boundary : ForkBoundary υ} {base : Option (HistoryPosition θ)}
    (hprepare : PaginatedFork.prepare formats threadText turnText state.store source boundary = .ok base) :
    Step state { state with prepared := base.toList ++ state.prepared }

/-- Any number of steps. -/
abbrev Steps : State β θ → State β θ → Prop := ReflTransGen (Step formats threadText turnText)

variable {formats threadText turnText} {state later : State β θ}

/-- What `prepare` has found when it succeeds. -/
theorem prepare_ok (h : prepare formats threadText turnText store source boundary = .ok base) :
    ∃ lineage latest pos, resolveRolloutLineage threadText store source = .ok lineage ∧
      latestPosition formats threadText store source = .ok latest ∧
      boundaryPosition formats threadText turnText store lineage latest boundary = .ok pos ∧
      forkAt threadText store lineage pos = .ok base := by
  obtain ⟨lineage, hl, h⟩ := ok_of_bind h
  obtain ⟨_, _, h⟩ := ok_of_bind h
  obtain ⟨latest, ht, h⟩ := ok_of_bind h
  obtain ⟨pos, hp, h⟩ := ok_of_bind h
  exact ⟨lineage, latest, pos, hl, ht, hp, h⟩

section

variable (h : Consistent formats state)
include h

theorem Consistent.positioned (hc : Chain state.store source none lineage)
    (hl : latestPosition formats threadText state.store source = .ok latest)
    (hp : boundaryPosition formats threadText turnText state.store lineage latest boundary = .ok position) :
    Positioned formats state.store lineage position := by
  refine positioned_of_boundaryPosition ?_ ?_ hl hp
  · intro seg hs rollout hr
    obtain ⟨_, hsound⟩ := h.segmentSound hc (bounded_none _ _) hs
    cases hr.symm.trans hsound.admitted.found
    exact hsound.sound
  · obtain ⟨older, rollout, ha, rfl⟩ := hc.getLast?
    refine ⟨_, List.mem_append_right _ (List.mem_singleton_self _), rfl, fun x ho => ?_⟩
    cases ho.symm.trans ha.found
    rfl

/-- The base of a prepared fork is one. -/
theorem Consistent.prepare
    (hr : PaginatedFork.prepare formats threadText turnText state.store source boundary = .ok base) :
    Consistent formats { state with prepared := base.toList ++ state.prepared } := by
  obtain ⟨lineage, latest, pos, hl, ht, hp, hf⟩ := prepare_ok hr
  have hc := resolveRolloutLineage_ok_iff.mp hl
  obtain ⟨inherited, _, hn, _⟩ := h.inherits hc (Consistent.positioned h hc ht hp) hf
  refine ⟨h.id, h.sound, h.bases, fun inner hi => ?_⟩
  rcases List.mem_append.mp hi with hi | hi
  · exact ((hn inner (Option.mem_toList.mp hi)).2 inner rfl).2
  · exact h.prepared inner hi

theorem consistent_of_step (hstep : Step formats threadText turnText state later) :
    Consistent formats later ∧ Grows state.store later.store := by
  cases hstep with
  | create fresh hs hid hb => exact ⟨h.create fresh hs hid hb, grows_cons fresh⟩
  | append found hs => exact ⟨h.append found hs, grows_update found⟩
  | prepare hp => exact ⟨Consistent.prepare h hp, .refl _⟩

theorem consistent_of_steps (hs : Steps formats threadText turnText state later) :
    Consistent formats later ∧ Grows state.store later.store := by
  induction hs with
  | refl => exact ⟨h, .refl _⟩
  | tail _ hstep ih =>
    obtain ⟨hc, hg⟩ := ih
    obtain ⟨hn, hm⟩ := consistent_of_step hc hstep
    exact ⟨hn, hg.trans hm⟩

end

/-- Records of three bytes: a kind, the ordinal plus one, and the newline. The kind 1 is session metadata, the kinds 2
and 3 begin and complete turn 7. -/
def tripleFormats : HistoryFormats Nat (Nat × Nat) Unit Nat (List (TurnChange Nat)) Nat where
  newline := 0
  isAsciiWhitespace byte := byte = 0
  parseValue
    | [kind, ordinal, _] => some (kind, ordinal - 1)
    | _ => none
  valueOrdinal value := some value.2
  parseRolloutLine value := some ⟨(), some value.2, value.1⟩
  projectRolloutLine line :=
    if line.item = 2 then [⟨7, .inProgress⟩] else if line.item = 3 then [⟨7, .completed⟩] else []
  noChanges := []
  startedAtMs _ := []
  parseTimestamp _ := none
  isSessionMeta kind := kind = 1
  changedTurns changes := changes
  sessionMeta_timed _ _ := rfl
  noChanges_timed := rfl

/-- A thread with one turn. -/
def turnRollout : Rollout Nat Nat := ⟨⟨0, .paginated, none, none⟩, [1, 1, 0, 2, 2, 0, 3, 3, 0]⟩

/-- A fork through that turn. -/
def forkRollout : Rollout Nat Nat := ⟨⟨1, .paginated, some ⟨0, 3, 9⟩, none⟩, [1, 4, 0]⟩

def noText (_ : Nat) : Str := []

end ForkRuns
