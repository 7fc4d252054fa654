import Ycode.ProjectionPasses
import Ycode.RolloutCuts

/-!
# The positions that the projection knows

Every line the projection has is a record of the rollout, so the positions of its turns and its own position are cuts
of the rollout.
-/
namespace ForkPositions

open RustStr (Str)
open RolloutWriter (HistoryPosition)
open HistoryProjection ProjectionPasses ThreadLineage PaginatedFork LineFile LineageChain RolloutCuts Fallible List

variable {β ν τ ι κ υ θ : Type} {formats : HistoryFormats β ν τ ι κ υ}

section Read

variable {output : List (RolloutProjectionStep κ)} {lines : List (List β)}

/-- The projected line is the record. -/
def Projects (projection : ProjectedRolloutLine κ) (record : Record τ ι) : Prop :=
  record.ordinal = some projection.ordinal ∧ record.startOffset = projection.startByteOffset ∧
    record.endOffset = projection.endByteOffset

/-- What reading a line does with the record on it. -/
inductive RecordRead (formats : HistoryFormats β ν τ ι κ υ) (cursor : Cursor) (line : List β) :
    Cursor × List (RolloutProjectionStep κ) → Prop
  | noRecord {next' : Cursor} (hrecord : recordOf formats cursor.lineStartOffset line = none)
    (hordinal : next'.nextOrdinal = cursor.nextOrdinal)
    (hpending : next'.pendingRejectedLineCount = 0 → cursor.pendingRejectedLineCount = 0) :
    RecordRead formats cursor line (next', [])
  | deferred {record : Record τ ι} {stop : Nat} (hrecord : recordOf formats cursor.lineStartOffset line = some record)
    (hmeta : formats.isSessionMeta record.line.item = false) : RecordRead formats cursor line (cursor.reject stop, [])
  | projected {record : Record τ ι} {projection : ProjectedRolloutLine κ} {skipped : List (RolloutProjectionStep κ)}
    (hrecord : recordOf formats cursor.lineStartOffset line = some record) (hprojects : Projects projection record)
    (hskipped : ∀ other, .line other ∉ skipped) :
    RecordRead formats cursor line
      (.start (projection.ordinal + 1) projection.endByteOffset, skipped ++ [.line projection])

/-- Session metadata needs no time. -/
theorem fallbackCreatedAtMs_ne_none {line : RolloutWriter.RolloutLine τ ι}
    (h : formats.isSessionMeta line.item = true) :
    fallbackCreatedAtMs formats.toFormats line (changesOf formats.toFormats thread line ordinal) ≠ none := by
  unfold fallbackCreatedAtMs changesOf
  split
  · simp [formats.noChanges_timed]
  · simp [formats.sessionMeta_timed line h]

theorem recordRead_of_projectLine
    (hr : recordOf formats cursor.lineStartOffset line = some record) (ho : record.ordinal = some ordinal)
    (h : projectLine formats.toFormats thread cursor record.line ordinal record.endOffset = .ok result) :
    RecordRead formats cursor line result := by
  unfold projectLine at h
  simp only at h
  split at h
  · cases h
  · split at h
    · rename_i hf
      cases h
      refine .deferred hr ?_
      by_contra hm
      exact fallbackCreatedAtMs_ne_none (Bool.not_eq_false _ ▸ hm) hf
    · rename_i fallback hf
      split at h
      · cases h
        have hp : Projects ⟨ordinal, cursor.lineStartOffset, record.endOffset, fallback,
            changesOf formats.toFormats thread record.line ordinal⟩ record :=
          ⟨ho, (recordOf_offsets hr).1, rfl⟩
        refine .projected hr hp ?_
        intro x
        split <;> simp
      · cases h

theorem recordRead_of_readLine (h : readLine formats.toFormats thread cursor line = .ok result) :
    RecordRead formats cursor line result := by
  unfold readLine at h
  simp only at h
  split at h
  · cases h
  · split at h
    · rename_i hb
      cases h
      exact .noRecord (by simp [recordOf, hb]) rfl id
    · rename_i hb
      split at h
      · rename_i hv
        cases h
        exact .noRecord (by simp [recordOf, hb, hv]) rfl (by simp [Cursor.reject])
      · rename_i v hv
        cases hl : formats.parseRolloutLine v with
        | none =>
          have hn : recordOf formats cursor.lineStartOffset line = none := by
            simp [recordOf, hb, hv, hl]
          simp only [hl, Option.bind_none, Option.none_or, Option.isNone_none, if_true] at h
          split at h
          · cases h
            exact .noRecord hn rfl (by simp [Cursor.reject])
          · split at h
            · cases h
            · cases h
              exact .noRecord hn rfl (by simp [Cursor.reject])
        | some r =>
          have hr : recordOf formats cursor.lineStartOffset line = some
              ⟨r.ordinal.or (formats.valueOrdinal v), cursor.lineStartOffset,
                cursor.lineStartOffset + (line ++ [formats.newline]).length, r⟩ := by
            simp [recordOf, hb, hv, hl]
          simp only [hl, Option.bind_some, Option.isNone_some] at h
          split at h
          · cases h
          · rename_i ord ho
            split at h
            · cases h
            · exact recordRead_of_projectLine hr ho h

/-- The bytes of the line are counted. -/
theorem lineStartOffset_of_readLine (h : readLine formats.toFormats thread cursor line = .ok (next', output)) :
    next'.lineStartOffset = cursor.lineStartOffset + (line.length + 1) :=
  ((lineRead_of_readLine h).spec (by omega)).1

section

variable (h : fold (readLine formats.toFormats thread) cursor lines = .ok (last, output))
include h

/-- A projected line is one of the records. -/
theorem exists_record_of_mem_fold (hm : .line projection ∈ output) :
    ∃ record ∈ recordsFrom formats cursor.lineStartOffset lines, Projects projection record := by
  induction lines generalizing cursor output with
  | nil =>
    cases h
    cases hm
  | cons line lines ih =>
    obtain ⟨next', out, more, hl, hrest, rfl⟩ := fold_cons_ok h
    rw [recordsFrom, ← lineStartOffset_of_readLine hl]
    rcases mem_append.mp hm with hm | hm
    · cases recordRead_of_readLine hl with
      | projected hr hp hs =>
        rcases mem_append.mp hm with hm | hm
        · exact absurd hm (hs _)
        · cases mem_singleton.mp hm
          exact ⟨_, mem_append_left _ (by simp [hr]), hp⟩
      | _ => cases hm
    · obtain ⟨record, hr, hp⟩ := ih hrest hm
      exact ⟨record, mem_append_right _ hr, hp⟩

/-- Session metadata is projected. -/
theorem exists_projection_of_sessionMeta (hm : record ∈ recordsFrom formats cursor.lineStartOffset lines)
    (hmeta : formats.isSessionMeta record.line.item = true) :
    ∃ projection, .line projection ∈ output ∧ Projects projection record := by
  induction lines generalizing cursor output with
  | nil => cases hm
  | cons line lines ih =>
    obtain ⟨next', out, more, hl, hrest, rfl⟩ := fold_cons_ok h
    rw [recordsFrom, ← lineStartOffset_of_readLine hl, mem_append, Option.mem_toList] at hm
    rcases hm with hm | hm
    · cases recordRead_of_readLine hl with
      | noRecord hr ho hn => cases hm.symm.trans hr
      | deferred hr hm' =>
        cases hm.symm.trans hr
        cases hmeta.symm.trans hm'
      | projected hr hprojects hs =>
        cases hm.symm.trans hr
        exact ⟨_, by simp, hprojects⟩
    · obtain ⟨projection, hp, hprojects⟩ := ih hrest hm
      exact ⟨projection, mem_append_right _ hp, hprojects⟩

/-- When no line is pending, the ordinal follows the one of the last record. -/
theorem nextOrdinal_of_fold (hlast : last.pendingRejectedLineCount = 0) :
    (recordsFrom formats cursor.lineStartOffset lines = [] ∧ cursor.pendingRejectedLineCount = 0 ∧
        last.nextOrdinal = cursor.nextOrdinal) ∨
      ∃ pre record ord, recordsFrom formats cursor.lineStartOffset lines = pre ++ [record] ∧
        record.ordinal = some ord ∧ last.nextOrdinal = ord + 1 := by
  induction lines generalizing cursor output with
  | nil =>
    cases h
    exact .inl ⟨rfl, hlast, rfl⟩
  | cons line lines ih =>
    obtain ⟨next', out, more, hl, hrest, rfl⟩ := fold_cons_ok h
    rw [recordsFrom, ← lineStartOffset_of_readLine hl]
    rcases ih hrest with ⟨hn, hp, ho⟩ | ⟨pre, record, ord, hr, hrecord, ho⟩
    · rw [hn, append_nil]
      cases recordRead_of_readLine hl with
      | noRecord hrecord hs hk => exact .inl ⟨by rw [hrecord]; rfl, hk hp, ho.trans hs⟩
      | deferred hrecord hm => simp [Cursor.reject] at hp
      | projected hrecord hj hi => exact .inr ⟨[], _, _, by rw [hrecord]; rfl, hj.1, ho⟩
    · exact .inr ⟨_ ++ pre, record, ord, by rw [hr, append_assoc], hrecord, ho⟩

end

end Read

/-- The positions of a row are those of projected lines, and the turn does not end before it begins. -/
structure RowSound (applied : ProjectedRolloutLine κ → Prop) (row : TurnRow υ) : Prop where
  started : ∃ projection, applied projection ∧ projection.ordinal = row.rolloutOrdinal ∧
    row.rolloutByteOffset = some projection.startByteOffset
  ended {endOrdinal endByteOffset : Nat} (hordinal : row.rolloutEndOrdinal = some endOrdinal)
    (hoffset : row.rolloutEndByteOffset = some endByteOffset) : row.rolloutOrdinal ≤ endOrdinal ∧
      ∃ projection, applied projection ∧ projection.ordinal = endOrdinal ∧ projection.endByteOffset = endByteOffset

variable [DecidableEq υ] {projection : ProjectedRolloutLine κ}

theorem RowSound.upsertTurn (ha : applied projection)
    (hr : ∀ row ∈ rows, RowSound applied row ∧ row.rolloutOrdinal ≤ projection.ordinal) (turn : TurnChange υ) :
    ∀ row ∈ PaginatedFork.upsertTurn projection rows turn,
      RowSound applied row ∧ row.rolloutOrdinal ≤ projection.ordinal := by
  have he {first endOrdinal endByteOffset : Nat} (hf : first ≤ projection.ordinal)
      (ho : (if turn.status = .inProgress then none else some projection.ordinal) = some endOrdinal)
      (hs : (if turn.status = .inProgress then none else some projection.endByteOffset) = some endByteOffset) :
      first ≤ endOrdinal ∧ ∃ line, applied line ∧ line.ordinal = endOrdinal ∧ line.endByteOffset = endByteOffset := by
    split at ho
    · cases ho
    · rename_i ht
      rw [if_neg ht] at hs
      cases ho
      cases hs
      exact ⟨hf, projection, ha, rfl, rfl⟩
  intro row hrow
  unfold PaginatedFork.upsertTurn at hrow
  simp only at hrow
  split at hrow
  · obtain ⟨old, hold, rfl⟩ := mem_map.mp hrow
    obtain ⟨hsound, hle⟩ := hr old hold
    split
    · exact ⟨⟨hsound.started, he hle⟩, hle⟩
    · exact ⟨hsound, hle⟩
  · rcases mem_append.mp hrow with hrow | hrow
    · exact hr row hrow
    · rw [mem_singleton.mp hrow]
      exact ⟨⟨⟨projection, ha, rfl, rfl⟩, he (Nat.le_refl _)⟩, Nat.le_refl _⟩

theorem RowSound.applyTurns (ha : applied projection)
    (hr : ∀ row ∈ rows, RowSound applied row ∧ row.rolloutOrdinal ≤ projection.ordinal)
    (h : PaginatedFork.applyTurns formats rows projection = .ok next') :
    ∀ row ∈ next', RowSound applied row ∧ row.rolloutOrdinal ≤ projection.ordinal := by
  cases h
  induction formats.changedTurns projection.changes generalizing rows with
  | nil => exact hr
  | cons turn ts ih => exact ih (RowSound.upsertTurn ha hr turn)

/-- A step of the transaction keeps the rows sound, and behind its ordinal. -/
theorem RowSound.applyStep
    (ha : ∀ projection, step = .line projection → projection.ordinal < 2 ^ 63 → applied projection)
    (hrows : ∀ row ∈ state.2, RowSound applied row ∧ row.rolloutOrdinal < state.1)
    (h : HistoryProjection.applyStep threadId (PaginatedFork.applyTurns formats) state step = .ok next') :
    (∀ row ∈ next'.2, RowSound applied row ∧ row.rolloutOrdinal < next'.1) ∧ next'.1 < 2 ^ 63 := by
  cases step with
  | line projection =>
    obtain ⟨ord, ho, hc⟩ := ok_of_bind h
    obtain ⟨rfl, hsmall⟩ := sqliteInteger_ok ho
    split at hc
    · cases hc
    · obtain ⟨_, _, hs⟩ := ok_of_bind hc
      obtain ⟨_, _, he⟩ := ok_of_bind hs
      obtain ⟨rows, happly, hn⟩ := ok_of_bind he
      split at hn
      · rename_i hb
        cases hn
        have hsound := RowSound.applyTurns (ha projection rfl hsmall)
          (fun row hrow => ⟨(hrows row hrow).1, by have := (hrows row hrow).2; omega⟩) happly
        exact ⟨fun row hrow => ⟨(hsound row hrow).1, by have := (hsound row hrow).2; simp only; omega⟩, hb⟩
      · cases hn
  | skippedOrdinalRange first stop =>
    obtain ⟨_, hf, hc⟩ := ok_of_bind h
    split at hc
    · cases hc
    · obtain ⟨_, hl, hr⟩ := ok_of_bind hc
      obtain ⟨rfl, hb⟩ := sqliteInteger_ok hl
      split at hr
      · cases hr
      · cases hr
        exact ⟨fun row hrow => ⟨(hrows row hrow).1, by have := (hrows row hrow).2; simp only; omega⟩, hb⟩

theorem RowSound.applySteps
    (ha : ∀ projection, .line projection ∈ steps → projection.ordinal < 2 ^ 63 → applied projection)
    (hr : ∀ row ∈ state.2, RowSound applied row ∧ row.rolloutOrdinal < state.1)
    (h : HistoryProjection.applySteps threadId (PaginatedFork.applyTurns formats) state steps = .ok next') :
    (∀ row ∈ next'.2, RowSound applied row ∧ row.rolloutOrdinal < next'.1) ∧ (steps ≠ [] → next'.1 < 2 ^ 63) := by
  induction steps generalizing state with
  | nil =>
    cases h
    exact ⟨hr, fun hne => absurd rfl hne⟩
  | cons step steps ih =>
    obtain ⟨mid, hs, hrest⟩ := ok_of_bind h
    obtain ⟨hm, hb⟩ := RowSound.applyStep (fun projection he => ha projection (he ▸ mem_cons_self))
      hr hs
    obtain ⟨hn, hl⟩ := ih (fun projection hmem => ha projection (mem_cons_of_mem _ hmem)) hm hrest
    refine ⟨hn, fun _ => ?_⟩
    by_cases hnil : steps = []
    · subst hnil
      cases hrest
      exact hb
    · exact hl hnil

variable [DecidableEq β] {rollout : Rollout β θ}

/-- A projected line is a record of the rollout, with an ordinal that SQLite can hold. -/
def IsRecordOf (formats : HistoryFormats β ν τ ι κ υ) (file : List β) (projection : ProjectedRolloutLine κ) : Prop :=
  (∃ record ∈ recordsOf formats file, Projects projection record) ∧ projection.ordinal < 2 ^ 63

/-- What an up-to-date projection has read: lines from the beginning of the rollout, with all that the others
project. -/
theorem projectionOf_ok (h : projectionOf formats threadText rollout = .ok database) :
    ∃ settled rest steps last, lines formats.newline rollout.file = settled ++ rest ∧
      Projected formats.toFormats (threadOf threadText rollout) (applyTurns formats) [] settled steps database ∧
      fold (readLine formats.toFormats (threadOf threadText rollout)) (.start (initialOrdinal rollout) 0)
        (lines formats.newline rollout.file) = .ok (last, steps) := by
  unfold projectionOf at h
  cases hpass : materializeToSqlite formats.toFormats (threadOf threadText rollout) (applyTurns formats) ⟨none, []⟩
      rollout.file with
  | error error =>
    rw [hpass] at h
    cases h
  | ok res =>
    rw [hpass] at h
    cases h
    obtain ⟨settled, hs, hp⟩ := (projected_nil []).materialize hpass
    rw [nil_append] at hs hp
    obtain ⟨rest, hr⟩ := hs
    obtain ⟨read, hread, hpass⟩ := ok_of_bind hpass
    have hsame : res.1 = read.2 := by
      split at hpass
      · rename_i he
        cases hpass
        exact (List.isEmpty_iff.mp he.1).symm
      · obtain ⟨_, _, hpass⟩ := ok_of_bind hpass
        cases hpass
        rfl
    refine ⟨settled, lines formats.newline rest, res.1, read.1, ?_, hp, ?_⟩
    · rw [← lines_join_append _ hp.closed, hr]
      rfl
    · rw [hsame]
      exact hread

/-- The position of an up-to-date projection is a cut behind the session metadata. -/
theorem cut_of_projectionState (hsound : Sound formats rollout)
    (h : projectionOf formats threadText rollout = .ok database)
    (hstate : database.projectionState = some (offset, ordinal)) (thread : θ) :
    Cut formats rollout.file ⟨thread, ordinal, offset⟩ ∧ firstOrdinal rollout ≤ ordinal ∧ ordinal < 2 ^ 63 := by
  obtain ⟨settled, rest, steps, last, hl, hp, hall⟩ := projectionOf_ok h
  have hi : database.position (threadOf threadText rollout).initialOrdinal = (offset, ordinal) := by
    rw [Database.position, hstate, Option.getD_some]
  have ho := hp.offset
  have hread := hp.read
  rw [hi] at hread ho
  simp only at hread ho
  obtain ⟨first, others, hr, hmeta, hf⟩ := hsound.metadata
  obtain ⟨projection, hj, ht⟩ := exists_projection_of_sessionMeta hall
    (show first ∈ recordsOf formats rollout.file from hr ▸ mem_cons_self) hmeta
  obtain ⟨r, hrecord, hp'⟩ := exists_record_of_mem_fold hread hj
  rcases nextOrdinal_of_fold hread rfl with ⟨hnone, _⟩ | ⟨pre, final, number, hs, hn, hnext⟩
  · rw [hnone] at hrecord
    cases hrecord
  · change ordinal = number + 1 at hnext
    have hc : Cut formats rollout.file ⟨thread, ordinal, offset⟩ := by
      rw [hnext, ho]
      exact hsound.cut_after hl hs hn
    have hd : r.ordinal = some (initialOrdinal rollout) := hp'.1.trans (ht.1.symm.trans hf)
    have he : r.endOffset ≤ offset := by
      have hb := (bounds_of_mem_recordsFrom hrecord).2.2
      change r.endOffset ≤ 0 + _ at hb
      omega
    have hbelow := (hc.agree (mem_scannedRecords formats
      (recordsOf_of_lines formats hl ▸ mem_append_left _ hrecord)) hd).mp he
    refine ⟨hc, by rw [firstOrdinal_eq]; exact hbelow, ?_⟩
    have ha := hp.applied
    rw [hi] at ha
    have hl : ∀ projection, .line projection ∈ steps → projection.ordinal < 2 ^ 63 →
        IsRecordOf formats rollout.file projection := fun projection hm hsmall =>
      ⟨exists_record_of_mem_fold hall hm, hsmall⟩
    exact (RowSound.applySteps hl (by simp) ha).2 (ne_nil_of_mem hj)

/-- The rows of an up-to-date projection are at records of the rollout. -/
theorem rowSound_of_mem (h : projectionOf formats threadText rollout = .ok database)
    (hr : row ∈ database.rows) : RowSound (IsRecordOf formats rollout.file) row := by
  obtain ⟨settled, rest, steps, last, hl, hp, ha⟩ := projectionOf_ok h
  refine ((RowSound.applySteps ?_ (by simp) hp.applied).1 row hr).1
  intro projection hm hs
  exact ⟨exists_record_of_mem_fold ha hm, hs⟩

section Boundary

variable [DecidableEq θ] {threadText : θ → Str} {turnText : υ → Str} {store : Store β θ}
  {lineage : List (RolloutLineageSegment θ)}

variable {turnId : υ} {segments : List (RolloutLineageSegment θ)} {found : θ × TurnRow υ}

/-- The position is a cut of a rollout of the lineage, not before its first record. -/
def Positioned (formats : HistoryFormats β ν τ ι κ υ) (store : Store β θ) (lineage : List (RolloutLineageSegment θ))
    (position : HistoryPosition θ) : Prop :=
  ∃ segment ∈ lineage, ∃ rollout, segment.threadId = position.threadId ∧
    rolloutOf store segment.threadId = some rollout ∧ Cut formats rollout.file position ∧
    segment.startOrdinal ≤ position.endOrdinalExclusive ∧ position.endOrdinalExclusive ≤ 2 ^ 63

theorem findTurn_ok (h : findTurn formats threadText turnText store turnId segments = .ok found) :
    ∃ segment ∈ segments, segment.threadId = found.1 ∧ segment.contains found.2.rolloutOrdinal = true ∧
      ∃ database, projectionOfThread formats threadText store segment.threadId = .ok database ∧
        found.2 ∈ database.rows := by
  induction segments with
  | nil => cases h
  | cons segment segments ih =>
    obtain ⟨row, hq, h⟩ := ok_of_bind h
    cases row with
    | none =>
      obtain ⟨x, ho, hfound⟩ := ih h
      exact ⟨x, mem_cons_of_mem _ ho, hfound⟩
    | some row =>
      cases h
      obtain ⟨_, _, hq⟩ := ok_of_bind hq
      obtain ⟨_, _, hq⟩ := ok_of_bind hq
      obtain ⟨database, hd, hq⟩ := ok_of_bind hq
      have hr := Except.ok.inj hq
      have hc := find?_some hr
      simp only [Bool.and_eq_true, decide_eq_true_eq] at hc
      exact ⟨segment, mem_cons_self, rfl, hc.2, database, hd, mem_of_find?_eq_some hr⟩

theorem projectionOfThread_ok {thread : θ} (h : projectionOfThread formats threadText store thread = .ok database) :
    ∃ rollout, rolloutOf store thread = some rollout ∧ projectionOf formats threadText rollout = .ok database := by
  unfold projectionOfThread at h
  split at h
  · cases h
  · rename_i rollout hr
    exact ⟨rollout, hr, h⟩

section

variable
  (hsound : ∀ segment ∈ lineage, ∀ rollout, rolloutOf store segment.threadId = some rollout → Sound formats rollout)
  (hsegments : ∀ segment ∈ segments, segment ∈ lineage)
  (hfound : findTurn formats threadText turnText store turnId segments = .ok found)
include hsound hsegments hfound

/-- The end of a turn that was found is a cut. -/
theorem positioned_of_turnEnd
    (h : turnEnd turnText turnId found = .ok position) : Positioned formats store lineage position := by
  obtain ⟨segment, hs, ht, hhas, database, hd, hrow⟩ := findTurn_ok hfound
  obtain ⟨rollout, hr, hp⟩ := projectionOfThread_ok hd
  have hrow := rowSound_of_mem hp hrow
  unfold turnEnd at h
  split at h
  · cases h
  · split at h
    · rename_i endOrdinal endByteOffset ho hf
      split at h
      · cases h
        obtain ⟨hle, projection, ⟨⟨r, hrecord, hj⟩, hsmall⟩, rfl, rfl⟩ := hrow.ended ho hf
        have hstart := (RolloutLineageSegment.contains_iff.mp hhas).1
        have hsound := hsound segment (hsegments segment hs) rollout hr
        have hc := hsound.cut_at_end found.1 hrecord hj.1
        rw [hj.2.2] at hc
        exact ⟨segment, hsegments segment hs, rollout, ht, hr, hc, by simp only; omega, hsmall⟩
      · cases h
    · cases h

/-- The beginning of a turn that was found is a cut. -/
theorem positioned_of_turnStart
    (h : turnStart turnText turnId found = .ok position) : Positioned formats store lineage position := by
  obtain ⟨segment, hs, ht, hhas, database, hd, hrow⟩ := findTurn_ok hfound
  obtain ⟨rollout, hr, hp⟩ := projectionOfThread_ok hd
  have hrow := rowSound_of_mem hp hrow
  obtain ⟨projection, ⟨⟨r, hrecord, hj⟩, hsmall⟩, ho, hf⟩ := hrow.started
  unfold turnStart at h
  rw [hf] at h
  split at h
  · cases h
  · cases h
    have hstart := (RolloutLineageSegment.contains_iff.mp hhas).1
    have hsound := hsound segment (hsegments segment hs) rollout hr
    have hc := hsound.cut_before found.1 hrecord hj.1
    rw [ho, hj.2.1] at hc
    exact ⟨segment, hsegments segment hs, rollout, ht, hr, hc, hstart, by simp only; omega⟩

end

/-- Every position of a boundary is a cut of a rollout of the lineage. -/
theorem positioned_of_boundaryPosition {latest : HistoryPosition θ} {boundary : ForkBoundary υ}
    (hsound : ∀ segment ∈ lineage, ∀ rollout, rolloutOf store segment.threadId = some rollout → Sound formats rollout)
    (ho : ∃ segment ∈ lineage, segment.threadId = thread ∧
      ∀ rollout, rolloutOf store thread = some rollout → segment.startOrdinal = firstOrdinal rollout)
    (hl : latestPosition formats threadText store thread = .ok latest)
    (h : boundaryPosition formats threadText turnText store lineage latest boundary = .ok position) :
    Positioned formats store lineage position := by
  cases boundary with
  | latest =>
    cases h
    obtain ⟨segment, hs, rfl, hstart⟩ := ho
    obtain ⟨database, hd, hl⟩ := ok_of_bind hl
    obtain ⟨rollout, hr, hj⟩ := projectionOfThread_ok hd
    split at hl
    · cases hl
    · rename_i offset ord hstate
      cases hl
      obtain ⟨hc, hf, hsmall⟩ := cut_of_projectionState (hsound segment hs rollout hr) hj
        hstate segment.threadId
      exact ⟨segment, hs, rollout, rfl, hr, hc, by rw [hstart rollout hr]; exact hf, Nat.le_of_lt hsmall⟩
  | throughTurn turnId =>
    obtain ⟨found, hfound, hp⟩ := ok_of_bind h
    exact positioned_of_turnEnd hsound (fun segment hs => mem_reverse.mp hs) hfound hp
  | beforeTurn turnId =>
    obtain ⟨found, hfound, hp⟩ := ok_of_bind h
    exact positioned_of_turnStart hsound (fun segment hs => hs) hfound hp

end Boundary

end ForkPositions
