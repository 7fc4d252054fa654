import Ycode.HistoryProjection

/-!
# Passes over a growing rollout

Whenever the passes are made, what they have applied is what one pass over a beginning of the rollout applies. If one
pass over the whole rollout succeeds, then so does the last pass, and together they have applied the same steps and
left the same database. One pass over the whole rollout can be refused where earlier passes were not: for a gap between
two ordinals that no rejected lines account for.
-/
namespace ProjectionPasses

open RustStr (Str)
open HistoryProjection LineFile Fallible List

variable {κ : Type}

/-- The steps cover the ordinals from the first to the last, one after the other. -/
def Contiguous : Nat → List (RolloutProjectionStep κ) → Nat → Prop
  | first, [], last => first = last
  | first, .line projection :: steps, last => projection.ordinal = first ∧ Contiguous (first + 1) steps last
  | first, .skippedOrdinalRange start stop :: steps, last => start = first ∧ start < stop ∧ Contiguous stop steps last

/-- The bytes of the lines that the steps project. -/
def spans (steps : List (RolloutProjectionStep κ)) : List (Nat × Nat) :=
  steps.filterMap fun
    | .line projection => some (projection.startByteOffset, projection.endByteOffset)
    | .skippedOrdinalRange _ _ => none

/-- Every projected line lies between the offsets, and no two of them overlap. -/
def Disjoint (first : Nat) (steps : List (RolloutProjectionStep κ)) (last : Nat) : Prop :=
  (∀ span ∈ spans steps, first ≤ span.1 ∧ span.1 < span.2 ∧ span.2 ≤ last) ∧
    (spans steps).Pairwise fun earlier later => earlier.2 ≤ later.1

theorem Contiguous.append (h : Contiguous first steps middle) (hm : Contiguous middle more last) :
    Contiguous first (steps ++ more) last := by
  induction steps generalizing first with
  | nil =>
    cases h
    exact hm
  | cons step steps ih =>
    cases step with
    | line projection => exact ⟨h.1, ih h.2⟩
    | skippedOrdinalRange start stop => exact ⟨h.1, h.2.1, ih h.2.2⟩

theorem Disjoint.append (h : Disjoint first steps middle) (hm : Disjoint middle more last) (hf : first ≤ middle)
    (hlast : middle ≤ last) : Disjoint first (steps ++ more) last := by
  have hs : spans (steps ++ more) = spans steps ++ spans more := filterMap_append
  refine ⟨fun span hspan => ?_, ?_⟩
  · rw [hs, mem_append] at hspan
    rcases hspan with hspan | hspan
    · have := h.1 span hspan
      omega
    · have := hm.1 span hspan
      omega
  · rw [hs, pairwise_append]
    refine ⟨h.2, hm.2, fun earlier he later hl => ?_⟩
    have h₁ := (h.1 earlier he).2.2
    have h₂ := (hm.1 later hl).1
    omega

variable {β ν τ ι κ : Type}

/-- What a line that is read does to the cursor. -/
inductive LineRead (cursor : Cursor) (lineEndOffset : Nat) : Cursor × List (RolloutProjectionStep κ) → Prop
  | rejected : LineRead cursor lineEndOffset (cursor.reject lineEndOffset, [])
  | blank : LineRead cursor lineEndOffset (cursor.blank lineEndOffset, [])
  | projected {ordinal : Nat} (hordinal : cursor.nextOrdinal = ordinal) (fallback : Option Int) (changes : κ) :
    LineRead cursor lineEndOffset (.start (ordinal + 1) lineEndOffset,
      [.line ⟨ordinal, cursor.lineStartOffset, lineEndOffset, fallback, changes⟩])
  | skipped {ordinal : Nat} (hordinal : cursor.nextOrdinal < ordinal) (fallback : Option Int) (changes : κ) :
    LineRead cursor lineEndOffset (.start (ordinal + 1) lineEndOffset,
      [.skippedOrdinalRange cursor.nextOrdinal ordinal,
        .line ⟨ordinal, cursor.lineStartOffset, lineEndOffset, fallback, changes⟩])

theorem lineRead_of_projectLine (ho : ¬ordinal < cursor.nextOrdinal)
    (h : projectLine formats thread cursor line ordinal stop = .ok result) : LineRead cursor stop result := by
  unfold projectLine at h
  simp only at h
  split at h
  · cases h
  · split at h
    · cases h
      exact .rejected
    · split at h
      · cases h
        by_cases hs : ordinal - cursor.nextOrdinal > 0
        · simp only [hs, if_true]
          exact .skipped (by omega) _ _
        · simp only [hs, if_false]
          exact .projected (by omega) _ _
      · cases h

theorem lineRead_of_readLine (h : readLine formats thread cursor line = .ok result) :
    LineRead cursor (cursor.lineStartOffset + (line.length + 1)) result := by
  have hl : (line ++ [formats.newline]).length = line.length + 1 := by simp
  unfold readLine at h
  simp only [hl] at h
  split at h
  · cases h
  · split at h
    · cases h
      exact .blank
    · split at h
      · cases h
        exact .rejected
      · split at h
        · split at h
          · cases h
            exact .rejected
          · cases h
        · split at h
          · cases h
          · rename_i ho
            split at h
            · cases h
              exact .rejected
            · exact lineRead_of_projectLine ho h

theorem checkpoints_readLine : Checkpoints (readLine formats thread) Cursor.checkpoint where
  settles := by
    intro cursor next' line output h
    cases lineRead_of_readLine h with
    | rejected => exact .inr ⟨rfl, rfl⟩
    | blank =>
      by_cases hp : cursor.pendingRejectedLineCount = 0
      · exact .inl (by simp [Cursor.blank, Cursor.checkpoint, Cursor.start, hp])
      · exact .inr ⟨rfl, by simp [Cursor.blank, Cursor.checkpoint, hp]⟩
    | _ => exact .inl rfl

/-- The bookkeeping of one line: its bytes are counted, its ordinals are covered, and its span is its own. -/
theorem LineRead.spec (h : LineRead cursor stop (next', output)) (hs : cursor.lineStartOffset < stop) :
    next'.lineStartOffset = stop ∧ Contiguous cursor.nextOrdinal output next'.nextOrdinal ∧
      Disjoint cursor.lineStartOffset output stop := by
  cases h with
  | projected ho fallback chs =>
    subst ho
    exact ⟨rfl, ⟨rfl, rfl⟩, by simp [Disjoint, spans, hs]⟩
  | skipped ho fallback chs => exact ⟨rfl, ⟨rfl, ho, rfl, rfl⟩, by simp [Disjoint, spans, hs]⟩
  | _ => exact ⟨rfl, rfl, by simp [Disjoint, spans]⟩

theorem fold_readLine_spec (h : fold (readLine formats thread) cursor written = .ok (last, output)) :
    last.lineStartOffset = cursor.lineStartOffset + (join formats.newline written).length ∧
      Contiguous cursor.nextOrdinal output last.nextOrdinal ∧
      Disjoint cursor.lineStartOffset output last.lineStartOffset := by
  induction written generalizing cursor output with
  | nil =>
    cases h
    exact ⟨rfl, rfl, by simp [Disjoint, spans]⟩
  | cons line written ih =>
    obtain ⟨next', out, more, hl, hr, rfl⟩ := fold_cons_ok h
    obtain ⟨hs, hc, hd⟩ := (lineRead_of_readLine hl).spec (by omega)
    obtain ⟨hlast, hc', hd'⟩ := ih hr
    have hj : (join formats.newline (line :: written)).length =
        line.length + 1 + (join formats.newline written).length := by
      rw [join_cons, length_append, length_cons]
      omega
    refine ⟨by omega, hc.append hc', ?_⟩
    rw [← hs] at hd
    exact hd.append hd' (by omega) (by omega)

variable {κ δ : Type}

theorem Contiguous.unique (h : Contiguous first steps last) (h' : Contiguous first steps last') : last = last' := by
  induction steps generalizing first with
  | nil => exact h.symm.trans h'
  | cons step steps ih =>
    cases step with
    | line projection => exact ih h.2 h'.2
    | skippedOrdinalRange start stop => exact ih h.2.2 h'.2.2

theorem sqliteInteger_ok (h : sqliteInteger value field = .ok result) : result = value ∧ value < 2 ^ 63 := by
  unfold sqliteInteger at h
  split at h
  · rename_i hlt
    cases h
    exact ⟨rfl, hlt⟩
  · cases h

theorem sqliteInteger_of_lt (h : value < 2 ^ 63) :
    sqliteInteger value field = .ok value := if_pos h

/-- The transaction checks that the steps go on from its ordinal. -/
theorem contiguous_of_applyStep (h : applyStep threadId applyChangeSet state step = .ok next') :
    Contiguous state.1 [step] next'.1 := by
  cases step with
  | line projection =>
    obtain ⟨ord, ho, h⟩ := ok_of_bind h
    obtain ⟨rfl, _⟩ := sqliteInteger_ok ho
    split at h
    · cases h
    · rename_i hs
      obtain ⟨_, _, h⟩ := ok_of_bind h
      obtain ⟨_, _, h⟩ := ok_of_bind h
      obtain ⟨_, _, h⟩ := ok_of_bind h
      split at h
      · cases h
        exact ⟨not_not.mp hs, rfl⟩
      · cases h
  | skippedOrdinalRange start stop =>
    obtain ⟨first, hf, hc⟩ := ok_of_bind h
    obtain ⟨rfl, _⟩ := sqliteInteger_ok hf
    split at hc
    · cases hc
    · rename_i hs
      obtain ⟨last, hl, hr⟩ := ok_of_bind hc
      obtain ⟨rfl, _⟩ := sqliteInteger_ok hl
      split at hr
      · cases hr
      · cases hr
        exact ⟨not_not.mp hs, by omega, rfl⟩

theorem contiguous_of_applySteps
    (h : applySteps threadId applyChangeSet state steps = .ok next') : Contiguous state.1 steps next'.1 := by
  induction steps generalizing state with
  | nil =>
    cases h
    rfl
  | cons step steps ih =>
    obtain ⟨mid, hs, hr⟩ := ok_of_bind h
    exact (contiguous_of_applyStep hs).append (ih hr)

theorem applySteps_append (h : applySteps threadId applyChangeSet state steps = .ok next') :
    applySteps threadId applyChangeSet state (steps ++ more) = applySteps threadId applyChangeSet next' more := by
  rw [applySteps] at h ⊢
  rw [foldlM_append, h]
  rfl

section Passes

variable {β ν τ ι κ δ : Type} [DecidableEq β] (formats : Formats β ν τ ι κ) (thread : Thread)
  (applyChangeSet : δ → ProjectedRolloutLine κ → Except Str δ)

/-- The database holds what the given lines, the beginning of the rollout, give when they are read at once. -/
structure Projected (rows : δ) (written : List (List β)) (steps : List (RolloutProjectionStep κ))
    (database : Database δ) : Prop where
  closed : ∀ line ∈ written, formats.newline ∉ line
  read : fold (readLine formats thread) (.start thread.initialOrdinal 0) written =
    .ok (.start (database.position thread.initialOrdinal).2 (database.position thread.initialOrdinal).1, steps)
  applied : applySteps thread.id applyChangeSet (thread.initialOrdinal, rows) steps =
    .ok ((database.position thread.initialOrdinal).2, database.rows)
  started : database.projectionState = none ↔ written = []

variable {formats thread applyChangeSet} {rows : δ} {written : List (List β)}
  {steps : List (RolloutProjectionStep κ)} {database : Database δ}

omit [DecidableEq β] in
theorem projected_nil (rows : δ) :
    Projected formats thread applyChangeSet rows [] [] ⟨none, rows⟩ where
  closed := nofun
  read := rfl
  applied := rfl
  started := by simp

/-- The transaction of a pass that goes on from the stored position. -/
theorem applyProjection_ok (h : applyProjection thread.id applyChangeSet database startOffset nextOffset
      thread.initialOrdinal projections = .ok next') :
    thread.initialOrdinal < 2 ^ 63 ∧ nextOffset < 2 ^ 63 ∧ ∃ ord, next'.projectionState = some (nextOffset, ord) ∧
      applySteps thread.id applyChangeSet ((database.position thread.initialOrdinal).2, database.rows) projections =
        .ok (ord, next'.rows) := by
  obtain ⟨initial, hi, hs⟩ := ok_of_bind h
  obtain ⟨rfl, hb⟩ := sqliteInteger_ok hi
  obtain ⟨start, hstart, hc⟩ := ok_of_bind hs
  split at hc
  · cases hc
  · obtain ⟨res, hsteps, hr⟩ := ok_of_bind hc
    obtain ⟨stored, ht, hm⟩ := ok_of_bind hr
    obtain ⟨rfl, ho⟩ := sqliteInteger_ok ht
    cases hm
    exact ⟨hb, ho, res.1, rfl, hsteps⟩

theorem applyProjection_of_steps (hi : thread.initialOrdinal < 2 ^ 63)
    (hs : (database.position thread.initialOrdinal).1 < 2 ^ 63) (hn : nextOffset < 2 ^ 63)
    (hsteps : applySteps thread.id applyChangeSet ((database.position thread.initialOrdinal).2, database.rows)
      projections = .ok (ordinal, next')) :
    applyProjection thread.id applyChangeSet database (database.position thread.initialOrdinal).1 nextOffset
      thread.initialOrdinal projections = .ok ⟨some (nextOffset, ordinal), next'⟩ := by
  unfold applyProjection
  simp only [sqliteInteger_of_lt hi, sqliteInteger_of_lt hs, sqliteInteger_of_lt hn]
  change (if (database.position thread.initialOrdinal).1 ≠ (database.position thread.initialOrdinal).1 then _ else _) = _
  rw [if_neg (not_not.mpr rfl)]
  simp only [hsteps]
  rfl

omit [DecidableEq β] in
theorem Projected.initial (h : Projected formats thread applyChangeSet rows [] steps database) :
    steps = [] ∧ database = ⟨none, rows⟩ := by
  obtain ⟨_, rfl⟩ := Prod.mk.inj (Except.ok.inj h.read)
  have hs := h.started.mpr rfl
  have hr := (Prod.mk.inj (Except.ok.inj h.applied)).2
  obtain ⟨st, stored⟩ := database
  simp only at hs hr
  exact ⟨rfl, by rw [hs, hr]⟩

omit [DecidableEq β] in
/-- A pass never goes back. -/
theorem nextOffset_of_fold {read : List (List β)} {cursor : Cursor} {output : List (RolloutProjectionStep κ)}
    (h : fold (readLine formats thread) (.start ordinal offset) read = .ok (cursor, output)) :
    offset ≤ cursor.nextOffset := by
  obtain ⟨settled, _, _, hs, _⟩ := exists_checkpoint checkpoints_readLine rfl h
  have hspec := (fold_readLine_spec hs).1
  simp only [Cursor.checkpoint, Cursor.start] at hspec
  omega

section

variable (h : Projected formats thread applyChangeSet rows written steps database)
include h

omit [DecidableEq β] in
theorem Projected.offset : (database.position thread.initialOrdinal).1 = (join formats.newline written).length := by
  have hs := (fold_readLine_spec h.read).1
  simpa [Cursor.start] using hs

/-- A pass goes on where the stored lines end. -/
theorem Projected.resume (rest : List β) :
    readProjectionSteps formats thread (join formats.newline written ++ rest)
        (database.position thread.initialOrdinal).1 (database.position thread.initialOrdinal).2 =
      fold (readLine formats thread) (.start (database.position thread.initialOrdinal).2
        (database.position thread.initialOrdinal).1) (lines formats.newline rest) := by
  rw [readProjectionSteps, if_neg (by rw [h.offset, length_append]; omega)]
  rw [h.offset, drop_left]

/-- One pass from the beginning reads the stored lines and goes on in the same way. -/
theorem Projected.whole (rest : List β) :
    readProjectionSteps formats thread (join formats.newline written ++ rest) 0 thread.initialOrdinal =
      (fold (readLine formats thread) (.start (database.position thread.initialOrdinal).2
        (database.position thread.initialOrdinal).1) (lines formats.newline rest)).map
          fun res => (res.1, steps ++ res.2) := by
  rw [readProjectionSteps, if_neg (Nat.not_lt_zero _), drop_zero, lines_join_append _ h.closed, fold_append h.read]

/-- A pass over a rollout that begins with the stored lines stores some more of its lines, or none. -/
theorem Projected.materialize
    (hpass : materializeToSqlite formats thread applyChangeSet database (join formats.newline written ++ rest) =
      .ok (projections, next')) :
    ∃ more, join formats.newline (written ++ more) <+: join formats.newline written ++ rest ∧
      Projected formats thread applyChangeSet rows (written ++ more) (steps ++ projections) next' := by
  obtain ⟨⟨cursor, read⟩, hr, hpass⟩ := ok_of_bind hpass
  rw [h.resume rest] at hr
  split at hpass
  · cases hpass
    exact ⟨[], by simp, by simpa using h⟩
  · rename_i hm
    obtain ⟨applied, ha, hpass⟩ := ok_of_bind hpass
    cases hpass
    obtain ⟨_, _, ord, hstate, hsteps⟩ := applyProjection_ok ha
    obtain ⟨settled, open', hl, hs, ho⟩ := exists_checkpoint checkpoints_readLine rfl hr
    -- the transaction and the reader count the same ordinals
    have hd : ord = cursor.nextOrdinal :=
      (contiguous_of_applySteps hsteps).unique (fold_readLine_spec hs).2.1
    have hp : next'.position thread.initialOrdinal = (cursor.nextOffset, cursor.nextOrdinal) := by
      rw [Database.position, hstate, hd, Option.getD_some]
    have hn : settled ≠ [] := by
      rintro rfl
      obtain ⟨hc, rfl⟩ := Prod.mk.inj (Except.ok.inj hs)
      exact hm ⟨rfl, congrArg Cursor.nextOffset hc⟩
    refine ⟨settled, ?_, ?_, ?_, ?_, by simp [hstate, hn]⟩
    · have hrest := join_lines_append_tail formats.newline rest
      rw [hl, join_append, append_assoc] at hrest
      rw [join_append, ← hrest, ← append_assoc]
      exact prefix_append _ _
    · intro line hline
      rcases mem_append.mp hline with hline | hline
      · exact h.closed line hline
      · exact newline_not_mem_of_mem_lines _ (hl ▸ mem_append_left _ hline)
    · rw [fold_append h.read, hs, hp]
      rfl
    · rw [applySteps_append h.applied, hsteps, hp, hd]

theorem Projected.runPass {pass : Pass β} (hf : join formats.newline written <+: pass.file) :
    ∃ more, join formats.newline (written ++ more) <+: pass.file ∧
      Projected formats thread applyChangeSet rows (written ++ more)
        (steps ++ (HistoryProjection.runPass formats thread applyChangeSet database pass).1)
        (HistoryProjection.runPass formats thread applyChangeSet database pass).2 := by
  obtain ⟨rest, hr⟩ := hf
  have hs : ∃ more, join formats.newline (written ++ more) <+: pass.file ∧
      Projected formats thread applyChangeSet rows (written ++ more) (steps ++ []) database :=
    ⟨[], by rw [append_nil]; exact ⟨rest, hr⟩, by simpa using h⟩
  unfold HistoryProjection.runPass
  cases pass.fault with
  | some error => exact hs
  | none =>
    cases hp : materializeToSqlite formats thread applyChangeSet database pass.file with
    | error error => exact hs
    | ok res =>
      rw [← hr] at hp ⊢
      exact h.materialize hp

/-- After any passes over a growing rollout the database holds a beginning of it. -/
theorem Projected.runPasses (hfile : join formats.newline written <+: file)
    (hf : ∀ pass ∈ passes, join formats.newline written <+: pass.file ∧ pass.file <+: file)
    (hg : passes.Pairwise fun earlier later => earlier.file <+: later.file) :
    ∃ more, join formats.newline (written ++ more) <+: file ∧
      Projected formats thread applyChangeSet rows (written ++ more)
        (steps ++ (HistoryProjection.runPasses formats thread applyChangeSet database passes).1)
        (HistoryProjection.runPasses formats thread applyChangeSet database passes).2 := by
  induction passes generalizing written steps database with
  | nil => exact ⟨[], by simpa using hfile, by simpa [HistoryProjection.runPasses] using h⟩
  | cons pass passes ih =>
    rw [pairwise_cons] at hg
    rw [forall_mem_cons] at hf
    obtain ⟨more, hm, hp⟩ := h.runPass hf.1.1
    obtain ⟨rest, hr, hlast⟩ := ih hp (hm.trans hf.1.2)
      (fun later hl => ⟨hm.trans (hg.1 later hl), (hf.2 later hl).2⟩) hg.2
    refine ⟨more ++ rest, by rwa [← append_assoc], ?_⟩
    rw [← append_assoc, HistoryProjection.runPasses]
    simpa only [append_assoc] using hlast

omit [DecidableEq β] in
theorem Projected.state_eq_some (hw : written ≠ []) : database.projectionState =
    some ((database.position thread.initialOrdinal).1, (database.position thread.initialOrdinal).2) := by
  cases hs : database.projectionState with
  | none => exact absurd (h.started.mp hs) hw
  | some st => rw [Database.position, hs, Option.getD_some]

/-- When one pass over the rollout succeeds, a pass that goes on from the stored lines applies the rest of its steps
and leaves the same database. -/
theorem Projected.completes {whole : Database δ}
    (hwhole : materializeToSqlite formats thread applyChangeSet ⟨none, rows⟩ (join formats.newline written ++ rest) =
      .ok (projections, whole)) :
    ∃ more, projections = steps ++ more ∧
      materializeToSqlite formats thread applyChangeSet database (join formats.newline written ++ rest) =
        .ok (more, whole) := by
  by_cases hw : written = []
  · subst hw
    obtain ⟨rfl, rfl⟩ := h.initial
    exact ⟨projections, rfl, hwhole⟩
  · obtain ⟨⟨cursor, read⟩, hread, ha⟩ := ok_of_bind hwhole
    change readProjectionSteps formats thread _ 0 thread.initialOrdinal = _ at hread
    rw [h.whole rest] at hread
    cases hr : fold (readLine formats thread) (.start (database.position thread.initialOrdinal).2
        (database.position thread.initialOrdinal).1) (lines formats.newline rest) with
    | error error =>
      rw [hr] at hread
      cases hread
    | ok res =>
      obtain ⟨cursor', more⟩ := res
      rw [hr] at hread
      cases hread
      -- the stored lines are not empty, so the one pass has moved and was applied
      have hf := nextOffset_of_fold hr
      have hp : 0 < (database.position thread.initialOrdinal).1 := by
        rw [h.offset]
        obtain ⟨line, ls, rfl⟩ := exists_cons_of_ne_nil hw
        rw [join_cons, length_append, length_cons]
        omega
      rw [if_neg (fun hnone => by have : 0 = cursor'.nextOffset := hnone.2; omega)] at ha
      obtain ⟨stored, ht, hu⟩ := ok_of_bind ha
      cases hu
      obtain ⟨hi, hn, ord, hs, hsteps⟩ := applyProjection_ok ht
      change cursor'.nextOffset < 2 ^ 63 at hn
      change applySteps thread.id applyChangeSet (thread.initialOrdinal, rows) (steps ++ more) = _ at hsteps
      rw [applySteps_append h.applied] at hsteps
      refine ⟨more, rfl, ?_⟩
      unfold materializeToSqlite
      simp only [h.resume rest, hr]
      change (if more.isEmpty ∧ (database.position thread.initialOrdinal).1 = cursor'.nextOffset then _ else _) = _
      by_cases hd : more.isEmpty ∧ (database.position thread.initialOrdinal).1 = cursor'.nextOffset
      · rw [if_pos hd]
        obtain rfl := List.isEmpty_iff.mp hd.1
        obtain ⟨ho, hrows⟩ := Prod.mk.inj (Except.ok.inj hsteps)
        have hk := h.state_eq_some hw
        rw [hd.2, ho] at hk
        exact congrArg (fun final => Except.ok ([], final)) (Database.ext (hk.trans hs.symm) hrows)
      · rw [if_neg hd, applyProjection_of_steps hi (by omega) hn hsteps]
        exact congrArg (fun final => Except.ok (more, final)) (Database.ext hs.symm rfl)

end

theorem exists_projected (hf : ∀ pass ∈ passes, pass.file <+: file)
    (hg : passes.Pairwise fun earlier later => earlier.file <+: later.file) :
    ∃ written, join formats.newline written <+: file ∧ Projected formats thread applyChangeSet rows written
        (runPasses formats thread applyChangeSet ⟨none, rows⟩ passes).1
        (runPasses formats thread applyChangeSet ⟨none, rows⟩ passes).2 := by
  refine (projected_nil rows).runPasses nil_prefix (fun pass hp => ?_) hg
  exact And.intro nil_prefix (hf pass hp)

theorem runPasses_concat :
    runPasses formats thread applyChangeSet database (passes ++ [last]) =
      let before := runPasses formats thread applyChangeSet database passes
      let after := runPass formats thread applyChangeSet before.2 last
      (before.1 ++ after.1, after.2) := by
  induction passes generalizing database with
  | nil => simp [HistoryProjection.runPasses]
  | cons pass passes ih => simp [HistoryProjection.runPasses, ih]

/-- Passes at any moments over a growing rollout, some of them failing, and a last pass over the final one. What was
applied is what one pass over a beginning of the rollout reads, each line once and with no ordinal left out; and if one
pass over the final rollout succeeds, it applies the same steps and leaves the same database. -/
theorem passes_agree_with_one_pass (formats : Formats β ν τ ι κ) (thread : Thread)
    (applyChangeSet : δ → ProjectedRolloutLine κ → Except Str δ) (rows : δ) (passes : List (Pass β)) (last : Pass β)
    (hgrow : (passes ++ [last]).Pairwise fun earlier later => earlier.file <+: later.file) :
    let result := runPasses formats thread applyChangeSet ⟨none, rows⟩ (passes ++ [last])
    let position := result.2.position thread.initialOrdinal
    (∀ whole, materializeToSqlite formats thread applyChangeSet ⟨none, rows⟩ last.file = .ok whole →
      last.fault = none → result = whole) ∧
    (∃ beginning, beginning <+: last.file ∧
      readProjectionSteps formats thread beginning 0 thread.initialOrdinal =
        .ok (.start position.2 position.1, result.1)) ∧
    Contiguous thread.initialOrdinal result.1 position.2 ∧
    Disjoint 0 result.1 position.1 ∧
    applySteps thread.id applyChangeSet (thread.initialOrdinal, rows) result.1 = .ok (position.2, result.2.rows) ∧
    (∀ (database : Database δ) (pass : Pass β) (error : Str),
      pass.fault = some error ∨ materializeToSqlite formats thread applyChangeSet database pass.file = .error error →
      runPass formats thread applyChangeSet database pass = ([], database)) := by
  intro result position
  have hb : ∀ pass ∈ passes, pass.file <+: last.file := fun pass hp =>
    (pairwise_append.mp hgrow).2.2 pass hp last (mem_singleton_self last)
  have ha : ∀ pass ∈ passes ++ [last], pass.file <+: last.file := by
    intro pass hp
    rcases mem_append.mp hp with hp | hp
    · exact hb pass hp
    · rw [mem_singleton.mp hp]
  obtain ⟨written, hi, hprojected⟩ := exists_projected ha hgrow
  obtain ⟨_, hc, hd⟩ := fold_readLine_spec hprojected.read
  refine ⟨fun whole hw hfault => ?_, ⟨join formats.newline written, hi, ?_⟩, hc, hd,
    hprojected.applied, fun database pass error hf => ?_⟩
  · obtain ⟨pre, ⟨rest, hr⟩, hs⟩ := exists_projected hb (pairwise_append.mp hgrow).1
    rw [← hr] at hw
    obtain ⟨more, hsteps, hl⟩ := hs.completes hw
    rw [hr] at hl
    have hp : runPass formats thread applyChangeSet
        (runPasses formats thread applyChangeSet ⟨none, rows⟩ passes).2 last = (more, whole.2) := by
      rw [HistoryProjection.runPass, hfault]
      simp only [hl]
    change runPasses formats thread applyChangeSet ⟨none, rows⟩ (passes ++ [last]) = whole
    rw [runPasses_concat]
    simp only [hp, ← hsteps]
  · have hread := hprojected.whole []
    rw [append_nil] at hread
    rw [hread]
    simp [LineFile.lines_nil, Except.map, result, position]
  · unfold HistoryProjection.runPass
    rcases hf with hf | hf
    · rw [hf]
    · rw [hf]
      cases pass.fault <;> rfl

end Passes

/-- The ordinals of the lines that parse. -/
def parsedOrdinals {β ν τ ι κ : Type} [DecidableEq β] (formats : Formats β ν τ ι κ) (file : List β) :
    List (Option Nat) :=
  ((lines formats.newline file).filterMap fun line =>
    (formats.parseValue (line ++ [formats.newline])).bind formats.parseRolloutLine).map (·.ordinal)

/-- A line of one byte is a record whose ordinal is one less; other lines do not parse. -/
def byteFormats : Formats Nat Nat Unit Unit Unit where
  newline := 0
  isAsciiWhitespace byte := byte == 0
  parseValue
    | [byte, 0] => some byte
    | _ => none
  valueOrdinal byte := some (byte - 1)
  parseRolloutLine byte := some ⟨(), some (byte - 1), ()⟩
  projectRolloutLine _ := ()
  noChanges := ()
  startedAtMs _ := []
  parseTimestamp _ := none

/-- Every projected line counts. -/
def countLines (count : Nat) (_ : ProjectedRolloutLine Unit) : Except Str Nat := .ok (count + 1)

/-- A pass over a line that is only partly written, a pass that fails, and a pass over the final rollout, whose second
line does not parse. -/
theorem three_passes_agree_with_one_pass :
    materializeToSqlite byteFormats ⟨[], 0, none⟩ countLines ⟨none, 0⟩ [1, 0, 9, 9, 0, 3, 0] =
      .ok ([.line ⟨0, 0, 2, none, ()⟩, .skippedOrdinalRange 1 2, .line ⟨2, 5, 7, none, ()⟩], ⟨some (7, 3), 2⟩) ∧
    runPasses byteFormats ⟨[], 0, none⟩ countLines ⟨none, 0⟩
        [⟨[1, 0, 9], none⟩, ⟨[1, 0, 9, 9, 0], some []⟩, ⟨[1, 0, 9, 9, 0, 3, 0], none⟩] =
      ([.line ⟨0, 0, 2, none, ()⟩, .skippedOrdinalRange 1 2, .line ⟨2, 5, 7, none, ()⟩], ⟨some (7, 3), 2⟩) :=
  ⟨rfl, (passes_agree_with_one_pass byteFormats ⟨[], 0, none⟩ countLines 0
    [⟨[1, 0, 9], none⟩, ⟨[1, 0, 9, 9, 0], some []⟩] ⟨[1, 0, 9, 9, 0, 3, 0], none⟩ (by decide)).1 _ rfl rfl⟩

/-- The ordinals increase but leave one out. The pass after the first line applies it; one pass over both lines is
refused. -/
theorem gap_is_refused_after_a_pass :
    parsedOrdinals byteFormats [1, 0, 3, 0] = [some 0, some 2] ∧
    runPasses byteFormats ⟨[], 0, none⟩ countLines ⟨none, 0⟩ [⟨[1, 0], none⟩, ⟨[1, 0, 3, 0], none⟩] =
      ([.line ⟨0, 0, 2, none, ()⟩], ⟨some (2, 1), 1⟩) ∧
    materializeToSqlite byteFormats ⟨[], 0, none⟩ countLines ⟨none, 0⟩ [1, 0, 3, 0] =
      .error ("thread history projection for  expected ordinal 1, got 2; 0 rejected rollout lines ".toList ++
        "cannot cover that gap".toList) :=
  ⟨rfl, rfl, rfl⟩

end ProjectionPasses
