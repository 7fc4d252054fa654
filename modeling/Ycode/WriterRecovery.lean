import Ycode.RolloutWriter

/-!
# What the rollout writer has written

Under every pattern of failures the records of the file are the session metadata and a beginning of the items
added so far, and the pending items are the rest. A line that was cut by a failure is closed when the file is opened
again, and does not parse.
-/
namespace WriterRecovery

open RustStr (Str)
open RolloutWriter LineFile

/-- The ordinal of the record with the given index. -/
def ordinalAt : RolloutOrdinalState → Nat → Option Nat
  | .paginated (some base), index => some (base + index)
  | _, _ => none

theorem advance_iterate_legacy : RolloutOrdinalState.advance^[n] .legacy = .legacy := by
  induction n with
  | zero => rfl
  | succ n ih => rw [Function.iterate_succ_apply', ih, RolloutOrdinalState.advance]

theorem advance_iterate_overflow : RolloutOrdinalState.advance^[n] (.paginated none) = .paginated none := by
  induction n with
  | zero => rfl
  | succ n ih => rw [Function.iterate_succ_apply', ih, RolloutOrdinalState.advance]

/-- The counter follows the number of records until it overflows. -/
theorem advance_iterate_paginated :
    RolloutOrdinalState.advance^[n] (.paginated (some base)) = .paginated (some (base + n)) ∨
      RolloutOrdinalState.advance^[n] (.paginated (some base)) = .paginated none := by
  induction n with
  | zero => exact .inl rfl
  | succ n ih =>
    rw [Function.iterate_succ_apply']
    rcases ih with ih | ih
    · rw [ih, RolloutOrdinalState.advance, RolloutOrdinalState.checkedSucc]
      split
      · exact .inl rfl
      · exact .inr rfl
    · rw [ih]
      exact .inr rfl

theorem current_eq_ordinalAt (h : (RolloutOrdinalState.advance^[n] start).current = .ok ordinal) :
    ordinal = ordinalAt start n := by
  cases start with
  | legacy =>
    rw [advance_iterate_legacy, RolloutOrdinalState.current] at h
    cases h
    rfl
  | paginated next =>
    cases next with
    | none =>
      rw [advance_iterate_overflow, RolloutOrdinalState.current] at h
      cases h
    | some base =>
      rcases advance_iterate_paginated with hn | hn
      · rw [hn, RolloutOrdinalState.current] at h
        cases h
        rfl
      · rw [hn, RolloutOrdinalState.current] at h
        cases h

section Inv

variable {β τ μ γ ι : Type} [DecidableEq β] (json : Json β τ ι) (metaItem : μ → Option γ → ι)
  (system : Nat → Call τ γ) (start : RolloutOrdinalState) (sessionMeta : μ)

/-- The records of a file that parse. -/
def logged (file : List β) : List (RolloutLine τ ι) := records json.newline json.parse file

/-- The records are numbered from the start. -/
def Numbered (lines : List (RolloutLine τ ι)) : Prop :=
  lines.map RolloutLine.ordinal = (List.range lines.length).map (ordinalAt start)

/-- The records are the session metadata followed by the given items, as they are persisted. -/
def Holds (lines : List (RolloutLine τ ι)) (items : List ι) : Prop :=
  ∃ gitInfo, lines.map RolloutLine.item = (metaItem sessionMeta gitInfo :: items).map json.persisted

/-- Nothing yet, or the session metadata and a beginning of the items, numbered from the start. -/
def Log (items : List ι) (file : List β) : Prop :=
  Numbered start (logged json file) ∧
    (logged json file = [] ∨ ∃ written, written <+: items ∧ Holds json metaItem sessionMeta (logged json file) written)

/-- The state of the writer when `items` have been added and `pending` is still to be written. -/
structure Inv (items pending : List ι) (state : RolloutWriterState β μ ι) : Prop where
  rejected : json.parse (tail json.newline state.file) = none
  numbered : Numbered start (logged json state.file)
  next : state.ordinalState = RolloutOrdinalState.advance^[(logged json state.file).length] start
  progress : (state.sessionMeta = some sessionMeta ∧ logged json state.file = [] ∧ pending = items) ∨
    (state.sessionMeta = none ∧ ∃ written, items = written ++ pending ∧
      Holds json metaItem sessionMeta (logged json state.file) written)
  past : ∀ content ∈ state.past, Log json metaItem start sessionMeta items content

variable {json metaItem start sessionMeta} {items pending : List ι} {state : RolloutWriterState β μ ι}

theorem numbered_concat {ls : List (RolloutLine τ ι)} (h : Numbered start ls)
    (hl : line.ordinal = ordinalAt start ls.length) : Numbered start (ls ++ [line]) := by
  unfold Numbered at h ⊢
  simp [h, hl, List.range_succ]

section

variable (h : Inv json metaItem start sessionMeta items pending state)
include h

theorem Inv.log : Log json metaItem start sessionMeta items state.file := by
  refine ⟨h.numbered, ?_⟩
  rcases h.progress with ⟨_, hn, _⟩ | ⟨_, written, hi, hh⟩
  · exact .inl hn
  · exact .inr ⟨written, hi ▸ List.prefix_append _ _, hh⟩

omit h in
theorem Log.mono (h : Log json metaItem start sessionMeta items file) :
    Log json metaItem start sessionMeta (items ++ more) file := by
  refine ⟨h.1, h.2.imp id ?_⟩
  rintro ⟨written, hp, hh⟩
  exact ⟨written, hp.trans (List.prefix_append _ _), hh⟩

/-- Bytes that keep the records keep the invariant. -/
theorem Inv.append (hl : logged json (state.file ++ bytes) = logged json state.file)
    (hr : json.parse (tail json.newline (state.file ++ bytes)) = none) :
    Inv json metaItem start sessionMeta items pending (state.append bytes) where
  rejected := hr
  numbered := by
    rw [RolloutWriterState.append, hl]
    exact h.numbered
  next := by
    rw [RolloutWriterState.append, hl]
    exact h.next
  progress := by
    rw [RolloutWriterState.append, hl]
    exact h.progress
  past := by
    intro txt hc
    rcases List.mem_append.mp hc with hc | hc
    · exact h.past txt hc
    · rw [List.mem_singleton.mp hc, Log, hl]
      exact h.log

theorem Inv.called : Inv json metaItem start sessionMeta items pending state.called :=
  ⟨h.rejected, h.numbered, h.next, h.progress, h.past⟩

/-- The handle may be opened or dropped. -/
theorem Inv.handle (writer deferred : Bool) : Inv json metaItem start sessionMeta items pending
      { state with writer := writer, deferredLogFileInfo := deferred } :=
  ⟨h.rejected, h.numbered, h.next, h.progress, h.past⟩

end

/-- The file ends with a newline, or is empty, as an open handle needs it. -/
def Closed (json : Json β τ ι) (state : RolloutWriterState β μ ι) : Prop :=
  state.writer = true → tail json.newline state.file = []

section

variable (h : Inv json metaItem start sessionMeta items pending state)
include h

/-- The repair closes the last line and keeps the records. -/
theorem Inv.repaired :
    Inv json metaItem start sessionMeta items pending (state.ensureRolloutIsNewlineTerminated json) ∧
      tail json.newline (state.ensureRolloutIsNewlineTerminated json).file = [] := by
  unfold RolloutWriterState.ensureRolloutIsNewlineTerminated
  cases hl : state.file.getLast? with
  | none =>
    refine ⟨h, ?_⟩
    simp [List.getLast?_eq_none_iff.mp hl]
  | some byte =>
    by_cases hb : byte = json.newline
    · subst hb
      obtain ⟨pre, hf⟩ := List.getLast?_eq_some_iff.mp hl
      simp only [if_true]
      exact ⟨h, by rw [hf]; exact (split_append_newline json.newline pre).2⟩
    · simp only [hb, if_false]
      have ht := (split_append_newline json.newline state.file).2
      refine ⟨h.append (records_append_newline json.parse_nil state.file) ?_, ht⟩
      rw [ht]
      exact json.parse_nil

/-- A failed write of a line. -/
theorem Inv.cut (hclosed : tail json.newline state.file = [])
    (hb : bytes <+: json.encode line) (hne : bytes ≠ json.encode line) :
    Inv json metaItem start sessionMeta items pending (state.append bytes) := by
  have hr := json.parse_cut line hb hne
  have ho : json.newline ∉ bytes := fun hm => json.encode_one_line line (hb.subset hm)
  obtain ⟨hc, ht⟩ := records_append_rejected hclosed ho json.parse_nil hr
  exact h.append hc (by rw [ht]; exact hr)

omit h in
theorem logged_append_line (hclosed : tail json.newline file = []) (line : RolloutLine τ ι) :
    logged json (file ++ (json.encode line ++ [json.newline])) =
        logged json file ++ [{ line with item := json.persisted line.item }] ∧
      tail json.newline (file ++ (json.encode line ++ [json.newline])) = [] :=
  records_append_line hclosed (json.encode_one_line line) json.parse_nil (json.parse_encode line)

/-- A written line: it gets the current ordinal, and is the metadata or the first item that waits. -/
theorem Inv.line (hclosed : tail json.newline state.file = []) {line : RolloutLine τ ι}
    (ho : state.ordinalState.current = .ok line.ordinal) {rest written : List ι} {rem : Option μ}
    (hr : rem = none) (hi : items = written ++ rest)
    (hh : Holds json metaItem sessionMeta
      (logged json state.file ++ [{ line with item := json.persisted line.item }]) written) :
    Inv json metaItem start sessionMeta items rest
      { state.append (json.encode line ++ [json.newline]) with
        ordinalState := state.ordinalState.advance, sessionMeta := rem } := by
  obtain ⟨hl, ht⟩ := logged_append_line hclosed line
  have hn : Numbered start (logged json (state.file ++ (json.encode line ++ [json.newline]))) := by
    rw [hl]
    exact numbered_concat h.numbered (current_eq_ordinalAt (h.next ▸ ho))
  rw [← hl] at hh
  refine ⟨?_, hn, ?_, .inr ⟨hr, written, hi, hh⟩, ?_⟩
  · simp only [RolloutWriterState.append, ht]
    exact json.parse_nil
  · simp only [RolloutWriterState.append, hl, List.length_append, List.length_singleton]
    rw [Function.iterate_succ_apply', ← h.next]
  · intro txt hc
    rcases List.mem_append.mp hc with hc | hc
    · exact h.past txt hc
    · rw [List.mem_singleton.mp hc]
      exact ⟨hn, .inr ⟨written, hi ▸ List.prefix_append _ _, hh⟩⟩

end

omit [DecidableEq β] in
theorem encode_ne_nil (json : Json β τ ι) (line : RolloutLine τ ι) : json.encode line ≠ [] := by
  intro hn
  have hp := json.parse_encode line
  rw [hn, json.parse_nil] at hp
  cases hp

omit [DecidableEq β] in
/-- A line is written whole, or cut by a failure; nothing else of the writer changes. -/
theorem writeRolloutItem_cases (json : Json β τ ι) (system : Nat → Call τ γ) (state : RolloutWriterState β μ ι)
    (item : ι) (ord : Option Nat) :
    (∃ line : RolloutLine τ ι, line.ordinal = ord ∧ line.item = item ∧
      state.writeRolloutItem json system item ord =
        (.ok (), state.called.append (json.encode line ++ [json.newline]))) ∨
    (∃ (line : RolloutLine τ ι) (bs : List β) (err : Str), bs <+: json.encode line ∧
      bs ≠ json.encode line ∧
      state.writeRolloutItem json system item ord = (.error err, state.called.append bs)) := by
  cases hw : (system state.calls).onWrite with
  | written =>
    refine .inl ⟨⟨(system state.calls).timestamp, ord, item⟩, rfl, rfl, ?_⟩
    simp only [RolloutWriterState.writeRolloutItem, hw]
  | failed kept err =>
    obtain ⟨line, hline⟩ : ∃ line, line = RolloutLine.mk (system state.calls).timestamp ord item := ⟨_, rfl⟩
    refine .inr ⟨line, (json.encode line).take (min kept ((json.encode line).length - 1)), err,
      List.take_prefix _ _, ?_, ?_⟩
    · intro he
      have hp := List.length_pos_iff.mpr (encode_ne_nil json line)
      have hl := congrArg List.length he
      rw [List.length_take] at hl
      omega
    · simp only [RolloutWriterState.writeRolloutItem, hw, hline]

/-- What a successful call of one of the writer's functions leaves: the invariant, an open handle and a closed
file. -/
structure Ready (json : Json β τ ι) (metaItem : μ → Option γ → ι) (start : RolloutOrdinalState) (sessionMeta : μ)
    (items : List ι) (state : RolloutWriterState β μ ι) : Prop where
  inv : Inv json metaItem start sessionMeta items state.pendingItems state
  opened : state.writer = true
  closed : tail json.newline state.file = []

theorem ensureWriterOpen_spec (h : Inv json metaItem start sessionMeta items state.pendingItems state)
    (hclosed : Closed json state) (he : state.ensureWriterOpen json system = (result, next)) :
    Inv json metaItem start sessionMeta items next.pendingItems next ∧
      (result = .ok () → Ready json metaItem start sessionMeta items next) := by
  unfold RolloutWriterState.ensureWriterOpen at he
  by_cases hw : state.writer = true
  · rw [if_pos hw] at he
    cases he
    exact ⟨h, fun _ => ⟨h, hw, hclosed hw⟩⟩
  · rw [if_neg hw, RolloutWriterState.openLogFile] at he
    obtain ⟨hi, ht⟩ := h.called.repaired
    have hk : Inv json metaItem start sessionMeta items
        (state.called.ensureRolloutIsNewlineTerminated json).pendingItems
        (state.called.ensureRolloutIsNewlineTerminated json) := by
      rw [RolloutWriterState.ensureRolloutIsNewlineTerminated_pendingItems]
      exact hi
    cases ho : (system state.calls).onOpen with
    | opened =>
      simp only [ho] at he
      cases he
      exact ⟨hk.handle true false, fun _ => ⟨hk.handle true false, rfl, ht⟩⟩
    | failed err =>
      simp only [ho] at he
      cases he
      exact ⟨h.called, nofun⟩
    | failedAfterRepair err =>
      simp only [ho] at he
      cases he
      exact ⟨hk, nofun⟩

theorem writeSessionMetaIfNeeded_spec (h : Ready json metaItem start sessionMeta items state)
    {res : Except Str Unit}
    (he : state.writeSessionMetaIfNeeded json metaItem system = (res, next)) :
    Inv json metaItem start sessionMeta items next.pendingItems next ∧
      (res = .ok () → Ready json metaItem start sessionMeta items next ∧ next.sessionMeta = none) := by
  unfold RolloutWriterState.writeSessionMetaIfNeeded at he
  rcases h.inv.progress with ⟨hm, hnil, hp⟩ | ⟨hm, hr⟩
  · rw [hm] at he
    simp only [RolloutWriterState.writeSessionMeta, h.opened, if_true] at he
    cases ho : state.ordinalState.current with
    | error error =>
      simp only [ho] at he
      cases he
      exact ⟨h.inv, nofun⟩
    | ok ord =>
      simp only [ho] at he
      rcases writeRolloutItem_cases json system state (metaItem sessionMeta (system state.calls).gitInfo) ord
        with ⟨line, hl, hi, hw⟩ | ⟨line, bytes, error, hb, hne, hw⟩
      · simp only [hw] at he
        cases he
        have hh : Holds json metaItem sessionMeta
            (logged json state.file ++ [{ line with item := json.persisted line.item }]) [] :=
          ⟨(system state.calls).gitInfo, by rw [hnil, List.nil_append, List.map_singleton, hi]; rfl⟩
        have hn := h.inv.called.line h.closed (hl ▸ ho) rfl (by simpa using hp.symm) hh
        exact ⟨hn, fun _ => ⟨⟨hn, h.opened, (logged_append_line h.closed line).2⟩, rfl⟩⟩
      · simp only [hw] at he
        cases he
        exact ⟨h.inv.called.cut h.closed hb hne, nofun⟩
  · rw [hm] at he
    cases he
    exact ⟨h.inv, fun _ => ⟨h, hm⟩⟩

/-- The loop over the waiting items: what it has counted is in the file. -/
theorem writeItems_spec (h : Inv json metaItem start sessionMeta items pending state)
    (ho : state.writer = true) (hclosed : tail json.newline state.file = [])
    (hm : state.sessionMeta = none) (he : state.writeItems json system pending = (count, result, next)) :
    Inv json metaItem start sessionMeta items (pending.drop count) next ∧
      next.pendingItems = state.pendingItems ∧ next.sessionMeta = none ∧
      (result = .ok () → count = pending.length ∧ next.writer = true ∧ tail json.newline next.file = []) := by
  induction pending generalizing state count with
  | nil =>
    cases he
    exact ⟨h, rfl, hm, fun _ => ⟨rfl, ho, hclosed⟩⟩
  | cons item rest ih =>
    rw [RolloutWriterState.writeItems] at he
    cases hordinal : state.ordinalState.current with
    | error error =>
      simp only [hordinal] at he
      cases he
      exact ⟨h, rfl, hm, nofun⟩
    | ok ord =>
      simp only [hordinal] at he
      rcases writeRolloutItem_cases json system state item ord
        with ⟨line, hl, hi, hw⟩ | ⟨line, bytes, error, hb, hne, hw⟩
      · simp only [hw] at he
        rcases h.progress with ⟨hsome, _⟩ | ⟨_, written, hitems, gitInfo, hh⟩
        · rw [hm] at hsome
          cases hsome
        · have hg : Holds json metaItem sessionMeta
              (logged json state.file ++ [{ line with item := json.persisted line.item }]) (written ++ [item]) :=
            ⟨gitInfo, by rw [List.map_append, hh, List.map_singleton, hi, ← List.cons_append, List.map_append]; rfl⟩
          have hs : items = (written ++ [item]) ++ rest := by simp [hitems]
          have hn := h.called.line hclosed (hl ▸ hordinal) hm hs hg
          generalize hrest : RolloutWriterState.writeItems json system _ rest = outcome at he
          obtain ⟨count', res', next'⟩ := outcome
          cases he
          obtain ⟨hinv, hsame, hnone, hok⟩ := ih hn ho (logged_append_line hclosed line).2 hm hrest
          refine ⟨hinv, hsame, hnone, fun hr => ?_⟩
          obtain ⟨hc, hf⟩ := hok hr
          exact ⟨by rw [hc, List.length_cons], hf⟩
      · simp only [hw] at he
        cases he
        exact ⟨h.called.cut hclosed hb hne, rfl, hm, nofun⟩

theorem writePendingItemsOnce_spec (h : Ready json metaItem start sessionMeta items state)
    (hm : state.sessionMeta = none) (he : state.writePendingItemsOnce json system = (result, next)) :
    Inv json metaItem start sessionMeta items next.pendingItems next ∧
      (result = .ok () → Ready json metaItem start sessionMeta items next ∧ next.sessionMeta = none ∧
        next.pendingItems = []) := by
  rw [RolloutWriterState.writePendingItemsOnce, if_pos h.opened] at he
  generalize hl : state.writeItems json system state.pendingItems = outcome at he
  obtain ⟨count, res', next'⟩ := outcome
  cases he
  obtain ⟨hi, hs, hn, hok⟩ := writeItems_spec system h.inv h.opened h.closed hm hl
  have hd : Inv json metaItem start sessionMeta items (next'.pendingItems.drop count)
      { next' with pendingItems := next'.pendingItems.drop count } := by
    rw [hs]
    exact ⟨hi.rejected, hi.numbered, hi.next, hi.progress, hi.past⟩
  refine ⟨hd, fun hr => ?_⟩
  obtain ⟨hc, ho, hclosed⟩ := hok hr
  exact ⟨⟨hd, ho, hclosed⟩, hn, by simp [hs, hc]⟩

/-- Everything added is in the file. -/
structure Done (json : Json β τ ι) (metaItem : μ → Option γ → ι) (start : RolloutOrdinalState) (sessionMeta : μ)
    (items : List ι) (state : RolloutWriterState β μ ι) : Prop extends
    Ready json metaItem start sessionMeta items state where
  written : state.sessionMeta = none
  drained : state.pendingItems = []

section

variable (h : Inv json metaItem start sessionMeta items state.pendingItems state) (hclosed : Closed json state)
include h hclosed

theorem writePendingOnce_spec (he : state.writePendingOnce json metaItem system = (result, next)) :
    Inv json metaItem start sessionMeta items next.pendingItems next ∧
      (result = .ok () → Done json metaItem start sessionMeta items next) := by
  unfold RolloutWriterState.writePendingOnce at he
  generalize ho : state.ensureWriterOpen json system = opened at he
  obtain ⟨opened, st₁⟩ := opened
  obtain ⟨hinv₁, hok₁⟩ := ensureWriterOpen_spec system h hclosed ho
  cases opened with
  | error error =>
    cases he
    exact ⟨hinv₁, nofun⟩
  | ok _ =>
    simp only at he
    generalize hm : st₁.writeSessionMetaIfNeeded json metaItem system = written at he
    obtain ⟨written, st₂⟩ := written
    obtain ⟨hinv₂, hok₂⟩ := writeSessionMetaIfNeeded_spec system (hok₁ rfl) hm
    cases written with
    | error error =>
      cases he
      exact ⟨hinv₂, nofun⟩
    | ok _ =>
      simp only at he
      generalize hitems : st₂.writePendingItemsOnce json system = drained at he
      obtain ⟨drained, st₃⟩ := drained
      obtain ⟨hy, hnone₂⟩ := hok₂ rfl
      obtain ⟨hi, hok₃⟩ := writePendingItemsOnce_spec system hy hnone₂ hitems
      cases drained with
      | error error =>
        cases he
        exact ⟨hi, nofun⟩
      | ok _ =>
        obtain ⟨hr, hn, hd⟩ := hok₃ rfl
        simp only [RolloutWriterState.flushWriter, hr.opened, if_true] at he
        cases he
        exact ⟨hi.called, fun _ => ⟨⟨hi.called, hr.opened, hr.closed⟩, hn, hd⟩⟩

theorem writePendingWithRecovery_spec (he : state.writePendingWithRecovery json metaItem system = (result, next)) :
    Inv json metaItem start sessionMeta items next.pendingItems next ∧ Closed json next ∧
      (result = .ok () → Done json metaItem start sessionMeta items next) := by
  unfold RolloutWriterState.writePendingWithRecovery at he
  generalize hf : state.writePendingOnce json metaItem system = first at he
  obtain ⟨first, st₁⟩ := first
  obtain ⟨hi, ho⟩ := writePendingOnce_spec system h hclosed hf
  cases first with
  | ok _ =>
    cases he
    exact ⟨hi, fun _ => (ho rfl).closed, ho⟩
  | error error =>
    simp only at he
    generalize hs : st₁.enterRecoveryMode.writePendingOnce json metaItem system = second at he
    obtain ⟨second, st₂⟩ := second
    -- without a handle the file need not end with a newline
    have hd : Closed json st₁.enterRecoveryMode := nofun
    obtain ⟨hinv₂, hok₂⟩ := writePendingOnce_spec system (hi.handle false _) hd hs
    cases second with
    | ok _ =>
      cases he
      exact ⟨hinv₂, fun _ => (hok₂ rfl).closed, hok₂⟩
    | error error =>
      cases he
      exact ⟨hinv₂.handle false _, nofun, nofun⟩

theorem flush_spec (he : state.flush json metaItem system = (result, next)) :
    Inv json metaItem start sessionMeta items next.pendingItems next ∧ Closed json next ∧
      (result = .ok () → next.isDeferred = false → Done json metaItem start sessionMeta items next) := by
  unfold RolloutWriterState.flush at he
  split at he
  · rename_i hs
    cases he
    refine ⟨h, hclosed, fun _ hd => ?_⟩
    rw [hd] at hs
    cases hs
  · obtain ⟨hi, hn, hok⟩ := writePendingWithRecovery_spec system h hclosed he
    exact ⟨hi, hn, fun hr _ => hok hr⟩

theorem flushIfMaterialized_spec :
    Inv json metaItem start sessionMeta items (state.flushIfMaterialized json metaItem system).pendingItems
      (state.flushIfMaterialized json metaItem system) ∧
      Closed json (state.flushIfMaterialized json metaItem system) := by
  unfold RolloutWriterState.flushIfMaterialized
  split
  · exact ⟨h, hclosed⟩
  · generalize hf : state.flush json metaItem system = flushed
    obtain ⟨res, next⟩ := flushed
    obtain ⟨hi, hn, _⟩ := flush_spec system h hclosed hf
    cases res with
    | error error => exact ⟨hi.handle false _, nofun⟩
    | ok _ => exact ⟨hi, hn⟩

omit h hclosed in
theorem Inv.addItems (h : Inv json metaItem start sessionMeta items state.pendingItems state) (more : List ι) :
    Inv json metaItem start sessionMeta (items ++ more) (state.addItems more).pendingItems (state.addItems more) where
  rejected := h.rejected
  numbered := h.numbered
  next := h.next
  progress := by
    rcases h.progress with ⟨hm, hn, hp⟩ | ⟨hm, written, hi, hh⟩
    · exact .inl ⟨hm, hn, by rw [RolloutWriterState.addItems, hp]⟩
    · exact .inr ⟨hm, written, by simp [RolloutWriterState.addItems, hi], hh⟩
  past := fun txt hc => (h.past txt hc).mono

/-- One command. -/
theorem process_spec {ack : Option (Except Str Unit)}
    {next : RolloutWriterState β μ ι} (he : process json metaItem system state command = (ack, next)) :
    Inv json metaItem start sessionMeta (items ++ command.items) next.pendingItems next ∧ Closed json next ∧
      (ack = some (.ok ()) → next.isDeferred = false →
        Done json metaItem start sessionMeta (items ++ command.items) next) := by
  cases command with
  | addItems more =>
    cases he
    obtain ⟨hi, hn⟩ := flushIfMaterialized_spec system (h.addItems more) hclosed
    exact ⟨hi, hn, nofun⟩
  | persist =>
    cases he
    obtain ⟨hi, hn, hok⟩ := writePendingWithRecovery_spec system h hclosed rfl
    simp only [RolloutCmd.items, List.append_nil, Option.some.injEq]
    exact ⟨hi, hn, fun ha _ => hok ha⟩
  | _ =>
    cases he
    simp only [RolloutCmd.items, List.append_nil, Option.some.injEq]
    exact flush_spec system h hclosed rfl

/-- The whole loop: every command it takes finds the writer in a good state and leaves it so. -/
theorem rolloutWriter_spec (he : rolloutWriter json metaItem system state commands = pre ++ entry :: after) :
    Inv json metaItem start sessionMeta (items ++ (pre ++ [entry]).flatMap (·.command.items))
      entry.state.pendingItems entry.state ∧
      (entry.ack = some (.ok ()) → entry.state.isDeferred = false →
        Done json metaItem start sessionMeta (items ++ (pre ++ [entry]).flatMap (·.command.items)) entry.state) := by
  induction commands generalizing state items pre with
  | nil => cases pre <;> cases he
  | cons command commands ih =>
    rw [rolloutWriter] at he
    generalize hp : process json metaItem system state command = processed at he
    obtain ⟨hi, hn, hok⟩ := process_spec system h hclosed hp
    cases pre with
    | nil =>
      obtain ⟨rfl, _⟩ := List.cons.inj he
      simpa using ⟨hi, hok⟩
    | cons head pre =>
      obtain ⟨rfl, hr⟩ := List.cons.inj he
      split at hr
      · cases pre <;> cases hr
      · have hl := ih hi hn hr
        simpa using hl

end

theorem inv_newRollout :
    Inv json metaItem (.forNewRollout hi hs) sessionMeta [] []
      (newRollout hi hs sessionMeta) := by
  have hn : logged json [] = [] := by simp [logged, records, json.parse_nil]
  refine ⟨json.parse_nil, ?_, ?_, .inl ⟨rfl, hn, rfl⟩, by simp [newRollout]⟩
  · simp [newRollout, Numbered, hn]
  · simp [newRollout, hn]

/-- After every command that the loop of a new rollout takes, and in every content the file has had, the records are
the session metadata and a beginning of the added items, numbered from the base; the pending items are the rest; and a
barrier that succeeds, unless the file is still deferred, leaves all of them in the file. -/
theorem writer_keeps_added_items {θ : Type} (json : Json β τ ι) (metaItem : μ → Option γ → ι)
    (system : Nat → Call τ γ) (historyMode : ThreadHistoryMode) (historyBase : Option (HistoryPosition θ))
    (sessionMeta : μ) (commands : List (RolloutCmd ι)) (before after : List (Processed β μ ι))
    (entry : Processed β μ ι)
    (h : rolloutWriter json metaItem system (newRollout historyMode historyBase sessionMeta) commands =
      before ++ entry :: after) :
    let start := RolloutOrdinalState.forNewRollout historyMode historyBase
    let items := (before ++ [entry]).flatMap (·.command.items)
    let file := entry.state.file
    (∀ content ∈ file :: entry.state.past, Log json metaItem start sessionMeta items content) ∧
      (∃ written, items = written ++ entry.state.pendingItems ∧
        (logged json file = [] ∧ written = [] ∨ Holds json metaItem sessionMeta (logged json file) written)) ∧
      (entry.ack = some (.ok ()) → entry.state.isDeferred = false →
        Holds json metaItem sessionMeta (logged json file) items) := by
  intro start items file
  have hd : Closed json (newRollout historyMode historyBase sessionMeta : RolloutWriterState β μ ι) := by
    simp [Closed, newRollout]
  obtain ⟨hi, hok⟩ := rolloutWriter_spec system inv_newRollout hd h
  rw [List.nil_append] at hi hok
  refine ⟨?_, ?_, fun ha hd => ?_⟩
  · intro content hc
    rcases List.mem_cons.mp hc with rfl | hc
    · exact hi.log
    · exact hi.past content hc
  · rcases hi.progress with ⟨_, hn, hp⟩ | ⟨_, written, hitems, hh⟩
    · exact ⟨[], by rw [List.nil_append, hp], .inl ⟨hn, rfl⟩⟩
    · exact ⟨written, hitems, .inr hh⟩
  · have hdone := hok ha hd
    rcases hdone.inv.progress with ⟨hs, _⟩ | ⟨_, written, hitems, hh⟩
    · rw [hdone.written] at hs
      cases hs
    · rw [hdone.drained, List.append_nil] at hitems
      rwa [← hitems] at hh

end Inv

/-- Records of two numbers, closed by a zero. The hundreds of an item are not written. -/
def pairJson : Json Nat Unit Nat where
  newline := 0
  encode line := [(line.ordinal.map (· + 1)).getD 0 + 1, line.item % 100 + 1]
  parse
    | [ordinal, item] =>
      if ordinal = 0 ∨ item = 0 then none
      else some ⟨(), if ordinal = 1 then none else some (ordinal - 2), item - 1⟩
    | _ => none
  persisted item := item % 100
  encode_one_line line := by simp
  parse_nil := rfl
  parse_encode line := by
    obtain ⟨_, ordinal, item⟩ := line
    cases ordinal <;> rfl
  parse_cut line := by
    intro bytes hpre hne
    match bytes, hpre, hne with
    | [], _, _ => rfl
    | [_], _, _ => rfl
    | first :: second :: rest, hpre, hne => exact absurd (hpre.eq_of_length_le (by simp)) hne

/-- The third write is cut after one byte. -/
def cutThirdWrite (call : Nat) : Call Unit Unit where
  onOpen := .opened
  onWrite := if call = 3 then .failed 1 "disk full".toList else .written
  onFlush := .ok ()
  timestamp := ()
  gitInfo := none

/-- Two items are added and persisted; the write of the second one is cut and tried again. -/
theorem cut_write_is_retried :
    ∃ entry : Processed Nat Nat Nat,
      rolloutWriter pairJson (fun sessionMeta _ => sessionMeta) cutThirdWrite
        (newRollout .paginated (some ⟨(), 4, 0⟩) 7) [.addItems [8, 109], .persist] =
        [⟨.addItems [8, 109], none, (newRollout .paginated (some ⟨(), 4, 0⟩) 7).addItems [8, 109]⟩, entry] ∧
      entry.state.file = [6, 8, 0, 7, 9, 0, 8, 0, 8, 10, 0] ∧ entry.state.pendingItems = [] ∧
      Holds pairJson (fun sessionMeta (_ : Option Unit) => sessionMeta) 7 (logged pairJson entry.state.file) [8, 109] :=
  ⟨_, rfl, rfl, rfl, (writer_keeps_added_items pairJson (fun sessionMeta _ => sessionMeta) cutThirdWrite .paginated
    (some ⟨(), 4, 0⟩) 7 [.addItems [8, 109], .persist] [_] [] _ rfl).2.2 rfl rfl⟩

end WriterRecovery
