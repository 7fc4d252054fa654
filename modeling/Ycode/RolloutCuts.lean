import Ycode.LineageChain
import Ycode.PaginatedFork

/-!
# Cuts of a rollout

The ordinals of a rollout increase, so a byte offset and an ordinal can cut it at the same place. Such a cut stays one
when the rollout grows, and the records of a segment are those with an ordinal in its range.
-/
namespace RolloutCuts

open RolloutWriter (HistoryPosition)
open ThreadLineage PaginatedFork LineFile LineageChain List

variable {β ν τ ι κ υ θ : Type} (formats : HistoryFormats β ν τ ι κ υ)

section Records

variable {formats}

theorem recordOf_offsets {line : List β} (h : recordOf formats start line = some record) :
    record.startOffset = start ∧ record.endOffset = start + (line.length + 1) := by
  unfold recordOf at h
  simp only at h
  split at h
  · cases h
  · obtain ⟨v, _, h⟩ := Option.bind_eq_some_iff.mp h
    obtain ⟨line, _, rfl⟩ := Option.map_eq_some_iff.mp h
    simp

theorem recordsFrom_append (first second : List (List β)) :
    recordsFrom formats start (first ++ second) =
      recordsFrom formats start first ++ recordsFrom formats (start + (join formats.newline first).length) second := by
  induction first generalizing start with
  | nil => simp [recordsFrom]
  | cons line first ih =>
    rw [cons_append, recordsFrom, recordsFrom, ih, append_assoc, join_cons, length_append,
      length_cons, show start + (line.length + 1) + (join formats.newline first).length =
        start + (line.length + ((join formats.newline first).length + 1)) by omega]

theorem bounds_of_mem_recordsFrom {ls : List (List β)} (h : record ∈ recordsFrom formats start ls) :
    start ≤ record.startOffset ∧ record.startOffset < record.endOffset ∧
      record.endOffset ≤ start + (join formats.newline ls).length := by
  induction ls generalizing start with
  | nil => cases h
  | cons line ls ih =>
    rw [join_cons, length_append, length_cons]
    rw [recordsFrom, mem_append, Option.mem_toList] at h
    rcases h with h | h
    · have := recordOf_offsets h
      omega
    · have := ih h
      omega

theorem pairwise_recordsFrom (ls : List (List β)) :
    (recordsFrom formats start ls).Pairwise fun earlier later => earlier.endOffset ≤ later.startOffset := by
  induction ls generalizing start with
  | nil => exact .nil
  | cons line ls ih =>
    rw [recordsFrom, pairwise_append]
    refine ⟨by cases recordOf formats start line <;> simp, ih, fun earlier he later hl => ?_⟩
    rw [(recordOf_offsets (Option.mem_toList.mp he)).2]
    exact (bounds_of_mem_recordsFrom hl).1

/-- The line of a record. -/
theorem exists_line_of_mem_recordsFrom {ls : List (List β)} (h : record ∈ recordsFrom formats start ls) :
    ∃ pre line post, ls = pre ++ line :: post ∧
      recordOf formats (start + (join formats.newline pre).length) line = some record := by
  induction ls generalizing start with
  | nil => cases h
  | cons line ls ih =>
    rw [recordsFrom, mem_append, Option.mem_toList] at h
    rcases h with h | h
    · exact ⟨[], line, ls, rfl, by simpa using h⟩
    · obtain ⟨pre, found, post, rfl, hf⟩ := ih h
      refine ⟨line :: pre, found, post, rfl, ?_⟩
      rwa [join_cons, length_append, length_cons, show start + (line.length +
        ((join formats.newline pre).length + 1)) =
          start + (line.length + 1) + (join formats.newline pre).length by omega]

end Records

section Files

variable [DecidableEq β]

theorem recordsOf_of_lines (h : lines formats.newline file = settled ++ rest) :
    recordsOf formats file = recordsFrom formats 0 settled ++
      recordsFrom formats (join formats.newline settled).length rest := by
  rw [recordsOf, h, recordsFrom_append, Nat.zero_add]

/-- A last line without its newline comes after the others. -/
theorem exists_scannedRecords : ∃ trailing, scannedRecords formats file =
    recordsOf formats file ++ recordsFrom formats (join formats.newline (lines formats.newline file)).length trailing := by
  rw [scannedRecords, recordsFrom_append, Nat.zero_add]
  exact ⟨_, rfl⟩

theorem mem_scannedRecords (h : record ∈ recordsOf formats file) : record ∈ scannedRecords formats file := by
  obtain ⟨trailing, he⟩ := exists_scannedRecords formats
  rw [he]
  exact mem_append_left _ h

theorem length_join_le
    (h : lines formats.newline file = settled ++ rest) : (join formats.newline settled).length ≤ file.length := by
  have hf := congrArg List.length (join_lines_append_tail formats.newline file)
  rw [h, join_append, length_append, length_append] at hf
  omega

/-- Up to the end of a line, the scanner sees the records that end there. -/
theorem scannedRecords_take (h : lines formats.newline file = settled ++ rest) :
    scannedRecords formats (file.take (join formats.newline settled).length) =
      (scannedRecords formats file).filter (·.endOffset ≤ (join formats.newline settled).length) := by
  have hf := join_lines_append_tail formats.newline file
  rw [h, join_append, append_assoc] at hf
  have htake : file.take (join formats.newline settled).length = join formats.newline settled := by
    rw [← hf, take_left]
  have hc : ∀ line ∈ settled, formats.newline ∉ line := fun line hline =>
    newline_not_mem_of_mem_lines _ (h ▸ mem_append_left _ hline)
  have hl : lines formats.newline (join formats.newline settled) = settled := by
    simpa using lines_join_append formats.newline hc []
  have ht : tail formats.newline (join formats.newline settled) = [] := by
    have hj := join_lines_append_tail formats.newline (join formats.newline settled)
    rw [hl] at hj
    simpa using hj
  have hs : scannedRecords formats (join formats.newline settled) = recordsFrom formats 0 settled := by
    simp [scannedRecords, hl, ht]
  rw [htake, hs, scannedRecords, h, append_assoc, recordsFrom_append, filter_append, Nat.zero_add,
    filter_eq_self.mpr, filter_eq_nil_iff.mpr, append_nil]
  all_goals
    intro r hr
    have := bounds_of_mem_recordsFrom hr
    simp only [decide_eq_true_eq]
    omega

omit [DecidableEq β] in
theorem firstOrdinal_eq : firstOrdinal rollout = initialOrdinal rollout + 1 := by
  unfold firstOrdinal initialOrdinal
  cases rollout.sessionMeta.historyBase <;> rfl

/-- What the writer of a paginated rollout keeps: the session metadata comes first and only there, and the ordinals
increase from the one its base ends with. -/
structure Sound (rollout : Rollout β θ) : Prop where
  metadata : ∃ first rest, recordsOf formats rollout.file = first :: rest ∧
    formats.isSessionMeta first.line.item = true ∧ first.ordinal = some (initialOrdinal rollout)
  metadataOnce : ∀ record ∈ (scannedRecords formats rollout.file).tail,
    formats.isSessionMeta record.line.item = false
  numbered : ∀ record ∈ scannedRecords formats rollout.file, ∃ ordinal, record.ordinal = some ordinal
  increasing : (scannedRecords formats rollout.file).Pairwise fun earlier later =>
    ∀ first second, earlier.ordinal = some first → later.ordinal = some second → first < second

/-- The byte offset and the ordinal of the position cut the file at the same record, and the file goes that far. -/
structure Cut (file : List β) (position : HistoryPosition θ) : Prop where
  atLine : ∃ settled rest, lines formats.newline file = settled ++ rest ∧
    (join formats.newline settled).length = position.endByteOffset
  agree {record : Record τ ι} (hrecord : record ∈ scannedRecords formats file) {ordinal : Nat}
    (hordinal : record.ordinal = some ordinal) :
    record.endOffset ≤ position.endByteOffset ↔ ordinal < position.endOrdinalExclusive
  reached : ∃ record ∈ recordsOf formats file, ∃ ordinal, record.ordinal = some ordinal ∧
    position.endOrdinalExclusive ≤ ordinal + 1

variable {formats} {position : HistoryPosition θ}

theorem Cut.inBounds (h : Cut formats file position) : position.endByteOffset ≤ file.length := by
  obtain ⟨settled, rest, hl, ho⟩ := h.atLine
  rw [← ho]
  exact length_join_le formats hl

/-- A position at the end of a line is a cut when the ordinals before and after it are on its two sides. -/
theorem cut_of_sides (hl : lines formats.newline file = settled ++ rest)
    (hf : (join formats.newline settled).length = position.endByteOffset)
    (hbefore : ∀ r ∈ recordsFrom formats 0 settled, ∀ ord, r.ordinal = some ord → ord < position.endOrdinalExclusive)
    (hr : ∃ r ∈ recordsOf formats file, ∃ ord, r.ordinal = some ord ∧ position.endOrdinalExclusive ≤ ord + 1)
    (ha : ∀ r ∈ scannedRecords formats file, position.endByteOffset ≤ r.startOffset →
      ∀ ord, r.ordinal = some ord → position.endOrdinalExclusive ≤ ord) :
    Cut formats file position := by
  refine ⟨⟨settled, rest, hl, hf⟩, ?_, hr⟩
  intro r hc ord ho
  have hs := hc
  rw [scannedRecords, hl, append_assoc, recordsFrom_append, mem_append, Nat.zero_add, hf] at hs
  rcases hs with hm | hm
  · have hb := bounds_of_mem_recordsFrom hm
    have hlt := hbefore r hm ord ho
    omega
  · have hb := bounds_of_mem_recordsFrom hm
    have hle := ha r hc hb.1 ord ho
    omega

/-- Of two records one comes first, with the smaller offsets and the smaller ordinal, unless they are the same. -/
theorem Sound.order (h : Sound formats rollout) {one x : Record τ ι}
    (hone : one ∈ scannedRecords formats rollout.file) (ho : x ∈ scannedRecords formats rollout.file)
    (hf : one.ordinal = some first) (hs : x.ordinal = some second) :
    one = x ∨ (one.endOffset ≤ x.startOffset ∧ first < second) ∨
      (x.endOffset ≤ one.startOffset ∧ second < first) := by
  have hp := (show (scannedRecords formats rollout.file).Pairwise _ from pairwise_recordsFrom _).and h.increasing
  obtain ⟨pre, post, hsplit⟩ := append_of_mem hone
  rw [hsplit] at ho
  rw [hsplit, pairwise_append, pairwise_cons] at hp
  rcases mem_append.mp ho with ho | ho
  · obtain ⟨hoffset, hordinal⟩ := hp.2.2 x ho one mem_cons_self
    exact .inr (.inr ⟨hoffset, hordinal _ _ hs hf⟩)
  · rcases mem_cons.mp ho with rfl | ho
    · exact .inl rfl
    · obtain ⟨hoffset, hordinal⟩ := hp.2.1.1 x ho
      exact .inr (.inl ⟨hoffset, hordinal _ _ hf hs⟩)

theorem startOffset_lt_endOffset (h : record ∈ scannedRecords formats file) :
    record.startOffset < record.endOffset := (bounds_of_mem_recordsFrom h).2.1

/-- A rollout is cut after the last record of some of its lines. -/
theorem Sound.cut_after (h : Sound formats rollout) {t : θ} {last : Record τ ι}
    (hl : lines formats.newline rollout.file = settled ++ rest)
    (hlast : recordsFrom formats 0 settled = before ++ [last]) (ho : last.ordinal = some ordinal) :
    Cut formats rollout.file ⟨t, ordinal + 1, (join formats.newline settled).length⟩ := by
  have hc := recordsOf_of_lines formats hl
  have hm : last ∈ recordsFrom formats 0 settled := by simp [hlast]
  have hr : last ∈ recordsOf formats rollout.file := hc ▸ mem_append_left _ hm
  refine cut_of_sides hl rfl ?_ ⟨last, hr, ordinal, ho, Nat.le_refl _⟩ ?_
  · intro r hrecord number hn
    have hr' : r ∈ scannedRecords formats rollout.file :=
      mem_scannedRecords formats (hc ▸ mem_append_left _ hrecord)
    rcases h.order hr' (mem_scannedRecords formats hr) hn ho with he | ⟨_, hlt⟩ | ⟨hoffset, _⟩
    · subst he
      cases hn.symm.trans ho
      exact Nat.lt_succ_self _
    · exact Nat.lt_succ_of_lt hlt
    · -- no record follows the last one
      have hp : (recordsFrom formats 0 settled).Pairwise _ := pairwise_recordsFrom settled
      rw [hlast, pairwise_append] at hp
      rw [hlast, mem_append, mem_singleton] at hrecord
      have hw := startOffset_lt_endOffset hr'
      have hw' := startOffset_lt_endOffset (mem_scannedRecords formats hr)
      rcases hrecord with hrecord | rfl
      · have := hp.2.2 r hrecord last (mem_singleton_self _)
        omega
      · omega
  · intro r hrecord hoffset number hn
    have hend := (bounds_of_mem_recordsFrom hm).2.2
    have hw := startOffset_lt_endOffset hrecord
    have hw' := startOffset_lt_endOffset (mem_scannedRecords formats hr)
    rcases h.order (mem_scannedRecords formats hr) hrecord ho hn with rfl | ⟨_, hlt⟩ | ⟨hb, _⟩
    · simp only at hoffset
      omega
    · exact hlt
    · simp only at hoffset
      omega

/-- A rollout is cut after any of its records. -/
theorem Sound.cut_at_end (h : Sound formats rollout) (t : θ)
    (hr : record ∈ recordsOf formats rollout.file) (ho : record.ordinal = some ordinal) :
    Cut formats rollout.file ⟨t, ordinal + 1, record.endOffset⟩ := by
  obtain ⟨pre, line, after, hl, hline⟩ := exists_line_of_mem_recordsFrom hr
  rw [Nat.zero_add] at hline
  have hs : lines formats.newline rollout.file = (pre ++ [line]) ++ after := by
    rw [hl, append_assoc, singleton_append]
  have hlast : recordsFrom formats 0 (pre ++ [line]) = recordsFrom formats 0 pre ++ [record] := by
    rw [recordsFrom_append, Nat.zero_add, recordsFrom, recordsFrom, hline]
    rfl
  have he : (join formats.newline (pre ++ [line])).length = record.endOffset := by
    rw [(recordOf_offsets hline).2, join_append, length_append, join_cons, length_append, length_cons]
    simp
  rw [← he]
  exact h.cut_after hs hlast ho

/-- A rollout is cut before any of its records. -/
theorem Sound.cut_before (h : Sound formats rollout) (t : θ)
    (hr : record ∈ recordsOf formats rollout.file) (ho : record.ordinal = some ordinal) :
    Cut formats rollout.file ⟨t, ordinal, record.startOffset⟩ := by
  obtain ⟨settled, line, rest, hl, hline⟩ := exists_line_of_mem_recordsFrom hr
  rw [Nat.zero_add] at hline
  have hstart := (recordOf_offsets hline).1
  have hs := mem_scannedRecords formats hr
  refine cut_of_sides hl hstart.symm ?_ ⟨record, hr, ordinal, ho, Nat.le_succ _⟩ ?_
  · intro earlier he number hn
    have hb := bounds_of_mem_recordsFrom he
    have he' : earlier ∈ scannedRecords formats rollout.file :=
      mem_scannedRecords formats (recordsOf_of_lines formats hl ▸ mem_append_left _ he)
    have hw := startOffset_lt_endOffset hs
    rcases h.order he' hs hn ho with rfl | ⟨_, hlt⟩ | ⟨hback, _⟩
    · omega
    · exact hlt
    · omega
  · intro later hlater hf number hn
    have hw := startOffset_lt_endOffset hlater
    rcases h.order hs hlater ho hn with rfl | ⟨_, hlt⟩ | ⟨hback, _⟩
    · exact le_of_eq (Option.some.inj (ho.symm.trans hn))
    · exact Nat.le_of_lt hlt
    · simp only at hf
      omega

/-- A cut stays one when the rollout grows. -/
theorem Cut.append (hc : Cut formats file position) (h : Sound formats rollout)
    (hf : rollout.file = file ++ bytes) : Cut formats rollout.file position := by
  obtain ⟨settled, rest, hl, ht⟩ := hc.atLine
  obtain ⟨last, hlast, ord, ho, hh⟩ := hc.reached
  have hg : lines formats.newline rollout.file = lines formats.newline file ++
      lines formats.newline (tail formats.newline file ++ bytes) := hf ▸ lines_append formats.newline
  have hr := recordsOf_of_lines formats hg
  have hl' : last ∈ recordsOf formats rollout.file := hr ▸ mem_append_left _ hlast
  refine cut_of_sides (hg.trans (by rw [hl, append_assoc])) ht ?_
    ⟨last, hl', ord, ho, hh⟩ ?_
  · intro r hrecord number hn
    have hold : r ∈ recordsOf formats file := recordsOf_of_lines formats hl ▸ mem_append_left _ hrecord
    have hb := bounds_of_mem_recordsFrom hrecord
    exact (hc.agree (mem_scannedRecords formats hold) hn).mp (by omega)
  · intro r hrecord hafter number hn
    have hs := hrecord
    rw [scannedRecords, hg, append_assoc, recordsFrom_append, mem_append, Nat.zero_add] at hs
    rcases hs with hold | hnew
    · have hw := (bounds_of_mem_recordsFrom hold).2.1
      have ha := hc.agree (mem_scannedRecords formats hold) hn
      omega
    · -- a new record comes after the one the cut reaches
      have hb := bounds_of_mem_recordsFrom hnew
      have he := bounds_of_mem_recordsFrom hlast
      rcases h.order (mem_scannedRecords formats hl') hrecord ho hn with rfl | ⟨_, hlt⟩ | ⟨hback, _⟩
      all_goals omega

end Files

variable {formats}

theorem afterMetadata_cons (hf : formats.isSessionMeta first.line.item = true)
    (hrest : ∀ r ∈ rest, formats.isSessionMeta r.line.item = false) :
    afterMetadata formats (first :: rest) = rest := by
  rw [afterMetadata, reverse_cons, takeWhile_append_of_pos, takeWhile_cons_of_neg, append_nil, reverse_reverse]
  · simp [hf]
  · intro r hr
    simp [hrest r (mem_reverse.mp hr)]

variable [DecidableEq β]

/-- The records of a rollout after its session metadata. -/
def ownRecords (formats : HistoryFormats β ν τ ι κ υ) (rollout : Rollout β θ) : List (Record τ ι) :=
  afterMetadata formats (scannedRecords formats rollout.file)

theorem Sound.scanned (h : Sound formats rollout) :
    ∃ first, scannedRecords formats rollout.file = first :: ownRecords formats rollout ∧
      formats.isSessionMeta first.line.item = true ∧ first.ordinal = some (initialOrdinal rollout) := by
  obtain ⟨first, rest, hr, hm, hd⟩ := h.metadata
  obtain ⟨trailing, hs⟩ := exists_scannedRecords formats
  rw [hr, cons_append] at hs
  have ho := h.metadataOnce
  rw [hs, tail_cons] at ho
  refine ⟨first, ?_, hm, hd⟩
  rw [ownRecords, hs, afterMetadata_cons hm ho]

theorem Sound.firstOrdinal_le (h : Sound formats rollout)
    (hr : record ∈ ownRecords formats rollout) (ho : record.ordinal = some ordinal) :
    firstOrdinal rollout ≤ ordinal := by
  obtain ⟨first, hs, _, hf⟩ := h.scanned
  have hp := h.increasing
  rw [hs, pairwise_cons] at hp
  rw [firstOrdinal_eq]
  exact hp.1 record hr _ _ hf ho

theorem Sound.exists_ordinal (h : Sound formats rollout) (hr : record ∈ ownRecords formats rollout) :
    ∃ ordinal, record.ordinal = some ordinal := by
  obtain ⟨first, hs, _⟩ := h.scanned
  exact h.numbered record (hs ▸ mem_cons_of_mem _ hr)

variable [DecidableEq θ] {segment : RolloutLineageSegment θ}

/-- The records of a segment are those whose ordinal lies in its range. -/
theorem segmentRecords_eq (h : Sound formats rollout) (hf : rolloutOf store segment.threadId = some rollout)
    (hstart : segment.startOrdinal = firstOrdinal rollout)
    (hcut : ∀ cutoff, segment.cutoff = some cutoff →
      Cut formats rollout.file cutoff ∧ initialOrdinal rollout < cutoff.endOrdinalExclusive) :
    segmentRecords formats store segment =
      (ownRecords formats rollout).filter fun r => r.ordinal.any segment.contains := by
  rw [segmentRecords, hf]
  cases hc : segment.cutoff with
  | none =>
    simp only
    rw [← ownRecords, eq_comm, filter_eq_self]
    intro r hr
    obtain ⟨ord, hordinal⟩ := h.exists_ordinal hr
    have hle := h.firstOrdinal_le hr hordinal
    simp [hordinal, RolloutLineageSegment.contains, RolloutLineageSegment.endOrdinal, hc, hstart, hle]
  | some cutoff =>
    obtain ⟨hcut, hi⟩ := hcut cutoff hc
    obtain ⟨first, hs, hm, hfirst⟩ := h.scanned
    obtain ⟨settled, rest, hl, ht⟩ := hcut.atLine
    have hk : first.endOffset ≤ cutoff.endByteOffset := (hcut.agree (hs ▸ mem_cons_self) hfirst).mpr hi
    have ho := h.metadataOnce
    rw [hs, tail_cons] at ho
    simp only
    rw [← ht, scannedRecords_take formats hl, ht, hs, filter_cons_of_pos (by simpa using hk),
      afterMetadata_cons hm fun r hr => ho r (mem_of_mem_filter hr)]
    refine filter_congr fun r hr => ?_
    obtain ⟨ord, hordinal⟩ := h.exists_ordinal hr
    have hle := h.firstOrdinal_le hr hordinal
    have ha := hcut.agree (hs ▸ mem_cons_of_mem _ hr) hordinal
    simp [hordinal, RolloutLineageSegment.contains, RolloutLineageSegment.endOrdinal, hc, hstart, hle, ha]

end RolloutCuts
