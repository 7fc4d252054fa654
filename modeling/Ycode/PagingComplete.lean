import Ycode.Fallible
import Ycode.SegmentPaging

/-!
# Pages list the whole history

Following the cursors from the first page lists every visible row once and in order, in either direction, however the
pages fall across the segments. From the first row of any page the opposite direction lists what comes before it.
-/
namespace PagingComplete

open RustStr (Str)
open ThreadLineage SegmentPaging KeysetPaging List

variable {α ε : Type}

theorem remainingLimit_of_lt (hs : pageSize + 1 < 2 ^ 63) (hc : rowCount ≤ pageSize + 1) :
    remainingLimit pageSize rowCount = .ok (pageSize + 1 - rowCount) :=
  if_pos ⟨by omega, hc, by omega⟩

theorem take_take_append (limit : Nat) (rows more : List α) :
    (rows.take limit ++ more).take limit = (rows ++ more).take limit := by
  rw [take_append, take_append, take_take, Nat.min_self, length_take]
  congr 2
  omega

/-- The loop gives the page and the row after it, as if one query had listed all segments. -/
theorem collectRows_eq (hs : pageSize + 1 < 2 ^ 63) {full : ε → List α} {es : List ε}
    (hq : ∀ e ∈ es, ∀ limit, query e limit = .ok ((full e).take limit)) {rows : List α}
    (hr : rows.length ≤ pageSize + 1) :
    collectRows pageSize query es rows = .ok ((rows ++ es.flatMap full).take (pageSize + 1)) := by
  induction es generalizing rows with
  | nil => rw [collectRows, flatMap_nil, append_nil, take_of_length_le hr]
  | cons e es ih =>
    rw [forall_mem_cons] at hq
    rw [collectRows, remainingLimit_of_lt hs hr]
    simp only [hq.1]
    split
    · rw [take_append_of_le_length (by omega), take_of_length_le hr]
    · have hrest : ∀ more, (rows ++ more).take (pageSize + 1) = rows ++ more.take (pageSize + 1 - rows.length) := by
        intro more
        rw [take_append, take_of_length_le hr]
      rw [ih hq.2 (by rw [length_append, length_take]; omega), flatMap_cons, append_assoc, hrest, hrest, take_take_append]

section Segments

variable {θ : Type} {lineage : RolloutLineage θ} {direction : Direction}

/-- The segment with the first index is listed before the one with the second index. -/
theorem before_of_index (hn : Increasing segments) {earlier later : RolloutLineageSegment θ}
    (hf : segments[first]? = some earlier)
    (hs : segments[second]? = some later) (hindex : direction.Before first second) {ord ordinal' : Nat}
    (ho : earlier.contains ord = true) (ho' : later.contains ordinal' = true) :
    direction.Before ord ordinal' := by
  have hp : ∀ {i j : Nat} {a b : RolloutLineageSegment θ}, segments[i]? = some a → segments[j]? = some b → i < j →
      ∀ {x y : Nat}, a.contains x = true → b.contains y = true → x < y := by
    intro i j a b hi hj hij x y hx hy
    obtain ⟨hi', rfl⟩ := List.getElem?_eq_some_iff.mp hi
    obtain ⟨hj', rfl⟩ := List.getElem?_eq_some_iff.mp hj
    exact pairwise_iff_getElem.mp hn i j hi' hj' hij x y hx hy
  cases direction with
  | asc => exact hp hf hs hindex ho ho'
  | desc => exact hp hs hf hindex ho' ho

theorem segmentIndexes_pairwise : (segmentIndexes lineage direction cursorIndex).Pairwise direction.Before := by
  cases direction with
  | asc => exact pairwise_lt_range'
  | desc => exact pairwise_reverse.mpr pairwise_lt_range

theorem mem_segmentIndexes (hb : ∀ index, cursorIndex = some index →
      index < lineage.segments.length) (hi : index < lineage.segments.length) :
    index ∈ segmentIndexes lineage direction cursorIndex ↔
      ∀ start, cursorIndex = some start → direction.AtMost start index := by
  cases cursorIndex with
  | none =>
    cases direction with
    | asc => simp [segmentIndexes, hi]
    | desc =>
      simp only [segmentIndexes, Option.getD_none, mem_reverse, mem_range, reduceCtorEq, false_implies,
        implies_true, iff_true]
      omega
  | some start =>
    cases direction with
    | asc =>
      simp only [segmentIndexes, Option.getD_some, mem_range'_1, Option.some.injEq, Direction.AtMost,
        Direction.Before, forall_eq']
      omega
    | desc =>
      simp only [segmentIndexes, Option.getD_some, mem_reverse, mem_range, Option.some.injEq,
        Direction.AtMost, Direction.Before, forall_eq']
      omega

theorem cursorSegment_some (h : cursorSegment lineage (some cursor) = .ok cursorIndex) :
    ∃ idx segment, cursorIndex = some idx ∧ lineage.segments[idx]? = some segment ∧
      segment.contains cursor.rolloutOrdinal = true := by
  rw [cursorSegment, RolloutLineage.segmentIndexForOrdinal] at h
  cases hf : lineage.segments.findIdx? (·.contains cursor.rolloutOrdinal) with
  | none =>
    rw [hf] at h
    cases h
  | some idx =>
    rw [hf] at h
    cases h
    obtain ⟨hlt, hc, _⟩ := findIdx?_eq_some_iff_getElem.mp hf
    exact ⟨idx, lineage.segments[idx], rfl, getElem?_eq_getElem hlt, hc⟩

/-- The entries of a page: the segments from the cursor on, in the order of the direction. -/
theorem segmentsFromCursor_ok (direction : Direction) (hc : cursorSegment lineage cursor = .ok cursorIndex)
    (hb : ∀ idx, cursorIndex = some idx → idx < lineage.segments.length) :
    ∃ es, segmentsFromCursor lineage direction cursor = .ok es ∧
      es.Pairwise (fun first second => direction.Before first.1 second.1) ∧
      ∀ e, e ∈ es ↔ lineage.segments[e.1]? = some e.2.1 ∧
        e.2.2 = (if some e.1 = cursorIndex then cursor else none) ∧
        ∀ start, cursorIndex = some start → direction.AtMost start e.1 := by
  refine ⟨_, by rw [segmentsFromCursor, hc]; rfl, ?_, ?_⟩
  · refine List.Pairwise.filterMap _ ?_ (segmentIndexes_pairwise)
    intro first second hf e he e' he'
    obtain ⟨seg, _, rfl⟩ := Option.map_eq_some_iff.mp he
    obtain ⟨seg', _, rfl⟩ := Option.map_eq_some_iff.mp he'
    exact hf
  · rintro ⟨idx, seg, segmentCursor⟩
    rw [mem_filterMap]
    constructor
    · rintro ⟨idx', hi', he⟩
      obtain ⟨seg', hs', heq⟩ := Option.map_eq_some_iff.mp he
      cases heq
      have hlt := (List.getElem?_eq_some_iff.mp hs').1
      exact ⟨hs', rfl, (mem_segmentIndexes hb hlt).mp hi'⟩
    · rintro ⟨hs, hc', hstart⟩
      simp only at hs hc' hstart
      have hlt := (List.getElem?_eq_some_iff.mp hs).1
      refine ⟨idx, (mem_segmentIndexes hb hlt).mpr hstart, ?_⟩
      rw [hs, hc', Option.map_some]

end Segments

section Pages

variable {θ τ ρ : Type} [DecidableEq θ]

/-- The row stands in the range of a segment and meets that segment's clause. -/
def Visible (table : Table θ τ ρ) (clause : Nat → StoredRow θ τ ρ → Bool) (lineage : RolloutLineage θ)
    (row : StoredRow θ τ ρ) : Prop :=
  row ∈ table.rows ∧ ∃ index segment, lineage.segments[index]? = some segment ∧ row.threadId = segment.threadId ∧
    segment.contains row.rolloutOrdinal = true ∧ clause index row = true

/-- The row lies beyond the cursor, if there is one. -/
def Beyond (direction : Direction) (cursor : Option (HistoryCursor θ)) (row : StoredRow θ τ ρ) : Prop :=
  ∀ anchor, cursor = some anchor → anchor.anchor.admits direction row.rolloutOrdinal = true

variable {table : Table θ τ ρ}

/-- The rows of one query, without its limit. -/
theorem enumerates_segmentRows (table : Table θ τ ρ) (cl : StoredRow θ τ ρ → Bool) (direction : Direction)
    (seg : RolloutLineageSegment θ) (cursor : Option (HistoryCursor θ)) :
    Enumerates StoredRow.rolloutOrdinal direction
      (fun row => row ∈ table.rows ∧ row.threadId = seg.threadId ∧ seg.contains row.rolloutOrdinal = true ∧
        cl row = true ∧ Beyond direction cursor row)
      (segmentRows table.rows cl direction seg cursor) := by
  have hb : ∀ row : StoredRow θ τ ρ, cursor.all (·.anchor.admits direction row.rolloutOrdinal) = true ↔
      Beyond direction cursor row := by
    intro row
    cases cursor <;> simp [Beyond]
  refine (enumerates_sort ?_).congr fun row => ?_
  · -- rows of one segment belong to one thread
    refine List.Pairwise.imp_of_mem ?_ (table.unique.filter _)
    intro first second hf hs hu
    simp only [mem_filter, Bool.and_eq_true, decide_eq_true_eq] at hf hs
    exact hu (hf.2.1.1.1.trans hs.2.1.1.1.symm)
  · simp only [mem_filter, Bool.and_eq_true, decide_eq_true_eq, hb]
    tauto

omit [DecidableEq θ] in
/-- The entries of a page cover what lies beyond the cursor. -/
theorem covers_iff (hi : Increasing lineage.segments) {cursor : Option (HistoryCursor θ)}
    (hcursor : cursorSegment lineage cursor = .ok cursorIndex)
    {es : List (Nat × RolloutLineageSegment θ × Option (HistoryCursor θ))}
    (he : ∀ e, e ∈ es ↔ lineage.segments[e.1]? = some e.2.1 ∧
        e.2.2 = (if some e.1 = cursorIndex then cursor else none) ∧
        ∀ start, cursorIndex = some start → direction.AtMost start e.1) (row : StoredRow θ τ ρ) :
    (∃ e ∈ es, row ∈ table.rows ∧ row.threadId = e.2.1.threadId ∧
        e.2.1.contains row.rolloutOrdinal = true ∧ clause e.1 row = true ∧ Beyond direction e.2.2 row) ↔
      Visible table clause lineage row ∧ Beyond direction cursor row := by
  constructor
  · rintro ⟨⟨idx, seg, segmentCursor⟩, hentry, hm, ht, hhas, hc, hb⟩
    obtain ⟨hs, hsame, hstart⟩ := (he _).mp hentry
    refine ⟨⟨hm, idx, seg, hs, ht, hhas, hc⟩, fun anc ha => ?_⟩
    subst ha
    obtain ⟨start, first, rfl, hf, ha⟩ := cursorSegment_some hcursor
    by_cases hindex : idx = start
    · exact hb anc (by simp only at hsame; rw [hsame, hindex, if_pos rfl])
    · have hbefore := (hstart start rfl).before (Ne.symm hindex)
      exact Cursor.admits_iff.mpr (.inl (before_of_index hi hf hs hbefore ha hhas))
  · rintro ⟨⟨hm, idx, seg, hs, ht, hhas, hc⟩, hb⟩
    refine ⟨(idx, seg, if some idx = cursorIndex then cursor else none), (he _).mpr ⟨hs, rfl, ?_⟩,
      hm, ht, hhas, hc, ?_⟩
    · rintro start rfl hbefore
      -- a row of an earlier segment does not lie beyond the cursor
      cases cursor with
      | none => cases hcursor
      | some anc =>
        obtain ⟨start', first, hs', hf, ha⟩ := cursorSegment_some hcursor
        cases hs'
        have hearly := before_of_index hi hs hf hbefore hhas ha
        rcases Cursor.admits_iff.mp (hb anc rfl) with hl | ⟨_, hsame⟩
        · exact (hearly.trans hl).ne rfl
        · exact hearly.ne hsame.symm
    · intro anc ha
      split at ha
      · exact hb anc ha
      · cases ha

/-- What a page needs: its size and all ordinals it binds are SQLite integers. -/
structure Bounds (lineage : RolloutLineage θ) (ordinals : Nat → List Nat) (pageSize : Nat) : Prop where
  size : pageSize + 1 < 2 ^ 63
  segments : ∀ index segment, lineage.segments[index]? = some segment →
    ∀ ordinal ∈ segment.startOrdinal :: segment.endOrdinal.toList ++ ordinals index, ordinal < 2 ^ 63

theorem segmentQuery_ok
    (hr : ∀ ord ∈ entry.2.1.startOrdinal :: entry.2.1.endOrdinal.toList ++ ordinals entry.1, ord < 2 ^ 63)
    (ha : ∀ anc, entry.2.2 = some anc → anc.rolloutOrdinal < 2 ^ 63) :
    segmentQuery table.rows ordinals clause direction entry limit =
      .ok ((segmentRows table.rows (clause entry.1) direction entry.2.1 entry.2.2).take limit) := by
  have hb : bindOrdinals (rangeOrdinals entry.2.1 entry.2.2 ++ ordinals entry.1) = .ok () := by
    refine if_pos (all_eq_true.mpr fun ord ho => decide_eq_true ?_)
    have hi := hr ord
    simp only [rangeOrdinals, mem_append, Option.mem_toList, Option.map_eq_some_iff] at ho hi
    rcases ho with (ho | ⟨anc, hc, rfl⟩) | ho
    · exact hi (.inl ho)
    · exact ha anc hc
    · exact hi (.inr ho)
  rw [segmentQuery, hb]
  rfl

/-- One page: the first rows of all that lie beyond the cursor. -/
theorem pageRows_eq (table : Table θ τ ρ) (cl : Nat → StoredRow θ τ ρ → Bool) (direction : Direction)
    (hi : Increasing lineage.segments) (hb : Bounds lineage ordinals pageSize) {cursor : Option Str}
    {parsed : Option (HistoryCursor θ)} {cursorIndex : Option Nat}
    (hp : parseCursor text cursor requested scope = .ok parsed)
    (hc : cursorSegment lineage parsed = .ok cursorIndex)
    (ha : ∀ anc, parsed = some anc → anc.rolloutOrdinal < 2 ^ 63) :
    ∃ rows, Enumerates StoredRow.rolloutOrdinal direction
        (fun row => Visible table cl lineage row ∧ Beyond direction parsed row) rows ∧
      pageRows text table scope ordinals cl requested lineage cursor pageSize direction =
        .ok (finishPage text requested scope (rows.take (pageSize + 1)) pageSize) := by
  have hbound : ∀ idx, cursorIndex = some idx → idx < lineage.segments.length := by
    rintro idx rfl
    cases parsed with
    | none => cases hc
    | some anc =>
      obtain ⟨_, _, hindex, hsegment, _⟩ := cursorSegment_some hc
      cases hindex
      exact (List.getElem?_eq_some_iff.mp hsegment).1
  obtain ⟨es, hok, hpair, hm⟩ := segmentsFromCursor_ok direction hc hbound
  have hn := enumerates_flatMap
    (fun e => segmentRows table.rows (cl e.1) direction e.2.1 e.2.2)
    (fun e _ => enumerates_segmentRows table (cl e.1) direction e.2.1 e.2.2)
    (hpair.imp_of_mem fun hf hsecond ho row row' hr hr' =>
      before_of_index hi ((hm _).mp hf).1 ((hm _).mp hsecond).1 ho hr.2.2.1 hr'.2.2.1)
  refine ⟨_, hn.congr (covers_iff hi hc hm), ?_⟩
  have hq : ∀ e ∈ es, ∀ limit, segmentQuery table.rows ordinals cl direction e limit =
      .ok ((segmentRows table.rows (cl e.1) direction e.2.1 e.2.2).take limit) := by
    intro e hentry limit
    obtain ⟨hsegment, hs, _⟩ := (hm e).mp hentry
    refine segmentQuery_ok (hb.segments e.1 e.2.1 hsegment) fun anc he => ?_
    rw [he] at hs
    split at hs
    · exact ha anc hs.symm
    · cases hs
  have hempty : ([] : List (StoredRow θ τ ρ)).length ≤ pageSize + 1 := Nat.zero_le _
  simp only [pageRows, hp, hok, bind, Except.bind, collectRows_eq hb.size hq hempty, nil_append]

omit [DecidableEq θ] in
/-- The page of the first rows, and whether there are more. -/
theorem finishPage_take (text : CursorText θ) (req : θ) (scope : CursorScope) (pageSize : Nat)
    (rows : List (StoredRow θ τ ρ)) :
    (finishPage text req scope (rows.take (pageSize + 1)) pageSize).rows = rows.take pageSize ∧
      (finishPage text req scope (rows.take (pageSize + 1)) pageSize).nextCursor =
        (if pageSize < rows.length then (rows.take pageSize).getLast?.map fun row =>
          text.toText ⟨req, row.rolloutOrdinal, false, scope⟩ else none) ∧
      (finishPage text req scope (rows.take (pageSize + 1)) pageSize).backwardsCursor =
        ((rows.take pageSize).head?.map fun row => text.toText ⟨req, row.rolloutOrdinal, true, scope⟩) := by
  have ht : (rows.take (pageSize + 1)).take pageSize = rows.take pageSize := by
    rw [take_take, Nat.min_eq_left (Nat.le_succ pageSize)]
  have hm : pageSize < (rows.take (pageSize + 1)).length ↔ pageSize < rows.length := by
    rw [length_take]
    omega
  simp only [finishPage, ht, hm, and_self]

theorem parseCursor_toText (cursor : HistoryCursor θ) :
    parseCursor text (some (text.toText cursor)) cursor.requestedThreadId cursor.scope = .ok (some cursor) := by
  simp [parseCursor, text.fromText_toText]

omit [DecidableEq θ] in
/-- The cursor of a visible row stands in the lineage. -/
theorem cursorSegment_of_visible (h : Visible table clause lineage row) (cursor : HistoryCursor θ)
    (ho : cursor.rolloutOrdinal = row.rolloutOrdinal) :
    ∃ idx, cursorSegment lineage (some cursor) = .ok (some idx) := by
  obtain ⟨_, idx, seg, hs, _, hc, _⟩ := h
  rw [cursorSegment, RolloutLineage.segmentIndexForOrdinal, ho]
  cases hf : lineage.segments.findIdx? (·.contains row.rolloutOrdinal) with
  | none =>
    rw [findIdx?_eq_none_iff] at hf
    rw [hf seg (mem_of_getElem? hs)] at hc
    cases hc
  | some start => exact ⟨start, rfl⟩

/-- The rows that are left at a cursor. -/
def Left (text : CursorText θ) (table : Table θ τ ρ) (scope : CursorScope) (clause : Nat → StoredRow θ τ ρ → Bool)
    (requested : θ) (lineage : RolloutLineage θ) (direction : Direction) (cursor : Option Str)
    (rows : List (StoredRow θ τ ρ)) : Prop :=
  ∃ parsed cursorIndex, parseCursor text cursor requested scope = .ok parsed ∧
    cursorSegment lineage parsed = .ok cursorIndex ∧
    (∀ anchor, parsed = some anchor → anchor.rolloutOrdinal < 2 ^ 63) ∧
    Enumerates StoredRow.rolloutOrdinal direction
      (fun row => Visible table clause lineage row ∧ Beyond direction parsed row) rows

/-- The cursor of a row that is listed leaves the rows on its other side. -/
theorem left_of_row (hr : Visible table clause lineage row)
    (h : Enumerates StoredRow.rolloutOrdinal direction (fun x => Visible table clause lineage x ∧
      (⟨row.rolloutOrdinal, inclusive⟩ : Cursor).admits direction x.rolloutOrdinal = true) rows) :
    Left text table scope clause req lineage direction
      (some (text.toText ⟨req, row.rolloutOrdinal, inclusive, scope⟩)) rows := by
  obtain ⟨idx, hi⟩ := cursorSegment_of_visible hr ⟨req, row.rolloutOrdinal, inclusive, scope⟩ rfl
  refine ⟨some ⟨req, row.rolloutOrdinal, inclusive, scope⟩, some idx, parseCursor_toText _, hi, ?_, ?_⟩
  · rintro anchor ⟨⟩
    exact table.integers row hr.1
  · refine h.congr fun x => and_congr_right fun _ => ?_
    simp [Beyond, HistoryCursor.anchor]

/-- The first rows and the other columns of a page. -/
def fetch (page : Option Str → Except Str (SegmentPage (StoredRow θ τ ρ))) (cursor : Option Str) :
    Except Str (List (StoredRow θ τ ρ) × Option Str) :=
  (page cursor).map fun page => (page.rows, page.nextCursor)

/-- Following the cursors lists all rows that are left. -/
theorem follow_pageRows (hi : Increasing lineage.segments) (ho : Bounds lineage ordinals pageSize)
    (hs : 0 < pageSize) (h : Left text table scope clause requested lineage direction cursor rows)
    (hfuel : rows.length < fuel) :
    follow (fetch fun cursor => pageRows text table scope ordinals clause requested lineage cursor pageSize direction)
      fuel cursor = .ok (some rows) := by
  refine follow_eq hs ?_ h hfuel
  rintro cursor rows ⟨parsed, cursorIndex, hd, hc, ha, hr⟩
  obtain ⟨listed, hl, hpage⟩ := pageRows_eq table clause direction hi ho hd hc ha
  obtain rfl := hl.unique hr
  obtain ⟨hp, hn, _⟩ := finishPage_take text requested scope pageSize listed
  refine ⟨_, by rw [fetch, hpage, Except.map, hp, hn], fun hg => if_neg (by omega), fun hm => ?_⟩
  obtain ⟨last, hlast⟩ : ∃ last, (listed.take pageSize).getLast? = some last := by
    rw [← Option.isSome_iff_exists, getLast?_isSome, ne_eq, ← length_eq_zero_iff, length_take]
    omega
  have hmem := (hl.mem last).mp (mem_of_mem_take (mem_of_getLast? hlast))
  refine ⟨_, by rw [if_pos hm, hlast]; rfl, left_of_row hmem.1 ((hl.drop hlast).congr fun row => ?_)⟩
  rw [Cursor.admits_iff]
  constructor
  · rintro ⟨⟨hv, _⟩, hb⟩
    exact ⟨hv, .inl hb⟩
  · rintro ⟨hv, hb | ⟨hf, _⟩⟩
    · exact ⟨⟨hv, fun anc ha => Cursor.admits_of_before (hmem.2 anc ha) hb⟩, hb⟩
    · cases hf

/-- Every row of a page comes from the query of one of its entries. -/
theorem mem_collectRows (h : collectRows pageSize query es rows = .ok result) (hr : row ∈ result) :
    row ∈ rows ∨ ∃ e ∈ es, ∃ limit more, query e limit = .ok more ∧ row ∈ more := by
  induction es generalizing rows with
  | nil =>
    cases h
    exact .inl hr
  | cons e es ih =>
    rw [collectRows] at h
    split at h
    · cases h
    · split at h
      · cases h
        exact .inl hr
      · split at h
        · cases h
        · rename_i more hq
          rcases ih h with hm | ⟨later, hl, hq'⟩
          · rcases mem_append.mp hm with hm | hm
            · exact .inl hm
            · exact .inr ⟨e, mem_cons_self, _, more, hq, hm⟩
          · exact .inr ⟨later, mem_cons_of_mem _ hl, hq'⟩

/-- A page has visible rows only, and its backwards cursor is that of its first row. -/
theorem visible_of_pageRows
    (h : pageRows text table scope ordinals clause requested lineage cursor pageSize direction = .ok page)
    (hf : page.rows.head? = some first) :
    Visible table clause lineage first ∧
      page.backwardsCursor = some (text.toText ⟨requested, first.rolloutOrdinal, true, scope⟩) := by
  obtain ⟨parsed, _, hs⟩ := Fallible.ok_of_bind h
  obtain ⟨es, he, hr⟩ := Fallible.ok_of_bind hs
  obtain ⟨rows, hc, hp⟩ := Fallible.ok_of_bind hr
  obtain ⟨cursorIndex, _, he⟩ := Fallible.ok_of_bind he
  cases hp
  refine ⟨?_, by simp only [finishPage] at hf ⊢; rw [hf, Option.map_some]⟩
  have hmem := mem_of_mem_take (mem_of_mem_head? hf)
  rcases mem_collectRows hc hmem with hn | ⟨e, hentry, limit, more, hq, hm⟩
  · cases hn
  · obtain ⟨_, _, hq⟩ := Fallible.ok_of_bind hq
    cases hq
    cases he
    obtain ⟨idx, _, hfound⟩ := mem_filterMap.mp hentry
    obtain ⟨seg, hg, rfl⟩ := Option.map_eq_some_iff.mp hfound
    obtain ⟨hrow, ht, hhas, hl, _⟩ :=
      ((enumerates_segmentRows table (clause idx) direction seg _).mem first).mp (mem_of_mem_take hm)
    exact ⟨hrow, idx, seg, hg, ht, hhas, hl⟩

/-- Paging lists exactly the given rows, from the beginning and, the other way, from every page's first row. -/
def Complete (page : Direction → Option Str → Except Str (SegmentPage (StoredRow θ τ ρ)))
    (visible : StoredRow θ τ ρ → Prop) : Prop :=
  ∀ direction,
    (∃ rows, Enumerates StoredRow.rolloutOrdinal direction visible rows ∧
      ∀ fuel, rows.length < fuel → follow (fetch (page direction)) fuel none = .ok (some rows)) ∧
    ∀ cursor result first, page direction cursor = .ok result → result.rows.head? = some first →
      ∃ backwards rows, result.backwardsCursor = some backwards ∧
        Enumerates StoredRow.rolloutOrdinal direction.opposite
          (fun row => visible row ∧ direction.AtMost row.rolloutOrdinal first.rolloutOrdinal) rows ∧
        ∀ fuel, rows.length < fuel → follow (fetch (page direction.opposite)) fuel (some backwards) = .ok (some rows)

omit [DecidableEq θ] in
theorem Complete.congr (h : Complete page visible) (hi : ∀ row, visible row ↔ visible' row) :
    Complete page visible' := by
  obtain rfl : visible = visible' := funext fun row => propext (hi row)
  exact h

theorem complete_pageRows (text : CursorText θ) (table : Table θ τ ρ) (scope : CursorScope)
    (cl : Nat → StoredRow θ τ ρ → Bool) (req : θ) (hi : Increasing lineage.segments)
    (hb : Bounds lineage ordinals pageSize) (hp : 0 < pageSize) :
    Complete (fun direction cursor =>
      pageRows text table scope ordinals cl req lineage cursor pageSize direction)
      (Visible table cl lineage) := by
  intro direction
  constructor
  · obtain ⟨rows, hr, _⟩ := pageRows_eq table cl direction hi hb
      (show parseCursor text none req scope = .ok none from rfl) rfl nofun
    refine ⟨rows, hr.congr fun row => and_iff_left nofun, fun fuel hfuel => ?_⟩
    exact follow_pageRows hi hb hp ⟨none, none, rfl, rfl, nofun, hr⟩ hfuel
  · intro cursor res first hpage hf
    obtain ⟨hv, hc⟩ := visible_of_pageRows hpage hf
    obtain ⟨rows, hr, _⟩ := pageRows_eq table cl direction.opposite hi hb
      (show parseCursor text none req scope = .ok none from rfl) rfl nofun
    have ho := (hr.congr fun row => and_iff_left nofun).filter fun row =>
      (⟨first.rolloutOrdinal, true⟩ : Cursor).admits direction.opposite row.rolloutOrdinal
    refine ⟨_, _, hc, ho.congr fun row => and_congr_right fun _ => ?_, fun fuel hfuel => ?_⟩
    · rw [Cursor.admits_iff, Direction.opposite_before, Direction.atMost_iff]
      simp [eq_comm]
    · exact follow_pageRows hi hb hp (left_of_row hv ho) hfuel

/-- The turn row stands in the range of a segment, and no newer segment has a row of the same turn. -/
def VisibleTurn (table : Table θ τ ρ) (lineage : RolloutLineage θ) (row : StoredRow θ τ ρ) : Prop :=
  row ∈ table.rows ∧ ∃ (index : Nat) (segment : RolloutLineageSegment θ), lineage.segments[index]? = some segment ∧
    row.threadId = segment.threadId ∧ segment.contains row.rolloutOrdinal = true ∧
    ∀ (newerIndex : Nat) (newer : RolloutLineageSegment θ), index < newerIndex →
      lineage.segments[newerIndex]? = some newer → ∀ newerTurn ∈ table.rows, newerTurn.threadId = newer.threadId →
      newerTurn.turnId = row.turnId → newer.contains newerTurn.rolloutOrdinal = false

/-- The item row stands in the range of a segment, and belongs to the turn, if one is given. -/
def VisibleItem (table : Table θ τ ρ) (lineage : RolloutLineage θ) (turnId : Option τ) (row : StoredRow θ τ ρ) : Prop :=
  row ∈ table.rows ∧ (∀ turn, turnId = some turn → row.turnId = turn) ∧
    ∃ segment ∈ lineage.segments, row.threadId = segment.threadId ∧ segment.contains row.rolloutOrdinal = true

variable [DecidableEq τ]

theorem mem_drop_iff {list : List α} {count : Nat} {a : α} :
    a ∈ list.drop count ↔ ∃ idx, count ≤ idx ∧ list[idx]? = some a := by
  rw [mem_iff_getElem?]
  constructor
  · rintro ⟨idx, hi⟩
    exact ⟨count + idx, by omega, by rwa [getElem?_drop] at hi⟩
  · rintro ⟨idx, hle, hi⟩
    exact ⟨idx - count, by rw [getElem?_drop]; rwa [show count + (idx - count) = idx by omega]⟩

theorem notInNewerSegment_iff {row : StoredRow θ τ ρ} :
    notInNewerSegment table lineage index row = true ↔
      ∀ (ni : Nat) (newer : RolloutLineageSegment θ), index < ni →
        lineage.segments[ni]? = some newer → ∀ newerTurn ∈ table.rows, newerTurn.threadId = newer.threadId →
        newerTurn.turnId = row.turnId → newer.contains newerTurn.rolloutOrdinal = false := by
  simp only [notInNewerSegment, all_eq_true, Bool.not_eq_true', Bool.and_eq_false_iff, decide_eq_false_iff_not]
  constructor
  · intro h ni newer hi hn newerTurn hturn ht hid
    rcases h newer (mem_drop_iff.mpr ⟨ni, hi, hn⟩) newerTurn hturn with (hne | hne) | ho
    · exact absurd ht hne
    · exact absurd hid hne
    · exact ho
  · intro h newer hn newerTurn hturn
    obtain ⟨ni, hi, hn⟩ := mem_drop_iff.mp hn
    by_cases ht : newerTurn.threadId = newer.threadId
    · by_cases hid : newerTurn.turnId = row.turnId
      · exact .inr (h ni newer hi hn newerTurn hturn ht hid)
      · exact .inl (.inr hid)
    · exact .inl (.inl ht)

theorem visibleTurn_iff (row : StoredRow θ τ ρ) :
    Visible table (notInNewerSegment table lineage) lineage row ↔ VisibleTurn table lineage row := by
  simp only [Visible, VisibleTurn, notInNewerSegment_iff]

omit [DecidableEq θ] in
theorem visibleItem_iff (tid : Option τ) (row : StoredRow θ τ ρ) :
    Visible table (fun _ row => tid.all (row.turnId = ·)) lineage row ↔ VisibleItem table lineage tid row := by
  have hturn : tid.all (row.turnId = ·) = true ↔ ∀ turn, tid = some turn → row.turnId = turn := by
    cases tid <;> simp
  constructor
  · rintro ⟨hm, idx, seg, hs, ht, hhas, hc⟩
    exact ⟨hm, hturn.mp hc, seg, mem_of_getElem? hs, ht, hhas⟩
  · rintro ⟨hm, hc, seg, hs, ht, hhas⟩
    obtain ⟨idx, hi⟩ := mem_iff_getElem?.mp hs
    exact ⟨hm, idx, seg, hi, ht, hhas, hturn.mpr hc⟩

/-- Following the cursors from the first page lists every visible turn row and every visible item row once, in the
order of the ordinals, in both directions; and from the first row of any page the opposite direction lists the rows at
or before it. Sizes and ordinals must be integers for the database. -/
theorem paging_lists_history {ι σ : Type} (text : CursorText θ) (turns : Table θ τ ρ)
    (items : Table θ τ (ItemColumns ι σ)) (requested : θ) (lineage : RolloutLineage θ) (turnId : Option τ)
    (pageSize : Nat) (hincreasing : Increasing lineage.segments)
    (hintegers : ∀ segment ∈ lineage.segments, segment.startOrdinal < 2 ^ 63 ∧
      ∀ stop, segment.endOrdinal = some stop → stop < 2 ^ 63)
    (hpositive : 0 < pageSize) (hsize : pageSize + 1 < 2 ^ 63) :
    Complete (fun direction cursor => pageTurnRows text turns requested lineage cursor pageSize direction)
      (VisibleTurn turns lineage) ∧
    Complete (fun direction cursor => pageItemRows text items lineage
      ⟨requested, turnId, none, cursor, pageSize, direction, .createdAtOrdinal⟩) (VisibleItem items lineage turnId) := by
  have hs : ∀ segment ∈ lineage.segments,
      ∀ ord ∈ segment.startOrdinal :: segment.endOrdinal.toList, ord < 2 ^ 63 := by
    intro segment hm ord ho
    obtain ⟨hstart, hstop⟩ := hintegers segment hm
    rcases mem_cons.mp ho with rfl | ho
    · exact hstart
    · exact hstop ord (Option.mem_toList.mp ho)
  constructor
  · refine (complete_pageRows text turns .turns (notInNewerSegment turns lineage) requested hincreasing
      ⟨hsize, fun idx segment hi ord ho => ?_⟩ hpositive).congr visibleTurn_iff
    rcases mem_append.mp ho with ho | ho
    · exact hs segment (mem_of_getElem? hi) ord ho
    · obtain ⟨newer, hn, ho⟩ := mem_flatMap.mp ho
      exact hs newer (mem_of_mem_drop hn) ord ho
  · have hnone : Bounds lineage (fun _ => []) pageSize :=
      ⟨hsize, fun idx segment hi ord ho =>
        hs segment (mem_of_getElem? hi) ord (by simpa using ho)⟩
    exact (complete_pageRows text items .itemsByCreatedAtOrdinal (fun _ row => turnId.all (row.turnId = ·)) requested
      hincreasing hnone hpositive).congr (visibleItem_iff turnId)

end Pages

/-- Cursors with the ordinal in unary. -/
def unaryText : CursorText Bool where
  toText cursor :=
    (if cursor.requestedThreadId then 'c' else 'p') :: (if cursor.includeAnchor then '=' else '<') ::
      (match cursor.scope with
        | .turns => 't'
        | .itemsByCreatedAtOrdinal => 'i'
        | .itemsByUpdatedAtOrdinal => 'u') :: List.replicate cursor.rolloutOrdinal '1'
  fromText
    | thread :: anchor :: scope :: ones =>
      some ⟨thread == 'c', ones.length, anchor == '=',
        if scope == 't' then .turns else if scope == 'i' then .itemsByCreatedAtOrdinal else .itemsByUpdatedAtOrdinal⟩
    | _ => none
  fromText_toText cursor := by
    obtain ⟨thread, ordinal, anchor, scope⟩ := cursor
    cases thread <;> cases anchor <;> cases scope <;> simp

/-- A child that was forked off before the third record of its parent. -/
def forkedLineage : RolloutLineage Bool where
  segments := [⟨false, 1, some ⟨false, 3, 0⟩⟩, ⟨true, 4, none⟩]

/-- The second turn was recorded again by the child; the parent has gone on after the fork. -/
def forkedTurns : Table Bool Nat Unit where
  rows := [⟨false, 0, 1, ()⟩, ⟨false, 1, 2, ()⟩, ⟨false, 2, 3, ()⟩, ⟨true, 1, 4, ()⟩, ⟨true, 3, 5, ()⟩]
  integers := by decide
  unique := by decide

def forkedItems : Table Bool Nat (ItemColumns Nat Unit) where
  rows := [⟨false, 0, 1, ⟨0, 1, ()⟩⟩, ⟨true, 1, 4, ⟨1, 4, ()⟩⟩]
  integers := by decide
  unique := by decide

theorem increasing_forkedLineage : Increasing forkedLineage.segments := by
  simp only [Increasing, forkedLineage, pairwise_cons, mem_singleton, RolloutLineageSegment.contains_iff,
    RolloutLineageSegment.endOrdinal, not_mem_nil, false_implies, implies_true, List.Pairwise.nil, and_true]
  rintro later rfl first second ⟨_, hf⟩ ⟨hs, _⟩
  have hp : first < 3 := hf 3 rfl
  have hc : 4 ≤ second := hs
  omega

/-- The pages of the child's history. -/
theorem forked_history_is_listed :
    follow (fetch fun cursor => pageTurnRows unaryText forkedTurns true forkedLineage cursor 2 .desc) 4 none =
      .ok (some [⟨true, 3, 5, ()⟩, ⟨true, 1, 4, ()⟩, ⟨false, 0, 1, ()⟩]) ∧
    Complete (fun direction cursor => pageTurnRows unaryText forkedTurns true forkedLineage cursor 2 direction)
      (VisibleTurn forkedTurns forkedLineage) ∧
    Complete (fun direction cursor => pageItemRows unaryText forkedItems forkedLineage
      ⟨true, none, none, cursor, 2, direction, .createdAtOrdinal⟩) (VisibleItem forkedItems forkedLineage none) :=
  ⟨rfl, paging_lists_history unaryText forkedTurns forkedItems true forkedLineage none 2 increasing_forkedLineage
    (by simp [forkedLineage, RolloutLineageSegment.endOrdinal]) (by decide) (by decide)⟩

/-- The largest SQLite integer as page size leaves no room for the row after the page, and is refused. -/
theorem largest_page_is_refused :
    pageTurnRows unaryText forkedTurns true forkedLineage none (2 ^ 63 - 1) .asc =
      .error "page size is too large".toList ∧
    pageItemRows unaryText forkedItems forkedLineage ⟨true, none, none, none, 2 ^ 63 - 1, .asc, .createdAtOrdinal⟩ =
      .error "page size is too large".toList :=
  ⟨rfl, rfl⟩

end PagingComplete
