import Ycode.KeysetPaging
import Ycode.ThreadLineage

/-!
# Pages of a forked thread's history

The rows of a lineage are stored by the rollouts they were projected from. A page is put together from one query for
each segment: the rows of the segment's range beyond the cursor, in order, up to what is left of the page and one row
more, which tells whether there is a next page. A turn that was recorded again in a newer segment is listed only there.
-/
namespace SegmentPaging

open RustStr (Str)
open ThreadLineage
open KeysetPaging (Direction Cursor)

/-- `CursorScope` -/
inductive CursorScope where
  | turns
  | itemsByCreatedAtOrdinal
  | itemsByUpdatedAtOrdinal
  deriving DecidableEq, Repr

/-- `HistoryCursor` -/
structure HistoryCursor (θ : Type) where
  requestedThreadId : θ
  rolloutOrdinal : Nat
  includeAnchor : Bool
  scope : CursorScope
  deriving DecidableEq, Repr

/-- The text of a cursor, read back as it was written. -/
structure CursorText (θ : Type) where
  toText : HistoryCursor θ → Str
  fromText : Str → Option (HistoryCursor θ)
  fromText_toText (cursor : HistoryCursor θ) : fromText (toText cursor) = some cursor

/-- A row of `thread_turns` or `thread_items`; `columns` are those the queries only return. -/
structure StoredRow (θ τ ρ : Type) where
  threadId : θ
  turnId : τ
  rolloutOrdinal : Nat
  columns : ρ
  deriving DecidableEq, Repr

/-- The columns of an item row. -/
structure ItemColumns (ι ρ : Type) where
  itemId : ι
  updatedAtOrdinal : Nat
  rest : ρ
  deriving DecidableEq, Repr

/-- A table: ordinals are SQLite integers, and a thread has one row at most for each of them. -/
structure Table (θ τ ρ : Type) where
  rows : List (StoredRow θ τ ρ)
  integers : ∀ row ∈ rows, row.rolloutOrdinal < 2 ^ 63
  unique : rows.Pairwise fun first second =>
    first.threadId = second.threadId → first.rolloutOrdinal ≠ second.rolloutOrdinal

/-- `SegmentPage` -/
structure SegmentPage (α : Type) where
  rows : List α
  nextCursor : Option Str
  backwardsCursor : Option Str
  deriving DecidableEq, Repr

def invalidCursor (cursor : Str) : Str := "invalid cursor: ".toList ++ cursor

def pageSizeTooLarge : Str := "page size is too large".toList

variable {θ τ ρ ι : Type} [DecidableEq θ] [DecidableEq τ] (text : CursorText θ)

/-- `parse_cursor` -/
def parseCursor (cursor : Option Str) (requestedThreadId : θ) (scope : CursorScope) :
    Except Str (Option (HistoryCursor θ)) :=
  match cursor with
  | none => .ok none
  | some cursor =>
    match text.fromText cursor with
    | none => .error (invalidCursor cursor)
    | some value =>
      if value.requestedThreadId ≠ requestedThreadId ∨ value.scope ≠ scope then .error (invalidCursor cursor)
      else .ok (some value)

/-- `remaining_limit`: the page size is a `usize`, the limit an `i64`. -/
def remainingLimit (pageSize rowCount : Nat) : Except Str Nat :=
  if pageSize + 1 < 2 ^ 64 ∧ rowCount ≤ pageSize + 1 ∧ pageSize + 1 - rowCount < 2 ^ 63 then
    .ok (pageSize + 1 - rowCount)
  else .error pageSizeTooLarge

/-- `sqlite_integer` for every ordinal that a query binds. -/
def bindOrdinals (ordinals : List Nat) : Except Str Unit :=
  if ordinals.all (· < 2 ^ 63) then .ok () else .error "rollout ordinal exceeds SQLite integer range".toList

/-- The segment the cursor stands in. -/
def cursorSegment (lineage : RolloutLineage θ) : Option (HistoryCursor θ) → Except Str (Option Nat)
  | none => .ok none
  | some cursor =>
    match lineage.segmentIndexForOrdinal cursor.rolloutOrdinal with
    | none => .error (invalidCursor "position outside thread lineage".toList)
    | some index => .ok (some index)

/-- The indexes of the segments from the cursor on. -/
def segmentIndexes (lineage : RolloutLineage θ) (direction : Direction) (cursorIndex : Option Nat) : List Nat :=
  match direction with
  | .asc => List.range' (cursorIndex.getD 0) (lineage.segments.length - cursorIndex.getD 0)
  | .desc => (List.range (cursorIndex.getD (lineage.segments.length - 1) + 1)).reverse

/-- `segments_from_cursor`: the segments a page may need, in the order of the direction; the cursor goes to the
segment that contains it. -/
def segmentsFromCursor (lineage : RolloutLineage θ) (direction : Direction) (cursor : Option (HistoryCursor θ)) :
    Except Str (List (Nat × RolloutLineageSegment θ × Option (HistoryCursor θ))) := do
  let cursorIndex ← cursorSegment lineage cursor
  .ok ((segmentIndexes lineage direction cursorIndex).filterMap fun index =>
    lineage.segments[index]?.map fun segment =>
      (index, segment, if some index = cursorIndex then cursor else none))

/-- The ordinals of `push_segment_range` and `push_cursor_clause`. -/
def rangeOrdinals (segment : RolloutLineageSegment θ) (cursor : Option (HistoryCursor θ)) : List Nat :=
  segment.startOrdinal :: segment.endOrdinal.toList ++ (cursor.map HistoryCursor.rolloutOrdinal).toList

/-- The anchor of `push_cursor_clause`. -/
def HistoryCursor.anchor (cursor : HistoryCursor θ) : Cursor := ⟨cursor.rolloutOrdinal, cursor.includeAnchor⟩

/-- The rows of the segment's range that meet the clause, beyond the cursor, in order. -/
def segmentRows (rows : List (StoredRow θ τ ρ)) (clause : StoredRow θ τ ρ → Bool) (direction : Direction)
    (segment : RolloutLineageSegment θ) (cursor : Option (HistoryCursor θ)) : List (StoredRow θ τ ρ) :=
  KeysetPaging.sort StoredRow.rolloutOrdinal direction (rows.filter fun row =>
    row.threadId = segment.threadId && segment.contains row.rolloutOrdinal && clause row &&
      cursor.all (·.anchor.admits direction row.rolloutOrdinal))

/-- One query: what it binds, and its rows up to the limit. -/
def segmentQuery (rows : List (StoredRow θ τ ρ)) (ordinals : Nat → List Nat) (clause : Nat → StoredRow θ τ ρ → Bool)
    (direction : Direction) (entry : Nat × RolloutLineageSegment θ × Option (HistoryCursor θ)) (limit : Nat) :
    Except Str (List (StoredRow θ τ ρ)) := do
  bindOrdinals (rangeOrdinals entry.2.1 entry.2.2 ++ ordinals entry.1)
  .ok ((segmentRows rows (clause entry.1) direction entry.2.1 entry.2.2).take limit)

/-- The loop over the segments: it ends when the page and the row after it are there. -/
def collectRows {α ε : Type} (pageSize : Nat) (query : ε → Nat → Except Str (List α)) :
    List ε → List α → Except Str (List α)
  | [], rows => .ok rows
  | entry :: entries, rows =>
    match remainingLimit pageSize rows.length with
    | .error error => .error error
    | .ok remaining =>
      if remaining = 0 then .ok rows
      else match query entry remaining with
        | .error error => .error error
        | .ok more => collectRows pageSize query entries (rows ++ more)

/-- `finish_page` -/
def finishPage (requestedThreadId : θ) (scope : CursorScope) (rows : List (StoredRow θ τ ρ)) (pageSize : Nat) :
    SegmentPage (StoredRow θ τ ρ) where
  rows := rows.take pageSize
  nextCursor := if pageSize < rows.length then
      (rows.take pageSize).getLast?.map fun row => text.toText ⟨requestedThreadId, row.rolloutOrdinal, false, scope⟩
    else none
  backwardsCursor := (rows.take pageSize).head?.map fun row =>
    text.toText ⟨requestedThreadId, row.rolloutOrdinal, true, scope⟩

/-- The common body of `page_turn_rows` and `page_item_rows`: `ordinals` and `clause` are what the query for the
segment with the index has besides the range and the cursor. -/
def pageRows (table : Table θ τ ρ) (scope : CursorScope) (ordinals : Nat → List Nat)
    (clause : Nat → StoredRow θ τ ρ → Bool) (requestedThreadId : θ) (lineage : RolloutLineage θ) (cursor : Option Str)
    (pageSize : Nat) (direction : Direction) : Except Str (SegmentPage (StoredRow θ τ ρ)) := do
  let cursor ← parseCursor text cursor requestedThreadId scope
  let segments ← segmentsFromCursor lineage direction cursor
  let rows ← collectRows pageSize (segmentQuery table.rows ordinals clause direction) segments []
  .ok (finishPage text requestedThreadId scope rows pageSize)

/-- The `NOT EXISTS` conditions: no newer segment has a row of the same turn. -/
def notInNewerSegment (table : Table θ τ ρ) (lineage : RolloutLineage θ) (index : Nat) (row : StoredRow θ τ ρ) : Bool :=
  (lineage.segments.drop (index + 1)).all fun newer => table.rows.all fun newerTurn =>
    !(newerTurn.threadId = newer.threadId && newerTurn.turnId = row.turnId && newer.contains newerTurn.rolloutOrdinal)

/-- `page_turn_rows` -/
def pageTurnRows (table : Table θ τ ρ) (requestedThreadId : θ) (lineage : RolloutLineage θ) (cursor : Option Str)
    (pageSize : Nat) (direction : Direction) : Except Str (SegmentPage (StoredRow θ τ ρ)) :=
  pageRows text table .turns
    (fun index => (lineage.segments.drop (index + 1)).flatMap fun newer => newer.startOrdinal :: newer.endOrdinal.toList)
    (notInNewerSegment table lineage) requestedThreadId lineage cursor pageSize direction

/-- `ItemSortKey` -/
inductive ItemSortKey where
  | createdAtOrdinal
  | updatedAtOrdinal
  deriving DecidableEq, Repr

/-- `ListItemsParams` -/
structure ListItemsParams (θ τ : Type) where
  threadId : θ
  turnId : Option τ
  afterUpdatedAtOrdinal : Option Nat
  cursor : Option Str
  pageSize : Nat
  sortDirection : Direction
  sortKey : ItemSortKey

/-- The optional conditions on item rows. -/
def itemClause (params : ListItemsParams θ τ) (row : StoredRow θ τ (ItemColumns ι ρ)) : Bool :=
  params.afterUpdatedAtOrdinal.all (· < row.columns.updatedAtOrdinal) && params.turnId.all (row.turnId = ·)

/-- `page_updated_item_rows`: the rows are listed by their update ordinal, which stands for their position. -/
def pageUpdatedItemRows (table : Table θ τ (ItemColumns ι ρ)) (params : ListItemsParams θ τ)
    (afterUpdatedAtOrdinal : Nat) : Except Str (SegmentPage (StoredRow θ τ (ItemColumns ι ρ))) := do
  let cursor ← parseCursor text params.cursor params.threadId .itemsByUpdatedAtOrdinal
  bindOrdinals (afterUpdatedAtOrdinal :: (cursor.map HistoryCursor.rolloutOrdinal).toList)
  let limit ← remainingLimit params.pageSize 0
  let updated := table.rows.map fun row => { row with rolloutOrdinal := row.columns.updatedAtOrdinal }
  let rows := KeysetPaging.sort StoredRow.rolloutOrdinal params.sortDirection (updated.filter fun row =>
    row.threadId = params.threadId && itemClause params row &&
      cursor.all (·.anchor.admits params.sortDirection row.rolloutOrdinal))
  .ok (finishPage text params.threadId .itemsByUpdatedAtOrdinal (rows.take limit) params.pageSize)

/-- `page_item_rows` -/
def pageItemRows (table : Table θ τ (ItemColumns ι ρ)) (lineage : RolloutLineage θ) (params : ListItemsParams θ τ) :
    Except Str (SegmentPage (StoredRow θ τ (ItemColumns ι ρ))) :=
  if params.afterUpdatedAtOrdinal.isSome ∧ 1 < lineage.segments.length then
    .error "incremental item replay is not supported for forked threads".toList
  else match params.sortKey with
    | .updatedAtOrdinal =>
      match params.afterUpdatedAtOrdinal with
      | none => .error "update-ordinal item sorting requires an update watermark".toList
      | some afterUpdatedAtOrdinal => pageUpdatedItemRows text table params afterUpdatedAtOrdinal
    | .createdAtOrdinal =>
      pageRows text table .itemsByCreatedAtOrdinal (fun _ => params.afterUpdatedAtOrdinal.toList)
        (fun _ => itemClause params) params.threadId lineage params.cursor params.pageSize params.sortDirection

end SegmentPaging
