import Ycode.RustStr

/-!
# Search of the memory files

A file is searched for windows of lines in which every query matches. Windows are grown from each line that matches
some query, and a window that contains another one is left out. The matches of all files are listed by path and line
and handed out page by page.
-/
namespace MemorySearch

open List RustStr

/-- What the search asks of the standard library's Unicode tables. -/
structure StdLib where
  toLowercase : Str → Str
  isAlphanumeric : Char → Bool

/-- `to_string` of a `usize`, which is a `Nat` here. -/
def printUsize (n : Nat) : Str := Nat.toDigits 10 n

/-- `parse::<usize>`: digits, with at most one plus sign in front. -/
def parseUsize (text : Str) : Option Nat :=
  let digits := (stripPrefix text ['+']).getD text
  if !digits.isEmpty && digits.all Char.isDigit then some (Nat.ofDigitChars 10 digits 0) else none

theorem parseUsize_printUsize (n : Nat) : parseUsize (printUsize n) = some n := by
  have hdigits : ∀ c ∈ Nat.toDigits 10 n, c.isDigit = true :=
    fun _ hc => Nat.isDigit_of_mem_toDigits (by decide) (by decide) hc
  have hplus : stripPrefix (Nat.toDigits 10 n) ['+'] = none := by
    rw [stripPrefix_eq_none]
    intro h
    exact absurd (hdigits '+' (h.subset (mem_singleton_self _))) (by decide)
  have hne : (Nat.toDigits 10 n).isEmpty = false := by simp
  simp only [parseUsize, printUsize, hplus, Option.getD_none, hne, all_eq_true.mpr hdigits]
  simp [Nat.ofDigitChars_ten_toDigits]

inductive SearchMatchMode where
  | any
  | allOnSameLine
  | allWithinLines (lineCount : Nat)
  deriving DecidableEq

inductive MemoriesBackendError where
  | emptyQuery
  | invalidMatchWindow
  | invalidCursor (cursor reason : Str)
  deriving DecidableEq

structure SearchComparison where
  caseSensitive : Bool
  normalized : Bool

structure SearchMatcher where
  queries : List Str
  preparedQueries : List Str
  length_prepared : preparedQueries.length = queries.length
  comparison : SearchComparison
  matchMode : SearchMatchMode

structure MemorySearchMatch where
  path : Str
  matchLineNumber : Nat
  contentStartLineNumber : Nat
  content : Str
  matchedQueries : List Str
  deriving DecidableEq

structure SearchMemoriesRequest where
  queries : List Str
  matchMode : SearchMatchMode
  cursor : Option Str
  contextLines : Nat
  caseSensitive : Bool
  normalized : Bool
  maxResults : Nat

structure SearchMemoriesResponse where
  queries : List Str
  matchMode : SearchMatchMode
  found : List MemorySearchMatch
  nextCursor : Option Str
  truncated : Bool

def maxSearchResults : Nat := 200

variable (std : StdLib) (matcher : SearchMatcher)

def SearchComparison.prepare (comparison : SearchComparison) (value : Str) : Str :=
  if comparison.caseSensitive && !comparison.normalized then value
  else
    let value := if comparison.caseSensitive then value else std.toLowercase value
    if !comparison.normalized then value else value.filter std.isAlphanumeric

def SearchMatcher.new (queries : List Str) (matchMode : SearchMatchMode) (caseSensitive normalized : Bool) :
    Except MemoriesBackendError SearchMatcher :=
  let comparison : SearchComparison := ⟨caseSensitive, normalized⟩
  let preparedQueries := queries.map (comparison.prepare std)
  if preparedQueries.any (·.isEmpty) then .error .emptyQuery
  else .ok ⟨queries, preparedQueries, length_map _, comparison, matchMode⟩

/-- The query stands in the line. -/
def SearchMatcher.hits (line query : Str) : Bool := decide (query <:+: matcher.comparison.prepare std line)

def SearchMatcher.matchedQueryFlags (line : Str) : List Bool :=
  matcher.preparedQueries.map (matcher.hits std line)

def SearchMatcher.matchedQueries (flags : List Bool) : List Str :=
  ((matcher.queries.zip flags).filter (·.2)).map (·.1)

def buildSearchMatch (path : Str) (lines : List Str) (matchStartIndex matchEndIndex contextLines : Nat)
    (matchedQueries : List Str) : MemorySearchMatch :=
  let contentStartIndex := matchStartIndex - contextLines
  let contentEndIndex := min (matchEndIndex + contextLines + 1) lines.length
  ⟨path, matchStartIndex + 1, contentStartIndex + 1,
    joinLines ((lines.take contentEndIndex).drop contentStartIndex), matchedQueries⟩

/-- The inner loop over the lines of a window: it ends as soon as every query has matched. -/
def growWindow : List Bool → Nat → List (List Bool) → Option (Nat × List Bool)
  | _, _, [] => none
  | flags, endIndex, line :: rest =>
    let flags := zipWith or flags line
    if flags.all id then some (endIndex, flags) else growWindow flags (endIndex + 1) rest

/-- The window that is grown from a line: first line, last line, and the queries that matched. -/
def grownFrom (queries lineCount : Nat) (lineMatches : List (List Bool)) (startIndex : Nat) :
    Option (Nat × Nat × List Bool) :=
  if (lineMatches.getD startIndex []).any id then
    let lastAllowedIndex := min (startIndex + (lineCount - 1)) (lineMatches.length - 1)
    (growWindow (replicate queries false) startIndex
      ((lineMatches.take (lastAllowedIndex + 1)).drop startIndex)).map (startIndex, ·)
  else none

def grownWindows (queries lineCount : Nat) (lineMatches : List (List Bool)) : List (Nat × Nat × List Bool) :=
  (range lineMatches.length).filterMap (grownFrom queries lineCount lineMatches)

def strictlyContainsAnotherWindow (windows : List (Nat × Nat × List Bool)) (window : Nat × Nat × List Bool)
    (idx : Nat) : Bool :=
  windows.zipIdx.any fun (other, otherIdx) => idx != otherIdx && decide (window.1 ≤ other.1) &&
    decide (other.2.1 ≤ window.2.1) && (window.1 != other.1 || window.2.1 != other.2.1)

def searchFile (contextLines : Nat) (path content : Str) : List MemorySearchMatch :=
  let lines := lines content
  let lineMatches := lines.map (matcher.matchedQueryFlags std)
  let onLine (p : List Bool → Bool) := (lineMatches.zipIdx.filter (p ·.1)).map fun (flags, idx) =>
    buildSearchMatch path lines idx idx contextLines (matcher.matchedQueries flags)
  match matcher.matchMode with
  | .any => onLine (·.any id)
  | .allOnSameLine => onLine (·.all id)
  | .allWithinLines lineCount =>
    let windows := grownWindows matcher.queries.length lineCount lineMatches
    (windows.zipIdx.filter fun (window, idx) => !strictlyContainsAnotherWindow windows window idx).map
      fun (window, _) => buildSearchMatch path lines window.1 window.2.1 contextLines
        (matcher.matchedQueries window.2.2)

/-- The order of the results: by path, then by line. -/
def inOrder (found : List MemorySearchMatch) : List MemorySearchMatch :=
  found.insertionSort fun a b => toLex (a.path, a.matchLineNumber) ≤ toLex (b.path, b.matchLineNumber)

def checkedQueries (request : SearchMemoriesRequest) : Except MemoriesBackendError (List Str) :=
  let queries := request.queries.map trim
  if queries.isEmpty || queries.any (·.isEmpty) then .error .emptyQuery
  else if request.matchMode = .allWithinLines 0 then .error .invalidMatchWindow
  else .ok queries

def startIndexOf : Option Str → Except MemoriesBackendError Nat
  | none => .ok 0
  | some cursor =>
    match parseUsize cursor with
    | some startIndex => .ok startIndex
    | none => .error (.invalidCursor cursor "must be a non-negative integer".toList)

def page (queries : List Str) (matchMode : SearchMatchMode) (maxResults startIndex : Nat)
    (found : List MemorySearchMatch) : Except MemoriesBackendError SearchMemoriesResponse :=
  if found.length < startIndex then
    .error (.invalidCursor (printUsize startIndex) "exceeds result count".toList)
  else
    let endIndex := min (startIndex + maxResults) found.length
    let nextCursor := if endIndex < found.length then some (printUsize endIndex) else none
    .ok ⟨queries, matchMode, (found.take endIndex).drop startIndex, nextCursor, nextCursor.isSome⟩

/-- `search` over the text files below the path of the request. -/
def search (files : List (Str × Str)) (request : SearchMemoriesRequest) :
    Except MemoriesBackendError SearchMemoriesResponse := do
  let queries ← checkedQueries request
  let startIndex ← startIndexOf request.cursor
  let matcher ← SearchMatcher.new std queries request.matchMode request.caseSensitive request.normalized
  page queries request.matchMode (min request.maxResults maxSearchResults) startIndex
    (inOrder (files.flatMap fun file => searchFile std matcher request.contextLines file.1 file.2))

/-- A client that asks for page after page. -/
def follow (files : List (Str × Str)) : Nat → SearchMemoriesRequest →
    Except MemoriesBackendError (List MemorySearchMatch)
  | 0, _ => .ok []
  | pages + 1, request => do
    let response ← search std files request
    match response.nextCursor with
    | none => return response.found
    | some cursor => return response.found ++ (← follow files pages { request with cursor := some cursor })

/-- Every query has matched before or matches one of the lines. -/
def Covered (flag : Str → Bool) (lines : List Str) : Prop :=
  ∀ query ∈ matcher.preparedQueries, flag query = true ∨ ∃ line ∈ lines, matcher.hits std line query = true

def orHits (flag : Str → Bool) (line : Str) : Str → Bool :=
  fun query => flag query || matcher.hits std line query

/-- At most so many lines, and every query matches one of them. -/
structure Window (lines : List Str) (lineCount first last : Nat) : Prop where
  le : first ≤ last
  lt : last < lines.length
  short : last < first + lineCount
  covers : ∀ query ∈ matcher.preparedQueries, ∃ index line, first ≤ index ∧ index ≤ last ∧
    lines[index]? = some line ∧ matcher.hits std line query = true

/-- A window that contains no other one. -/
def Minimal (lines : List Str) (lineCount first last : Nat) : Prop :=
  Window std matcher lines lineCount first last ∧ ∀ i j, Window std matcher lines lineCount i j → first ≤ i →
    j ≤ last → i = first ∧ j = last

/-- A file's matches are its minimal windows, each once and from the first line on. -/
def FindsMinimal (lineCount contextLines : Nat) (path content : Str) : Prop :=
  ∃ windows : List (Nat × Nat),
    searchFile std matcher contextLines path content = windows.map (fun window =>
      buildSearchMatch path (lines content) window.1 window.2 contextLines matcher.queries) ∧
    windows.Pairwise (·.1 < ·.1) ∧ ∀ first last,
      (first, last) ∈ windows ↔ Minimal std matcher (lines content) lineCount first last

variable {std matcher} {lines : List Str} {lineCount : Nat}

theorem covered_cons : Covered std matcher flag (line :: lines) ↔
    Covered std matcher (orHits std matcher flag line) lines := by
  simp only [Covered, orHits, mem_cons, Bool.or_eq_true, or_assoc, exists_eq_or_imp]

theorem covered_nil : Covered std matcher flag [] ↔ (matcher.preparedQueries.map flag).all id = true := by
  simp [Covered]

theorem growWindow_cons : growWindow (matcher.preparedQueries.map flag) first
      ((line :: lines).map (matcher.matchedQueryFlags std)) =
    if (matcher.preparedQueries.map (orHits std matcher flag line)).all id then
      some (first, matcher.preparedQueries.map (orHits std matcher flag line))
    else growWindow (matcher.preparedQueries.map (orHits std matcher flag line)) (first + 1)
      (lines.map (matcher.matchedQueryFlags std)) := by
  rw [map_cons, growWindow, SearchMatcher.matchedQueryFlags, zipWith_map, zipWith_self]
  rfl

/-- A window ends behind a line up to which every query has matched. -/
theorem growWindow_some
    (h : growWindow (matcher.preparedQueries.map flag) first (lines.map (matcher.matchedQueryFlags std)) =
      some (last, flags)) :
    ∃ n < lines.length, last = first + n ∧ Covered std matcher flag (lines.take (n + 1)) ∧
      flags = matcher.preparedQueries.map fun _ => true := by
  induction lines generalizing flag first with
  | nil => cases h
  | cons line lines ih =>
    rw [growWindow_cons] at h
    split at h
    · rename_i ha
      cases h
      refine ⟨0, by simp, rfl, covered_cons.mpr (covered_nil.mpr ha), map_congr_left ?_⟩
      simpa using ha
    · obtain ⟨n, hn, rfl, hc, rfl⟩ := ih h
      exact ⟨n + 1, by simpa using hn, by omega, covered_cons.mpr hc, rfl⟩

theorem growWindow_of_covered (hn : n < lines.length) (hc : Covered std matcher flag (lines.take (n + 1)))
    (first : Nat) : ∃ m ≤ n, ∃ flags,
      growWindow (matcher.preparedQueries.map flag) first (lines.map (matcher.matchedQueryFlags std)) =
        some (first + m, flags) := by
  induction lines generalizing flag first n with
  | nil => cases hn
  | cons line lines ih =>
    rw [growWindow_cons]
    split
    · exact ⟨0, Nat.zero_le n, _, rfl⟩
    · rename_i ha
      rw [take_succ_cons, covered_cons] at hc
      cases n with
      | zero => exact absurd (covered_nil.mp hc) ha
      | succ n =>
        obtain ⟨m, hm, flags, hg⟩ := ih (by simpa using hn) hc (first + 1)
        exact ⟨m + 1, by omega, flags, by rw [hg, Nat.add_right_comm]; rfl⟩

theorem covered_iff (hn : first + n ≤ bound) : Covered std matcher (fun _ => false)
      (((lines.take (bound + 1)).drop first).take (n + 1)) ↔
    ∀ query ∈ matcher.preparedQueries, ∃ idx line, first ≤ idx ∧ idx ≤ first + n ∧
      lines[idx]? = some line ∧ matcher.hits std line query = true := by
  refine forall₂_congr fun query _ => ?_
  simp only [Bool.false_eq_true, false_or, mem_iff_getElem?, getElem?_take, getElem?_drop]
  constructor
  · rintro ⟨line, ⟨k, hk⟩, hh⟩
    split at hk
    · split at hk
      · exact ⟨first + k, line, by omega, by omega, hk, hh⟩
      · cases hk
    · cases hk
  · rintro ⟨idx, line, hle, hlast, hl, hh⟩
    refine ⟨line, ⟨idx - first, ?_⟩, hh⟩
    rw [if_pos (by omega), if_pos (by omega), Nat.add_sub_cancel' hle, hl]

theorem mem_grownWindows : (first, last, flags) ∈
      grownWindows matcher.queries.length lineCount (lines.map (matcher.matchedQueryFlags std)) ↔
    (∃ line, lines[first]? = some line ∧ ∃ query ∈ matcher.preparedQueries, matcher.hits std line query = true) ∧
      growWindow (matcher.preparedQueries.map fun _ => false) first
        (((lines.take (min (first + (lineCount - 1)) (lines.length - 1) + 1)).drop first).map
          (matcher.matchedQueryFlags std)) = some (last, flags) := by
  have hs : ((lines.map (matcher.matchedQueryFlags std)).getD first []).any id = true ↔
      ∃ line, lines[first]? = some line ∧ ∃ query ∈ matcher.preparedQueries, matcher.hits std line query = true := by
    rw [getD_eq_getElem?_getD, getElem?_map]
    cases lines[first]? <;> simp [SearchMatcher.matchedQueryFlags]
  simp only [grownWindows, grownFrom, mem_filterMap, mem_range, ← map_take, ← map_drop, length_map,
    ← matcher.length_prepared, ← map_const']
  constructor
  · rintro ⟨start, _, h⟩
    split at h
    · rename_i ha
      obtain ⟨⟨j, fl⟩, hg, he⟩ := Option.map_eq_some_iff.mp h
      cases he
      exact ⟨hs.mp ha, hg⟩
    · cases h
  · rintro ⟨hl, hg⟩
    obtain ⟨line, hget, _⟩ := hl
    refine ⟨first, (List.getElem?_eq_some_iff.mp hget).1, ?_⟩
    rw [if_pos (hs.mpr ⟨line, hget, by assumption⟩), hg]
    rfl

theorem window_of_grown (hcount : 1 ≤ lineCount) (h : (first, last, flags) ∈
      grownWindows matcher.queries.length lineCount (lines.map (matcher.matchedQueryFlags std))) :
    Window std matcher lines lineCount first last ∧ flags = matcher.preparedQueries.map fun _ => true := by
  obtain ⟨⟨line, hl, _⟩, hg⟩ := mem_grownWindows.mp h
  obtain ⟨n, hn, rfl, hc, hf⟩ := growWindow_some hg
  have hlt := (List.getElem?_eq_some_iff.mp hl).1
  simp only [length_drop, length_take] at hn
  exact ⟨⟨by omega, by omega, by omega, (covered_iff (by omega)).mp hc⟩, hf⟩

/-- Inside every window one is grown, from the first line on that matches a query. -/
theorem exists_grown (hq : matcher.preparedQueries ≠ []) (h : Window std matcher lines lineCount first last) :
    ∃ i j flags, (i, j, flags) ∈ grownWindows matcher.queries.length lineCount
      (lines.map (matcher.matchedQueryFlags std)) ∧ first ≤ i ∧ j ≤ last := by
  induction hd : last - first using Nat.strong_induction_on generalizing first with
  | _ d ih =>
    have hle := h.le
    have hlt := h.lt
    have hs := h.short
    by_cases hm : ∃ line, lines[first]? = some line ∧ ∃ query ∈ matcher.preparedQueries,
        matcher.hits std line query = true
    · have hlast : first + (last - first) = last := by omega
      have hb : first + (last - first) ≤ min (first + (lineCount - 1)) (lines.length - 1) := by omega
      have hc := (covered_iff hb).mpr (by rw [hlast]; exact h.covers)
      obtain ⟨m, hle, flags, hg⟩ :=
        growWindow_of_covered (by simp only [length_drop, length_take]; omega) hc first
      exact ⟨first, first + m, flags, mem_grownWindows.mpr ⟨hm, hg⟩, Nat.le_refl _, by omega⟩
    · have hn : ∀ query ∈ matcher.preparedQueries, ∃ idx line, first + 1 ≤ idx ∧ idx ≤ last ∧
          lines[idx]? = some line ∧ matcher.hits std line query = true := by
        intro query hquery
        obtain ⟨idx, line, hi, hj, hl, hh⟩ := h.covers query hquery
        have hne : idx ≠ first := by
          rintro rfl
          exact hm ⟨line, hl, query, hquery, hh⟩
        exact ⟨idx, line, by omega, hj, hl, hh⟩
      obtain ⟨query, hquery⟩ := exists_mem_of_ne_nil _ hq
      obtain ⟨idx, _, hi, hj, _⟩ := hn query hquery
      obtain ⟨i, j, flags, hmem, hle, he⟩ := ih (last - (first + 1)) (by omega) ⟨by omega, hlt, by omega, hn⟩ rfl
      exact ⟨i, j, flags, hmem, by omega, he⟩

theorem grownFrom_start (h : grownFrom queries lineCount lineMatches start = some window) : window.1 = start := by
  unfold grownFrom at h
  split at h
  · obtain ⟨_, _, rfl⟩ := Option.map_eq_some_iff.mp h
    rfl
  · cases h

theorem grownWindows_increasing (queries lineCount : Nat) (lineMatches : List (List Bool)) :
    (grownWindows queries lineCount lineMatches).Pairwise (·.1 < ·.1) := by
  refine Pairwise.filterMap _ (fun a b hlt window hw x ho => ?_) pairwise_lt_range
  rw [grownFrom_start hw, grownFrom_start ho]
  exact hlt

theorem strictlyContainsAnotherWindow_iff {windows : List (Nat × Nat × List Bool)} (h : windows[idx]? = some window) :
    strictlyContainsAnotherWindow windows window idx = true ↔ ∃ other ∈ windows, window.1 ≤ other.1 ∧
      other.2.1 ≤ window.2.1 ∧ ¬(other.1 = window.1 ∧ other.2.1 = window.2.1) := by
  rw [strictlyContainsAnotherWindow, any_eq_true]
  constructor
  · rintro ⟨⟨other, otherIdx⟩, hm, hc⟩
    simp only [Bool.and_eq_true, Bool.or_eq_true, bne_iff_ne, decide_eq_true_eq] at hc
    exact ⟨other, mem_of_getElem? (mem_zipIdx_iff_getElem?.mp hm), by omega⟩
  · rintro ⟨other, hm, hc⟩
    obtain ⟨otherIdx, ho⟩ := mem_iff_getElem?.mp hm
    have hne : idx ≠ otherIdx := by
      rintro rfl
      rw [h] at ho
      cases ho
      exact hc.2.2 ⟨rfl, rfl⟩
    refine ⟨(other, otherIdx), mem_zipIdx_iff_getElem?.mpr ho, ?_⟩
    simp only [Bool.and_eq_true, Bool.or_eq_true, bne_iff_ne, decide_eq_true_eq]
    omega

theorem matchedQueries_all (matcher : SearchMatcher) :
    matcher.matchedQueries (matcher.preparedQueries.map fun _ => true) = matcher.queries := by
  have ha : ∀ pair ∈ matcher.queries.zip (matcher.preparedQueries.map fun _ => true), pair.2 = true := by
    intro pair hp
    obtain ⟨_, _, he⟩ := mem_map.mp (of_mem_zip hp).2
    exact he.symm
  rw [SearchMatcher.matchedQueries, filter_eq_self.mpr ha]
  exact map_fst_zip (by simp [matcher.length_prepared])

theorem searchFile_windows (hmode : matcher.matchMode = .allWithinLines lineCount) (hc : 1 ≤ lineCount)
    (hq : matcher.preparedQueries ≠ []) (contextLines : Nat) (path content : Str) :
    FindsMinimal std matcher lineCount contextLines path content := by
  unfold FindsMinimal searchFile
  rw [hmode]
  set grown := grownWindows matcher.queries.length lineCount
    ((RustStr.lines content).map (matcher.matchedQueryFlags std)) with hg
  refine ⟨(grown.zipIdx.filter fun (window, idx) => !strictlyContainsAnotherWindow grown window idx).map
    fun e => (e.1.1, e.1.2.1), ?_, ?_, fun first last => ?_⟩
  · rw [map_map]
    refine map_congr_left fun e he => ?_
    have hm := mem_of_getElem? (mem_zipIdx_iff_getElem?.mp (mem_of_mem_filter he))
    simp only [Function.comp_apply, (window_of_grown hc hm).2, matchedQueries_all]
  · have hp : (grown.zipIdx.map Prod.fst).Pairwise (·.1 < ·.1) := by
      rw [zipIdx_map_fst]
      exact grownWindows_increasing _ _ _
    exact pairwise_map.mpr ((pairwise_map.mp hp).sublist filter_sublist)
  · simp only [mem_map, mem_filter, Bool.not_eq_true', Prod.exists, Prod.mk.injEq]
    constructor
    · rintro ⟨first, last, flags, idx, ⟨hm, hn⟩, rfl, rfl⟩
      rw [mem_zipIdx_iff_getElem?] at hm
      refine ⟨(window_of_grown hc (mem_of_getElem? hm)).1, fun i j hw hi hj => ?_⟩
      obtain ⟨i', j', flags', hin, hi', hj'⟩ := exists_grown hq hw
      have heq : i' = first ∧ j' = last := by
        by_contra hne
        rw [Bool.eq_false_iff, ne_eq, strictlyContainsAnotherWindow_iff hm] at hn
        exact hn ⟨_, hin, hi.trans hi', hj'.trans hj, hne⟩
      omega
    · rintro ⟨hw, hmin⟩
      obtain ⟨i, j, flags, hin, hi, hj⟩ := exists_grown hq hw
      obtain ⟨rfl, rfl⟩ := hmin i j (window_of_grown hc hin).1 hi hj
      obtain ⟨idx, hid⟩ := mem_iff_getElem?.mp hin
      refine ⟨i, j, flags, idx, ⟨mem_zipIdx_iff_getElem?.mpr hid, ?_⟩, rfl, rfl⟩
      rw [Bool.eq_false_iff, ne_eq, strictlyContainsAnotherWindow_iff hid]
      rintro ⟨x, ho, hle, hge, hne⟩
      exact hne (hmin _ _ (window_of_grown hc ho).1 hle hge)

theorem follow_from (files : List (Str × Str)) (req : SearchMemoriesRequest)
    (hq : checkedQueries req = .ok queries)
    (hm : SearchMatcher.new std queries req.matchMode req.caseSensitive req.normalized = .ok matcher)
    (hp : 0 < req.maxResults) (hf : found = inOrder (files.flatMap fun file =>
      searchFile std matcher req.contextLines file.1 file.2))
    (hc : startIndexOf cursor = .ok start) (hs : start ≤ found.length) (hn : found.length - start < pages) :
    follow std files pages { req with cursor } = .ok (found.drop start) := by
  induction pages generalizing cursor start with
  | zero => omega
  | succ pages ih =>
    have hsearch : search std files { req with cursor } = page queries req.matchMode
        (min req.maxResults maxSearchResults) start found := by
      have hq' : checkedQueries { req with cursor } = .ok queries := hq
      simp only [search, hq', hc, hf, bind, Except.bind, hm]
    have hmax : 0 < min req.maxResults maxSearchResults := Nat.lt_min.mpr ⟨hp, by decide⟩
    rw [follow, hsearch, page, if_neg (Nat.not_lt.mpr hs)]
    by_cases he : start + min req.maxResults maxSearchResults < found.length
    · have hcursor : startIndexOf (some (printUsize (start + min req.maxResults maxSearchResults))) =
          .ok (start + min req.maxResults maxSearchResults) := by simp [startIndexOf, parseUsize_printUsize]
      have hnext := ih hcursor (Nat.le_of_lt he) (by omega)
      simp only [Nat.min_eq_left (Nat.le_of_lt he), if_pos he, bind, Except.bind, hnext]
      refine congrArg Except.ok ?_
      rw [drop_take, Nat.add_sub_cancel_left, ← drop_drop, take_append_drop]
    · simp only [Nat.min_eq_right (Nat.not_lt.mp he), Nat.lt_irrefl, if_false, take_length]
      rfl

theorem of_checkedQueries (h : checkedQueries request = .ok queries) :
    queries ≠ [] ∧ request.matchMode ≠ .allWithinLines 0 := by
  simp only [checkedQueries] at h
  split at h
  · cases h
  · split at h
    · cases h
    · cases h
      simp_all

theorem of_new (h : SearchMatcher.new std queries matchMode caseSensitive normalized = .ok matcher) :
    matcher.queries = queries ∧ matcher.matchMode = matchMode := by
  simp only [SearchMatcher.new] at h
  split at h
  · cases h
  · cases h
    exact ⟨rfl, rfl⟩

/-- The windows of every file are found exactly, and page after page all matches of all files are handed out once, by
path and line. -/
theorem search_exact (files : List (Str × Str)) (request : SearchMemoriesRequest)
    (hq : checkedQueries request = .ok queries)
    (hm : SearchMatcher.new std queries request.matchMode request.caseSensitive request.normalized = .ok matcher)
    (hmode : request.matchMode = .allWithinLines lineCount) (hpage : 0 < request.maxResults)
    (hcursor : request.cursor = none) :
    (∀ path content, FindsMinimal std matcher lineCount request.contextLines path content) ∧
    ∃ found, found ~ (files.flatMap fun file => searchFile std matcher request.contextLines file.1 file.2) ∧
      found.Pairwise (fun a b => toLex (a.path, a.matchLineNumber) ≤ toLex (b.path, b.matchLineNumber)) ∧
      ∀ pages, found.length < pages → follow std files pages request = .ok found := by
  obtain ⟨hne, hz⟩ := of_checkedQueries hq
  obtain ⟨rfl, hmax⟩ := of_new hm
  have hc : 1 ≤ lineCount := by
    rw [hmode] at hz
    exact Nat.one_le_iff_ne_zero.mpr fun h => hz (congrArg _ h)
  have hp : matcher.preparedQueries ≠ [] := by
    rw [← length_pos_iff, matcher.length_prepared]
    exact length_pos_iff.mpr hne
  refine ⟨searchFile_windows (hmax.trans hmode) hc hp request.contextLines, inOrder _,
    perm_insertionSort _ _, pairwise_insertionSort _ _, fun pages hpages => ?_⟩
  have h := follow_from files request hq hm hpage rfl (rfl : startIndexOf none = .ok 0) (Nat.zero_le _)
    (by simpa using hpages)
  rw [← hcursor] at h
  exact h

def asciiTables : StdLib := ⟨map Char.toLower, Char.isAlphanum⟩

def twoQueries : SearchMemoriesRequest := ⟨["a".toList, "b".toList], .allWithinLines 2, none, 0, true, false, 1⟩

/-- The two windows of the file, one page each. -/
theorem twoQueries_paged :
    let matcher : SearchMatcher :=
      ⟨["a".toList, "b".toList], ["a".toList, "b".toList], rfl, ⟨true, false⟩, .allWithinLines 2⟩
    let file := ("m".toList, "a\nb\n\nb\na\na".toList)
    let found : List MemorySearchMatch :=
      [⟨"m".toList, 1, 1, "a\nb".toList, ["a".toList, "b".toList]⟩,
        ⟨"m".toList, 4, 4, "b\na".toList, ["a".toList, "b".toList]⟩]
    FindsMinimal asciiTables matcher 2 0 file.1 file.2 ∧
      searchFile asciiTables matcher 0 file.1 file.2 = found ∧
      ∃ ordered, ordered ~ found ∧ ∀ pages, 2 < pages → follow asciiTables [file] pages twoQueries = .ok ordered := by
  intro matcher file found
  have hfound : searchFile asciiTables matcher 0 file.1 file.2 = found := by decide
  obtain ⟨hminimal, ordered, hperm, _, hpages⟩ := search_exact [file] twoQueries rfl
    (rfl : SearchMatcher.new asciiTables twoQueries.queries (.allWithinLines 2) true false = .ok matcher) rfl
    (by decide) rfl
  rw [flatMap_singleton] at hperm
  have hperm' : ordered ~ found := hfound ▸ hperm
  exact ⟨hminimal _ _, hfound, ordered, hperm', fun pages h => hpages pages (hperm'.length_eq ▸ h)⟩

end MemorySearch
