import Ycode.ListGrowth
import Ycode.PatchHunk

/-!
# The streaming patch parser

A line machine with six modes. `processLine` consumes one complete line,
`pushDelta` cuts an arbitrary piece of text into lines and keeps the unfinished
one in a buffer, and `finish` takes what is left in the buffer as the last line.
A line that is refused leaves the hunks and the mode as they were, so the new
state is only returned on success; the buffer and the line number are gone by
then, which is why `pushDelta` and `finish` return the parser in both cases.
-/
namespace StreamingParser

open RustStr PatchHunk ListGrowth

inductive StreamingParserMode where
  | notStarted
  | startedPatch
  | addFile
  | deleteFile
  | updateFile (hunkLineNumber : Nat)
  | endedPatch
  deriving DecidableEq, Repr

structure StreamingParserState where
  mode : StreamingParserMode
  hunks : List Hunk
  environmentId : Option Str
  deriving DecidableEq, Repr

structure StreamingPatchParser where
  lineBuffer : Str
  state : StreamingParserState
  lineNumber : Nat
  deriving DecidableEq, Repr

/-- `StreamingPatchParser::default()` -/
def StreamingPatchParser.default : StreamingPatchParser := ⟨[], ⟨.notStarted, [], none⟩, 0⟩

/-! ## Error texts -/

def firstLineError : ParseError :=
  .invalidPatchError "The first line of the patch must be '*** Begin Patch'".toList

def lastLineError : ParseError := .invalidPatchError "The last line of the patch must be '*** End Patch'".toList

def hunkHeaderError (lineNumber : Nat) (trimmed : Str) : ParseError :=
  .invalidHunkError ("'".toList ++ trimmed ++ ("' is not a valid hunk header. Valid hunk headers: " ++
    "'*** Add File: \x7bpath\x7d', '*** Delete File: \x7bpath\x7d', " ++
    "'*** Update File: \x7bpath\x7d'").toList) lineNumber

def unexpectedLineError (lineNumber : Nat) (line : Str) : ParseError :=
  .invalidHunkError ("Unexpected line found in update hunk: '".toList ++ line ++
    ("'. Every line should start with ' ' (context line), '+' (added line), " ++
    "or '-' (removed line)").toList) lineNumber

def contextMarkerError (lineNumber : Nat) (line : Str) : ParseError :=
  .invalidHunkError ("Expected update hunk to start with a @@ context marker, got: '".toList ++
    line ++ "'".toList) lineNumber

def noLinesError (lineNumber : Nat) : ParseError :=
  .invalidHunkError "Update hunk does not contain any lines".toList lineNumber

def emptyHunkError (path : PathBuf) (hunkLineNumber : Nat) : ParseError :=
  .invalidHunkError ("Update file hunk for path '".toList ++ path ++ "' is empty".toList)
    hunkLineNumber

/-! ## One line -/

def ensureUpdateHunkIsNotEmpty (lineNumber : Nat) (st : StreamingParserState) (line : Str) :
    Except ParseError Unit :=
  match st.hunks.getLast? with
  | some (.updateFile path _ chunks) =>
    match chunks.getLast?, st.mode with
    | none, .updateFile hunkLineNumber => .error (emptyHunkError path hunkLineNumber)
    | none, _ => .ok ()
    | some chunk, _ =>
      if chunk.hasNoLines then
        if line = endPatchMarker then .error (noLinesError lineNumber)
        else .error (unexpectedLineError lineNumber line)
      else .ok ()
  | _ => .ok ()

/-- The text behind the environment marker, which is a marker only directly
after the first line. -/
def environmentLine (mode : StreamingParserMode) (trimmed : Str) : Option Str :=
  if mode = .startedPatch then stripPrefix trimmed environmentIdMarker else none

def setEnvironmentId (st : StreamingParserState) (rest : Str) :
    Except ParseError StreamingParserState :=
  if st.environmentId.isSome then
    .error (.invalidPatchError
      "apply_patch environment_id cannot be specified more than once".toList)
  else if (trim rest).isEmpty then
    .error (.invalidPatchError "apply_patch environment_id cannot be empty".toList)
  else .ok { st with environmentId := some (trim rest) }

/-- Close the hunk that is being read and go on in a new mode. -/
def openHunk (lineNumber : Nat) (st : StreamingParserState) (line : Str)
    (mode : StreamingParserMode) (new : List Hunk) : Except ParseError StreamingParserState :=
  (ensureUpdateHunkIsNotEmpty lineNumber st line).map fun _ =>
    { st with mode := mode, hunks := st.hunks ++ new }

/-- `some` new state when the line was a header, `none` when it was not one. -/
def handleHunkHeadersAndEndPatch (lineNumber : Nat) (st : StreamingParserState) (trimmed : Str) :
    Except ParseError (Option StreamingParserState) :=
  match environmentLine st.mode trimmed with
  | some rest => (setEnvironmentId st rest).map some
  | none =>
  if trimmed = endPatchMarker then (openHunk lineNumber st trimmed .endedPatch []).map some
  else match stripPrefix trimmed addFileMarker with
  | some path => (openHunk lineNumber st trimmed .addFile [.addFile path []]).map some
  | none => match stripPrefix trimmed deleteFileMarker with
  | some path => (openHunk lineNumber st trimmed .deleteFile [.deleteFile path]).map some
  | none => match stripPrefix trimmed updateFileMarker with
  | some path => (openHunk lineNumber st trimmed (.updateFile lineNumber) [.updateFile path none []]).map some
  | none => .ok none

/-- The lines of an update hunk that open a chunk. -/
def isChunkHeader (updateLine : Str) : Bool :=
  updateLine == emptyChangeContextMarker || startsWith updateLine changeContextMarker

def newChunk (changeContext : Option Str) : UpdateFileChunk := ⟨changeContext, [], [], false⟩

/-- Add lines to the last chunk; the first chunk may have no header. -/
def addToLast (chunks : List UpdateFileChunk) (old new : List Str) : List UpdateFileChunk :=
  mapLast (fun c => { c with oldLines := c.oldLines ++ old, newLines := c.newLines ++ new })
    (if chunks.isEmpty then [newChunk none] else chunks)

def closeLast (chunks : List UpdateFileChunk) : List UpdateFileChunk :=
  mapLast (fun c => { c with isEndOfFile := true }) chunks

def lastIsEndOfFile (chunks : List UpdateFileChunk) : Bool := chunks.getLast?.any (·.isEndOfFile)

def lastHasNoLines (chunks : List UpdateFileChunk) : Bool := chunks.getLast?.any (·.hasNoLines)

def lastHasLines (chunks : List UpdateFileChunk) : Bool := chunks.getLast?.any (! ·.hasNoLines)

/-- What a line that is no header of any kind adds to the chunks. -/
def contentLine (lineNumber : Nat) (chunks : List UpdateFileChunk) (line : Str) :
    Except ParseError (List UpdateFileChunk) :=
  if line.isEmpty then .ok (addToLast chunks [[]] [[]])
  else match stripPrefix line [' '] with
  | some lineToAdd => .ok (addToLast chunks [lineToAdd] [lineToAdd])
  | none => match stripPrefix line ['+'] with
  | some lineToAdd => .ok (addToLast chunks [] [lineToAdd])
  | none => match stripPrefix line ['-'] with
  | some lineToRemove => .ok (addToLast chunks [lineToRemove] [])
  | none =>
    if lastHasLines chunks then .error (contextMarkerError lineNumber line)
    else .error (unexpectedLineError lineNumber line)

def chunkLine (lineNumber : Nat) (chunks : List UpdateFileChunk) (line : Str) :
    Except ParseError (List UpdateFileChunk) :=
  let updateLine := trimEnd line
  if isChunkHeader updateLine && lastHasNoLines chunks then
    .error (unexpectedLineError lineNumber line)
  else if updateLine = emptyChangeContextMarker then .ok (chunks ++ [newChunk none])
  else match stripPrefix updateLine changeContextMarker with
  | some changeContext => .ok (chunks ++ [newChunk (some changeContext)])
  | none =>
    if updateLine = eofMarker then
      if lastHasNoLines chunks then .error (noLinesError lineNumber) else .ok (closeLast chunks)
    else contentLine lineNumber chunks line

/-- The path of a move line, which stands before the first chunk. -/
def moveToLine (movePath : Option PathBuf) (chunks : List UpdateFileChunk) (updateLine : Str) :
    Option PathBuf :=
  if chunks.isEmpty && movePath.isNone then stripPrefix updateLine moveToMarker else none

/-- A line of an update hunk that is no header of another hunk. -/
def updateFileLine (lineNumber : Nat) (path : PathBuf) (movePath : Option PathBuf)
    (chunks : List UpdateFileChunk) (line : Str) : Except ParseError Hunk :=
  let updateLine := trimEnd line
  if lastIsEndOfFile chunks && updateLine.isEmpty then .ok (.updateFile path movePath chunks)
  else if lastIsEndOfFile chunks && !isChunkHeader updateLine then
    .error (contextMarkerError lineNumber line)
  else match moveToLine movePath chunks updateLine with
  | some moveToPath => .ok (.updateFile path (some moveToPath) chunks)
  | none => (chunkLine lineNumber chunks line).map (.updateFile path movePath)

/-- A line of an added file that is no header of another hunk. -/
def addFileLine (lineNumber : Nat) (path : PathBuf) (contents line : Str) :
    Except ParseError Hunk :=
  match stripPrefix line ['+'] with
  | some lineToAdd => .ok (.addFile path (contents ++ lineToAdd ++ ['\n']))
  | none => .error (hunkHeaderError lineNumber (trim line))

/-- Go on with `rest` if the line was no header. -/
def orElseLine (header : Except ParseError (Option StreamingParserState))
    (rest : Except ParseError StreamingParserState) : Except ParseError StreamingParserState :=
  match header with
  | .error e => .error e
  | .ok (some st) => .ok st
  | .ok none => rest

/-- Replace the hunk that is being read. -/
def setLast (st : StreamingParserState) (hunk : Hunk) : StreamingParserState :=
  { st with hunks := st.hunks.dropLast ++ [hunk] }

def processLine (lineNumber : Nat) (st : StreamingParserState) (line : Str) :
    Except ParseError StreamingParserState :=
  let trimmed := trim line
  match st.mode with
  | .notStarted =>
    if trimmed = beginPatchMarker then .ok { st with mode := .startedPatch }
    else .error firstLineError
  | .startedPatch | .deleteFile =>
    orElseLine (handleHunkHeadersAndEndPatch lineNumber st trimmed)
      (.error (hunkHeaderError lineNumber trimmed))
  | .addFile =>
    orElseLine (handleHunkHeadersAndEndPatch lineNumber st trimmed) <|
      match st.hunks.getLast? with
      | some (.addFile path contents) => (addFileLine lineNumber path contents line).map (setLast st)
      | _ => .error (hunkHeaderError lineNumber trimmed)
  | .updateFile _ =>
    orElseLine (handleHunkHeadersAndEndPatch lineNumber st (trimEnd line)) <|
      match st.hunks.getLast? with
      | some (.updateFile path movePath chunks) =>
        (updateFileLine lineNumber path movePath chunks line).map (setLast st)
      | _ => .error (unexpectedLineError lineNumber line)
  | .endedPatch => if trimmed.isEmpty then .ok st else .error lastLineError

/-! ## Text in pieces -/

def pushDelta (p : StreamingPatchParser) : Str → StreamingPatchParser × Except ParseError (List Hunk)
  | [] => (p, .ok p.state.hunks)
  | ch :: rest =>
    if ch = '\n' then
      match processLine (p.lineNumber + 1) p.state (stripCr p.lineBuffer) with
      | .ok st => pushDelta ⟨[], st, p.lineNumber + 1⟩ rest
      | .error e => (⟨[], p.state, p.lineNumber + 1⟩, .error e)
    else pushDelta { p with lineBuffer := p.lineBuffer ++ [ch] } rest

/-- The unterminated last line. An end marker may be indented in every mode. -/
def lastLine (lineNumber : Nat) (st : StreamingParserState) (line : Str) :
    Except ParseError StreamingParserState :=
  if trim line = endPatchMarker then openHunk lineNumber st (trim line) .endedPatch []
  else processLine lineNumber st line

def finish (p : StreamingPatchParser) : StreamingPatchParser × Except ParseError (List Hunk) :=
  let flushed : StreamingPatchParser × Except ParseError StreamingParserState :=
    if p.lineBuffer.isEmpty then (p, .ok p.state)
    else (⟨[], p.state, p.lineNumber + 1⟩, lastLine (p.lineNumber + 1) p.state p.lineBuffer)
  match flushed with
  | (p, .error e) => (p, .error e)
  | (p, .ok st) =>
    ({ p with state := st }, if st.mode = .endedPatch then .ok st.hunks else .error lastLineError)

/-! ## What one line can do -/

/-- The mode and the hunks a header line opens. -/
inductive Opened (lineNumber : Nat) : Str → StreamingParserMode → List Hunk → Prop
  | endPatch : Opened lineNumber endPatchMarker .endedPatch []
  | addFile (path : PathBuf) : Opened lineNumber (addFileMarker ++ path) .addFile [.addFile path []]
  | deleteFile (path : PathBuf) :
      Opened lineNumber (deleteFileMarker ++ path) .deleteFile [.deleteFile path]
  | updateFile (path : PathBuf) :
      Opened lineNumber (updateFileMarker ++ path) (.updateFile lineNumber) [.updateFile path none []]

/-- The text a header is looked for in: only inside an update hunk it must not be
indented. -/
def headerText (mode : StreamingParserMode) (line : Str) : Str :=
  match mode with
  | .updateFile _ => trimEnd line
  | _ => trim line

/-- Everything a line that is accepted can do to the state. -/
inductive LineStep (lineNumber : Nat) (st : StreamingParserState) (line : Str) :
    StreamingParserState → Prop
  | begun (hm : st.mode = .notStarted) (ht : trim line = beginPatchMarker) :
      LineStep lineNumber st line { st with mode := .startedPatch }
  | environment (id : Str) (hm : st.mode = .startedPatch) :
      LineStep lineNumber st line { st with environmentId := some id }
  | opened (mode : StreamingParserMode) (new : List Hunk)
      (hm : st.mode ≠ .notStarted ∧ st.mode ≠ .endedPatch)
      (hnew : Opened lineNumber (headerText st.mode line) mode new)
      (hok : ensureUpdateHunkIsNotEmpty lineNumber st (headerText st.mode line) = .ok ()) :
      LineStep lineNumber st line { st with mode := mode, hunks := st.hunks ++ new }
  | added (front : List Hunk) (path : PathBuf) (contents l : Str) (hm : st.mode = .addFile)
      (hst : st.hunks = front ++ [.addFile path contents]) (hl : line = '+' :: l) :
      LineStep lineNumber st line
        { st with hunks := front ++ [.addFile path (contents ++ l ++ ['\n'])] }
  | updated (front : List Hunk) (path : PathBuf) (movePath : Option PathBuf)
      (chunks : List UpdateFileChunk) (hunk : Hunk) (k : Nat) (hm : st.mode = .updateFile k)
      (hst : st.hunks = front ++ [.updateFile path movePath chunks])
      (hl : updateFileLine lineNumber path movePath chunks line = .ok hunk) :
      LineStep lineNumber st line { st with hunks := front ++ [hunk] }
  | blank (hm : st.mode = .endedPatch) (ht : trim line = []) : LineStep lineNumber st line st

theorem openHunk_ok (h : openHunk n st t mode new = .ok st') :
    ensureUpdateHunkIsNotEmpty n st t = .ok () ∧ st' = { st with mode := mode, hunks := st.hunks ++ new } := by
  obtain ⟨u, hok, he⟩ := map_eq_ok h
  exact ⟨hok, he.symm⟩

theorem handleHunkHeadersAndEndPatch_step (hm : st.mode ≠ .notStarted ∧ st.mode ≠ .endedPatch)
    (h : handleHunkHeadersAndEndPatch n st (headerText st.mode line) = .ok (some st')) :
    LineStep n st line st' := by
  have hopen : ∀ {mode new}, Opened n (headerText st.mode line) mode new →
      (openHunk n st (headerText st.mode line) mode new).map some = .ok (some st') →
      LineStep n st line st' := by
    intro mode new hn ho
    obtain ⟨s, hs, he⟩ := map_eq_ok ho
    obtain ⟨hok, rfl⟩ := openHunk_ok hs
    cases he
    exact .opened mode new hm hn hok
  unfold handleHunkHeadersAndEndPatch at h
  split at h
  · rename_i rest hr
    have hmode : st.mode = .startedPatch := by
      by_contra hne
      simp [environmentLine, hne] at hr
    obtain ⟨s, hs, he⟩ := map_eq_ok h
    cases he
    unfold setEnvironmentId at hs
    split at hs
    · cases hs
    · split at hs
      · cases hs
      · cases hs
        exact .environment _ hmode
  · split at h
    · rename_i he
      exact hopen (he ▸ .endPatch) h
    · split at h
      · rename_i hp
        exact hopen (stripPrefix_eq_some.mp hp ▸ .addFile _) h
      · split at h
        · rename_i hp
          exact hopen (stripPrefix_eq_some.mp hp ▸ .deleteFile _) h
        · split at h
          · rename_i hp
            exact hopen (stripPrefix_eq_some.mp hp ▸ .updateFile _) h
          · cases h

theorem orElseLine_ok (h : orElseLine header rest = .ok st) :
    header = .ok (some st) ∨ (header = .ok none ∧ rest = .ok st) := by
  unfold orElseLine at h
  split at h
  · cases h
  · cases h
    exact .inl rfl
  · exact .inr ⟨rfl, h⟩

theorem setLast_eq (hunk : Hunk) (hl : st.hunks.getLast? = some h) :
    ∃ pre, st.hunks = pre ++ [h] ∧ setLast st hunk = { st with hunks := pre ++ [hunk] } := by
  obtain ⟨pre, hf⟩ := List.getLast?_eq_some_iff.mp hl
  exact ⟨pre, hf, by simp [setLast, hf]⟩

theorem processLine_step (h : processLine n st line = .ok st') : LineStep n st line st' := by
  unfold processLine at h
  cases hm : st.mode with
  | notStarted =>
    simp only [hm] at h
    split at h
    · cases h
      exact .begun hm ‹_›
    · cases h
  | startedPatch | deleteFile =>
    simp only [hm] at h
    cases orElseLine_ok h with
    | inl hh => exact handleHunkHeadersAndEndPatch_step (by simp [hm]) (by rw [hm]; exact hh)
    | inr hr => cases hr.2
  | addFile =>
    simp only [hm] at h
    cases orElseLine_ok h with
    | inl hh => exact handleHunkHeadersAndEndPatch_step (by simp [hm]) (by rw [hm]; exact hh)
    | inr hr =>
      obtain ⟨-, hr⟩ := hr
      split at hr
      · rename_i path txt hlast
        obtain ⟨hunk, hhunk, rfl⟩ := map_eq_ok hr
        obtain ⟨pre, hf, hs⟩ := setLast_eq hunk hlast
        unfold addFileLine at hhunk
        split at hhunk
        · rename_i l hl
          cases hhunk
          rw [hs]
          exact .added pre path txt l hm hf (stripPrefix_eq_some.mp hl)
        · cases hhunk
      · cases hr
  | updateFile k =>
    simp only [hm] at h
    cases orElseLine_ok h with
    | inl hh => exact handleHunkHeadersAndEndPatch_step (by simp [hm]) (by rw [hm]; exact hh)
    | inr hr =>
      obtain ⟨-, hr⟩ := hr
      split at hr
      · rename_i path movePath cs hlast
        obtain ⟨hunk, hhunk, rfl⟩ := map_eq_ok hr
        obtain ⟨pre, hf, hs⟩ := setLast_eq hunk hlast
        rw [hs]
        exact .updated pre path movePath cs hunk k hm hf hhunk
      · cases hr
  | endedPatch =>
    simp only [hm] at h
    split at h
    · cases h
      exact .blank hm (by simpa using ‹(trim line).isEmpty = true›)
    · cases h

/-- The old and new lines a content line stands for. -/
inductive ContentOf : Str → List Str → List Str → Prop
  | empty : ContentOf [] [[]] [[]]
  | context (l : Str) : ContentOf (' ' :: l) [l] [l]
  | added (l : Str) : ContentOf ('+' :: l) [] [l]
  | removed (l : Str) : ContentOf ('-' :: l) [l] []

/-- Everything an accepted line of an update hunk can do to the hunk. -/
inductive UpdateStep (path : PathBuf) (movePath : Option PathBuf) (chunks : List UpdateFileChunk)
    (line : Str) : Hunk → Prop
  | closed (he : lastIsEndOfFile chunks = true) (ht : trimEnd line = []) :
      UpdateStep path movePath chunks line (.updateFile path movePath chunks)
  | moved (p : PathBuf) (hc : chunks = []) (hm : movePath = none)
      (ht : trimEnd line = moveToMarker ++ p) :
      UpdateStep path movePath chunks line (.updateFile path (some p) chunks)
  | header (ctx : Option Str) (hl : lastHasNoLines chunks = false)
      (ht : emptyChangeContextMarker <+: trimEnd line) :
      UpdateStep path movePath chunks line (.updateFile path movePath (chunks ++ [newChunk ctx]))
  | eof (hl : lastHasNoLines chunks = false) (ht : trimEnd line = eofMarker) :
      UpdateStep path movePath chunks line (.updateFile path movePath (closeLast chunks))
  | content (old new : List Str) (he : lastIsEndOfFile chunks = false) (h : ContentOf line old new) :
      UpdateStep path movePath chunks line (.updateFile path movePath (addToLast chunks old new))

theorem contentLine_ok_iff :
    contentLine n chunks line = .ok chunks' ↔
      ∃ old new, ContentOf line old new ∧ addToLast chunks old new = chunks' := by
  constructor
  · intro h
    unfold contentLine at h
    split at h
    · rename_i he
      cases h
      rw [List.isEmpty_iff.mp he]
      exact ⟨_, _, .empty, rfl⟩
    · split at h
      · rename_i hp
        cases h
        exact ⟨_, _, stripPrefix_eq_some.mp hp ▸ .context _, rfl⟩
      · split at h
        · rename_i hp
          cases h
          exact ⟨_, _, stripPrefix_eq_some.mp hp ▸ .added _, rfl⟩
        · split at h
          · rename_i hp
            cases h
            exact ⟨_, _, stripPrefix_eq_some.mp hp ▸ .removed _, rfl⟩
          · split at h <;> cases h
  · rintro ⟨old, new, hc, rfl⟩
    cases hc <;> simp [contentLine, stripPrefix_cons_ne]

theorem marker_of_isChunkHeader (h : isChunkHeader t = true) : emptyChangeContextMarker <+: t := by
  rw [isChunkHeader, Bool.or_eq_true, beq_iff_eq] at h
  cases h with
  | inl he => rw [he]
  | inr hs => exact List.IsPrefix.trans ⟨[' '], rfl⟩ (List.isPrefixOf_iff_prefix.mp hs)

/-- A content line is not taken for a chunk header. -/
theorem ContentOf.not_header (h : ContentOf line old new) : isChunkHeader (trimEnd line) = false := by
  by_contra hc
  obtain ⟨r, hr⟩ := marker_of_isChunkHeader (by simpa using hc)
  obtain ⟨t, ht⟩ := eq_cons_of_trimEnd (c := '@') hr.symm
  subst ht
  cases h

theorem chunkLine_step (ho : ¬(lastIsEndOfFile chunks && !isChunkHeader (trimEnd line)) = true)
    (h : chunkLine n chunks line = .ok chunks') :
    UpdateStep path movePath chunks line (.updateFile path movePath chunks') := by
  unfold chunkLine at h
  simp only at h
  split at h
  · cases h
  · rename_i hpend
    have hd : isChunkHeader (trimEnd line) = true → lastHasNoLines chunks = false := by
      intro hh
      simpa [hh] using hpend
    split at h
    · rename_i he
      cases h
      exact .header none (hd (by simp [isChunkHeader, he])) (by rw [he])
    · split at h
      · rename_i ctx hctx
        cases h
        have hh : isChunkHeader (trimEnd line) = true := by
          have hp : changeContextMarker <+: trimEnd line := ⟨ctx, (stripPrefix_eq_some.mp hctx).symm⟩
          simp [isChunkHeader, startsWith, List.isPrefixOf_iff_prefix.mpr hp]
        exact .header (some ctx) (hd hh) (marker_of_isChunkHeader hh)
      · split at h
        · split at h
          · cases h
          · rename_i ht hl
            cases h
            exact .eof (by simpa using hl) ht
        · obtain ⟨old, new, hc, rfl⟩ := contentLine_ok_iff.mp h
          exact .content old new (by simpa [hc.not_header] using ho) hc

theorem updateFileLine_step (h : updateFileLine n path movePath chunks line = .ok hunk) :
    UpdateStep path movePath chunks line hunk := by
  unfold updateFileLine at h
  simp only at h
  split at h
  · rename_i hc
    cases h
    rw [Bool.and_eq_true, List.isEmpty_iff] at hc
    exact .closed hc.1 hc.2
  · split at h
    · cases h
    · rename_i ho
      split at h
      · rename_i p hp
        cases h
        unfold moveToLine at hp
        split at hp
        · rename_i hc
          rw [Bool.and_eq_true, List.isEmpty_iff, Option.isNone_iff_eq_none] at hc
          exact .moved p hc.1 hc.2 (stripPrefix_eq_some.mp hp)
        · cases hp
      · obtain ⟨cs', hc, rfl⟩ := map_eq_ok h
        exact chunkLine_step ho hc

end StreamingParser
