import Ycode.PatchParser

/-!
# Printing and reading back

The patch grammar as a printer, and the proof that `parsePatch` reads back what
was printed. The parser is followed hunk by hunk: a state that may meet a header
is `Ready`, and the lines printed for a hunk lead from a ready state to a ready
state with that hunk added. No content line is ever taken for a marker, because
its first character is `+` or `-` and every marker starts with `*` or `@`.
-/
namespace PatchGrammar

open RustStr PatchHunk ListGrowth StreamingParser PatchParser List

variable {id : Option Str}

/-! ## The printer -/

def printHeader : Option Str → Str
  | none => emptyChangeContextMarker
  | some changeContext => changeContextMarker ++ changeContext

def printChunk (c : UpdateFileChunk) : List Str :=
  printHeader c.changeContext :: (c.oldLines.map ('-' :: ·) ++ c.newLines.map ('+' :: ·) ++
    if c.isEndOfFile then [eofMarker] else [])

def printMove : Option PathBuf → List Str
  | none => []
  | some path => [moveToMarker ++ path]

def printHunk : Hunk → List Str
  | .addFile path contents => (addFileMarker ++ path) :: (terminated contents).map ('+' :: ·)
  | .deleteFile path => [deleteFileMarker ++ path]
  | .updateFile path movePath chunks =>
    (updateFileMarker ++ path) :: (printMove movePath ++ chunks.flatMap printChunk)

def printEnvironment : Option Str → List Str
  | none => []
  | some id => [environmentIdMarker ++ ' ' :: id]

/-- The lines between the first and the last one. -/
def printBody (environmentId : Option Str) (hunks : List Hunk) : List Str :=
  printEnvironment environmentId ++ hunks.flatMap printHunk

/-- The newline behind the end marker is optional. -/
def printPatch (environmentId : Option Str) (hunks : List Hunk) (lf : Bool) : Str :=
  joinLines (beginPatchMarker :: printBody environmentId hunks ++ [endPatchMarker]) ++
    if lf then ['\n'] else []

/-! ## What can be printed -/

/-- What the grammar's `filename` token stands for once it is trimmed. -/
structure WellFormedName (s : Str) : Prop where
  ne_nil : s ≠ []
  trimmed : Trimmed s
  oneLine : '\n' ∉ s

structure WellFormedLine (l : Str) : Prop where
  oneLine : '\n' ∉ l
  noCr : l.getLast? ≠ some '\r'

structure WellFormedContext (s : Str) : Prop where
  ne_nil : s ≠ []
  trimmed : trimEnd s = s
  oneLine : '\n' ∉ s

structure WellFormedChunk (c : UpdateFileChunk) : Prop where
  context : ∀ s, c.changeContext = some s → WellFormedContext s
  hasLines : c.oldLines ≠ [] ∨ c.newLines ≠ []
  old : ∀ l ∈ c.oldLines, WellFormedLine l
  new : ∀ l ∈ c.newLines, WellFormedLine l

inductive WellFormed : Hunk → Prop
  | addFile {path : PathBuf} (ls : List Str) (hp : WellFormedName path)
      (hls : ∀ l ∈ ls, WellFormedLine l) :
      WellFormed (.addFile path (ls.flatMap (· ++ ['\n'])))
  | deleteFile {path : PathBuf} (hp : WellFormedName path) : WellFormed (.deleteFile path)
  | updateFile {path : PathBuf} {movePath : Option PathBuf} {chunks : List UpdateFileChunk}
      (hp : WellFormedName path) (hm : ∀ p, movePath = some p → WellFormedName p)
      (hne : chunks ≠ []) (hc : ∀ c ∈ chunks, WellFormedChunk c) :
      WellFormed (.updateFile path movePath chunks)

/-! ## Header lines -/

/-- A header may come now, and closing the hunk that is being read is allowed. -/
structure Ready (st : StreamingParserState) : Prop where
  started : st.mode ≠ .notStarted
  notEnded : st.mode ≠ .endedPatch
  closable : ∀ n t, ensureUpdateHunkIsNotEmpty n st t = .ok ()

/-- A marker with a trimmed name behind it looks the same in every mode. -/
theorem headerText_marker (hm : m.head? = some '*')
    (hn : WellFormedName name) : headerText mode (m ++ name) = m ++ name := by
  have he : trimEnd (m ++ name) = m ++ name := trimEnd_append_trimmed m hn.trimmed.2 hn.ne_nil
  have hs : trimStart (m ++ name) = m ++ name := by
    obtain ⟨m', rfl⟩ := head?_eq_some_iff.mp hm
    exact trimStart_cons_of_not _ (by decide)
  cases mode with
  | updateFile k => exact he
  | notStarted | startedPatch | addFile | deleteFile | endedPatch =>
    show trimEnd (trimStart (m ++ name)) = m ++ name
    rw [hs, he]

theorem processLine_of_header (hr : Ready st)
    (h : handleHunkHeadersAndEndPatch n st (headerText st.mode line) = .ok (some st')) :
    processLine n st line = .ok st' := by
  unfold processLine
  cases hm : st.mode with
  | notStarted => exact absurd hm hr.started
  | endedPatch => exact absurd hm hr.notEnded
  | startedPatch | deleteFile | addFile =>
    have h' : handleHunkHeadersAndEndPatch n st (trim line) = .ok (some st') := by rwa [hm] at h
    simp only [h']
    rfl
  | updateFile k =>
    have h' : handleHunkHeadersAndEndPatch n st (trimEnd line) = .ok (some st') := by rwa [hm] at h
    simp only [h']
    rfl

theorem openHunk_of_ready (hr : Ready st) :
    openHunk n st t mode new = .ok { st with mode := mode, hunks := st.hunks ++ new } := by
  rw [openHunk, hr.closable]
  rfl

theorem environmentLine_of_differ
    (h : differ environmentIdMarker m = true) : environmentLine mode (m ++ r) = none := by
  unfold environmentLine
  split
  · exact stripPrefix_of_differ h r
  · rfl

theorem stripPrefix_append : stripPrefix (p ++ r) p = some r := stripPrefix_eq_some.mpr rfl

theorem processLine_addFile (hr : Ready st) (hp : WellFormedName path) : processLine n st (addFileMarker ++ path) =
      .ok { st with mode := .addFile, hunks := st.hunks ++ [.addFile path []] } := by
  apply processLine_of_header hr
  rw [headerText_marker (by decide) hp, handleHunkHeadersAndEndPatch,
    environmentLine_of_differ (by decide), if_neg (append_ne_of_differ (by decide) path)]
  simp only [stripPrefix_append, openHunk_of_ready hr]
  rfl

theorem processLine_deleteFile (hr : Ready st) (n : Nat)
    (hp : WellFormedName path) : processLine n st (deleteFileMarker ++ path) =
      .ok { st with mode := .deleteFile, hunks := st.hunks ++ [.deleteFile path] } := by
  apply processLine_of_header hr
  rw [headerText_marker (by decide) hp, handleHunkHeadersAndEndPatch,
    environmentLine_of_differ (by decide), if_neg (append_ne_of_differ (by decide) path)]
  simp only [stripPrefix_of_differ (p := addFileMarker) (m := deleteFileMarker) (by decide) path,
    stripPrefix_append, openHunk_of_ready hr]
  rfl

theorem processLine_updateFile (hr : Ready st) (n : Nat)
    (hp : WellFormedName path) : processLine n st (updateFileMarker ++ path) =
      .ok { st with mode := .updateFile n, hunks := st.hunks ++ [.updateFile path none []] } := by
  apply processLine_of_header hr
  rw [headerText_marker (by decide) hp, handleHunkHeadersAndEndPatch,
    environmentLine_of_differ (by decide), if_neg (append_ne_of_differ (by decide) path)]
  simp only [stripPrefix_of_differ (p := addFileMarker) (m := updateFileMarker) (by decide) path,
    stripPrefix_append, openHunk_of_ready hr]
  rfl

theorem processLine_environment {id : Str} (hid : WellFormedName id) :
    processLine n ⟨.startedPatch, [], none⟩ (environmentIdMarker ++ ' ' :: id) =
      .ok ⟨.startedPatch, [], some id⟩ := by
  have ht : trim (environmentIdMarker ++ ' ' :: id) = environmentIdMarker ++ ' ' :: id := by
    have he : trimEnd (environmentIdMarker ++ ' ' :: id) = environmentIdMarker ++ ' ' :: id := by
      rw [append_cons]
      exact trimEnd_append_trimmed _ hid.trimmed.2 hid.ne_nil
    have hs : trimStart (environmentIdMarker ++ ' ' :: id) = environmentIdMarker ++ ' ' :: id :=
      trimStart_cons_of_not _ (by decide)
    rw [trim, hs, he]
  have hn : trim (' ' :: id) = id := by
    have h := trim_sandwich [' '] id [] (by simp) hid.trimmed hid.ne_nil (by simp)
    simpa using h
  have hne : id.isEmpty = false := by simpa using hid.ne_nil
  simp only [processLine, ht, handleHunkHeadersAndEndPatch, environmentLine, if_true,
    stripPrefix_append, setEnvironmentId, hn, hne]
  rfl

/-! ## Content lines -/

/-- A line that does not start like a marker is no header. -/
theorem handle_of_not_star (ht : t = c :: s) (hc : c ≠ '*') : handleHunkHeadersAndEndPatch n st t = .ok none := by
  have hp : ∀ p' : Str, stripPrefix t ('*' :: p') = none := by
    intro p'
    rw [ht]
    exact stripPrefix_cons_ne hc
  have henv : environmentLine st.mode t = none := by
    unfold environmentLine
    split
    · exact hp _
    · rfl
  have hend : t ≠ endPatchMarker := by
    intro he
    rw [ht] at he
    exact hc (List.cons.inj he).1
  rw [handleHunkHeadersAndEndPatch, henv]
  simp only [if_neg hend, show stripPrefix t addFileMarker = none from hp _,
    show stripPrefix t deleteFileMarker = none from hp _,
    show stripPrefix t updateFileMarker = none from hp _]

theorem processLine_added :
    processLine n ⟨.addFile, front ++ [.addFile path contents], id⟩ ('+' :: l) =
      .ok ⟨.addFile, front ++ [.addFile path (contents ++ l ++ ['\n'])], id⟩ := by
  have ht : trim ('+' :: l) = '+' :: trimEnd l := by
    rw [trim, trimStart_cons_of_not _ (by decide), trimEnd_cons_of_not _ (by decide)]
  rw [processLine]
  simp only [handle_of_not_star ht (by decide), getLast?_concat, addFileLine, stripPrefix_cons_self]
  simp [orElseLine, Except.map, setLast]

theorem feedLines_added (n : Nat) (front : List Hunk) (path : PathBuf) (txt : Str)
    (ls : List Str) (id : Option Str) :
    feedLines n ⟨.addFile, front ++ [.addFile path txt], id⟩ (ls.map ('+' :: ·)) =
      .ok ⟨.addFile, front ++ [.addFile path (txt ++ ls.flatMap (· ++ ['\n']))], id⟩ := by
  induction ls generalizing n txt with
  | nil => simp [feedLines]
  | cons l ls ih =>
    rw [map_cons, feedLines, processLine_added]
    simp [ih]

/-- A line of an update hunk that is no header of another hunk. -/
theorem processLine_update
    (hh : handleHunkHeadersAndEndPatch n ⟨.updateFile k, front ++ [.updateFile path movePath chunks], id⟩
      (trimEnd line) = .ok none) (hu : updateFileLine n path movePath chunks line = .ok hunk) :
    processLine n ⟨.updateFile k, front ++ [.updateFile path movePath chunks], id⟩ line =
      .ok ⟨.updateFile k, front ++ [hunk], id⟩ := by
  rw [processLine]
  simp only [hh, getLast?_concat, hu]
  simp [orElseLine, Except.map, setLast]

/-- The marker lines inside an update hunk are no headers of another hunk. -/
theorem handle_of_differ (n : Nat) (st : StreamingParserState)
    (henv : differ environmentIdMarker m = true) (he : differ endPatchMarker m = true)
    (ha : differ addFileMarker m = true) (hd : differ deleteFileMarker m = true)
    (hu : differ updateFileMarker m = true) (r : Str) :
    handleHunkHeadersAndEndPatch n st (m ++ r) = .ok none := by
  rw [handleHunkHeadersAndEndPatch, environmentLine_of_differ henv,
    if_neg (append_ne_of_differ he r), stripPrefix_of_differ ha, stripPrefix_of_differ hd,
    stripPrefix_of_differ hu]

section UpdateHunk

variable (n k : Nat) (front : List Hunk) (path : PathBuf) (movePath : Option PathBuf) (id : Option Str)

theorem processLine_move (hp : WellFormedName p) :
    processLine n ⟨.updateFile k, front ++ [.updateFile path none []], id⟩ (moveToMarker ++ p) =
      .ok ⟨.updateFile k, front ++ [.updateFile path (some p) []], id⟩ := by
  have ht : trimEnd (moveToMarker ++ p) = moveToMarker ++ p := trimEnd_append_trimmed _ hp.trimmed.2 hp.ne_nil
  apply processLine_update
  · rw [ht]
    exact handle_of_differ _ _ (by decide) (by decide) (by decide) (by decide) (by decide) p
  · simp [updateFileLine, ht, lastIsEndOfFile, moveToLine, stripPrefix_append]

theorem processLine_chunkHeader (hl : lastHasNoLines chunks = false)
    (ctx : Option Str) (hctx : ∀ s, ctx = some s → WellFormedContext s) :
    processLine n ⟨.updateFile k, front ++ [.updateFile path movePath chunks], id⟩ (printHeader ctx) =
      .ok ⟨.updateFile k, front ++ [.updateFile path movePath (chunks ++ [newChunk ctx])], id⟩ := by
  obtain ⟨s, hs⟩ : ∃ s, printHeader ctx = '@' :: s := by
    cases ctx with
    | _ => exact ⟨_, rfl⟩
  have ht : trimEnd (printHeader ctx) = printHeader ctx := by
    cases ctx with
    | none => decide
    | some c => exact trimEnd_append_trimmed _ (hctx c rfl).trimmed (hctx c rfl).ne_nil
  have hh : isChunkHeader (printHeader ctx) = true := by
    cases ctx with
    | none => decide
    | some c => simp [isChunkHeader, startsWith, printHeader]
  have hm : moveToLine movePath chunks (printHeader ctx) = none := by
    unfold moveToLine
    split
    · rw [hs]
      exact stripPrefix_cons_ne (by decide)
    · rfl
  have hc : chunkLine n chunks (printHeader ctx) = .ok (chunks ++ [newChunk ctx]) := by
    cases ctx with
    | none =>
      simp only [chunkLine, ht, hh, hl, Bool.and_false, Bool.false_eq_true, if_false]
      rfl
    | some c =>
      have hne : printHeader (some c) ≠ emptyChangeContextMarker := by
        intro he
        have := congrArg List.length he
        simp [printHeader, changeContextMarker, emptyChangeContextMarker] at this
      have hstrip : stripPrefix (printHeader (some c)) changeContextMarker = some c := stripPrefix_append
      simp only [chunkLine, ht, hh, hl, Bool.and_false, Bool.false_eq_true, if_false, if_neg hne, hstrip]
  apply processLine_update
  · rw [ht]
    exact handle_of_not_star hs (by decide)
  · have hne : (printHeader ctx).isEmpty = false := by rw [hs]; rfl
    simp only [updateFileLine, ht, hne, hh, hm, hc, Bool.and_false, Bool.not_true, Bool.false_eq_true, if_false]
    rfl

/-- A line that starts with a sign is content of the chunk that is being read. -/
theorem processLine_content {l : Str} (hc : c = '-' ∨ c = '+') (he : lastIsEndOfFile chunks = false)
    (h : contentLine n chunks (c :: l) = .ok chunks') :
    processLine n ⟨.updateFile k, front ++ [.updateFile path movePath chunks], id⟩ (c :: l) =
      .ok ⟨.updateFile k, front ++ [.updateFile path movePath chunks'], id⟩ := by
  have hsign : isWhitespace c = false ∧ c ≠ '*' ∧ c ≠ '@' := by
    cases hc with
    | inl hc => subst hc; decide
    | inr hc => subst hc; decide
  obtain ⟨hw, hs, ha⟩ := hsign
  have ht : trimEnd (c :: l) = c :: trimEnd l := trimEnd_cons_of_not _ hw
  have hh : isChunkHeader (c :: trimEnd l) = false := by
    by_contra hcon
    obtain ⟨r, hr⟩ := marker_of_isChunkHeader (by simpa using hcon)
    exact ha (List.cons.inj hr).1.symm
  have hm : moveToLine movePath chunks (c :: trimEnd l) = none := by
    unfold moveToLine
    split
    · exact stripPrefix_cons_ne hs
    · rfl
  have hchunk : chunkLine n chunks (c :: l) = .ok chunks' := by
    have h₁ : c :: trimEnd l ≠ emptyChangeContextMarker := fun he => ha (List.cons.inj he).1
    have h₂ : c :: trimEnd l ≠ eofMarker := fun he => hs (List.cons.inj he).1
    have h₃ : stripPrefix (c :: trimEnd l) changeContextMarker = none := stripPrefix_cons_ne ha
    simp only [chunkLine, ht, hh, Bool.false_and, Bool.false_eq_true, if_false, if_neg h₁, h₃, if_neg h₂, h]
  apply processLine_update
  · exact handle_of_not_star ht hs
  · simp only [updateFileLine, ht, he, hm, hchunk, Bool.false_and, Bool.false_eq_true, if_false]
    rfl

theorem processLine_eof (he : lastIsEndOfFile chunks = false)
    (hl : lastHasNoLines chunks = false) (hne : chunks ≠ []) :
    processLine n ⟨.updateFile k, front ++ [.updateFile path movePath chunks], id⟩ eofMarker =
      .ok ⟨.updateFile k, front ++ [.updateFile path movePath (closeLast chunks)], id⟩ := by
  have ht : trimEnd eofMarker = eofMarker := by decide
  apply processLine_update
  · have h := handle_of_differ n
      ⟨.updateFile k, front ++ [.updateFile path movePath chunks], id⟩ (m := eofMarker)
      (by decide) (by decide) (by decide) (by decide) (by decide) []
    rwa [append_nil] at h
  · have hm : moveToLine movePath chunks eofMarker = none := by
      simp [moveToLine, hne]
    have hc : chunkLine n chunks eofMarker = .ok (closeLast chunks) := by
      have h₁ : isChunkHeader eofMarker = false := by decide
      have h₂ : eofMarker ≠ emptyChangeContextMarker := by decide
      have h₃ : stripPrefix eofMarker changeContextMarker = none := by decide
      simp only [chunkLine, ht, h₁, hl, Bool.false_and, Bool.false_eq_true, if_false, if_neg h₂, h₃, if_true]
    simp only [updateFileLine, ht, he, hm, hc, Bool.false_and, Bool.false_eq_true, if_false]
    rfl

theorem feedLines_old (cs : List UpdateFileChunk) (he : c.isEndOfFile = false) (old : List Str) :
    feedLines n ⟨.updateFile k, front ++ [.updateFile path movePath (cs ++ [c])], id⟩
        (old.map ('-' :: ·)) =
      .ok ⟨.updateFile k, front ++ [.updateFile path movePath
        (cs ++ [{ c with oldLines := c.oldLines ++ old }])], id⟩ := by
  induction old generalizing n c with
  | nil => simp [feedLines]
  | cons l old ih =>
    have hl : contentLine (n + 1) (cs ++ [c]) ('-' :: l) =
        .ok (cs ++ [{ c with oldLines := c.oldLines ++ [l] }]) :=
      contentLine_ok_iff.mpr ⟨_, _, .removed l, by simp [addToLast]⟩
    rw [map_cons, feedLines, processLine_content _ _ _ _ _ _ (Or.inl rfl)
      (by simpa [lastIsEndOfFile] using he) hl]
    simpa using ih (n + 1) (c := { c with oldLines := c.oldLines ++ [l] }) he

theorem feedLines_new (cs : List UpdateFileChunk) (he : c.isEndOfFile = false) (new : List Str) :
    feedLines n ⟨.updateFile k, front ++ [.updateFile path movePath (cs ++ [c])], id⟩
        (new.map ('+' :: ·)) =
      .ok ⟨.updateFile k, front ++ [.updateFile path movePath
        (cs ++ [{ c with newLines := c.newLines ++ new }])], id⟩ := by
  induction new generalizing n c with
  | nil => simp [feedLines]
  | cons l new ih =>
    have hl : contentLine (n + 1) (cs ++ [c]) ('+' :: l) =
        .ok (cs ++ [{ c with newLines := c.newLines ++ [l] }]) :=
      contentLine_ok_iff.mpr ⟨_, _, .added l, by simp [addToLast]⟩
    rw [map_cons, feedLines, processLine_content _ _ _ _ _ _ (Or.inr rfl)
      (by simpa [lastIsEndOfFile] using he) hl]
    simpa using ih (n + 1) (c := { c with newLines := c.newLines ++ [l] }) he

/-- The lines of a chunk add that chunk. -/
theorem feedLines_chunk (hl : lastHasNoLines chunks = false) (hc : WellFormedChunk c) :
    feedLines n ⟨.updateFile k, front ++ [.updateFile path movePath chunks], id⟩ (printChunk c) =
      .ok ⟨.updateFile k, front ++ [.updateFile path movePath (chunks ++ [c])], id⟩ := by
  obtain ⟨ctx, old, new, eof⟩ := c
  have ho := feedLines_old (n + 1) k front path movePath id chunks (c := newChunk ctx) rfl old
  have hn := feedLines_new (n + 1 + (old.map ('-' :: ·)).length) k front path movePath id chunks
    (c := ⟨ctx, old, [], false⟩) rfl new
  rw [printChunk, feedLines, processLine_chunkHeader _ _ _ _ _ _ hl ctx hc.context]
  simp only [append_assoc]
  rw [feedLines_append_of _ ho]
  simp only [newChunk, nil_append]
  rw [feedLines_append_of _ hn]
  cases eof with
  | false => rfl
  | true =>
    have hlines : lastHasNoLines (chunks ++ [⟨ctx, old, new, false⟩]) = false := by
      have h := hc.hasLines
      simp only [lastHasNoLines, getLast?_concat, Option.any_some, UpdateFileChunk.hasNoLines]
      simpa [Decidable.or_iff_not_imp_left] using h
    simp only [nil_append, if_true, feedLines]
    rw [processLine_eof _ _ _ _ _ _ (by simp [lastIsEndOfFile]) hlines (by simp)]
    simp [closeLast]

theorem lastHasNoLines_of_wellFormed (hc : ∀ c ∈ chunks, WellFormedChunk c) : lastHasNoLines chunks = false := by
  cases hl : chunks.getLast? with
  | none => simp [lastHasNoLines, hl]
  | some c =>
    have h := (hc c (mem_of_getLast? hl)).hasLines
    simpa [lastHasNoLines, hl, UpdateFileChunk.hasNoLines, Decidable.or_iff_not_imp_left] using h

theorem feedLines_chunks (hc : ∀ c ∈ chunks ++ rest, WellFormedChunk c) :
    feedLines n ⟨.updateFile k, front ++ [.updateFile path movePath chunks], id⟩
        (rest.flatMap printChunk) =
      .ok ⟨.updateFile k, front ++ [.updateFile path movePath (chunks ++ rest)], id⟩ := by
  induction rest generalizing n chunks with
  | nil => simp [feedLines]
  | cons c rest ih =>
    have hl := lastHasNoLines_of_wellFormed fun d hd => hc d (mem_append_left _ hd)
    have hchunk := feedLines_chunk n k front path movePath id hl (hc c (by simp))
    rw [flatMap_cons, feedLines_append_of _ hchunk, ih _ (by simpa using hc)]
    simp

theorem feedLines_move (hm : ∀ p, movePath = some p → WellFormedName p) :
    feedLines n ⟨.updateFile k, front ++ [.updateFile path none []], id⟩ (printMove movePath) =
      .ok ⟨.updateFile k, front ++ [.updateFile path movePath []], id⟩ := by
  cases movePath with
  | none => rfl
  | some p => rw [printMove, feedLines, processLine_move _ _ _ _ _ (hm p rfl)]; rfl

end UpdateHunk

/-! ## Whole patches -/

theorem ready_of_last (hm : st.mode ≠ .notStarted ∧ st.mode ≠ .endedPatch) (hst : st.hunks = front ++ [h])
    (hl : ∀ path movePath chunks, h = .updateFile path movePath chunks →
      chunks ≠ [] ∧ lastHasNoLines chunks = false) : Ready st := by
  refine ⟨hm.1, hm.2, fun n t => ?_⟩
  rw [ensureUpdateHunkIsNotEmpty, hst, getLast?_concat]
  cases h with
  | addFile path txt => rfl
  | deleteFile path => rfl
  | updateFile path movePath chunks =>
    obtain ⟨hne, hlines⟩ := hl path movePath chunks rfl
    cases hc : chunks.getLast? with
    | none => exact absurd (getLast?_eq_none_iff.mp hc) hne
    | some c =>
      have hc' : c.hasNoLines = false := by simpa [lastHasNoLines, hc] using hlines
      simp [hc, hc']

theorem terminated_flatMap (h : ∀ l ∈ ls, '\n' ∉ l) : terminated (ls.flatMap (· ++ ['\n'])) = ls := by
  induction ls with
  | nil => rfl
  | cons l ls ih =>
    rw [flatMap_cons, append_assoc, singleton_append, terminated_cons (h l (by simp)),
      ih fun l' hl' => h l' (by simp [hl'])]

/-- The lines of a well-formed hunk add that hunk, and another header may follow. -/
theorem feedLines_hunk (hr : Ready st) (hh : WellFormed h) :
    ∃ st', feedLines n st (printHunk h) = .ok st' ∧ Ready st' ∧ st'.hunks = st.hunks ++ [h] ∧
      st'.environmentId = st.environmentId := by
  cases hh with
  | @addFile path ls hp hls =>
    refine ⟨⟨.addFile, st.hunks ++ [.addFile path (ls.flatMap (· ++ ['\n']))], st.environmentId⟩,
      ?_, ready_of_last (by simp) rfl (by simp), rfl, rfl⟩
    rw [printHunk, terminated_flatMap fun l hl => (hls l hl).oneLine, feedLines, processLine_addFile hr hp]
    exact feedLines_added _ _ _ _ _ _
  | @deleteFile path hp =>
    refine ⟨⟨.deleteFile, st.hunks ++ [.deleteFile path], st.environmentId⟩, ?_,
      ready_of_last (by simp) rfl (by simp), rfl, rfl⟩
    rw [printHunk, feedLines, processLine_deleteFile hr _ hp]
    rfl
  | @updateFile path movePath chs hp hm hne hc =>
    refine ⟨⟨.updateFile (n + 1), st.hunks ++ [.updateFile path movePath chs], st.environmentId⟩,
      ?_, ready_of_last (by simp) rfl ?_, rfl, rfl⟩
    · rw [printHunk, feedLines, processLine_updateFile hr _ hp]
      simp only
      rw [feedLines_append_of _ (feedLines_move _ _ _ _ _ _ hm),
        feedLines_chunks _ _ _ _ _ _ (by simpa using hc), nil_append]
    · intro p m cs he
      cases he
      exact ⟨hne, lastHasNoLines_of_wellFormed hc⟩

theorem feedLines_hunks (n : Nat) (hr : Ready st) (hh : ∀ h ∈ hunks, WellFormed h) :
    ∃ st', feedLines n st (hunks.flatMap printHunk) = .ok st' ∧ Ready st' ∧
      st'.hunks = st.hunks ++ hunks ∧ st'.environmentId = st.environmentId := by
  induction hunks generalizing n st with
  | nil => exact ⟨st, rfl, hr, by simp, rfl⟩
  | cons h hunks ih =>
    obtain ⟨mid, hm, hr', hhunks, hid⟩ := feedLines_hunk hr (hh h (by simp))
    obtain ⟨st', hs', hr'', hh', hi'⟩ := ih (n + (printHunk h).length) hr'
      fun g hg => hh g (by simp [hg])
    refine ⟨st', ?_, hr'', ?_, hi'.trans hid⟩
    · rw [flatMap_cons, feedLines_append_of _ hm, hs']
    · rw [hh', hhunks, append_assoc, singleton_append]

theorem feedLines_environment (hid : ∀ s, id = some s → WellFormedName s) :
    feedLines n ⟨.startedPatch, [], none⟩ (printEnvironment id) = .ok ⟨.startedPatch, [], id⟩ := by
  cases id with
  | none => rfl
  | some s => rw [printEnvironment, feedLines, processLine_environment (hid s rfl)]; rfl

/-- The printed lines lead the parser to the printed hunks. -/
theorem parseLines_print (hid : ∀ s, id = some s → WellFormedName s) (hh : ∀ h ∈ hunks, WellFormed h) :
    parseLines (beginPatchMarker :: printBody id hunks) endPatchMarker = .ok (hunks, id) := by
  have hready : Ready ⟨.startedPatch, [], id⟩ := ⟨by simp, by simp, fun n t => rfl⟩
  obtain ⟨st, hst, hr, hhunks, hi'⟩ := feedLines_hunks (0 + 1 + (printEnvironment id).length) hready hh
  have hf : feedLines 0 StreamingPatchParser.default.state
      (beginPatchMarker :: printBody id hunks) = .ok st := by
    have hb : processLine 1 StreamingPatchParser.default.state beginPatchMarker = .ok ⟨.startedPatch, [], none⟩ := rfl
    rw [feedLines, hb, printBody]
    simp only
    rw [feedLines_append_of _ (feedLines_environment hid), hst]
  have ht : trim endPatchMarker = endPatchMarker := by decide
  have hne : endPatchMarker ≠ [] := by decide
  rw [parseLines, hf]
  simp only [closeText, if_neg hne, lastLine, ht, if_true, openHunk_of_ready hr, result]
  rw [hhunks, hi']
  simp

/-! ## The printed text -/

/-- A printed line is one line of the text and has no carriage return to lose. -/
theorem wellFormedLine_of_marker (hm : '\n' ∉ m) (hn : name ≠ [])
    (ht : trimEnd name = name) (hl : '\n' ∉ name) : WellFormedLine (m ++ name) := by
  refine ⟨by simp [hm, hl], fun hc => ?_⟩
  have h := trimEnd_eq_self_iff.mp (trimEnd_append_trimmed m ht hn) _ hc
  cases h

theorem wellFormedLine_cons (hn : c ≠ '\n') (hr : c ≠ '\r') (h : WellFormedLine l) : WellFormedLine (c :: l) := by
  refine ⟨by simp [h.oneLine, hn.symm], ?_⟩
  cases l with
  | nil => simpa using hr
  | cons d l => exact h.noCr

theorem wellFormedLine_chunk (hc : WellFormedChunk c) : ∀ l ∈ printChunk c, WellFormedLine l := by
  intro l hl
  simp only [printChunk, mem_cons, mem_append, mem_map] at hl
  obtain rfl | (⟨l', hl', rfl⟩ | ⟨l', hl', rfl⟩) | he := hl
  · cases hctx : c.changeContext with
    | none => exact ⟨by decide, by decide⟩
    | some s =>
      have h := hc.context s hctx
      exact wellFormedLine_of_marker (by decide) h.ne_nil h.trimmed h.oneLine
  · exact wellFormedLine_cons (by decide) (by decide) (hc.old l' hl')
  · exact wellFormedLine_cons (by decide) (by decide) (hc.new l' hl')
  · split at he
    · rw [mem_singleton.mp he]
      exact ⟨by decide, by decide⟩
    · cases he

theorem wellFormedLine_name (hm : '\n' ∉ m) (hn : WellFormedName name) : WellFormedLine (m ++ name) :=
  wellFormedLine_of_marker hm hn.ne_nil hn.trimmed.2 hn.oneLine

theorem wellFormedLine_hunk (hh : WellFormed h) : ∀ l ∈ printHunk h, WellFormedLine l := by
  intro l hl
  cases hh with
  | addFile ls hp hls =>
    rw [printHunk, terminated_flatMap fun l hl => (hls l hl).oneLine] at hl
    cases mem_cons.mp hl with
    | inl he => rw [he]; exact wellFormedLine_name (by decide) hp
    | inr hl =>
      obtain ⟨l', hl', rfl⟩ := mem_map.mp hl
      exact wellFormedLine_cons (by decide) (by decide) (hls l' hl')
  | deleteFile hp =>
    rw [mem_singleton.mp hl]
    exact wellFormedLine_name (by decide) hp
  | @updateFile path movePath cs hp hm hne hc =>
    simp only [printHunk, mem_cons, mem_append, mem_flatMap] at hl
    obtain rfl | hmove | ⟨c, hcm, hl⟩ := hl
    · exact wellFormedLine_name (by decide) hp
    · cases movePath with
      | none => cases hmove
      | some p =>
        rw [mem_singleton.mp hmove]
        exact wellFormedLine_name (by decide) (hm p rfl)
    · exact wellFormedLine_chunk (hc c hcm) l hl

theorem wellFormedLine_body (hid : ∀ s, id = some s → WellFormedName s) (hh : ∀ h ∈ hunks, WellFormed h) :
    ∀ l ∈ printBody id hunks, WellFormedLine l := by
  intro l hl
  cases mem_append.mp hl with
  | inl he =>
    cases id with
    | none => cases he
    | some s =>
      rw [mem_singleton.mp he, append_cons]
      exact wellFormedLine_name (by decide) (hid s rfl)
  | inr hl =>
    obtain ⟨h, hm, hl⟩ := mem_flatMap.mp hl
    exact wellFormedLine_hunk (hh h hm) l hl

theorem map_stripCr_of_wellFormed {ls : List Str} (h : ∀ l ∈ ls, WellFormedLine l) : ls.map stripCr = ls := by
  induction ls with
  | nil => rfl
  | cons l ls ih =>
    rw [map_cons, stripCr_eq_self_iff.mpr (h l (by simp)).noCr, ih fun l' hl' => h l' (by simp [hl'])]

/-- The text between the markers is not changed by trimming. -/
theorem trim_printPatch :
    trim (printPatch id hunks lf) = joinLines (beginPatchMarker :: printBody id hunks ++ [endPatchMarker]) := by
  obtain ⟨front, hl⟩ := joinLines_concat (beginPatchMarker :: printBody id hunks) endPatchMarker
  have hf := joinLines_cons beginPatchMarker (append_ne_nil_of_right_ne_nil
    (printBody id hunks) (show [endPatchMarker] ≠ [] by simp))
  rw [← cons_append] at hf
  have ht : Trimmed (joinLines (beginPatchMarker :: printBody id hunks ++ [endPatchMarker])) := by
    constructor
    · rw [hf]
      exact trimStart_cons_of_not _ (by decide)
    · rw [hl]
      exact trimEnd_append_trimmed _ (by decide) (by decide)
  have hne : joinLines (beginPatchMarker :: printBody id hunks ++ [endPatchMarker]) ≠ [] := by
    rw [hf]
    exact append_ne_nil_of_left_ne_nil (by decide) _
  have h := trim_sandwich [] _ (if lf then ['\n'] else []) (by simp) ht hne (by cases lf <;> simp)
  rwa [nil_append] at h

/-- Reading back a printed patch gives the hunks and the environment id that were
printed. -/
theorem parsePatch_printPatch (id : Option Str) (hunks : List Hunk) (lf : Bool)
    (hid : ∀ s, id = some s → WellFormedName s) (hh : ∀ h ∈ hunks, WellFormed h) :
    ∃ args, parsePatch (printPatch id hunks lf) = .ok args ∧ args.hunks = hunks ∧ args.environmentId = id := by
  have hlines : ∀ l ∈ beginPatchMarker :: printBody id hunks, WellFormedLine l := by
    intro l hl
    cases mem_cons.mp hl with
    | inl he => rw [he]; exact ⟨by decide, by decide⟩
    | inr hl => exact wellFormedLine_body hid hh l hl
  obtain ⟨ht, hu⟩ := splitOn_joinLines (fun l hl => (hlines l hl).oneLine)
    (show '\n' ∉ endPatchMarker by decide)
  rw [← trim_printPatch] at ht hu
  obtain ⟨pt, hp⟩ := parsePatch_eq_parseLines ht hu (by decide) (by decide)
  rw [map_stripCr_of_wellFormed hlines, map_stripCr_of_wellFormed hlines, parseLines_print hid hh] at hp
  exact ⟨_, hp, rfl, rfl⟩

/-- Content that looks like markers comes back as content. -/
theorem parsePatch_printPatch_markers :
    ∃ args, parsePatch (printPatch (some "env".toList)
        [.addFile "a".toList "*** End Patch\n@@\n".toList,
          .updateFile "b".toList (some "c".toList)
            [⟨some "fn".toList, ["*** End of File".toList], ["".toList], true⟩]] true) = .ok args ∧
      args.hunks = [.addFile "a".toList "*** End Patch\n@@\n".toList,
        .updateFile "b".toList (some "c".toList)
          [⟨some "fn".toList, ["*** End of File".toList], ["".toList], true⟩]] ∧
      args.environmentId = some "env".toList := by
  have hn : ∀ s ∈ ["env".toList, "a".toList, "b".toList, "c".toList], WellFormedName s := by
    intro s hs
    simp only [mem_cons, not_mem_nil, or_false] at hs
    obtain rfl | rfl | rfl | rfl := hs <;> exact ⟨by decide, ⟨by decide, by decide⟩, by decide⟩
  have hline : ∀ l ∈ ["*** End Patch".toList, "@@".toList, "*** End of File".toList, "".toList],
      WellFormedLine l := by
    intro l hl
    simp only [mem_cons, not_mem_nil, or_false] at hl
    obtain rfl | rfl | rfl | rfl := hl <;> exact ⟨by decide, by decide⟩
  refine parsePatch_printPatch _ _ true ?_ ?_
  · intro s hs
    rw [← Option.some.inj hs]
    exact hn _ (by simp)
  · intro h hh
    simp only [mem_cons, not_mem_nil, or_false] at hh
    obtain rfl | rfl := hh
    · exact .addFile ["*** End Patch".toList, "@@".toList] (hn _ (by simp))
        (fun l hl => hline l (mem_append_left [_, _] hl))
    · refine .updateFile (hn _ (by simp)) (fun p hp => ?_) (by simp) (fun c hc => ?_)
      · rw [← Option.some.inj hp]
        exact hn _ (by simp)
      · rw [mem_singleton.mp hc]
        refine ⟨fun s hs => ?_, Or.inl (by simp), fun l hl => ?_, fun l hl => ?_⟩
        · rw [← Option.some.inj hs]
          exact ⟨by decide, by decide, by decide⟩
        all_goals
          rw [mem_singleton.mp hl]
          exact hline _ (by simp)

end PatchGrammar
