import Ycode.PatchParser

/-!
# Streaming and batch parsing compared

Where a streaming run succeeds, `parsePatch` reads the same lines, except that
each line has lost one more carriage return: the text is cut into lines, which
strips one, and the joined lines are read by the streaming parser, which strips
another. Markers are compared after trimming and do not notice; content lines
do. `eraseState` is what the second stripping does to the parser's state, and the
two parsers agree exactly when it has nothing to do.
-/
namespace PatchAgreement

open RustStr PatchHunk ListGrowth StreamingParser PatchParser List

variable {id : Option Str}

/-! ## Stripping once more -/

/-- Drop every carriage return that stands before a newline. -/
def dropCr : Str → Str
  | [] => []
  | c :: s => if c = '\r' ∧ s.head? = some '\n' then dropCr s else c :: dropCr s

def eraseChunk (c : UpdateFileChunk) : UpdateFileChunk :=
  { c with oldLines := c.oldLines.map stripCr, newLines := c.newLines.map stripCr }

def eraseHunk : Hunk → Hunk
  | .addFile path contents => .addFile path (dropCr contents)
  | .deleteFile path => .deleteFile path
  | .updateFile path movePath chunks => .updateFile path movePath (chunks.map eraseChunk)

def eraseState (st : StreamingParserState) : StreamingParserState :=
  { st with hunks := st.hunks.map eraseHunk }

theorem dropCr_append (h : s.getLast? ≠ some '\r') : dropCr (s ++ t) = dropCr s ++ dropCr t := by
  induction s with
  | nil => rfl
  | cons c s ih =>
    cases s with
    | nil =>
      have hc : c ≠ '\r' := by simpa using h
      simp [dropCr, hc]
    | cons d s =>
      rw [getLast?_cons_cons] at h
      rw [cons_append, dropCr, dropCr, ih h]
      by_cases hc : c = '\r' ∧ d = '\n'
      all_goals simp [hc]

theorem dropCr_line (h : '\n' ∉ l) : dropCr (l ++ ['\n']) = stripCr l ++ ['\n'] := by
  induction l with
  | nil => rfl
  | cons c l ih =>
    have hl : '\n' ∉ l := fun hm => h (by simp [hm])
    rw [cons_append, dropCr, ih hl]
    cases l with
    | nil =>
      by_cases hc : c = '\r'
      all_goals simp [hc, stripCr]
    | cons d l =>
      have hd : d ≠ '\n' := fun hd => hl (by simp [hd])
      rw [if_neg (by simp [hd])]
      unfold stripCr
      rw [getLast?_cons_cons]
      split <;> rfl

theorem length_dropCr_le (s : Str) : (dropCr s).length ≤ s.length := by
  induction s with
  | nil => rfl
  | cons c s ih =>
    rw [dropCr]
    split <;> simp only [length_cons] <;> omega

/-- The contents of an added file after one more line. -/
theorem dropCr_contents (hc : contents.getLast? ≠ some '\r') (hl : '\n' ∉ l) :
    dropCr (contents ++ l ++ ['\n']) = dropCr contents ++ stripCr l ++ ['\n'] := by
  rw [append_assoc, dropCr_append hc, dropCr_line hl, append_assoc]

theorem dropCr_contents_eq_iff :
    dropCr contents ++ stripCr l ++ ['\n'] = contents ++ l ++ ['\n'] ↔
      dropCr contents = contents ∧ stripCr l = l := by
  constructor
  · intro h
    have h' := append_cancel_right h
    have hl := congrArg List.length h'
    have h₁ := length_dropCr_le contents
    have h₂ := length_stripCr_le l
    rw [length_append, length_append] at hl
    exact append_inj h' (by omega)
  · rintro ⟨h₁, h₂⟩
    rw [h₁, h₂]

/-! ## The batch parser follows the streaming parser -/

@[simp] theorem hasNoLines_eraseChunk : (eraseChunk c).hasNoLines = c.hasNoLines := by
  simp [eraseChunk, UpdateFileChunk.hasNoLines]

theorem map_mapLast (h : ∀ c, e (f c) = g (e c)) (cs : List UpdateFileChunk) :
    (mapLast f cs).map e = mapLast g (cs.map e) := by
  cases eq_nil_or_concat' cs with
  | inl he => rw [he]; rfl
  | inr hc =>
    obtain ⟨pre, c, rfl⟩ := hc
    simp [h]

@[simp] theorem lastHasNoLines_map : lastHasNoLines (chunks.map eraseChunk) = lastHasNoLines chunks := by
  cases h : chunks.getLast? <;> simp [lastHasNoLines, getLast?_map, h]

@[simp] theorem lastIsEndOfFile_map : lastIsEndOfFile (chunks.map eraseChunk) = lastIsEndOfFile chunks := by
  cases h : chunks.getLast? <;> simp [lastIsEndOfFile, getLast?_map, h, eraseChunk]

theorem map_addToLast (cs : List UpdateFileChunk) (old new : List Str) :
    (addToLast cs old new).map eraseChunk = addToLast (cs.map eraseChunk) (old.map stripCr) (new.map stripCr) := by
  unfold addToLast
  rw [map_mapLast (g := fun c => ⟨c.changeContext, c.oldLines ++ old.map stripCr,
    c.newLines ++ new.map stripCr, c.isEndOfFile⟩) (fun c => by simp [eraseChunk])]
  cases cs <;> rfl

theorem map_closeLast : (closeLast chunks).map eraseChunk = closeLast (chunks.map eraseChunk) := by
  unfold closeLast
  rw [map_mapLast]
  intro c
  rfl

theorem contentOf_stripCr {new : List Str} (h : ContentOf line old new) :
    ContentOf (stripCr line) (old.map stripCr) (new.map stripCr) := by
  cases h with
  | empty => exact .empty
  | context l => rw [stripCr_cons (by decide)]; exact .context _
  | added l => rw [stripCr_cons (by decide)]; exact .added _
  | removed l => rw [stripCr_cons (by decide)]; exact .removed _

theorem chunkLine_erase (h : chunkLine n chunks line = .ok chunks') :
    chunkLine n (chunks.map eraseChunk) (stripCr line) = .ok (chunks'.map eraseChunk) := by
  unfold chunkLine at h ⊢
  simp only [trimEnd_stripCr, lastHasNoLines_map] at h ⊢
  split at h
  · cases h
  · rename_i hp
    rw [if_neg hp]
    split at h
    · rename_i he
      cases h
      rw [if_pos he]
      simp [eraseChunk, newChunk]
    · rename_i he
      rw [if_neg he]
      split at h
      · rename_i ctx hctx
        cases h
        simp [eraseChunk, newChunk]
      · split at h
        · rename_i heof
          rw [if_pos heof]
          split at h
          · cases h
          · rename_i hl
            cases h
            rw [if_neg hl, map_closeLast]
        · rename_i heof
          rw [if_neg heof]
          obtain ⟨old, new, hc, rfl⟩ := contentLine_ok_iff.mp h
          exact contentLine_ok_iff.mpr ⟨_, _, contentOf_stripCr hc, (map_addToLast ..).symm⟩

theorem updateFileLine_erase (h : updateFileLine n path movePath chunks line = .ok hunk) :
    updateFileLine n path movePath (chunks.map eraseChunk) (stripCr line) = .ok (eraseHunk hunk) := by
  have hm : moveToLine movePath (chunks.map eraseChunk) (trimEnd line) =
      moveToLine movePath chunks (trimEnd line) := by
    cases chunks <;> rfl
  unfold updateFileLine at h ⊢
  simp only [trimEnd_stripCr, lastIsEndOfFile_map, hm] at h ⊢
  split at h
  · rename_i hc
    cases h
    rw [if_pos hc]
    rfl
  · rename_i hc
    rw [if_neg hc]
    split at h
    · cases h
    · rename_i ho
      rw [if_neg ho]
      split at h
      · rename_i p hp
        cases h
        simp [eraseHunk]
      · obtain ⟨cs', hc', rfl⟩ := map_eq_ok h
        simp only [chunkLine_erase hc']
        rfl

theorem ensure_erase : ensureUpdateHunkIsNotEmpty n (eraseState st) t = ensureUpdateHunkIsNotEmpty n st t := by
  unfold ensureUpdateHunkIsNotEmpty
  simp only [eraseState, getLast?_map]
  cases hl : st.hunks.getLast? with
  | none => rfl
  | some h =>
    cases h with
    | addFile path txt => rfl
    | deleteFile path => rfl
    | updateFile path movePath cs =>
      simp only [Option.map_some, eraseHunk, getLast?_map]
      cases hc : cs.getLast? with
      | none => rfl
      | some c => simp

theorem openHunk_erase (hn : new.map eraseHunk = new) :
    openHunk n (eraseState st) t mode new = (openHunk n st t mode new).map eraseState := by
  unfold openHunk
  rw [ensure_erase]
  cases ensureUpdateHunkIsNotEmpty n st t with
  | error e => rfl
  | ok u => simp [Except.map, eraseState, hn]

theorem handle_erase :
    handleHunkHeadersAndEndPatch n (eraseState st) t =
      (handleHunkHeadersAndEndPatch n st t).map (Option.map eraseState) := by
  have hm : ∀ r : Except ParseError StreamingParserState,
      (r.map eraseState).map some = (r.map some).map (Option.map eraseState) := by
    intro r
    cases r <;> rfl
  unfold handleHunkHeadersAndEndPatch
  rw [show (eraseState st).mode = st.mode from rfl]
  cases environmentLine st.mode t with
  | some rest =>
    by_cases hid : st.environmentId.isSome = true
    · simp [setEnvironmentId, eraseState, hid, Except.map]
    · by_cases he : (trim rest).isEmpty = true
      all_goals simp [setEnvironmentId, eraseState, hid, he, Except.map]
  | none =>
    simp only
    by_cases he : t = endPatchMarker
    · rw [if_pos he, if_pos he, openHunk_erase rfl, hm]
    · rw [if_neg he, if_neg he]
      cases stripPrefix t addFileMarker with
      | some path => simp only; rw [openHunk_erase rfl, hm]
      | none =>
        simp only
        cases stripPrefix t deleteFileMarker with
        | some path => simp only; rw [openHunk_erase rfl, hm]
        | none =>
          simp only
          cases stripPrefix t updateFileMarker with
          | some path => simp only; rw [openHunk_erase rfl, hm]
          | none => rfl

theorem addFileLine_erase (hc : contents.getLast? ≠ some '\r') (hline : '\n' ∉ line)
    (h : addFileLine n path contents line = .ok hunk) :
    addFileLine n path (dropCr contents) (stripCr line) = .ok (eraseHunk hunk) := by
  unfold addFileLine at h
  split at h
  · rename_i l hl
    cases h
    rw [stripPrefix_eq_some, singleton_append] at hl
    subst hl
    have hnl : '\n' ∉ l := fun hn => hline (by simp [hn])
    rw [addFileLine, stripCr_cons (by decide), stripPrefix_cons_self]
    simp only [eraseHunk, dropCr_contents hc hnl]
  · cases h

theorem eraseState_setLast : eraseState (setLast st hunk) = setLast (eraseState st) (eraseHunk hunk) := by
  simp [eraseState, setLast, map_dropLast]

/-- No contents end in a carriage return that the next line could turn into a
line end. -/
def ContentsClosed (st : StreamingParserState) : Prop :=
  ∀ path contents, .addFile path contents ∈ st.hunks → contents.getLast? ≠ some '\r'

/-- One line: what the batch parser reads at this place, it accepts too, and the
states stay related. -/
theorem processLine_erase (hclosed : ContentsClosed st) (hline : '\n' ∉ line) (h : processLine n st line = .ok st') :
    processLine n (eraseState st) (stripCr line) = .ok (eraseState st') := by
  have hheader : ∀ {t s}, handleHunkHeadersAndEndPatch n st t = .ok s →
      handleHunkHeadersAndEndPatch n (eraseState st) t = .ok (s.map eraseState) := by
    intro t s ht
    rw [handle_erase, ht]
    rfl
  have hlast : (eraseState st).hunks.getLast? = st.hunks.getLast?.map eraseHunk := getLast?_map ..
  unfold processLine at h ⊢
  rw [show (eraseState st).mode = st.mode from rfl]
  simp only [trim_stripCr, trimEnd_stripCr, hlast]
  cases hm : st.mode with
  | notStarted =>
    simp only [hm] at h ⊢
    split at h
    · rename_i hb
      cases h
      rw [if_pos hb]
      rfl
    · cases h
  | startedPatch | deleteFile =>
    simp only [hm] at h ⊢
    cases orElseLine_ok h with
    | inl hh => rw [hheader hh]; rfl
    | inr hr => cases hr.2
  | addFile =>
    simp only [hm] at h ⊢
    cases orElseLine_ok h with
    | inl hh => rw [hheader hh]; rfl
    | inr hr =>
      obtain ⟨hh, hr⟩ := hr
      rw [hheader hh]
      split at hr
      · rename_i path txt hl
        obtain ⟨hunk, hhunk, rfl⟩ := map_eq_ok hr
        have hc := hclosed path txt (mem_of_getLast? hl)
        simp only [hl, Option.map_some, eraseHunk, addFileLine_erase hc hline hhunk, eraseState_setLast]
        rfl
      · cases hr
  | updateFile k =>
    simp only [hm] at h ⊢
    cases orElseLine_ok h with
    | inl hh => rw [hheader hh]; rfl
    | inr hr =>
      obtain ⟨hh, hr⟩ := hr
      rw [hheader hh]
      split at hr
      · rename_i path movePath cs hl
        obtain ⟨hunk, hhunk, rfl⟩ := map_eq_ok hr
        simp only [hl, Option.map_some, eraseHunk, updateFileLine_erase hhunk, eraseState_setLast]
        rfl
      · cases hr
  | endedPatch =>
    simp only [hm] at h ⊢
    split at h
    · rename_i hb
      cases h
      rw [if_pos hb]
    · cases h

theorem opened_closed (h : Opened n t mode new) (hm : .addFile path contents ∈ new) : contents = [] := by
  cases h with
  | addFile p => simpa using (Hunk.addFile.inj (mem_singleton.mp hm)).2
  | endPatch | deleteFile p | updateFile p => simp at hm

theorem lineStep_closed (h : LineStep n st line st') (hc : ContentsClosed st) : ContentsClosed st' := by
  intro path txt hmem
  cases h with
  | opened mode new hm hn hok =>
    cases mem_append.mp hmem with
    | inl hmem => exact hc path txt hmem
    | inr hmem => simp [opened_closed hn hmem]
  | added pre p c l hm hst hl =>
    cases mem_append.mp hmem with
    | inl hmem => exact hc path txt (by simp [hst, hmem])
    | inr hmem =>
      cases mem_singleton.mp hmem
      simp
  | updated pre p movePath cs hunk k hm hst hl =>
    cases mem_append.mp hmem with
    | inl hmem => exact hc path txt (by simp [hst, hmem])
    | inr hmem =>
      rw [← mem_singleton.mp hmem] at hl
      cases updateFileLine_step hl
  | _ => exact hc path txt hmem

theorem feedLines_erase (hclosed : ContentsClosed st) (hls : ∀ l ∈ ls, '\n' ∉ l) (h : feedLines n st ls = .ok st') :
    feedLines n (eraseState st) (ls.map stripCr) = .ok (eraseState st') := by
  induction ls generalizing n st with
  | nil => cases h; rfl
  | cons l ls ih =>
    obtain ⟨mid, hl, hr⟩ := feedLines_cons_ok h
    have hc := lineStep_closed (processLine_step hl) hclosed
    rw [map_cons, feedLines, processLine_erase hclosed (hls l (by simp)) hl]
    exact ih hc (fun l' hl' => hls l' (by simp [hl'])) hr

/-! ## When the second stripping has nothing to do -/

/-- The first character decides whether a line of an open chunk is content. -/
def isContentStart (line : Str) : Bool :=
  startsWith line [' '] || startsWith line ['+'] || startsWith line ['-']

/-- The line becomes content of the hunk that is being read. -/
def isContentLine (st : StreamingParserState) (line : Str) : Bool :=
  match st.mode, st.hunks.getLast? with
  | .addFile, _ => startsWith line ['+']
  | .updateFile _, some (.updateFile _ _ chunks) => !lastIsEndOfFile chunks && isContentStart line
  | _, _ => false

/-- No content line ends in a carriage return. -/
def noContentCr (n : Nat) (st : StreamingParserState) : List Str → Bool
  | [] => true
  | line :: rest =>
    !(isContentLine st line && line.getLast? == some '\r') &&
      match processLine (n + 1) st line with
      | .ok st' => noContentCr (n + 1) st' rest
      | .error _ => true

theorem map_eq_self_iff {l : List α} : l.map f = l ↔ ∀ x ∈ l, f x = x := by
  conv_lhs => rhs; rw [← map_id l]
  exact map_inj_left

theorem eraseState_eq_iff : eraseState st = st ↔ ∀ h ∈ st.hunks, eraseHunk h = h := by
  rw [← map_eq_self_iff]
  constructor
  · intro h
    exact congrArg StreamingParserState.hunks h
  · intro h
    rw [eraseState, h]

theorem eraseChunk_eq_iff {c : UpdateFileChunk} :
    eraseChunk c = c ↔ (∀ l ∈ c.oldLines, stripCr l = l) ∧ ∀ l ∈ c.newLines, stripCr l = l := by
  obtain ⟨ctx, old, new, eof⟩ := c
  simp [eraseChunk, map_eq_self_iff]

theorem eraseHunk_update_iff :
    eraseHunk (.updateFile path movePath chunks) = .updateFile path movePath chunks ↔
      ∀ c ∈ chunks, eraseChunk c = c := by
  simp [eraseHunk, map_eq_self_iff]

theorem closeLast_clean_iff : (∀ c ∈ closeLast chunks, eraseChunk c = c) ↔ ∀ c ∈ chunks, eraseChunk c = c := by
  cases eq_nil_or_concat' chunks with
  | inl he => rw [he]; rfl
  | inr hc =>
    obtain ⟨pre, c, rfl⟩ := hc
    simp [closeLast, or_imp, forall_and, eraseChunk_eq_iff]

theorem addToLast_clean_iff {new : List Str} :
    (∀ c ∈ addToLast chunks old new, eraseChunk c = c) ↔
      (∀ c ∈ chunks, eraseChunk c = c) ∧ (∀ l ∈ old, stripCr l = l) ∧ ∀ l ∈ new, stripCr l = l := by
  cases eq_nil_or_concat' chunks with
  | inl he =>
    rw [he]
    simp [addToLast, newChunk, mapLast, eraseChunk_eq_iff]
  | inr hc =>
    obtain ⟨pre, c, rfl⟩ := hc
    simp [addToLast, or_imp, forall_and, eraseChunk_eq_iff]
    tauto

theorem getLast?_cons_cr (hc : c ≠ '\r') : (c :: l).getLast? = some '\r' ↔ l.getLast? = some '\r' := by
  cases l with
  | nil => simp [hc]
  | cons d l => rw [getLast?_cons_cons]

theorem contentOf_clean_iff {new : List Str} (h : ContentOf line old new) :
    ((∀ l ∈ old, stripCr l = l) ∧ ∀ l ∈ new, stripCr l = l) ↔
      ¬(isContentStart line = true ∧ line.getLast? = some '\r') := by
  have hchar : ∀ c : Char, c = ' ' ∨ c = '+' ∨ c = '-' → ∀ l : Str,
      (isContentStart (c :: l) = true ∧ (c :: l).getLast? = some '\r') ↔ stripCr l ≠ l := by
    intro c hc l
    have hcr : c ≠ '\r' := by rintro rfl; simp at hc
    have hs : isContentStart (c :: l) = true := by
      rcases hc with rfl | rfl | rfl <;> simp [isContentStart]
    rw [getLast?_cons_cr hcr, Ne, stripCr_eq_self_iff, not_ne_iff]
    simp [hs]
  cases h with
  | empty => simp
  | context l | added l | removed l => rw [hchar _ (by simp)]; simp

theorem updateStep_clean_iff (h : UpdateStep path movePath chunks line hunk) :
    eraseHunk hunk = hunk ↔ (∀ c ∈ chunks, eraseChunk c = c) ∧
      ¬((!lastIsEndOfFile chunks && isContentStart line) = true ∧ line.getLast? = some '\r') := by
  have hmarker : ∀ {c : Char} {t : Str}, trimEnd line = c :: t → c = '*' ∨ c = '@' → isContentStart line = false := by
    intro c t ht hc
    obtain ⟨t', rfl⟩ := eq_cons_of_trimEnd ht
    cases hc with
    | inl hc => simp [isContentStart, hc]
    | inr hc => simp [isContentStart, hc]
  cases h with
  | closed he ht => simp [eraseHunk_update_iff, he]
  | moved p hc hm ht =>
    rw [eraseHunk_update_iff, hmarker (ht : trimEnd line = '*' :: _) (Or.inl rfl)]
    simp
  | header ctx hl ht =>
    obtain ⟨r, hr⟩ := ht
    rw [eraseHunk_update_iff, hmarker (hr.symm : trimEnd line = '@' :: _) (Or.inr rfl)]
    simp [or_imp, forall_and, newChunk, eraseChunk]
  | eof hl ht =>
    rw [eraseHunk_update_iff, closeLast_clean_iff, hmarker (ht : trimEnd line = '*' :: _) (Or.inl rfl)]
    simp
  | content old new he hc =>
    rw [eraseHunk_update_iff, addToLast_clean_iff, contentOf_clean_iff hc, he]
    simp

theorem opened_clean (h : Opened n t mode new) : (∃ s, t = '*' :: s) ∧ ∀ g ∈ new, eraseHunk g = g := by
  cases h with
  | endPatch => exact ⟨⟨_, rfl⟩, by simp⟩
  | addFile path | deleteFile path | updateFile path => exact ⟨⟨_, rfl⟩, by simp [eraseHunk, dropCr]⟩

/-- A header line is not content. -/
theorem not_isContentLine_of_header (h : headerText st.mode line = '*' :: s) : isContentLine st line = false := by
  unfold isContentLine
  split
  · rename_i hm
    rw [hm] at h
    by_contra hc
    have hp : ['+'] <+: line := by simpa [startsWith] using hc
    obtain ⟨r, rfl⟩ := hp
    have ht : trimEnd ('+' :: r) = '*' :: s := by
      rw [← trimStart_cons_of_not r (by decide)]
      exact h
    obtain ⟨t, ht'⟩ := eq_cons_of_trimEnd ht
    cases ht'
  · rename_i k p mv cs hm hl
    rw [hm] at h
    obtain ⟨t, rfl⟩ := eq_cons_of_trimEnd (show trimEnd line = '*' :: s from h)
    simp [isContentStart]
  · rfl

/-- One line leaves the state clean exactly when it was clean before and the line
is no content that ends in a carriage return. -/
theorem lineStep_clean_iff (hclosed : ContentsClosed st) (hline : '\n' ∉ line) (h : LineStep n st line st') :
    eraseState st' = st' ↔ eraseState st = st ∧ ¬(isContentLine st line = true ∧ line.getLast? = some '\r') := by
  rw [eraseState_eq_iff, eraseState_eq_iff]
  cases h with
  | begun hm ht => simp [isContentLine, hm]
  | environment id hm => simp [isContentLine, hm]
  | opened mode new hm hnew hok =>
    obtain ⟨⟨s, hs⟩, hclean⟩ := opened_clean hnew
    rw [not_isContentLine_of_header hs]
    simp only [mem_append, or_imp, forall_and]
    simpa using fun _ => hclean
  | added pre path txt l hm hst hl =>
    subst hl
    have hc := hclosed path txt (by simp [hst])
    have hnl : '\n' ∉ l := fun hn => hline (by simp [hn])
    have hcontent : isContentLine st ('+' :: l) = true := by simp [isContentLine, hm]
    have hf : eraseHunk (.addFile path (txt ++ l ++ ['\n'])) =
        .addFile path (txt ++ l ++ ['\n']) ↔
        eraseHunk (.addFile path txt) = .addFile path txt ∧ stripCr l = l := by
      simp only [eraseHunk, dropCr_contents hc hnl, Hunk.addFile.injEq, true_and]
      exact dropCr_contents_eq_iff
    rw [hst, getLast?_cons_cr (by decide), hcontent]
    simp only [mem_append, mem_singleton, or_imp, forall_and, forall_eq, hf, and_assoc,
      stripCr_eq_self_iff, true_and, ne_eq]
  | updated pre path movePath cs hunk k hm hst hl =>
    have hu := updateStep_clean_iff (updateFileLine_step hl)
    have hcontent : isContentLine st line = (!lastIsEndOfFile cs && isContentStart line) := by
      simp [isContentLine, hm, hst]
    rw [hcontent, hst]
    simp only [mem_append, mem_singleton, or_imp, forall_and, forall_eq, hu, eraseHunk_update_iff, and_assoc]
  | blank hm ht => simp [isContentLine, hm]

/-- A whole run leaves the state clean exactly when no content line on the way
ends in a carriage return. -/
theorem feedLines_clean_iff (hclosed : ContentsClosed st) (hls : ∀ l ∈ ls, '\n' ∉ l) (h : feedLines n st ls = .ok st') :
    eraseState st' = st' ↔ eraseState st = st ∧ noContentCr n st ls = true := by
  induction ls generalizing n st with
  | nil => cases h; simp [noContentCr]
  | cons l ls ih =>
    obtain ⟨mid, hl, hr⟩ := feedLines_cons_ok h
    have hs := processLine_step hl
    rw [ih (lineStep_closed hs hclosed) (fun l' hl' => hls l' (by simp [hl'])) hr,
      lineStep_clean_iff hclosed (hls l (by simp)) hs, and_assoc]
    cases hc : isContentLine st l <;> simp [noContentCr, hl, hc]

/-! ## How an accepted text ends -/

theorem opened_ended (h : Opened n t .endedPatch new) : t = endPatchMarker ∧ new = [] := by
  cases h
  exact ⟨rfl, rfl⟩

/-- The marker is recognised after trimming in every mode. -/
theorem trim_of_headerText (h : headerText mode line = endPatchMarker) : trim line = endPatchMarker := by
  cases mode with
  | updateFile k =>
    rw [← trimStart_trimEnd, show trimEnd line = endPatchMarker from h]
    decide
  | notStarted | startedPatch | addFile | deleteFile | endedPatch => exact h

/-- Only an end marker ends the patch; after it, blank lines change nothing. -/
theorem lineStep_ended (h : LineStep n st line st') (hm' : st'.mode = .endedPatch) :
    (st.mode = .endedPatch ∧ trim line = [] ∧ st' = st) ∨
      (trim line = endPatchMarker ∧ ensureUpdateHunkIsNotEmpty n st endPatchMarker = .ok () ∧
        st'.hunks = st.hunks ∧ st'.environmentId = st.environmentId) := by
  cases h with
  | begun hm ht => cases hm'
  | environment id hm => rw [hm] at hm'; cases hm'
  | opened mode new hm hn hok =>
    cases hm'
    obtain ⟨ht, rfl⟩ := opened_ended hn
    exact .inr ⟨trim_of_headerText ht, ht ▸ hok, by simp, rfl⟩
  | added pre path txt l hm hst hl => rw [hm] at hm'; cases hm'
  | updated pre path movePath cs hunk k hm hst hl => rw [hm] at hm'; cases hm'
  | blank hm ht => exact .inl ⟨hm, ht, rfl⟩

theorem feedLines_blank
    (hls : ∀ l ∈ ls, trim l = []) (h : feedLines n st ls = .ok st') (hm : st'.mode = .endedPatch) :
    st' = st := by
  induction ls generalizing n st with
  | nil => cases h; rfl
  | cons l ls ih =>
    obtain ⟨mid, hl, hr⟩ := feedLines_cons_ok h
    have hmid := ih (fun l' hl' => hls l' (by simp [hl'])) hr
    subst hmid
    cases lineStep_ended (processLine_step hl) hm with
    | inl hb => exact hb.2.2
    | inr he => rw [hls l (by simp)] at he; cases he.1

theorem closeText_ended (h : closeText n last st = .ok st') (hm : st'.mode = .endedPatch) :
    (st.mode = .endedPatch ∧ trim last = [] ∧ st' = st) ∨
      (trim last = endPatchMarker ∧ ensureUpdateHunkIsNotEmpty (n + 1) st endPatchMarker = .ok () ∧
        st'.hunks = st.hunks ∧ st'.environmentId = st.environmentId) := by
  unfold closeText at h
  split at h
  · rename_i hl
    cases h
    exact .inl ⟨hm, by rw [hl]; rfl, rfl⟩
  · unfold lastLine at h
    split at h
    · rename_i ht
      obtain ⟨hok, rfl⟩ := openHunk_ok h
      exact .inr ⟨ht, ht ▸ hok, by simp, rfl⟩
    · exact lineStep_ended (processLine_step h) hm

/-- The last line of a text with its trailing white space gone is not blank. -/
theorem trimEnd_eq_nil_of_blank (h : trim (unterminated (trimEnd text)) = []) : trimEnd text = [] := by
  cases eq_nil_or_concat' (trimEnd text) with
  | inl he => exact he
  | inr hc =>
    obtain ⟨pre, c, hc⟩ := hc
    have hw : isWhitespace c = false :=
      trimEnd_eq_self_iff.mp (trimEnd_trimEnd text) c (by rw [hc, getLast?_concat])
    have hn : '\n' ∉ [c] := by
      intro hm
      rw [← mem_singleton.mp hm] at hw
      cases hw
    rw [hc, (terminated_append hn pre).2, trim_eq_nil_iff] at h
    rw [h c (by simp)] at hw
    cases hw

theorem blank_of_line (hw : ∀ c ∈ w, isWhitespace c) (hl : l ∈ terminated w ∨ l = unterminated w) : trim l = [] :=
  trim_eq_nil_iff.mpr fun c hc => hw c (line_subset hl hc)

/-- An accepted text ends with the end marker: the lines before it are accepted, and
what follows it is white space. -/
theorem parseLines_end (h : parseLines ((terminated text).map stripCr) (unterminated text) = .ok (hunks, id)) :
    ∃ st, feedLines 0 StreamingPatchParser.default.state
        ((terminated (trimEnd text)).map stripCr) = .ok st ∧
      trim (unterminated (trimEnd text)) = endPatchMarker ∧
      (∃ n, ensureUpdateHunkIsNotEmpty n st endPatchMarker = .ok ()) ∧
      st.hunks = hunks ∧ st.environmentId = id := by
  obtain ⟨st, st', hf, hclose, hm, rfl, rfl⟩ := parseLines_ok h
  obtain ⟨w, htext, hw⟩ := trimEnd_decompose text
  -- the default parser has not ended, so the text is not blank
  have hblank : ∀ {s : StreamingParserState}, feedLines 0 StreamingPatchParser.default.state
      ((terminated (trimEnd text)).map stripCr) = .ok s → s.mode = .endedPatch →
      trim (unterminated (trimEnd text)) ≠ [] := by
    intro s hs hsm hb
    rw [trimEnd_eq_nil_of_blank hb] at hs
    cases hs
    cases hsm
  cases line_or_terminated w with
  | inl hn =>
    obtain ⟨ht, hu⟩ := terminated_append hn (trimEnd text)
    rw [← htext] at ht hu
    rw [ht] at hf
    have hv : trim (unterminated text) = trim (unterminated (trimEnd text)) := by
      rw [hu, ← trimStart_trimEnd, trimEnd_append_ws _ _ hw, trimStart_trimEnd]
    cases closeText_ended hclose hm with
    | inl hb => exact absurd (hv ▸ hb.2.1) (hblank hf hb.1)
    | inr he =>
      obtain ⟨hend, hok, hh, hid⟩ := he
      exact ⟨st, hf, hv ▸ hend, ⟨_, hok⟩, hh.symm, hid.symm⟩
  | inr hn =>
    obtain ⟨w₁, w₂, hw₁, rfl⟩ := hn
    have hws₁ : ∀ c ∈ w₁, isWhitespace c := fun c hc => hw c (by simp [hc])
    have hws₂ : ∀ c ∈ w₂, isWhitespace c := fun c hc => hw c (by simp [hc])
    obtain ⟨ht₁, hu₁⟩ := terminated_append hw₁ (trimEnd text)
    obtain ⟨ht, hu⟩ := terminated_append_newline (trimEnd text ++ w₁) w₂
    rw [append_assoc, ← htext] at ht hu
    rw [ht, ht₁, hu₁, map_append, map_cons] at hf
    obtain ⟨s₁, hs₁, hr⟩ := feedLines_append_ok hf
    obtain ⟨s₂, hs₂, hblanks⟩ := feedLines_cons_ok hr
    have hlast : st.mode = .endedPatch ∧ st' = st := by
      cases closeText_ended hclose hm with
      | inl hb => exact ⟨hb.1, hb.2.2⟩
      | inr he =>
        rw [hu, blank_of_line hws₂ (Or.inr rfl)] at he
        cases he.1
    obtain ⟨hmode, rfl⟩ := hlast
    have hsame : st' = s₂ := by
      refine feedLines_blank (fun l hl => ?_) hblanks hmode
      obtain ⟨l', hl', rfl⟩ := mem_map.mp hl
      rw [trim_stripCr, blank_of_line hws₂ (Or.inl hl')]
    subst hsame
    have hv : trim (stripCr (unterminated (trimEnd text) ++ w₁)) = trim (unterminated (trimEnd text)) := by
      rw [trim_stripCr, ← trimStart_trimEnd, trimEnd_append_ws _ _ hws₁, trimStart_trimEnd]
    cases lineStep_ended (processLine_step hs₂) hmode with
    | inl hb => exact absurd (hv ▸ hb.2.1) (hblank hs₁ hb.1)
    | inr he =>
      obtain ⟨hend, hok, hh, hid⟩ := he
      exact ⟨s₁, hs₁, hv ▸ hend, ⟨_, hok⟩, hh.symm, hid.symm⟩

/-! ## Agreement -/

/-- A text that starts with a terminated line keeps its lines when it is trimmed,
up to white space in front of the first one. -/
theorem terminated_trim (h : terminated (trimEnd text) = first :: rest) (hb : trim first ≠ []) :
    terminated (trim text) = trimStart first :: rest ∧ unterminated (trim text) = unterminated (trimEnd text) := by
  cases line_or_terminated (trimEnd text) with
  | inl hn => rw [terminated_of_not_mem hn] at h; cases h
  | inr hn =>
    obtain ⟨l, s, hl, he⟩ := hn
    rw [he, terminated_cons hl] at h
    obtain ⟨rfl, rfl⟩ := List.cons.inj h
    obtain ⟨v, hv, hw⟩ := trimStart_decompose l
    have hne : trimStart l ≠ [] := by
      intro hnil
      rw [trim, hnil] at hb
      exact hb rfl
    obtain ⟨c, t, hct⟩ := exists_cons_of_ne_nil hne
    have hc : isWhitespace c = false := by
      have hd := head?_dropWhile_not isWhitespace l
      rw [show l.dropWhile isWhitespace = trimStart l from rfl, hct] at hd
      simpa using hd
    have ht : trim text = trimStart l ++ '\n' :: s := by
      rw [← trimStart_trimEnd, he]
      conv_lhs => rw [hv, append_assoc, trimStart_ws_append _ _ hw]
      rw [hct, cons_append, trimStart_cons_of_not _ hc]
    have hnl : '\n' ∉ trimStart l := fun hm => hl (by rw [hv]; exact mem_append_right _ hm)
    rw [ht, terminated_cons hnl, unterminated_cons, he, unterminated_cons]
    exact ⟨rfl, rfl⟩

theorem parsePatch_of_bare_end (h : trim text = endPatchMarker) : parsePatch text = .error firstLineError := by
  rw [parsePatch, parsePatchText, h]
  rfl

theorem first_line (h : processLine n StreamingPatchParser.default.state line = .ok st) :
    trim line = beginPatchMarker ∧ st = ⟨.startedPatch, [], none⟩ := by
  simp only [processLine, StreamingPatchParser.default] at h
  split at h
  · cases h
    exact ⟨‹_›, rfl⟩
  · cases h

theorem processLine_begin (h : trim line = beginPatchMarker) :
    processLine n StreamingPatchParser.default.state line = .ok ⟨.startedPatch, [], none⟩ := by
  simp [processLine, StreamingPatchParser.default, h]

/-- The line number only matters for the error. -/
theorem ensure_ok_any (h : ensureUpdateHunkIsNotEmpty n st t = .ok ()) :
    ensureUpdateHunkIsNotEmpty m st t = .ok () := by
  unfold ensureUpdateHunkIsNotEmpty at h ⊢
  split at h
  · split at h
    · cases h
    · rfl
    · split at h
      · split at h <;> cases h
      · rename_i hl
        rw [if_neg hl]
  · rfl

/-- Where the streaming parser accepts a text that is more than an end marker,
`parsePatch` returns its hunks after one more stripping. -/
theorem parsePatch_of_parseLines
    (h : parseLines ((terminated text).map stripCr) (unterminated text) = .ok (hunks, id))
    (hne : trim text ≠ endPatchMarker) :
    ∃ pt, parsePatch text = .ok ⟨pt, hunks.map eraseHunk, none, id⟩ := by
  obtain ⟨st, hfeed, hend, ⟨n, hok⟩, rfl, rfl⟩ := parseLines_end h
  cases hls : terminated (trimEnd text) with
  | nil =>
    exfalso
    apply hne
    have hu : unterminated (trimEnd text) = trimEnd text := by
      cases line_or_terminated (trimEnd text) with
      | inl hn => exact unterminated_of_not_mem hn
      | inr hn =>
        obtain ⟨l, s, hl, he⟩ := hn
        rw [he, terminated_cons hl] at hls
        cases hls
    rw [hu, ← trimStart_trimEnd, trimEnd_trimEnd, trimStart_trimEnd] at hend
    exact hend
  | cons first rest =>
    rw [hls, map_cons] at hfeed
    obtain ⟨mid, hf, hr⟩ := feedLines_cons_ok hfeed
    obtain ⟨hb, rfl⟩ := first_line hf
    rw [trim_stripCr] at hb
    obtain ⟨ht, hu⟩ := terminated_trim hls (by rw [hb]; decide)
    have hb' : trim (trimStart first) = beginPatchMarker := by
      rw [trim, show trimStart (trimStart first) = trimStart first from dropWhile_idempotent ..]
      exact hb
    obtain ⟨pt, hp⟩ := parsePatch_eq_parseLines ht hu hb' hend
    have hf' : feedLines 0 StreamingPatchParser.default.state
        (((trimStart first :: rest).map stripCr).map stripCr) = .ok (eraseState st) := by
      rw [map_cons, map_cons, feedLines, processLine_begin (by simpa using hb')]
      refine feedLines_erase (by simp [ContentsClosed]) ?_ hr
      intro l hl hn
      obtain ⟨l', hl', rfl⟩ := mem_map.mp hl
      exact not_mem_of_terminated (hls ▸ mem_cons_of_mem _ hl') (stripCr_subset l' hn)
    have hlast : unterminated (trimEnd text) ≠ [] := by
      intro hnil
      rw [hnil] at hend
      cases hend
    refine ⟨pt, ?_⟩
    rw [hp, parseLines, hf']
    simp only [closeText, if_neg hlast, lastLine, openHunk, hend, ensure_ok_any (ensure_erase ▸ hok)]
    simp [Except.map, result, eraseState]

/-- The hunks of a run are those after its terminated lines. -/
theorem parseLines_hunks {last : Str} (h : parseLines ls last = .ok (hunks, id)) :
    ∃ st, feedLines 0 StreamingPatchParser.default.state ls = .ok st ∧ st.hunks = hunks := by
  obtain ⟨st, st', hf, hc, hm, rfl, rfl⟩ := parseLines_ok h
  refine ⟨st, hf, ?_⟩
  cases closeText_ended hc hm with
  | inl hb => rw [hb.2.2]
  | inr he => exact he.2.2.1.symm

/-- Where a streaming run over any deltas succeeds, `parsePatch` of the whole text
returns the same hunks and environment id exactly when the text is not a bare end
marker and no content line keeps a carriage return after the one before its newline
is stripped. -/
theorem parsePatch_agrees_iff (deltas : List Str) (hunks : List Hunk) (id : Option Str)
    (h : streamPatch deltas = .ok (hunks, id)) :
    (∃ args, parsePatch deltas.flatten = .ok args ∧ args.hunks = hunks ∧ args.environmentId = id) ↔
      trim deltas.flatten ≠ endPatchMarker ∧
        noContentCr 0 StreamingPatchParser.default.state
          ((terminated deltas.flatten).map stripCr) = true := by
  rw [streamPatch_eq_parseLines] at h
  by_cases hb : trim deltas.flatten = endPatchMarker
  · rw [parsePatch_of_bare_end hb]
    simp [hb]
  · obtain ⟨pt, hp⟩ := parsePatch_of_parseLines h hb
    obtain ⟨st, hfeed, rfl⟩ := parseLines_hunks h
    have hf : ∀ l ∈ (terminated deltas.flatten).map stripCr, '\n' ∉ l := by
      intro l hl hn
      obtain ⟨l', hl', rfl⟩ := mem_map.mp hl
      exact not_mem_of_terminated hl' (stripCr_subset l' hn)
    have hc := feedLines_clean_iff (by simp [ContentsClosed, StreamingPatchParser.default])
      hf hfeed
    rw [eraseState_eq_iff, ← map_eq_self_iff] at hc
    simp only [hp, Except.ok.injEq, exists_eq_left', and_true, ne_eq, hb, not_false_eq_true, true_and, hc]
    simp [eraseState, StreamingPatchParser.default]

/-- A removed line that ends in a carriage return loses it in the batch parser. -/
theorem parsePatch_drops_cr :
    ∃ text hunks, streamPatch [text] = .ok (hunks, none) ∧
      ¬ ∃ args, parsePatch text = .ok args ∧ args.hunks = hunks ∧ args.environmentId = none := by
  refine ⟨"*** Begin Patch\n*** Update File: f\n-old\r\r\n+new\n*** End Patch\n".toList, _, rfl, ?_⟩
  rintro ⟨args, ha, hh, -⟩
  cases ha
  revert hh
  decide

/-- Line ends of either kind, spread over two deltas, are read alike. -/
theorem parsePatch_agrees_crlf :
    ∃ args, parsePatch "*** Begin Patch\r\n*** Add File: f\r\n+a\r\n*** End Patch".toList = .ok args ∧
      args.hunks = [.addFile "f".toList "a\n".toList] ∧ args.environmentId = none :=
  (parsePatch_agrees_iff ["*** Begin Patch\r\n*** Add File: f\r".toList,
    "\n+a\r\n*** End Patch".toList] _ _ rfl).mpr (by decide)

end PatchAgreement
