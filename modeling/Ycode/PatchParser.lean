import Ycode.StreamingParser

/-!
# Parsing a whole patch text

`parsePatch` trims the text, cuts it into lines, checks the first and the last
one (looking inside a here-document if need be) and hands the lines, joined
again, to the streaming parser. A run of the streaming parser over any deltas
depends only on the lines of the whole text, which is how the results about whole
texts are proved.
-/
namespace PatchParser

open RustStr PatchHunk StreamingParser List

/-! ## The streaming parser on the lines of a text -/

/-- Push all deltas, giving up at the first one that fails. -/
def streamDeltas (p : StreamingPatchParser) : List Str → Except ParseError StreamingPatchParser
  | [] => .ok p
  | delta :: rest =>
    match pushDelta p delta with
    | (p', .ok _) => streamDeltas p' rest
    | (_, .error e) => .error e

/-- The hunks and the environment id a fresh parser finishes with. -/
def streamPatch (deltas : List Str) : Except ParseError (List Hunk × Option Str) :=
  match streamDeltas .default deltas with
  | .error e => .error e
  | .ok p =>
    match finish p with
    | (p', .ok hunks) => .ok (hunks, p'.state.environmentId)
    | (_, .error e) => .error e

/-- Process complete lines one after the other. -/
def feedLines (n : Nat) (st : StreamingParserState) : List Str → Except ParseError StreamingParserState
  | [] => .ok st
  | line :: rest =>
    match processLine (n + 1) st line with
    | .ok st' => feedLines (n + 1) st' rest
    | .error e => .error e

theorem feedLines_append :
    feedLines n st (ls ++ ls') =
      match feedLines n st ls with
      | .ok st' => feedLines (n + ls.length) st' ls'
      | .error e => .error e := by
  induction ls generalizing n st with
  | nil => rfl
  | cons l ls ih =>
    rw [cons_append, feedLines, feedLines]
    cases processLine (n + 1) st l with
    | error e => rfl
    | ok st' =>
      simp only [ih, length_cons]
      rw [show n + 1 + ls.length = n + (ls.length + 1) by omega]

theorem feedLines_cons_ok (h : feedLines n st (l :: ls) = .ok st') :
    ∃ mid, processLine (n + 1) st l = .ok mid ∧ feedLines (n + 1) mid ls = .ok st' := by
  rw [feedLines] at h
  split at h
  · exact ⟨_, ‹_›, h⟩
  · cases h

theorem feedLines_append_of (ls' : List Str) (h : feedLines n st ls = .ok mid) :
    feedLines n st (ls ++ ls') = feedLines (n + ls.length) mid ls' := by
  rw [feedLines_append, h]

theorem feedLines_append_ok (h : feedLines n st (ls ++ ls') = .ok st') :
    ∃ mid, feedLines n st ls = .ok mid ∧ feedLines (n + ls.length) mid ls' = .ok st' := by
  rw [feedLines_append] at h
  split at h
  · exact ⟨_, ‹_›, h⟩
  · cases h

/-- The parser after a delta that was accepted. -/
def pushed : StreamingPatchParser × Except ParseError (List Hunk) → Except ParseError StreamingPatchParser
  | (p, .ok _) => .ok p
  | (_, .error e) => .error e

theorem pushDelta_append (p : StreamingPatchParser) (d d' : Str) :
    pushed (pushDelta p (d ++ d')) =
      match pushed (pushDelta p d) with
      | .ok p' => pushed (pushDelta p' d')
      | .error e => .error e := by
  induction d generalizing p with
  | nil => rfl
  | cons ch rest ih =>
    rw [cons_append, pushDelta, pushDelta]
    by_cases hc : ch = '\n'
    · rw [if_pos hc, if_pos hc]
      cases processLine (p.lineNumber + 1) p.state (stripCr p.lineBuffer) with
      | error e => rfl
      | ok st => exact ih _
    · rw [if_neg hc, if_neg hc]
      exact ih _

/-- Any deltas are as good as their concatenation. -/
theorem streamDeltas_eq_pushDelta (p : StreamingPatchParser) (ds : List Str) :
    streamDeltas p ds = pushed (pushDelta p ds.flatten) := by
  induction ds generalizing p with
  | nil => rfl
  | cons d rest ih =>
    rw [streamDeltas, flatten_cons, pushDelta_append]
    obtain ⟨p', r⟩ := pushDelta p d
    cases r with
    | error e => rfl
    | ok hunks => exact ih p'

/-- The buffer and the delta are read as one text, line by line. -/
theorem pushDelta_lines (hp : '\n' ∉ p.lineBuffer) (d : Str) :
    pushed (pushDelta p d) =
      (feedLines p.lineNumber p.state ((terminated (p.lineBuffer ++ d)).map stripCr)).map fun st =>
        ⟨unterminated (p.lineBuffer ++ d), st, p.lineNumber + (terminated (p.lineBuffer ++ d)).length⟩ := by
  induction d generalizing p with
  | nil =>
    rw [append_nil, terminated_of_not_mem hp, unterminated_of_not_mem hp]
    rfl
  | cons ch rest ih =>
    rw [pushDelta]
    by_cases hc : ch = '\n'
    · subst hc
      rw [if_pos rfl, terminated_cons hp, unterminated_cons, map_cons, feedLines]
      cases processLine (p.lineNumber + 1) p.state (stripCr p.lineBuffer) with
      | error e => rfl
      | ok st =>
        simp only [ih (p := ⟨[], st, p.lineNumber + 1⟩) (by simp), nil_append, length_cons]
        rw [show p.lineNumber + 1 + (terminated rest).length = p.lineNumber + ((terminated rest).length + 1) by omega]
    · rw [if_neg hc, ih (by simp [hp, Ne.symm hc])]
      simp

/-- The unterminated rest of a text counts as a line unless it is empty. -/
def closeText (n : Nat) (last : Str) (st : StreamingParserState) :
    Except ParseError StreamingParserState :=
  if last = [] then .ok st else lastLine (n + 1) st last

/-- The result of a run, once all lines are read. -/
def result (st : StreamingParserState) : Except ParseError (List Hunk × Option Str) :=
  if st.mode = .endedPatch then .ok (st.hunks, st.environmentId) else .error lastLineError

/-- A fresh parser on complete lines and an unterminated last one. -/
def parseLines (ls : List Str) (last : Str) : Except ParseError (List Hunk × Option Str) :=
  match feedLines 0 StreamingPatchParser.default.state ls with
  | .error e => .error e
  | .ok st =>
    match closeText ls.length last st with
    | .error e => .error e
    | .ok st' => result st'

theorem finish_eq (last : Str) (st : StreamingParserState) (n : Nat) :
    (match finish ⟨last, st, n⟩ with
      | (p', .ok hunks) => Except.ok (hunks, p'.state.environmentId)
      | (_, .error e) => .error e) =
      match closeText n last st with
      | .error e => .error e
      | .ok st' => result st' := by
  have he : ∀ (p : StreamingPatchParser) (st' : StreamingParserState),
      (match ({ p with state := st' },
          if st'.mode = .endedPatch then Except.ok st'.hunks else .error lastLineError) with
        | ((p' : StreamingPatchParser), Except.ok hunks) => Except.ok (hunks, p'.state.environmentId)
        | (_, .error e) => .error e) = result st' := by
    intro p st'
    unfold result
    by_cases hm : st'.mode = .endedPatch
    · rw [if_pos hm, if_pos hm]
    · rw [if_neg hm, if_neg hm]
  unfold finish closeText
  by_cases hl : last = []
  · subst hl
    exact he ⟨[], st, n⟩ st
  · have hne : last.isEmpty = false := by simpa using hl
    simp only [hne, Bool.false_eq_true, if_false, if_neg hl]
    cases lastLine (n + 1) st last with
    | error e => rfl
    | ok st' => exact he ⟨[], st, n + 1⟩ st'

/-- A run over deltas is a run over the lines of the whole text. -/
theorem streamPatch_eq_parseLines (ds : List Str) :
    streamPatch ds = parseLines ((terminated ds.flatten).map stripCr) (unterminated ds.flatten) := by
  have hr := pushDelta_lines (p := .default) (by simp [StreamingPatchParser.default]) ds.flatten
  rw [show StreamingPatchParser.default.lineBuffer = [] from rfl, nil_append,
    show StreamingPatchParser.default.lineNumber = 0 from rfl, Nat.zero_add] at hr
  rw [streamPatch, streamDeltas_eq_pushDelta, hr, parseLines, length_map]
  cases feedLines 0 StreamingPatchParser.default.state ((terminated ds.flatten).map stripCr) with
  | error e => rfl
  | ok st => exact finish_eq _ st _

theorem parseLines_ok {hunks : List Hunk} {id : Option Str} (h : parseLines ls last = .ok (hunks, id)) :
    ∃ st st', feedLines 0 StreamingPatchParser.default.state ls = .ok st ∧
      closeText ls.length last st = .ok st' ∧ st'.mode = .endedPatch ∧
      st'.hunks = hunks ∧ st'.environmentId = id := by
  unfold parseLines at h
  split at h
  · cases h
  · rename_i st hst
    split at h
    · cases h
    · rename_i st' hs'
      unfold result at h
      split at h
      · rename_i hm
        cases h
        exact ⟨st, st', hst, hs', hm, rfl, rfl⟩
      · cases h

/-! ## Whole texts -/

structure ApplyPatchArgs where
  patch : Str
  hunks : List Hunk
  workdir : Option Str
  environmentId : Option Str
  deriving DecidableEq, Repr

inductive ParseMode where
  | strict
  | lenient
  deriving DecidableEq, Repr

def checkStartAndEndLinesStrict (firstLine lastLine : Option Str) : Except ParseError Unit :=
  match firstLine.map trim, lastLine.map trim with
  | some first, some last =>
    if first = beginPatchMarker ∧ last = endPatchMarker then .ok ()
    else if first ≠ beginPatchMarker then .error firstLineError
    else .error lastLineError
  | some first, none =>
    if first ≠ beginPatchMarker then .error firstLineError else .error lastLineError
  | none, _ => .error lastLineError

def checkPatchBoundariesStrict (lines : List Str) : Except ParseError (List Str) :=
  (checkStartAndEndLinesStrict lines.head? lines.getLast?).map fun _ => lines

/-- The first line of a here-document whose end word is `EOF`. -/
def isHeredocStart (line : Str) : Bool :=
  line == "<<EOF".toList || line == "<<'EOF'".toList || line == "<<\"EOF\"".toList

def checkPatchBoundariesLenient (originalLines : List Str) : Except ParseError (List Str) :=
  match checkPatchBoundariesStrict originalLines with
  | .ok lines => .ok lines
  | .error originalParseError =>
    match originalLines.head?, originalLines.getLast? with
    | some first, some last =>
      if isHeredocStart first && endsWith last "EOF".toList && decide (4 ≤ originalLines.length) then
        checkPatchBoundariesStrict originalLines.tail.dropLast
      else .error originalParseError
    | _, _ => .error originalParseError

def parsePatchText (patch : Str) (mode : ParseMode) : Except ParseError ApplyPatchArgs :=
  let ls := lines (trim patch)
  let checked := match mode with
    | .strict => checkPatchBoundariesStrict ls
    | .lenient => checkPatchBoundariesLenient ls
  match checked with
  | .error e => .error e
  | .ok patchLines =>
    (streamPatch [joinLines patchLines]).map fun (hunks, environmentId) =>
      ⟨joinLines patchLines, hunks, none, environmentId⟩

/-- The parser runs in lenient mode. -/
def parsePatch (patch : Str) : Except ParseError ApplyPatchArgs := parsePatchText patch .lenient

theorem checkPatchBoundariesLenient_of_markers (first last : Str)
    (hf : ls.head? = some first) (hl : ls.getLast? = some last)
    (hb : trim first = beginPatchMarker) (he : trim last = endPatchMarker) :
    checkPatchBoundariesLenient ls = .ok ls := by
  simp [checkPatchBoundariesLenient, checkPatchBoundariesStrict, checkStartAndEndLinesStrict,
    hf, hl, hb, he, Except.map]

/-- A trimmed text that starts and ends with the markers is parsed line by line;
every line but the last loses up to two carriage returns, one when the text is cut
into lines and one when the joined lines are read again. -/
theorem parsePatch_eq_parseLines
    (hls : terminated (trim text) = first :: mid) (hlast : unterminated (trim text) = last)
    (hb : trim first = beginPatchMarker) (he : trim last = endPatchMarker) :
    ∃ pt, parsePatch text =
      (parseLines (((first :: mid).map stripCr).map stripCr) last).map fun (hunks, environmentId) =>
        ⟨pt, hunks, none, environmentId⟩ := by
  have hne : last ≠ [] := by
    intro h
    rw [h] at he
    cases he
  have hlines : lines (trim text) = (first :: mid).map stripCr ++ [last] := by
    rw [lines, hls, hlast, if_neg hne]
  have hf : ∀ l ∈ (first :: mid).map stripCr, '\n' ∉ l := by
    intro l hl hn
    obtain ⟨l', hl', rfl⟩ := mem_map.mp hl
    exact not_mem_of_terminated (hls ▸ hl') (stripCr_subset l' hn)
  have hc : checkPatchBoundariesLenient (lines (trim text)) = .ok (lines (trim text)) := by
    refine checkPatchBoundariesLenient_of_markers (stripCr first) last ?_ ?_ ?_ he
    · simp [hlines]
    · rw [hlines, getLast?_concat]
    · rw [trim_stripCr, hb]
  obtain ⟨ht, hu⟩ := splitOn_joinLines hf (hlast ▸ not_mem_unterminated (trim text))
  refine ⟨joinLines (lines (trim text)), ?_⟩
  simp only [parsePatch, parsePatchText, hc]
  rw [streamPatch_eq_parseLines, flatten_singleton, hlines, ht, hu]

end PatchParser
