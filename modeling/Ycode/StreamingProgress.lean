import Ycode.StreamingParser

/-!
# Progress of the streaming parser

A caller may show the hunks after every delta. What it has shown never has to be
taken back: only the last hunk is revised, and only by extending it. When the
parser finishes, no update hunk and no chunk is empty. The first part is a
property of every accepted line; the second one is an invariant of the modes.
-/
namespace StreamingProgress

open RustStr PatchHunk ListGrowth StreamingParser List

/-! ## Stages of a hunk -/

/-- `c'` is a later stage of the chunk `c`. -/
structure ChunkExtends (c c' : UpdateFileChunk) : Prop where
  context : c'.changeContext = c.changeContext
  old : c.oldLines <+: c'.oldLines
  new : c.newLines <+: c'.newLines
  eof : c.isEndOfFile = true → c'.isEndOfFile = true

theorem ChunkExtends.refl (c : UpdateFileChunk) : ChunkExtends c c := ⟨rfl, prefix_rfl, prefix_rfl, id⟩

theorem ChunkExtends.trans (ha : ChunkExtends a b) (hb : ChunkExtends b c) : ChunkExtends a c :=
  ⟨hb.context.trans ha.context, ha.old.trans hb.old, ha.new.trans hb.new, hb.eof ∘ ha.eof⟩

/-- The second hunk is a later stage of the first one. A move path is only gained
while there is no chunk. -/
inductive HunkExtends : Hunk → Hunk → Prop
  | addFile (path : PathBuf) {contents contents' : Str} (hc : contents <+: contents') :
      HunkExtends (.addFile path contents) (.addFile path contents')
  | deleteFile (path : PathBuf) : HunkExtends (.deleteFile path) (.deleteFile path)
  | updateFile (path : PathBuf) {movePath movePath' : Option PathBuf}
      {chunks chunks' : List UpdateFileChunk}
      (hm : movePath' = movePath ∨ (chunks = [] ∧ movePath = none))
      (hc : Grows ChunkExtends chunks chunks') :
      HunkExtends (.updateFile path movePath chunks) (.updateFile path movePath' chunks')

theorem HunkExtends.refl (h : Hunk) : HunkExtends h h := by
  cases h with
  | addFile path txt => exact .addFile path prefix_rfl
  | deleteFile path => exact .deleteFile path
  | updateFile path movePath cs => exact .updateFile path (Or.inl rfl) (.refl ChunkExtends.refl cs)

theorem HunkExtends.trans (ha : HunkExtends a b) (hb : HunkExtends b c) : HunkExtends a c := by
  cases ha with
  | addFile path h =>
    cases hb with
    | addFile _ h' => exact .addFile path (h.trans h')
  | deleteFile path => exact hb
  | updateFile path hm hc =>
    cases hb with
    | updateFile _ hm' hc' =>
      refine .updateFile path ?_ (Grows.trans hc hc' ChunkExtends.trans)
      cases hm with
      | inr hnone => exact .inr hnone
      | inl he =>
        subst he
        cases hm' with
        | inl he' => exact .inl he'
        | inr hnone =>
          obtain ⟨rfl, hn⟩ := hnone
          exact .inr ⟨hc.eq_nil, hn⟩

/-- `hunks'` is a later stage of the published list `hunks`. -/
abbrev HunksExtend : List Hunk → List Hunk → Prop := Grows HunkExtends

theorem HunksExtend.refl (hunks : List Hunk) : HunksExtend hunks hunks := Grows.refl HunkExtends.refl hunks

theorem HunksExtend.trans (ha : HunksExtend a b) (hb : HunksExtend b c) :
    HunksExtend a c := Grows.trans ha hb HunkExtends.trans

/-! ## Every accepted line extends the hunks -/

theorem addToLast_grows : Grows ChunkExtends chunks (addToLast chunks old new) := by
  cases chunks with
  | nil => exact .of_nil
  | cons c cs =>
    refine .of_mapLast (fun d => ?_)
    exact ⟨rfl, prefix_append _ _, prefix_append _ _, id⟩

theorem updateStep_extends (h : UpdateStep path movePath chunks line hunk) :
    HunkExtends (.updateFile path movePath chunks) hunk := by
  cases h with
  | closed he ht => exact .refl _
  | moved p hc hm ht => exact .updateFile path (Or.inr ⟨hc, hm⟩) (.refl ChunkExtends.refl chunks)
  | header ctx hl ht => exact .updateFile path (Or.inl rfl) (.append ChunkExtends.refl _ _)
  | eof hl ht =>
    refine .updateFile path (Or.inl rfl) (.of_mapLast (fun c => ?_))
    exact ⟨rfl, prefix_rfl, prefix_rfl, fun _ => rfl⟩
  | content old new he hc => exact .updateFile path (Or.inl rfl) (addToLast_grows)

theorem lineStep_extends (h : LineStep n st line st') : HunksExtend st.hunks st'.hunks := by
  cases h with
  | opened mode new hm hn hok => exact .append HunkExtends.refl _ _
  | added pre path txt l hm hst hl =>
    rw [hst]
    exact .of_last (.addFile path (by simp))
  | updated pre path movePath cs hunk k hm hst hl =>
    rw [hst]
    exact .of_last (updateStep_extends (updateFileLine_step hl))
  | _ => exact .refl _

theorem lastLine_extends (h : lastLine n st line = .ok st') : HunksExtend st.hunks st'.hunks := by
  unfold lastLine at h
  split at h
  · obtain ⟨-, rfl⟩ := openHunk_ok h
    exact .append HunkExtends.refl _ _
  · exact lineStep_extends (processLine_step h)

/-! ## No empty hunk when a mode is left -/

/-- Nothing is missing from the hunk. -/
def Complete : Hunk → Prop
  | .updateFile _ _ chunks => chunks ≠ [] ∧ ∀ c ∈ chunks, c.oldLines ≠ [] ∨ c.newLines ≠ []
  | _ => True

theorem hasNoLines_eq_false {c : UpdateFileChunk} : c.hasNoLines = false ↔ c.oldLines ≠ [] ∨ c.newLines ≠ [] := by
  simp [UpdateFileChunk.hasNoLines, Decidable.or_iff_not_imp_left]

/-- All hunks are complete, except that the update hunk being read may still have
no chunk, or a last chunk without lines. -/
def ModeInv (st : StreamingParserState) : Prop :=
  match st.mode with
  | .updateFile _ => ∃ front path movePath chunks,
      st.hunks = front ++ [.updateFile path movePath chunks] ∧ (∀ h ∈ front, Complete h) ∧
        ∀ c ∈ chunks.dropLast, c.oldLines ≠ [] ∨ c.newLines ≠ []
  | _ => ∀ h ∈ st.hunks, Complete h

theorem modeInv_of_complete (hm : ∀ k, st.mode ≠ .updateFile k) (h : ∀ h ∈ st.hunks, Complete h) : ModeInv st := by
  unfold ModeInv
  split
  · rename_i k hk
    exact absurd hk (hm k)
  · exact h

theorem complete_of_modeInv (hm : ∀ k, st.mode ≠ .updateFile k) (h : ModeInv st) : ∀ h ∈ st.hunks, Complete h := by
  unfold ModeInv at h
  split at h
  · rename_i k hk
    exact absurd hk (hm k)
  · exact h

/-- The check made at every header closes the hunk that was being read. -/
theorem complete_of_ensure {t : Str} (hinv : ModeInv st)
    (hok : ensureUpdateHunkIsNotEmpty n st t = .ok ()) : ∀ h ∈ st.hunks, Complete h := by
  by_cases hm : ∃ k, st.mode = .updateFile k
  · obtain ⟨k, hk⟩ := hm
    simp only [ModeInv, hk] at hinv
    obtain ⟨pre, path, movePath, cs, hst, hf, hi⟩ := hinv
    have hlast : st.hunks.getLast? = some (.updateFile path movePath cs) := by simp [hst]
    simp only [ensureUpdateHunkIsNotEmpty, hlast, hk] at hok
    cases hc : cs.getLast? with
    | none => simp [hc] at hok
    | some c =>
      obtain ⟨init, rfl⟩ := getLast?_eq_some_iff.mp hc
      have hl : c.oldLines ≠ [] ∨ c.newLines ≠ [] := by
        apply hasNoLines_eq_false.mp
        by_contra hcon
        simp only [hc, Bool.not_eq_false] at hok hcon
        rw [if_pos hcon] at hok
        split at hok <;> cases hok
      intro h hh
      rw [hst, mem_append, mem_singleton] at hh
      cases hh with
      | inl hh => exact hf h hh
      | inr hh =>
        subst hh
        refine ⟨by simp, fun d hd => ?_⟩
        cases mem_append.mp hd with
        | inl hd => exact hi d (by simpa using hd)
        | inr hd => rw [mem_singleton.mp hd]; exact hl
  · exact complete_of_modeInv (fun k hk => hm ⟨k, hk⟩) hinv

theorem lastHasNoLines_concat : lastHasNoLines (front ++ [c]) = c.hasNoLines := by
  simp [lastHasNoLines]

theorem updateStep_inv {cs : List UpdateFileChunk} {hunk : Hunk} (h : UpdateStep path movePath cs line hunk)
    (hi : ∀ c ∈ cs.dropLast, c.oldLines ≠ [] ∨ c.newLines ≠ []) :
    ∃ movePath' cs', hunk = .updateFile path movePath' cs' ∧
      ∀ c ∈ cs'.dropLast, c.oldLines ≠ [] ∨ c.newLines ≠ [] := by
  cases h with
  | closed he ht => exact ⟨movePath, cs, rfl, hi⟩
  | moved p hc hm ht => exact ⟨some p, cs, rfl, hi⟩
  | header ctx hl ht =>
    refine ⟨movePath, _, rfl, ?_⟩
    rw [dropLast_concat]
    intro c hc
    cases eq_nil_or_concat' cs with
    | inl he => rw [he] at hc; cases hc
    | inr he =>
      obtain ⟨pre, d, rfl⟩ := he
      rw [lastHasNoLines_concat] at hl
      rw [dropLast_concat] at hi
      cases mem_append.mp hc with
      | inl hc => exact hi c hc
      | inr hc => rw [mem_singleton.mp hc]; exact hasNoLines_eq_false.mp hl
  | eof hl ht => exact ⟨movePath, _, rfl, by rwa [closeLast, dropLast_mapLast]⟩
  | content old new he hc =>
    refine ⟨movePath, _, rfl, ?_⟩
    rw [addToLast, dropLast_mapLast]
    split
    · simp
    · exact hi

theorem opened_inv {new : List Hunk} {id : Option Str} (hn : Opened n t mode new) (h : ∀ h ∈ hunks, Complete h) :
    ModeInv ⟨mode, hunks ++ new, id⟩ := by
  cases hn with
  | endPatch => simpa [ModeInv] using h
  | addFile path | deleteFile path =>
    intro g hg
    cases mem_append.mp hg with
    | inl hg => exact h g hg
    | inr hg => rw [mem_singleton.mp hg]; trivial
  | updateFile path => exact ⟨hunks, path, none, [], rfl, h, by simp⟩

theorem lineStep_inv (h : LineStep n st line st') (hinv : ModeInv st) : ModeInv st' := by
  cases h with
  | begun hm ht =>
    have ha := complete_of_modeInv (by simp [hm]) hinv
    exact ha
  | environment id hm => simpa [ModeInv, hm] using hinv
  | opened mode new hm hn hok => exact opened_inv hn (complete_of_ensure hinv hok)
  | added pre path txt l hm hst hl =>
    have ha := complete_of_modeInv (by simp [hm]) hinv
    refine modeInv_of_complete (by simp [hm]) fun g hg => ?_
    cases mem_append.mp hg with
    | inl hg => exact ha g (by simp [hst, hg])
    | inr hg => rw [mem_singleton.mp hg]; trivial
  | updated pre path movePath cs hunk k hm hst hl =>
    simp only [ModeInv, hm] at hinv ⊢
    obtain ⟨pre', path', movePath', cs', hs', hf, hi⟩ := hinv
    rw [hst] at hs'
    obtain ⟨rfl, he⟩ := append_inj' hs' rfl
    cases he
    obtain ⟨movePath', cs', rfl, hi'⟩ := updateStep_inv (updateFileLine_step hl) hi
    exact ⟨pre, path, movePath', cs', rfl, hf, hi'⟩
  | blank hm ht => exact hinv

theorem lastLine_inv (hi : ModeInv st) (h : lastLine n st line = .ok st') : ModeInv st' := by
  unfold lastLine at h
  split at h
  · obtain ⟨hok, rfl⟩ := openHunk_ok h
    exact opened_inv (.endPatch : Opened n _ _ _) (complete_of_ensure hi hok)
  · exact lineStep_inv (processLine_step h) hi

/-! ## Whole runs -/

/-- One call: the hunks are extended, a successful call returns them, and the
invariant is kept whether the call succeeds or not. -/
theorem pushDelta_spec (p : StreamingPatchParser) (d : Str) :
    HunksExtend p.state.hunks (pushDelta p d).1.state.hunks ∧
      (ModeInv p.state → ModeInv (pushDelta p d).1.state) ∧
      ∀ hunks, (pushDelta p d).2 = .ok hunks → hunks = (pushDelta p d).1.state.hunks := by
  induction d generalizing p with
  | nil => exact ⟨.refl _, id, fun hunks h => (Except.ok.inj h).symm⟩
  | cons ch rest ih =>
    rw [pushDelta]
    by_cases hc : ch = '\n'
    · rw [if_pos hc]
      cases hl : processLine (p.lineNumber + 1) p.state (stripCr p.lineBuffer) with
      | error e => exact ⟨.refl _, id, fun hunks h => by cases h⟩
      | ok st =>
        have hs := processLine_step hl
        obtain ⟨he, hi, hr⟩ := ih ⟨[], st, p.lineNumber + 1⟩
        exact ⟨(lineStep_extends hs).trans he, fun h => hi (lineStep_inv hs h), hr⟩
    · rw [if_neg hc]
      exact ih { p with lineBuffer := p.lineBuffer ++ [ch] }

theorem finish_spec (h : (finish p).2 = .ok hunks) :
    HunksExtend p.state.hunks hunks ∧ (ModeInv p.state → ∀ h ∈ hunks, Complete h) := by
  have he : ∀ {st : StreamingParserState}, (if st.mode = .endedPatch then
      Except.ok st.hunks else .error lastLineError) = Except.ok hunks →
      st.mode = .endedPatch ∧ st.hunks = hunks := by
    intro st hst
    split at hst
    · exact ⟨‹_›, Except.ok.inj hst⟩
    · cases hst
  unfold finish at h
  by_cases hb : p.lineBuffer.isEmpty = true
  · simp only [hb, if_true] at h
    obtain ⟨hm, rfl⟩ := he h
    exact ⟨.refl _, complete_of_modeInv (by simp [hm])⟩
  · simp only [hb, if_false, Bool.false_eq_true] at h
    cases hl : lastLine (p.lineNumber + 1) p.state p.lineBuffer with
    | error e => simp [hl] at h
    | ok st =>
      simp only [hl] at h
      obtain ⟨hm, rfl⟩ := he h
      exact ⟨lastLine_extends hl, fun hi => complete_of_modeInv (by simp [hm]) (lastLine_inv hi hl)⟩

/-- The results of successive calls; the parser is kept when a call fails. -/
def pushDeltas (p : StreamingPatchParser) :
    List Str → StreamingPatchParser × List (Except ParseError (List Hunk))
  | [] => (p, [])
  | delta :: rest =>
    let step := pushDelta p delta
    let run := pushDeltas step.1 rest
    (run.1, step.2 :: run.2)

theorem pushDeltas_inv (hi : ModeInv p.state) : ModeInv (pushDeltas p deltas).1.state := by
  induction deltas generalizing p with
  | nil => exact hi
  | cons d rest ih => exact ih ((pushDelta_spec p d).2.1 hi)

/-- The hunk lists that successful calls have returned, oldest first. -/
def published (results : List (Except ParseError (List Hunk))) : List (List Hunk) :=
  results.filterMap Except.toOption

/-- All results of the calls, the one of `finish` last. -/
def runResults (p : StreamingPatchParser) (deltas : List Str) : List (Except ParseError (List Hunk)) :=
  (pushDeltas p deltas).2 ++ [(finish (pushDeltas p deltas).1).2]

theorem mem_published : hunks ∈ published results ↔ .ok hunks ∈ results := by
  rw [published, mem_filterMap]
  constructor
  · rintro ⟨r, hr, he⟩
    cases r with
    | error e => cases he
    | ok a => rwa [← Option.some.inj he]
  · intro h
    exact ⟨_, h, rfl⟩

theorem runResults_extend (p : StreamingPatchParser) (ds : List Str) :
    (∀ hunks ∈ published (runResults p ds), HunksExtend p.state.hunks hunks) ∧
      (published (runResults p ds)).Pairwise HunksExtend := by
  induction ds generalizing p with
  | nil =>
    constructor
    · intro hunks h
      rw [mem_published, runResults, pushDeltas, nil_append, mem_singleton] at h
      exact (finish_spec h.symm).1
    · rw [runResults, pushDeltas, nil_append, published, filterMap_cons]
      split <;> simp
  | cons d rest ih =>
    obtain ⟨hl, hp⟩ := ih (pushDelta p d).1
    obtain ⟨hext, -, hres⟩ := pushDelta_spec p d
    have hruns : runResults p (d :: rest) = (pushDelta p d).2 :: runResults (pushDelta p d).1 rest := rfl
    rw [hruns]
    cases hr : (pushDelta p d).2 with
    | error e => exact ⟨fun hunks h => hext.trans (hl hunks h), hp⟩
    | ok hunks =>
      have he := hres hunks hr
      subst he
      refine ⟨fun later h => ?_, ?_⟩
      · cases mem_cons.mp h with
        | inl he => rw [he]; exact hext
        | inr h => exact hext.trans (hl later h)
      · exact pairwise_cons.mpr ⟨hl, hp⟩

/-- Over every run of a fresh parser the published hunk lists are stages of one
growing list, and a run that finishes leaves no empty update hunk or chunk. -/
theorem streaming_progress (deltas : List Str) :
    (published (runResults .default deltas)).Pairwise HunksExtend ∧
      ∀ hunks, (finish (pushDeltas .default deltas).1).2 = .ok hunks → ∀ h ∈ hunks, Complete h :=
  ⟨(runResults_extend .default deltas).2, fun _ h =>
    (finish_spec h).2 (pushDeltas_inv (by simp [ModeInv, StreamingPatchParser.default]))⟩

end StreamingProgress
