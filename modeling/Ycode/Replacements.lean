import Ycode.ListSplice
import Ycode.PatchHunk
import Ycode.SeekSequence

/-!
# Applying the chunks of an update hunk

`computeReplacements` walks over the chunks with a line cursor and schedules one
replacement per chunk; `applyReplacements` carries the sorted schedule out on
the lines of the file, last replacement first. The schedule has the meaning of a
splice exactly if each chunk finds room in the file behind the chunks before it.
-/
namespace Replacements

open RustStr ListSplice PatchHunk SeekSequence List

/-- `(start_index, old_len, new_lines)` -/
abbrev Replacement := Edit Str

/-- The variables of the loop over the chunks. -/
structure ReplaceState where
  replacements : List Replacement
  lineIndex : Nat
  deriving DecidableEq, Repr

/-- Pure additions go to the end, or just before the final empty line. -/
def insertionIdx (originalLines : List Str) : Nat :=
  if originalLines.getLast? = some [] then originalLines.length - 1 else originalLines.length

/-- The cursor behind the chunk's context line, when it has one. -/
def seekContext (originalLines : List Str) (lineIndex : Nat) : Option Str → Option Nat
  | none => some lineIndex
  | some ctxLine => (seekSequence originalLines [ctxLine] lineIndex false).map (· + 1)

/-- Where the old lines are found. A pattern whose last line is empty is tried
once more without it, and then the new lines lose their last empty line too. -/
def findOldLines (originalLines : List Str) (lineIndex : Nat) (chunk : UpdateFileChunk) :
    Option Replacement :=
  match seekSequence originalLines chunk.oldLines lineIndex chunk.isEndOfFile with
  | some startIdx => some ⟨startIdx, chunk.oldLines.length, chunk.newLines⟩
  | none =>
    if chunk.oldLines.getLast? = some [] then
      let pattern := chunk.oldLines.dropLast
      let newSlice :=
        if chunk.newLines.getLast? = some [] then chunk.newLines.dropLast else chunk.newLines
      (seekSequence originalLines pattern lineIndex chunk.isEndOfFile).map fun startIdx =>
        ⟨startIdx, pattern.length, newSlice⟩
    else none

/-- The body of the loop over the chunks. -/
def chunkStep (originalLines : List Str) (path : Str) (st : ReplaceState)
    (chunk : UpdateFileChunk) : Except ApplyPatchError ReplaceState :=
  match seekContext originalLines st.lineIndex chunk.changeContext with
  | none =>
    .error (.computeReplacements
      ("Failed to find context '".toList ++ chunk.changeContext.getD [] ++ "' in ".toList ++ path))
  | some lineIndex =>
    if chunk.oldLines.isEmpty then
      .ok ⟨st.replacements ++ [⟨insertionIdx originalLines, 0, chunk.newLines⟩], lineIndex⟩
    else
      match findOldLines originalLines lineIndex chunk with
      | some r => .ok ⟨st.replacements ++ [r], r.stop⟩
      | none =>
        .error (.computeReplacements
          ("Failed to find expected lines in ".toList ++ path ++ ":\n".toList ++ joinLines chunk.oldLines))

def scheduleChunks (originalLines : List Str) (path : Str) :
    ReplaceState → List UpdateFileChunk → Except ApplyPatchError ReplaceState
  | st, [] => .ok st
  | st, chunk :: chunks =>
    match chunkStep originalLines path st chunk with
    | .ok st' => scheduleChunks originalLines path st' chunks
    | .error e => .error e

def computeReplacements (originalLines : List Str) (path : Str) (chunks : List UpdateFileChunk) :
    Except ApplyPatchError (List Replacement) :=
  (scheduleChunks originalLines path ⟨[], 0⟩ chunks).map fun st => sortByStart st.replacements

/-- Remove the line at `startIdx`, `oldLen` times over, as long as there is one. -/
def removeOld (startIdx : Nat) : Nat → List Str → List Str
  | 0, lines => lines
  | n + 1, lines => removeOld startIdx n (if startIdx < lines.length then lines.eraseIdx startIdx else lines)

/-- Insert the new lines one by one from `startIdx` on. -/
def insertNew : Nat → List Str → List Str → List Str
  | _, [], lines => lines
  | i, newLine :: rest, lines => insertNew (i + 1) rest (lines.insertIdx i newLine)

def applyReplacements (lines : List Str) (replacements : List Replacement) : List Str :=
  replacements.reverse.foldl
    (fun acc r => insertNew r.start r.segment (removeOld r.start r.oldLen acc)) lines

/-! ## One replacement is one edit -/

theorem removeOld_eq (i n : Nat) (lines : List Str) (h : i ≤ lines.length) :
    removeOld i n lines = lines.take i ++ lines.drop (i + n) := by
  induction n generalizing lines with
  | zero => simp [removeOld]
  | succ n ih =>
    rw [removeOld]
    by_cases hlt : i < lines.length
    · rw [if_pos hlt]
      have hl : i ≤ (lines.eraseIdx i).length := by rw [length_eraseIdx_of_lt hlt]; omega
      have ht : (lines.take i).length = i := by simp; omega
      rw [ih _ hl, eraseIdx_eq_take_drop_succ, take_append_of_le_length (by omega),
        take_take, Nat.min_self, drop_append, ht, drop_drop]
      have he : i + 1 + (i + n - i) = i + (n + 1) := by omega
      rw [he, drop_eq_nil_of_le (by omega), nil_append]
    · rw [if_neg hlt, ih _ h, drop_eq_nil_of_le (by omega), drop_eq_nil_of_le (by omega)]

theorem insertIdx_eq_append (i : Nat) (x : Str) (lines : List Str) (h : i ≤ lines.length) :
    lines.insertIdx i x = lines.take i ++ x :: lines.drop i := by
  induction i generalizing lines with
  | zero => rfl
  | succ i ih =>
    cases lines with
    | nil => simp at h
    | cons y ys => simp [ih ys (by simpa using h)]

theorem insertNew_eq (i : Nat) (seg lines : List Str) (h : i ≤ lines.length) :
    insertNew i seg lines = lines.take i ++ seg ++ lines.drop i := by
  induction seg generalizing i lines with
  | nil => simp [insertNew]
  | cons x seg ih =>
    have ht : (lines.take i).length = i := by simp; omega
    have hi := insertIdx_eq_append i x lines h
    have hl : i + 1 ≤ (lines.insertIdx i x).length := by
      rw [hi, length_append, length_cons]
      omega
    have hf : (lines.take i).take (i + 1) = lines.take i := take_of_length_le (by omega)
    have hb : (lines.take i).drop (i + 1) = [] := drop_eq_nil_of_le (by omega)
    rw [insertNew, ih (i + 1) _ hl, hi, take_append, drop_append, ht, hf, hb]
    simp

/-- Removing the old lines and inserting the new ones is one edit. -/
theorem replace_eq_edit (lines : List Str) (r : Replacement) (h : r.start ≤ lines.length) :
    insertNew r.start r.segment (removeOld r.start r.oldLen lines) = edit lines r := by
  have ht : (lines.take r.start).length = r.start := by simp; omega
  rw [removeOld_eq _ _ _ h, insertNew_eq _ _ _ (by simp; omega),
    take_append_of_le_length (by omega), take_take, Nat.min_self,
    drop_append_of_le_length (by omega), drop_eq_nil_of_le (by omega), nil_append,
    edit, Edit.stop]

theorem length_editAll_ge {es : List Replacement} {k : Nat} (hk : k ≤ l.length)
    (hs : es.Pairwise fun a b => a.start ≤ b.start)
    (h : ∀ e ∈ es, k ≤ e.start ∧ e.start ≤ l.length) : k ≤ (editAll l es).length := by
  cases es with
  | nil => exact hk
  | cons e es =>
    obtain ⟨hfirst, hr⟩ := pairwise_cons.mp hs
    have he := h e (by simp)
    have hl : e.start ≤ (editAll l es).length :=
      length_editAll_ge he.2 hr fun f hf => ⟨hfirst f hf, (h f (by simp [hf])).2⟩
    simp only [editAll_cons, edit, length_append, length_take]
    omega
termination_by es.length

/-- On a schedule sorted by start, `applyReplacements` is the batch of edits. -/
theorem applyReplacements_eq_editAll {lines : List Str} {rs : List Replacement}
    (hs : rs.Pairwise fun a b => a.start ≤ b.start) (hb : ∀ r ∈ rs, r.start ≤ lines.length) :
    applyReplacements lines rs = editAll lines rs := by
  rw [applyReplacements, foldl_reverse, editAll]
  induction rs with
  | nil => rfl
  | cons r rs ih =>
    obtain ⟨hf, hr⟩ := pairwise_cons.mp hs
    have hbr : ∀ e ∈ rs, e.start ≤ lines.length := fun e he => hb e (by simp [he])
    have hl : r.start ≤ (editAll lines rs).length :=
      length_editAll_ge (hb r (by simp)) hr fun e he => ⟨hf e he, hbr e he⟩
    rw [foldr_cons, foldr_cons, ih hr hbr]
    exact replace_eq_edit _ _ hl

/-! ## What one chunk schedules -/

/-- The regions lie inside the file and apart from each other, and carrying the
replacements out substitutes exactly them. -/
structure SpliceContract (lines : List Str) (rs : List Replacement) : Prop where
  inside : ∀ r ∈ rs, r.stop ≤ lines.length
  apart : rs.Pairwise Apart
  spliced : applyReplacements lines rs = splice lines rs

/-- Where a walk over the chunks stands: the line the next search starts from,
the lines found last, from `start` up to `stop`, and whether lines were added at
the end of the file. -/
structure Walk where
  lineIndex : Nat := 0
  start : Nat := 0
  stop : Nat := 0
  added : Bool := false

def Walk.behindContext (lines : List Str) (walk : Walk) (chunk : UpdateFileChunk) : Nat :=
  (seekContext lines walk.lineIndex chunk.changeContext).getD walk.lineIndex

/-- Where the first of the old lines stands, and how many of them do. -/
def locate (lines : List Str) (lineIndex : Nat) (chunk : UpdateFileChunk) : Option (Nat × Nat) :=
  match seekSequence lines chunk.oldLines lineIndex chunk.isEndOfFile with
  | some start => some (start, chunk.oldLines.length)
  | none =>
    if chunk.oldLines.getLast? = some [] then
      (seekSequence lines chunk.oldLines.dropLast lineIndex chunk.isEndOfFile).map (·, chunk.oldLines.dropLast.length)
    else none

/-- Added lines go in front of a final empty line: then that line was not found
before, or it was found alone and only empty lines are added. Behind the lines
found last, an end-of-file chunk needs as many lines as it has old lines. And
once lines were added, a final empty line is not found together with the line
above it. -/
def ChunkFits (lines : List Str) (walk : Walk) (chunk : UpdateFileChunk) : Prop :=
  if chunk.oldLines = [] then
    lines.getLast? = some [] →
      walk.stop < lines.length ∨ (walk.start + 1 = lines.length ∧ ∀ l ∈ chunk.newLines, l = [])
  else
    ∀ found ∈ locate lines (walk.behindContext lines chunk) chunk, 0 < found.2 →
      (chunk.isEndOfFile = true → walk.stop + found.2 ≤ lines.length) ∧
      (walk.added = true → lines.getLast? = some [] →
        found.1 + found.2 < lines.length ∨ found.1 + 1 = lines.length)

def Walk.next (lines : List Str) (walk : Walk) (chunk : UpdateFileChunk) : Walk :=
  let lineIndex := walk.behindContext lines chunk
  if chunk.oldLines = [] then { walk with lineIndex, added := true }
  else
    match locate lines lineIndex chunk with
    | none => walk
    | some (start, length) =>
      -- nothing is found at the very end
      if length = 0 ∧ start = lines.length then { walk with lineIndex := start }
      else { walk with lineIndex := start + length, start, stop := start + length }

/-- Every chunk fits when its turn comes. -/
def ChunksFit (lines : List Str) : Walk → List UpdateFileChunk → Prop
  | _, [] => True
  | walk, chunk :: chunks => ChunkFits lines walk chunk ∧ ChunksFit lines (walk.next lines chunk) chunks

instance (lines : List Str) (walk : Walk) (chunk : UpdateFileChunk) : Decidable (ChunkFits lines walk chunk) := by
  unfold ChunkFits
  infer_instance

instance decidableChunksFit (lines : List Str) :
    ∀ (walk : Walk) (chunks : List UpdateFileChunk), Decidable (ChunksFit lines walk chunks)
  | _, [] => .isTrue trivial
  | walk, chunk :: chunks =>
    have := decidableChunksFit lines (walk.next lines chunk) chunks
    inferInstanceAs (Decidable (_ ∧ _))

/-- A region in front of an insertion at its own start, in schedule order: only
an insertion of empty lines survives the removal of the region. -/
def TieHarmless (a b : Replacement) : Prop := 0 < a.oldLen → ∀ l ∈ b.segment, l = []

/-- Such a tie comes from a region that is the final empty line. -/
def TieAtEnd (lines : List Str) (a b : Replacement) : Prop :=
  0 < a.oldLen → b.oldLen = 0 → a.start + 1 = lines.length ∧ lines.getLast? = some []

/-- What holds of the loop variables whatever the chunks are. -/
structure ScheduleInv (lines : List Str) (st : ReplaceState) : Prop where
  cursor : st.lineIndex ≤ lines.length
  inside : ∀ r ∈ st.replacements, r.stop ≤ lines.length
  behind : ∀ r ∈ st.replacements, 0 < r.oldLen → r.stop ≤ st.lineIndex
  ties : st.replacements.Pairwise fun a b => a.start = b.start → TieAtEnd lines a b

theorem insertionIdx_le (lines : List Str) : insertionIdx lines ≤ lines.length := by
  unfold insertionIdx
  split <;> omega

theorem seekContext_range {lines : List Str} {ctx : Option Str}
    (h : seekContext lines i ctx = some j) (hi : i ≤ lines.length) : i ≤ j ∧ j ≤ lines.length := by
  cases ctx with
  | none =>
    have he : i = j := by simpa [seekContext] using h
    omega
  | some c =>
    rw [seekContext, Option.map_eq_some_iff] at h
    obtain ⟨k, hk, rfl⟩ := h
    obtain ⟨hin, hf, -⟩ := seekSequence_range (by simp) hk
    have := hf rfl
    simp only [length_cons, length_nil] at hin
    omega

/-- The old lines are found inside the file, behind the cursor unless the search
is tied to the end of the file; an empty retry pattern is found at the cursor. -/
theorem findOldLines_range {lines : List Str} {c : UpdateFileChunk} {r : Replacement}
    (h : findOldLines lines i c = some r) (hi : i ≤ lines.length) :
    r.stop ≤ lines.length ∧ (r.oldLen = 0 → r.start = i) ∧
      (0 < r.oldLen → c.isEndOfFile = false → i ≤ r.start) ∧
      (0 < r.oldLen → c.isEndOfFile = true → r.start = lines.length - r.oldLen) := by
  have key : ∀ (pat : List Str) (k : Nat),
      seekSequence lines pat i c.isEndOfFile = some k →
      k + pat.length ≤ lines.length ∧ (pat.length = 0 → k = i) ∧
        (0 < pat.length → c.isEndOfFile = false → i ≤ k) ∧
        (0 < pat.length → c.isEndOfFile = true → k = lines.length - pat.length) := by
    intro pat k hk
    by_cases hp : pat = []
    · subst hp
      rw [seekSequence_nil, Option.some.injEq] at hk
      subst hk
      simp [hi]
    · obtain ⟨h₁, h₂, h₃⟩ := seekSequence_range hp hk
      have hpos : pat.length ≠ 0 := by simpa using hp
      exact ⟨h₁, fun h0 => absurd h0 hpos, fun _ he => h₂ he, fun _ he => h₃ he⟩
  unfold findOldLines at h
  split at h
  · rename_i k hk
    cases h
    exact key _ _ hk
  · split at h
    · simp only [Option.map_eq_some_iff] at h
      obtain ⟨k, hk, rfl⟩ := h
      exact key _ _ hk
    · cases h

/-- Everything a successful step can do. -/
theorem chunkStep_cases {lines : List Str} {st st' : ReplaceState}
    {c : UpdateFileChunk} (h : chunkStep lines path st c = .ok st') :
    ∃ lineIndex, seekContext lines st.lineIndex c.changeContext = some lineIndex ∧
      ((c.oldLines = [] ∧ st' = ⟨st.replacements ++ [⟨insertionIdx lines, 0, c.newLines⟩], lineIndex⟩) ∨
        (c.oldLines ≠ [] ∧ ∃ r, findOldLines lines lineIndex c = some r ∧
          st' = ⟨st.replacements ++ [r], r.stop⟩)) := by
  unfold chunkStep at h
  split at h
  · cases h
  · rename_i lineIndex hc
    refine ⟨lineIndex, hc, ?_⟩
    split at h
    · rename_i he
      cases h
      exact .inl ⟨by simpa using he, rfl⟩
    · rename_i he
      split at h
      · rename_i r hr
        cases h
        exact .inr ⟨by simpa using he, r, hr, rfl⟩
      · cases h

theorem forall_mem_concat {p : Replacement → Prop} : (∀ r ∈ rs ++ [new], p r) ↔ (∀ r ∈ rs, p r) ∧ p new := by
  rw [forall_mem_append, forall_mem_singleton]

theorem pairwise_concat : (rs ++ [new]).Pairwise R ↔ rs.Pairwise R ∧ ∀ r ∈ rs, R r new := by
  simp [pairwise_append]

/-- A region that starts where an addition goes is the final empty line. -/
theorem addition_tieAtEnd {lines : List Str} {newLines : List Str}
    (hi : r.stop ≤ lines.length) (hs : r.start = insertionIdx lines) :
    TieAtEnd lines r ⟨insertionIdx lines, 0, newLines⟩ := by
  intro hp _
  simp only [insertionIdx, Edit.stop] at hs hi
  split at hs
  · rename_i hl
    exact ⟨by omega, hl⟩
  · omega

theorem chunkStep_inv {lines : List Str} {st st' : ReplaceState} {c : UpdateFileChunk}
    (hinv : ScheduleInv lines st) (h : chunkStep lines path st c = .ok st') : ScheduleInv lines st' := by
  obtain ⟨i, hcontext, hc⟩ := chunkStep_cases h
  obtain ⟨hforward, hi⟩ := seekContext_range hcontext hinv.cursor
  have hbehind : ∀ r ∈ st.replacements, 0 < r.oldLen → r.stop ≤ i :=
    fun r hr hpos => (hinv.behind r hr hpos).trans hforward
  cases hc with
  | inl hadded =>
    obtain ⟨-, rfl⟩ := hadded
    refine ⟨hi, forall_mem_concat.mpr ⟨hinv.inside, insertionIdx_le lines⟩,
      forall_mem_concat.mpr ⟨hbehind, by simp⟩, pairwise_concat.mpr ⟨hinv.ties, ?_⟩⟩
    exact fun r hr => addition_tieAtEnd (hinv.inside r hr)
  | inr hlocated =>
    obtain ⟨-, new, hnew, rfl⟩ := hlocated
    obtain ⟨hinside, hpoint, hfound, hend⟩ := findOldLines_range hnew hi
    have hle : i ≤ new.stop := by
      have hstop := new.start_le_stop
      by_cases h0 : new.oldLen = 0
      · omega
      · cases he : c.isEndOfFile with
        | false =>
          have := hfound (by omega) he
          omega
        | true =>
          have := hend (by omega) he
          simp only [Edit.stop] at hinside ⊢
          omega
    refine ⟨hinside, forall_mem_concat.mpr ⟨hinv.inside, hinside⟩,
      forall_mem_concat.mpr ⟨fun r hr hpos => (hbehind r hr hpos).trans hle, fun _ => le_refl _⟩,
      pairwise_concat.mpr ⟨hinv.ties, ?_⟩⟩
    intro r hr hstart hpos h0
    have hstop := hbehind r hr hpos
    have := hpoint h0
    simp only [Edit.stop] at hstop
    omega

/-- How two replacements must lie, in schedule order. -/
def Good (a b : Replacement) : Prop := Apart a b ∧ (a.start = b.start → TieHarmless a b)

/-- How the walk stands to the loop variables, as long as the schedule is good. -/
structure Walks (lines : List Str) (walk : Walk) (st : ReplaceState) : Prop where
  cursor : walk.lineIndex = st.lineIndex
  ordered : walk.start ≤ walk.stop ∧ walk.stop ≤ st.lineIndex
  regions : ∀ r ∈ st.replacements, 0 < r.oldLen →
    r.stop ≤ walk.start ∨ (r.start = walk.start ∧ r.stop = walk.stop)
  points : ∀ r ∈ st.replacements, r.oldLen = 0 →
    r.start ≤ walk.stop ∨ r.start = lines.length ∨ (walk.added = true ∧ r.start = insertionIdx lines)
  last : walk.stop = 0 ∨ ∃ r ∈ st.replacements, r.start = walk.start ∧ r.stop = walk.stop ∧
    (r.oldLen = 0 → r.stop < lines.length)
  addition : walk.added = true → ∃ r ∈ st.replacements, r.start = insertionIdx lines ∧ r.oldLen = 0

/-- How a pure addition must lie towards what is scheduled already. -/
theorem addition_fits_iff {lines : List Str} {walk : Walk} {c : UpdateFileChunk}
    (hin : ScheduleInv lines st) (hw : Walks lines walk st) (he : c.oldLines = []) :
    ChunkFits lines walk c ↔ ∀ r ∈ st.replacements, Good r ⟨insertionIdx lines, 0, c.newLines⟩ := by
  have hcursor := hin.cursor
  have hordered := hw.ordered
  simp only [ChunkFits, he, ↓reduceIte]
  by_cases hl : lines.getLast? = some []
  · have hne : 0 < lines.length := length_pos_of_mem (mem_of_getLast? hl)
    simp only [hl, true_implies, insertionIdx, ↓reduceIte]
    constructor
    · intro hf r hr
      have hi := hin.inside r hr
      have hregion := hw.regions r hr
      simp only [Good, Apart, TieHarmless, Edit.stop] at hi hregion ⊢
      refine ⟨⟨by omega, by omega, by omega⟩, fun hs hp => ?_⟩
      rcases hf with hlt | hend
      · omega
      · exact hend.2
    · intro hf
      by_cases hlt : walk.stop < lines.length
      · exact .inl hlt
      · obtain ⟨r, hr, hs, ht, hp⟩ := hw.last.resolve_left (by omega)
        obtain ⟨ha, htie⟩ := hf r hr
        have h3 := ha.2.2 rfl
        simp only [Edit.stop] at ht hp h3
        have hrs : r.start = lines.length - 1 := by omega
        exact .inr ⟨by omega, htie hrs (by omega)⟩
  · simp only [hl, false_implies, true_iff, insertionIdx, ↓reduceIte]
    intro r hr
    have hi := hin.inside r hr
    simp only [Good, Apart, TieHarmless, Edit.stop] at hi ⊢
    exact ⟨⟨by omega, by omega, by omega⟩, by omega⟩

theorem locate_eq {lines : List Str} :
    locate lines i c = (findOldLines lines i c).map fun r => (r.start, r.oldLen) := by
  unfold locate findOldLines
  split
  · rfl
  · split
    · rw [Option.map_map]
      rfl
    · rfl

section Located

variable {lines : List Str} {walk : Walk} {st : ReplaceState} {c : UpdateFileChunk} {i : Nat} {new : Replacement}
variable (hinv : ScheduleInv lines st) (hw : Walks lines walk st) (hne : c.oldLines ≠ [])
  (hcontext : walk.behindContext lines c = i) (hi : st.lineIndex ≤ i ∧ i ≤ lines.length)
  (hfound : findOldLines lines i c = some new)

include hw hi hfound in
/-- With the room it needs, a chunk is found behind the lines found last. -/
theorem located_behind (hroom : 0 < new.oldLen → c.isEndOfFile = true → walk.stop + new.oldLen ≤ lines.length) :
    walk.stop ≤ new.start := by
  obtain ⟨-, hpoint, hforward, hend⟩ := findOldLines_range hfound hi.2
  have hstop := hw.ordered.2
  by_cases h0 : new.oldLen = 0
  · have := hpoint h0
    omega
  · have hpos : 0 < new.oldLen := by omega
    cases he : c.isEndOfFile with
    | false =>
      have := hforward hpos he
      omega
    | true =>
      have h₁ := hroom hpos he
      have h₂ := hend hpos he
      omega

include hne hcontext hfound in
theorem chunkFits_located_iff : ChunkFits lines walk c ↔ (0 < new.oldLen →
    (c.isEndOfFile = true → walk.stop + new.oldLen ≤ lines.length) ∧
    (walk.added = true → lines.getLast? = some [] →
      new.start + new.oldLen < lines.length ∨ new.start + 1 = lines.length)) := by
  rw [ChunkFits, if_neg hne, hcontext, locate_eq, hfound]
  simp

include hinv hw hne hcontext hi hfound

/-- How a located chunk must lie towards what is scheduled already. -/
theorem located_fits_iff : ChunkFits lines walk c ↔ ∀ r ∈ st.replacements, Good r new := by
  rw [chunkFits_located_iff hne hcontext hfound]
  obtain ⟨hinside, hpoint, -, hend⟩ := findOldLines_range hfound hi.2
  have hordered := hw.ordered
  constructor
  · intro hfits r hr
    have hbehind := located_behind hw hi hfound fun hpos => (hfits hpos).1
    have hregion := hw.regions r hr
    have hpoints := hw.points r hr
    have hr' := hinv.inside r hr
    have hcursor := hinv.behind r hr
    have hadd := fun hpos => (hfits hpos).2
    simp only [Good, Apart, TieHarmless, insertionIdx, Edit.stop] at *
    by_cases hl : lines.getLast? = some []
    · simp only [hl, if_true, true_implies] at hpoints hadd
      refine ⟨⟨by omega, ?_, by omega⟩, by omega⟩
      intro h0
      rcases hpoints h0 with h | h | ⟨had, h⟩
      · omega
      · omega
      · have := hadd
        simp only [had, true_implies] at this
        omega
    · simp only [hl, if_false] at hpoints
      exact ⟨⟨by omega, by omega, by omega⟩, by omega⟩
  · intro hgood hpos
    constructor
    · intro he
      have hstart := hend hpos he
      rcases hw.last with h0 | ⟨r, hr, hs, ht, hp⟩
      · simp only [Edit.stop] at hinside
        omega
      · have hapart := (hgood r hr).1
        have hr' := hinv.inside r hr
        simp only [Apart, Edit.stop] at *
        omega
    · intro hadded hl
      obtain ⟨r, hr, hs, h0⟩ := hw.addition hadded
      have hapart := (hgood r hr).1.2.1 h0
      simp only [insertionIdx, hl, if_true, Edit.stop] at *
      omega

end Located

theorem behindContext_eq {lines : List Str} (hw : Walks lines walk st)
    (hcontext : seekContext lines st.lineIndex c.changeContext = some i) : walk.behindContext lines c = i := by
  rw [Walk.behindContext, hw.cursor, hcontext, Option.getD_some]

/-- What a chunk adds to the schedule, and that `ChunkFits` says exactly how it
must lie towards what is scheduled already. -/
theorem chunkStep_fits_iff {lines : List Str} {st st' : ReplaceState}
    {c : UpdateFileChunk} (hin : ScheduleInv lines st) (hw : Walks lines walk st)
    (h : chunkStep lines path st c = .ok st') :
    ∃ new, st'.replacements = st.replacements ++ [new] ∧
      (ChunkFits lines walk c ↔ ∀ r ∈ st.replacements, Good r new) := by
  obtain ⟨i, hctx, hc⟩ := chunkStep_cases h
  have hi := seekContext_range hctx hin.cursor
  cases hc with
  | inl ha =>
    obtain ⟨he, rfl⟩ := ha
    exact ⟨_, rfl, addition_fits_iff hin hw he⟩
  | inr hl =>
    obtain ⟨hne, new, hn, rfl⟩ := hl
    exact ⟨new, rfl, located_fits_iff hin hw hne (behindContext_eq hw hctx) hi hn⟩

/-- A step whose chunk fits keeps the walk and the loop together. -/
theorem walks_next {lines : List Str} {st st' : ReplaceState} {c : UpdateFileChunk}
    (hin : ScheduleInv lines st) (hw : Walks lines walk st) (hfits : ChunkFits lines walk c)
    (h : chunkStep lines path st c = .ok st') : Walks lines (walk.next lines c) st' := by
  obtain ⟨i, hseek, hc⟩ := chunkStep_cases h
  have hi := seekContext_range hseek hin.cursor
  have hcontext := behindContext_eq hw hseek
  have hordered := hw.ordered
  have hlast : ∀ new, walk.stop = 0 ∨ ∃ r ∈ st.replacements ++ [new], r.start = walk.start ∧ r.stop = walk.stop ∧
      (r.oldLen = 0 → r.stop < lines.length) :=
    fun new => hw.last.imp id fun ⟨r, hr, hlast⟩ => ⟨r, mem_append_left _ hr, hlast⟩
  cases hc with
  | inl ha =>
    obtain ⟨he, rfl⟩ := ha
    rw [Walk.next, if_pos he, hcontext]
    refine ⟨rfl, ⟨hordered.1, hordered.2.trans hi.1⟩, forall_mem_concat.mpr ⟨hw.regions, by simp⟩,
      forall_mem_concat.mpr ⟨?_, fun _ => .inr (.inr ⟨rfl, rfl⟩)⟩, hlast _, ?_⟩
    · exact fun r hr h0 => (hw.points r hr h0).imp id (Or.imp id fun hadded => ⟨rfl, hadded.2⟩)
    · intro _
      exact ⟨_, mem_append_right _ (mem_singleton.mpr rfl), rfl, rfl⟩
  | inr hl =>
    obtain ⟨hne, new, hn, rfl⟩ := hl
    have hroom := (chunkFits_located_iff hne hcontext hn).mp hfits
    have hbehind := located_behind hw hi hn fun hpos => (hroom hpos).1
    obtain ⟨hinside, hpoint, -, -⟩ := findOldLines_range hn hi.2
    simp only [Walk.next, if_neg hne, hcontext, locate_eq, hn, Option.map_some]
    have hadd : walk.added = true →
        ∃ r ∈ st.replacements ++ [new], r.start = insertionIdx lines ∧ r.oldLen = 0 := by
      intro hadded
      obtain ⟨r, hr, hplace⟩ := hw.addition hadded
      exact ⟨r, mem_append_left _ hr, hplace⟩
    split
    · rename_i hempty
      have hstop := Edit.stop_eq_start hempty.1
      refine ⟨hstop.symm, ⟨hordered.1, hbehind.trans hstop.ge⟩, forall_mem_concat.mpr ⟨hw.regions, by omega⟩,
        forall_mem_concat.mpr ⟨hw.points, fun _ => .inr (.inl hempty.2)⟩, hlast _, hadd⟩
    · rename_i hempty
      refine ⟨rfl, ⟨new.start_le_stop, le_refl _⟩, forall_mem_concat.mpr ⟨?_, fun _ => .inr ⟨rfl, rfl⟩⟩,
        forall_mem_concat.mpr ⟨?_, fun _ => .inl new.start_le_stop⟩, ?_, hadd⟩
      · intro r hr hp
        have hregion := hw.regions r hr hp
        exact .inl (show r.stop ≤ new.start by omega)
      · exact fun r hr h0 => (hw.points r hr h0).imp (·.trans (hbehind.trans new.start_le_stop)) id
      · refine .inr ⟨new, mem_append_right _ (mem_singleton.mpr rfl), rfl, rfl, fun h0 => ?_⟩
        have hstop := Edit.stop_eq_start h0
        omega

/-! ## The whole schedule -/

/-- Whatever the chunks are, a run keeps the invariant and only adds to the schedule. -/
theorem scheduleChunks_inv {lines : List Str} {cs : List UpdateFileChunk} {st st' : ReplaceState}
    (hinv : ScheduleInv lines st) (h : scheduleChunks lines path st cs = .ok st') :
    ScheduleInv lines st' ∧ st.replacements.Sublist st'.replacements := by
  induction cs generalizing st with
  | nil =>
    cases h
    exact ⟨hinv, Sublist.refl _⟩
  | cons c cs ih =>
    rw [scheduleChunks] at h
    split at h
    · rename_i mid hstep
      obtain ⟨hend, hsub⟩ := ih (chunkStep_inv hinv hstep) h
      refine ⟨hend, Sublist.trans ?_ hsub⟩
      obtain ⟨_, -, ⟨-, rfl⟩ | ⟨-, _, -, rfl⟩⟩ := chunkStep_cases hstep
      · exact sublist_append_left ..
      · exact sublist_append_left ..
    · cases h

/-- The chunks of a whole run fit exactly when the schedule is good. -/
theorem scheduleChunks_fits_iff {lines : List Str} {cs : List UpdateFileChunk}
    {st st' : ReplaceState} (hi : ScheduleInv lines st) (hw : Walks lines walk st)
    (hgood : st.replacements.Pairwise Good) (h : scheduleChunks lines path st cs = .ok st') :
    ChunksFit lines walk cs ↔ st'.replacements.Pairwise Good := by
  induction cs generalizing st walk with
  | nil =>
    cases h
    simpa [ChunksFit] using hgood
  | cons c cs ih =>
    rw [scheduleChunks] at h
    split at h
    · rename_i mid hs
      obtain ⟨new, hr, hf⟩ := chunkStep_fits_iff hi hw hs
      have hmid := chunkStep_inv hi hs
      rw [ChunksFit]
      by_cases hfits : ChunkFits lines walk c
      · have hgood' : mid.replacements.Pairwise Good := by
          rw [hr]
          exact pairwise_concat.mpr ⟨hgood, hf.mp hfits⟩
        rw [← ih hmid (walks_next hi hw hfits hs) hgood' h]
        simp [hfits]
      · -- a chunk that does not fit spoils the schedule for good
        refine iff_of_false (fun hall => hfits hall.1) fun hend => hfits (hf.mpr ?_)
        have hsofar := hend.sublist (scheduleChunks_inv hmid h).2
        rw [hr] at hsofar
        exact (pairwise_concat.mp hsofar).2
    · cases h

/-- The facts about a finished schedule, in the order in which it was built. -/
theorem computeReplacements_schedule {lines : List Str} {cs : List UpdateFileChunk} {rs : List Replacement}
    (h : computeReplacements lines path cs = .ok rs) :
    ∃ st, rs = sortByStart st.replacements ∧ ScheduleInv lines st ∧
      (ChunksFit lines {} cs ↔ st.replacements.Pairwise Good) := by
  rw [computeReplacements] at h
  cases hs : scheduleChunks lines path ⟨[], 0⟩ cs with
  | error e => simp [hs, Except.map] at h
  | ok st =>
    have hi : ScheduleInv lines ⟨[], 0⟩ := ⟨Nat.zero_le _, by simp, by simp, Pairwise.nil⟩
    have hw : Walks lines {} ⟨[], 0⟩ :=
      ⟨rfl, ⟨le_refl _, le_refl _⟩, by simp, by simp, .inl rfl, by simp⟩
    refine ⟨st, ?_, (scheduleChunks_inv hi hs).1, scheduleChunks_fits_iff hi hw Pairwise.nil hs⟩
    simpa [hs, Except.map] using h.symm

/-- Dropping one line from added lines followed by an empty line gives the added
lines back only if they are all empty. -/
theorem drop_one_concat_empty_iff : (ls ++ [[]]).drop 1 = ls ↔ ∀ l ∈ ls, l = [] := by
  induction ls with
  | nil => simp
  | cons x xs ih =>
    cases xs with
    | nil => simp [eq_comm]
    | cons y ys =>
      simp only [cons_append, List.cons.injEq, drop_succ_cons, drop_zero, mem_cons, forall_eq_or_imp] at ih ⊢
      constructor
      · rintro ⟨rfl, h⟩
        have ha := ih.mp h
        exact ⟨ha.1, ha⟩
      · rintro ⟨rfl, rfl, h⟩
        exact ⟨rfl, ih.mpr ⟨rfl, h⟩⟩

theorem exists_region_followed {F : List Replacement} (h : ¬ F.Pairwise fun a _ => a.oldLen = 0) :
    ∃ F₁ a F₂, F = F₁ ++ a :: F₂ ∧ 0 < a.oldLen ∧ F₂ ≠ [] := by
  induction F with
  | nil => simp at h
  | cons e F ih =>
    by_cases hF : F.Pairwise fun a _ => a.oldLen = 0
    · refine ⟨[], e, F, rfl, ?_, ?_⟩
      · by_contra h0
        exact h (pairwise_cons.mpr ⟨fun _ _ => by omega, hF⟩)
      · rintro rfl
        simp at h
    · obtain ⟨F₁, a, F₂, rfl, ha, hne⟩ := ih hF
      exact ⟨e :: F₁, a, F₂, rfl, ha, hne⟩

theorem apart_sameStart {a b : Replacement} (h : Apart a b) (hs : a.start = b.start)
    (ha : 0 < a.oldLen) : b.oldLen = 0 := by
  by_contra hb
  have h₁ := h.1 ha (by omega)
  simp only [Edit.stop] at h₁
  omega

/-- The replacements that start at the final empty line: a region of just that line, in the midst of
insertions. -/
structure TiedAtEnd (lines : List Str) (sched before : List Replacement) (a : Replacement)
    (after : List Replacement) : Prop where
  bucket : sched.filter (·.start == a.start) = before ++ a :: after
  region : a.oldLen = 1
  last : a.start + 1 = lines.length
  blank : lines.getLast? = some []
  before_ins : ∀ b ∈ before, b.start = a.start ∧ b.oldLen = 0
  after_ins : ∀ b ∈ after, b.start = a.start ∧ b.oldLen = 0

section Schedule

variable {lines : List Str} {sched : List Replacement}

theorem sortByStart_apart : (sortByStart sched).Pairwise Apart ↔ sched.Pairwise Apart :=
  (sortByStart_perm).pairwise_iff fun {_ _} => Apart.symm

theorem sortByStart_sameStart {Q : Replacement → Replacement → Prop}
    (h : sched.Pairwise fun a b => a.start = b.start → Q a b) :
    (sortByStart sched).Pairwise fun a b => a.start = b.start → Q a b := by
  rw [pairwise_sameStart_iff] at h ⊢
  intro k
  rw [sortByStart_filter]
  exact h k

variable (hinside : ∀ r ∈ sched, r.stop ≤ lines.length) (hapart : sched.Pairwise Apart)
  (hties : sched.Pairwise fun a b => a.start = b.start → TieAtEnd lines a b)

include hinside in
theorem sortByStart_inside : ∀ r ∈ sortByStart sched, r.stop ≤ lines.length :=
  fun r hr => hinside r ((sortByStart_perm).mem_iff.mp hr)

include hinside hapart hties in
/-- A region that is followed by an insertion at its own start is the final empty line. -/
theorem exists_tiedAtEnd (hn : ¬ sched.Pairwise fun a b => a.start = b.start → a.oldLen = 0) :
    ∃ before a after, TiedAtEnd lines sched before a after := by
  obtain ⟨k, hk⟩ : ∃ k, ¬ (sched.filter (·.start == k)).Pairwise fun a _ => a.oldLen = 0 := by
    rw [pairwise_sameStart_iff] at hn
    simpa using hn
  obtain ⟨before, a, after, hbucket, ha, hne⟩ := exists_region_followed hk
  have hmem : ∀ x ∈ before ++ a :: after, x ∈ sched ∧ x.start = k := by
    intro x hx
    rw [← hbucket, mem_filter] at hx
    exact ⟨hx.1, by simpa using hx.2⟩
  have hak : a.start = k := (hmem a (by simp)).2
  have hpairs : (before ++ a :: after).Pairwise Apart := by
    rw [← hbucket]
    exact hapart.filter _
  obtain ⟨-, hrest, hcross⟩ := pairwise_append.mp hpairs
  have hafter : ∀ b ∈ after, b.start = a.start ∧ b.oldLen = 0 := by
    intro b hb
    have hbk := (hmem b (by simp [hb])).2
    exact ⟨by omega, apart_sameStart ((pairwise_cons.mp hrest).1 b hb) (by omega) ha⟩
  have hbefore : ∀ b ∈ before, b.start = a.start ∧ b.oldLen = 0 := by
    intro b hb
    have hbk := (hmem b (by simp [hb])).2
    exact ⟨by omega, apart_sameStart (hcross b hb a (by simp)).symm (by omega) ha⟩
  have ht : (before ++ a :: after).Pairwise (TieAtEnd lines) := by
    rw [← hbucket]
    exact pairwise_sameStart_iff.mp hties k
  obtain ⟨b, hb⟩ := exists_mem_of_ne_nil _ hne
  obtain ⟨hlast, hblank⟩ := (pairwise_cons.mp (pairwise_append.mp ht).2.1).1 b hb ha (hafter b hb).2
  have hs := hinside a (hmem a (by simp)).1
  simp only [Edit.stop] at hs
  exact ⟨before, a, after, by rw [hak]; exact hbucket, by omega, hlast, hblank, hbefore, hafter⟩

section Tied

variable {before after : List Replacement} (h : TiedAtEnd lines sched before a after)
include h

theorem TiedAtEnd.mem : a ∈ sched := by
  have hm : a ∈ sched.filter (·.start == a.start) := by
    rw [h.bucket]
    simp
  exact (mem_filter.mp hm).1

theorem TiedAtEnd.removed : (lines.drop a.start).take a.oldLen = [[]] := by
  have hblank := h.blank
  have hlast := h.last
  cases lines using List.reverseRecOn with
  | nil => simp at hblank
  | append_singleton pre l =>
    have hl : l = [] := by simpa using hblank
    have hs : a.start = pre.length := by simpa using hlast
    simp [hs, h.region, hl]

theorem TiedAtEnd.sorted :
    sortByStart sched = ((sortByStart sched).filter (·.start < a.start) ++ before) ++ a :: after ++
      (sortByStart sched).filter (a.start < ·.start) := by
  have hs := sorted_split a.start (sortByStart_sorted sched)
  rw [sortByStart_filter, h.bucket] at hs
  simpa using hs

include hinside in
/-- Behind the final line there is room for insertions only. -/
theorem TiedAtEnd.high_ins :
    ∀ x ∈ (sortByStart sched).filter (a.start < ·.start), x.oldLen = 0 ∧ x.start = lines.length := by
  intro x hx
  obtain ⟨hxS, hxa⟩ : x ∈ sortByStart sched ∧ a.start < x.start := by simpa using hx
  have hs := sortByStart_inside hinside x hxS
  have hl := h.last
  simp only [Edit.stop] at hs
  omega

include hapart

/-- A replacement that starts before the final line ends there at the latest. -/
theorem TiedAtEnd.low_stop : ∀ x ∈ (sortByStart sched).filter (·.start < a.start), x.stop ≤ a.start := by
  intro x hx
  obtain ⟨hxS, hxa⟩ : x ∈ sortByStart sched ∧ x.start < a.start := by simpa using hx
  have haS : a ∈ sortByStart sched := (sortByStart_perm).mem_iff.mpr h.mem
  have ha : Apart x a := (sortByStart_apart.mpr hapart).forall hxS haS (by rintro rfl; omega)
  have hr := ha.1
  have ho := h.region
  simp only [Edit.stop] at hr ⊢
  by_cases h0 : x.oldLen = 0
  · omega
  · omega

include hties

theorem TiedAtEnd.low_chained : Chained ((sortByStart sched).filter (·.start < a.start) ++ before) := by
  have hsub : ((sortByStart sched).filter (·.start < a.start) ++ before).Sublist (sortByStart sched) := by
    conv_rhs => rw [h.sorted]
    rw [append_assoc]
    exact sublist_append_left ..
  have ha := (sortByStart_apart.mpr hapart).sublist hsub
  refine chained_of_apart ((sortByStart_sorted sched).sublist hsub) ha ?_
  refine (((sortByStart_sameStart hties).sublist hsub).and ha).imp_of_mem ?_
  intro x y hx _ hxy hs
  cases mem_append.mp hx with
  | inr hx => exact (h.before_ins x hx).2
  | inl hx =>
    -- a tie further up in the file would be at the final line again
    by_contra h0
    have hy0 := apart_sameStart hxy.2 hs (by omega)
    have hatEnd := (hxy.1 hs (by omega) hy0).1
    have hl := h.last
    have hxa : x.start < a.start := by simpa using (mem_filter.mp hx).2
    omega

include hinside in
theorem TiedAtEnd.tie :
    Tie lines ((sortByStart sched).filter (·.start < a.start) ++ before) a after
      ((sortByStart sched).filter (a.start < ·.start)) where
  region := by have := h.region; omega
  pre_chained := h.low_chained hapart hties
  pre_stop := by
    intro e he
    cases mem_append.mp he with
    | inl he => exact h.low_stop hapart e he
    | inr he => rw [Edit.stop_eq_start (h.before_ins e he).2, (h.before_ins e he).1]
  insertions := h.after_ins
  post_chained := by
    refine List.Pairwise.imp_of_mem (R := fun _ _ => True) ?_ (pairwise_of_forall fun _ _ => trivial)
    intro x y hx hy _
    have hhigh := h.high_ins hinside
    rw [Edit.stop_eq_start (hhigh x hx).1, (hhigh x hx).2, (hhigh y hy).2]
  post_start := by
    intro e he
    rw [(h.high_ins hinside e he).2]
    exact hinside a h.mem
  inside := hinside a h.mem
  post_inside := fun e he => sortByStart_inside hinside e (mem_filter.mp he).1

/-- All ties are harmless when the lines inserted behind the region are empty. -/
theorem TiedAtEnd.harmless_iff :
    (sched.Pairwise fun a b => a.start = b.start → TieHarmless a b) ↔ ∀ l ∈ after.flatMap Edit.segment, l = [] := by
  have ha := hapart.filter (·.start == a.start)
  rw [h.bucket, pairwise_append, pairwise_cons] at ha
  rw [pairwise_sameStart_iff]
  constructor
  · intro hall l hl
    obtain ⟨b, hb, hlb⟩ := mem_flatMap.mp hl
    have hbucket := hall a.start
    rw [h.bucket, pairwise_append, pairwise_cons] at hbucket
    exact hbucket.2.1.1 b hb (by have := h.region; omega) l hlb
  · intro hblank k
    by_cases hk : k = a.start
    · rw [hk, h.bucket, pairwise_append, pairwise_cons]
      refine ⟨?_, ⟨?_, ?_⟩, ?_⟩
      · exact List.Pairwise.imp_of_mem (fun hx _ _ hp => absurd (h.before_ins _ hx).2 (by omega)) ha.1
      · intro b hb _ l hl
        exact hblank l (mem_flatMap.mpr ⟨b, hb, hl⟩)
      · exact List.Pairwise.imp_of_mem (fun hx _ _ hp => absurd (h.after_ins _ hx).2 (by omega)) ha.2.1.2
      · intro x hx y _ hp
        have := (h.before_ins x hx).2
        omega
    · refine ((pairwise_sameStart_iff.mp hties k).and (hapart.filter _)).imp_of_mem ?_
      intro x y hx hy hxy hp
      have hxk : x.start = k := by simpa using (mem_filter.mp hx).2
      have hyk : y.start = k := by simpa using (mem_filter.mp hy).2
      have hy0 := apart_sameStart hxy.2 (by omega) hp
      have hatEnd := (hxy.1 hp hy0).1
      have hlast := h.last
      omega

end Tied

include hinside hapart hties in
/-- With the regions apart, carrying the schedule out is the splice exactly when
every insertion tied to a region that precedes it is harmless. -/
theorem editAll_sorted_iff :
    editAll lines (sortByStart sched) = splice lines (sortByStart sched) ↔
      sched.Pairwise fun a b => a.start = b.start → TieHarmless a b := by
  by_cases hn : sched.Pairwise fun a b => a.start = b.start → a.oldLen = 0
  · have hharmless : sched.Pairwise fun a b => a.start = b.start → TieHarmless a b := by
      refine hn.imp ?_
      intro a b h hs hp
      omega
    have hchained := chained_of_apart (sortByStart_sorted sched) (sortByStart_apart.mpr hapart)
      (sortByStart_sameStart hn)
    exact iff_of_true (editAll_eq_splice hchained (sortByStart_inside hinside)) hharmless
  · obtain ⟨before, a, after, h⟩ := exists_tiedAtEnd hinside hapart hties hn
    have hiff := editAll_eq_splice_iff_of_tie (h.tie hinside hapart hties)
    rw [← h.sorted, h.removed, h.region, drop_one_concat_empty_iff] at hiff
    exact hiff.trans (h.harmless_iff hapart hties).symm

end Schedule

/-- The schedule that `computeReplacements` returns has the meaning of a splice
exactly if every chunk fits at its turn. -/
theorem computeReplacements_contract_iff (lines : List Str) (path : Str)
    (chunks : List UpdateFileChunk) (rs : List Replacement)
    (h : computeReplacements lines path chunks = .ok rs) :
    SpliceContract lines rs ↔ ChunksFit lines {} chunks := by
  obtain ⟨st, rfl, hinv, hfit⟩ := computeReplacements_schedule h
  have hi := sortByStart_inside hinv.inside
  have ha : applyReplacements lines (sortByStart st.replacements) = editAll lines (sortByStart st.replacements) :=
    applyReplacements_eq_editAll (sortByStart_sorted _) fun r hr => le_trans r.start_le_stop (hi r hr)
  have hgood : st.replacements.Pairwise Good ↔ st.replacements.Pairwise Apart ∧
      st.replacements.Pairwise fun a b => a.start = b.start → TieHarmless a b := pairwise_and_iff
  rw [hfit, hgood]
  constructor
  · intro hc
    have hapart := sortByStart_apart.mp hc.apart
    refine ⟨hapart, (editAll_sorted_iff hinv.inside hapart hinv.ties).mp ?_⟩
    rw [← ha]
    exact hc.spliced
  · rintro ⟨hapart, hharmless⟩
    refine ⟨hi, sortByStart_apart.mpr hapart, ?_⟩
    rw [ha]
    exact (editAll_sorted_iff hinv.inside hapart hinv.ties).mpr hharmless

/-- An end-of-file chunk behind a chunk that has replaced the same last line:
the second region lies inside the first one. -/
theorem eof_chunk_overlaps :
    ∃ rs, computeReplacements ["a".toList, "b".toList] "f".toList
        [⟨none, ["a".toList, "b".toList], ["x".toList], false⟩,
          ⟨none, ["b".toList], ["y".toList], true⟩] = .ok rs ∧
      ¬ SpliceContract ["a".toList, "b".toList] rs :=
  ⟨[⟨0, 2, ["x".toList]⟩, ⟨1, 1, ["y".toList]⟩], rfl, fun h => absurd h.apart (by decide)⟩

/-- The same two chunks in a file with one more line keep apart. -/
theorem eof_chunk_apart :
    SpliceContract ["a".toList, "b".toList, "c".toList]
      [⟨0, 2, ["x".toList]⟩, ⟨2, 1, ["y".toList]⟩] :=
  (computeReplacements_contract_iff ["a".toList, "b".toList, "c".toList] "f".toList
    [⟨none, ["a".toList, "b".toList], ["x".toList], false⟩,
      ⟨none, ["c".toList], ["y".toList], true⟩] _ rfl).mpr (by decide)

end Replacements
