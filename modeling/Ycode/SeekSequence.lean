import Ycode.RustStr

/-!
# Locating a block of lines

Four passes of decreasing strictness over the same candidate positions: exact
equality, equality up to trailing white space, up to white space on both sides,
and up to a normalisation of typographic punctuation.
-/
namespace SeekSequence

open RustStr

/-- Typographic dashes, quotes and spaces become their ASCII counterparts. -/
def normaliseChar (c : Char) : Char :=
  let n := c.toNat
  if (0x2010 ≤ n ∧ n ≤ 0x2015) ∨ n = 0x2212 then '-'
  else if 0x2018 ≤ n ∧ n ≤ 0x201B then '\''
  else if 0x201C ≤ n ∧ n ≤ 0x201F then '"'
  else if n = 0x00A0 ∨ (0x2002 ≤ n ∧ n ≤ 0x200A) ∨ n = 0x202F ∨ n = 0x205F ∨ n = 0x3000 then ' '
  else c

def normalise (s : Str) : Str := (trim s).map normaliseChar

/-- The lines from `i` on start with the pattern, both seen through `view`. -/
def matchesAt (view : Str → Str) (lines pattern : List Str) (i : Nat) : Bool :=
  ((lines.drop i).take pattern.length).map view == pattern.map view

/-- One pass: the first candidate from `searchStart` to the last position at
which the pattern still fits. -/
def seekPass (view : Str → Str) (lines pattern : List Str) (searchStart : Nat) : Option Nat :=
  (List.range' searchStart (lines.length - pattern.length + 1 - searchStart)).find?
    (matchesAt view lines pattern)

def seekSequence (lines pattern : List Str) (start : Nat) (eof : Bool) : Option Nat :=
  if pattern.isEmpty then some start
  else if lines.length < pattern.length then none
  else
    let searchStart :=
      if eof && decide (pattern.length ≤ lines.length) then lines.length - pattern.length else start
    (seekPass id lines pattern searchStart).or <|
      (seekPass trimEnd lines pattern searchStart).or <|
        (seekPass trim lines pattern searchStart).or <| seekPass normalise lines pattern searchStart

/-- The four comparisons, strictest first. -/
def views : List (Str → Str) := [id, trimEnd, trim, normalise]

/-- Where the whole pattern matches at or after `start`. -/
def places (view : Str → Str) (lines pattern : List Str) (start : Nat) : Set Nat :=
  {i | start ≤ i ∧ i + pattern.length ≤ lines.length ∧ matchesAt view lines pattern i = true}

/-- What a search from `start` is to return: the first place under the strictest comparison that has one. -/
def Sought (lines pattern : List Str) (start : Nat) : Option Nat → Prop
  | none => ∀ view ∈ views, places view lines pattern start = ∅
  | some i => ∃ stricter view laxer, views = stricter ++ view :: laxer ∧
      (∀ v ∈ stricter, places v lines pattern start = ∅) ∧ IsLeast (places view lines pattern start) i

variable {lines pattern : List Str}

theorem seekPass_range {lines pattern : List Str} {s i : Nat} (h : seekPass view lines pattern s = some i) :
    s ≤ i ∧ i ≤ lines.length - pattern.length := by
  have hm := List.mem_of_find?_eq_some h
  obtain ⟨h₁, h₂⟩ := List.mem_range'_1.mp hm
  omega

theorem seekPass_eq_none (hle : pattern.length ≤ lines.length) (h : seekPass view lines pattern s = none) :
    places view lines pattern s = ∅ := by
  rw [Set.eq_empty_iff_forall_notMem]
  rintro i ⟨hi, hl, hm⟩
  have hf := List.find?_range'_eq_none.mp h i hi (by omega)
  rw [hm] at hf
  cases hf

theorem isLeast_of_seekPass (hle : pattern.length ≤ lines.length) (h : seekPass view lines pattern s = some i) :
    IsLeast (places view lines pattern s) i := by
  have hi := seekPass_range h
  obtain ⟨hm, -, hf⟩ := List.find?_range'_eq_some.mp h
  refine ⟨⟨hi.1, by omega, hm⟩, ?_⟩
  rintro j ⟨hj, -, hjm⟩
  by_contra hlt
  have hn := hf j hj (by omega)
  rw [hjm] at hn
  cases hn

/-- All four passes search from the end of the file or all from `start`, never from both. -/
theorem sought_seekSequence (hne : pattern ≠ []) (start : Nat) (eof : Bool) :
    Sought lines pattern (if eof then lines.length - pattern.length else start)
      (seekSequence lines pattern start eof) := by
  have he : pattern.isEmpty = false := by simpa using hne
  rw [seekSequence, he]
  simp only [Bool.false_eq_true, ↓reduceIte]
  by_cases hl : lines.length < pattern.length
  · rw [if_pos hl]
    intro view _
    rw [Set.eq_empty_iff_forall_notMem]
    rintro i ⟨-, hi, -⟩
    omega
  · have hle : pattern.length ≤ lines.length := by omega
    simp only [if_neg hl, hle, decide_true, Bool.and_true]
    generalize (if eof = true then lines.length - pattern.length else start) = s
    have hv : views = [id] ++ ([trimEnd] ++ ([trim] ++ [normalise])) := rfl
    have hf := congrArg (List.findSome? (seekPass · lines pattern s)) hv
    simp only [List.findSome?_append, List.findSome?_singleton] at hf
    rw [← hf]
    cases hr : views.findSome? (seekPass · lines pattern s) with
    | none => exact fun view hv => seekPass_eq_none hle (List.findSome?_eq_none_iff.mp hr view hv)
    | some i =>
      obtain ⟨stricter, view, laxer, hv, hi, hs⟩ := List.findSome?_eq_some_iff.mp hr
      exact ⟨stricter, view, laxer, hv, fun v hm => seekPass_eq_none hle (hs v hm), isLeast_of_seekPass hle hi⟩

/-- A match of a nonempty pattern lies inside the file. Only a search that is
not tied to the end of the file respects the requested start. -/
theorem seekSequence_range {lines pattern : List Str} {eof : Bool}
    (hne : pattern ≠ []) (h : seekSequence lines pattern start eof = some i) :
    i + pattern.length ≤ lines.length ∧ (eof = false → start ≤ i) ∧
      (eof = true → i = lines.length - pattern.length) := by
  have hs : Sought lines pattern _ _ := sought_seekSequence hne start eof
  rw [h] at hs
  obtain ⟨-, -, -, -, -, ⟨hi, hl, -⟩, -⟩ := hs
  cases eof <;> simp at hi ⊢ <;> omega

theorem seekSequence_nil (lines : List Str) (start : Nat) (eof : Bool) :
    seekSequence lines [] start eof = some start := rfl

/-- The pattern matches at the end of the file under some comparison. -/
def AtEnd (lines pattern : List Str) : Prop :=
  ∃ view ∈ views, lines.length - pattern.length ∈ places view lines pattern 0

/-- The doc comment: with `eof` the end of the file is tried first, then the search from `start`. -/
def Documented (lines pattern : List Str) (start : Nat) (eof : Bool) (result : Option Nat) : Prop :=
  if eof then (AtEnd lines pattern → result = some (lines.length - pattern.length)) ∧
    (¬ AtEnd lines pattern → Sought lines pattern start result)
  else Sought lines pattern start result

/-- The search does what its documentation says exactly when it need not fall back: it is not tied to the
end of the file, or matches there, or matches nowhere from `start` on. -/
theorem seekSequence_documented_iff (lines pattern : List Str) (start : Nat) (eof : Bool) (hne : pattern ≠ []) :
    Documented lines pattern start eof (seekSequence lines pattern start eof) ↔
      eof = false ∨ AtEnd lines pattern ∨ ∀ view ∈ views, places view lines pattern start = ∅ := by
  have hs : Sought lines pattern _ _ := sought_seekSequence hne start eof
  cases eof with
  | false => exact ⟨fun _ => .inl rfl, fun _ => hs⟩
  | true =>
    rw [Documented, if_pos rfl]
    cases hr : seekSequence lines pattern start true with
    | none =>
      rw [hr] at hs
      have ha : ¬ AtEnd lines pattern := by
        rintro ⟨view, hv, -, hm⟩
        exact Set.eq_empty_iff_forall_notMem.mp (hs view hv) _ ⟨le_rfl, hm⟩
      simp [ha, Sought]
    | some i =>
      have hi := (seekSequence_range hne hr).2.2 rfl
      rw [hr, hi] at hs
      obtain ⟨stricter, view, laxer, hv, -, ⟨-, hm⟩, -⟩ := hs
      have ha : AtEnd lines pattern := ⟨view, by simp [hv], Nat.zero_le _, hm⟩
      simp [ha, hi]

theorem seekSequence_documented_first : Documented ["a".toList, "b".toList] ["a".toList] 0 false (some 0) :=
  (seekSequence_documented_iff ["a".toList, "b".toList] ["a".toList] 0 false (by simp)).mpr (.inl rfl)

/-- The line stands first in the file, but a search that is tied to the end does not look there. -/
theorem seekSequence_no_fallback : ¬ Documented ["a".toList, "b".toList] ["a".toList] 0 true
    (seekSequence ["a".toList, "b".toList] ["a".toList] 0 true) := by
  have hn : seekSequence ["a".toList, "b".toList] ["a".toList] 0 true = none := by decide
  rw [hn, Documented, if_pos rfl]
  rintro ⟨h₁, h₂⟩
  by_cases ha : AtEnd ["a".toList, "b".toList] ["a".toList]
  · cases h₁ ha
  · have hp : 0 ∈ places id ["a".toList, "b".toList] ["a".toList] 0 := ⟨le_rfl, by decide, by decide⟩
    rw [h₂ ha id (by simp [views])] at hp
    exact hp

end SeekSequence
