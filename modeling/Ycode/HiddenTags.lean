import Ycode.RustStr
import Ycode.DelimiterSearch

/-!
# Hidden tags in a stream of text

The parser hides tags with literal delimiters and collects what stands between them. Text that may begin a
delimiter is held back until more of it arrives, so that the result does not depend on the chunks.
-/
namespace HiddenTags

open RustStr DelimiterSearch List

variable {τ : Type}

structure ExtractedInlineTag (τ : Type) where
  tag : τ
  content : Str
  deriving DecidableEq

structure InlineTagSpec (τ : Type) where
  tag : τ
  openText : Str
  closeText : Str

/-- A delimiter is not empty. -/
abbrev Delimiter := { text : Str // text ≠ [] }

/-- A spec that the parser accepted. -/
structure TagSpec (τ : Type) where
  tag : τ
  openText : Delimiter
  closeText : Delimiter

structure ActiveTag (τ : Type) where
  tag : τ
  closeText : Delimiter
  content : Str

structure InlineHiddenTagParser (τ : Type) where
  specs : List (TagSpec τ)
  specs_ne : specs ≠ []
  pending : Str
  active : Option (ActiveTag τ)

structure StreamTextChunk (ε : Type) where
  visibleText : Str
  extracted : List ε
  deriving DecidableEq

def checkSpec (spec : InlineTagSpec τ) : Except Str (TagSpec τ) :=
  if hopen : spec.openText = [] then .error "InlineHiddenTagParser requires non-empty open delimiters".toList
  else if hclose : spec.closeText = [] then
    .error "InlineHiddenTagParser requires non-empty close delimiters".toList
  else .ok ⟨spec.tag, ⟨spec.openText, hopen⟩, ⟨spec.closeText, hclose⟩⟩

def checkSpecs : List (InlineTagSpec τ) → Except Str (List (TagSpec τ))
  | [] => .ok []
  | spec :: specs =>
    match checkSpec spec with
    | .error message => .error message
    | .ok spec =>
      match checkSpecs specs with
      | .error message => .error message
      | .ok specs => .ok (spec :: specs)

def new (specs : List (InlineTagSpec τ)) : Except Str (InlineHiddenTagParser τ) :=
  match checkSpecs specs with
  | .error message => .error message
  | .ok [] => .error "InlineHiddenTagParser requires at least one tag spec".toList
  | .ok (spec :: specs) =>
    .ok { specs := spec :: specs, specs_ne := cons_ne_nil spec specs, pending := [], active := none }

def find (text needle : Str) : Option Nat := firstIndex (startsWithAny [needle]) text

/-- The smallest item, the first one among equals. -/
def minBy {β : Type} (compare : β → β → Ordering) : List β → Option β
  | [] => none
  | item :: items => some (items.foldl (fun best next => if compare best next = .gt then next else best) item)

structure Candidate (τ : Type) where
  pos : Nat
  idx : Nat
  spec : TagSpec τ

/-- By place, then the longer delimiter, then the earlier spec. -/
def compareCandidates (a b : Candidate τ) : Ordering :=
  (compare a.pos b.pos).then
    ((compare b.spec.openText.1.length a.spec.openText.1.length).then (compare a.idx b.idx))

def candidates (specs : List (TagSpec τ)) (pending : Str) : List (Candidate τ) :=
  specs.zipIdx.filterMap fun entry => (find pending entry.1.openText.1).map fun pos => ⟨pos, entry.2, entry.1⟩

def findNextOpen (specs : List (TagSpec τ)) (pending : Str) : Option (Nat × TagSpec τ) :=
  (minBy compareCandidates (candidates specs pending)).map fun best => (best.pos, best.spec)

def longestSuffixPrefixLen (text needle : Str) : Nat := go (min text.length (needle.length - 1))
where
  go : Nat → Nat
    | 0 => 0
    | k + 1 => if needle.take (k + 1) <:+ text then k + 1 else go k

def maxOpenPrefixSuffixLen (specs : List (TagSpec τ)) (pending : Str) : Nat :=
  ((specs.map fun spec => longestSuffixPrefixLen pending spec.openText.1).max?).getD 0

variable {specs : List (TagSpec τ)}

theorem minBy_spec {compare : β → β → Ordering} {rank : β → Nat}
    (hg : ∀ a b, compare a b = .gt → rank b ≤ rank a) (hle : ∀ a b, compare a b ≠ .gt → rank a ≤ rank b)
    {xs : List β} {best : β} (h : minBy compare xs = some best) :
    best ∈ xs ∧ ∀ item ∈ xs, rank best ≤ rank item := by
  cases xs with
  | nil => cases h
  | cons item xs =>
    cases h
    induction xs generalizing item with
    | nil => exact ⟨mem_singleton_self _, fun x ho => by rw [mem_singleton.mp ho]; rfl⟩
    | cons next xs ih =>
      rw [foldl_cons]
      by_cases hc : compare item next = .gt
      · rw [if_pos hc]
        obtain ⟨hm, ha⟩ := ih next
        refine ⟨mem_cons_of_mem _ hm, fun x ho => ?_⟩
        rcases mem_cons.mp ho with rfl | hr
        · exact (ha next mem_cons_self).trans (hg x next hc)
        · exact ha x hr
      · rw [if_neg hc]
        obtain ⟨hm, ha⟩ := ih item
        refine ⟨?_, fun x ho => ?_⟩
        · rcases mem_cons.mp hm with he | hr
          · rw [he]
            exact mem_cons_self
          · exact mem_cons_of_mem _ (mem_cons_of_mem _ hr)
        · rcases mem_cons.mp ho with rfl | hr
          · exact ha x mem_cons_self
          · rcases mem_cons.mp hr with rfl | hl
            · exact (ha item mem_cons_self).trans (hle item x hc)
            · exact ha x (mem_cons_of_mem _ hl)

theorem minBy_eq_none {compare : β → β → Ordering} {xs : List β} : minBy compare xs = none ↔ xs = [] := by
  cases xs with
  | _ => simp [minBy]

theorem pos_le_of_compare (a b : Candidate τ) :
    (compareCandidates a b = .gt → b.pos ≤ a.pos) ∧ (compareCandidates a b ≠ .gt → a.pos ≤ b.pos) := by
  unfold compareCandidates
  rcases hc : compare a.pos b.pos with _ | _ | _
  · have := Nat.compare_eq_lt.mp hc
    exact ⟨fun h => (nomatch (show Ordering.lt = .gt from h)), fun _ => by omega⟩
  · have := Nat.compare_eq_eq.mp hc
    exact ⟨fun _ => by omega, fun _ => by omega⟩
  · have := Nat.compare_eq_gt.mp hc
    exact ⟨fun _ => by omega, fun h => absurd rfl h⟩

theorem mem_candidates (h : best ∈ candidates specs pending) :
    best.spec ∈ specs ∧ find pending best.spec.openText.1 = some best.pos := by
  obtain ⟨e, he, hf⟩ := mem_filterMap.mp h
  obtain ⟨pos, hp, rfl⟩ := Option.map_eq_some_iff.mp hf
  exact ⟨fst_mem_of_mem_zipIdx he, hp⟩

theorem exists_candidate (hs : spec ∈ specs) {pos : Nat} (h : find pending spec.openText.1 = some pos) :
    ∃ found ∈ candidates specs pending, found.pos = pos := by
  obtain ⟨idx, hi⟩ := mem_iff_getElem?.mp hs
  have he : (spec, idx) ∈ specs.zipIdx := mk_mem_zipIdx_iff_getElem?.mpr hi
  exact ⟨⟨pos, idx, spec⟩, mem_filterMap.mpr ⟨(spec, idx), he, by rw [h]; rfl⟩, rfl⟩

/-- A delimiter that starts somewhere is found there or before. -/
theorem find_le {j : Nat} (hj : j ≤ text.length) (h : word <+: text.drop j) : ∃ i ≤ j, find text word = some i := by
  cases hf : find text word with
  | none =>
    have hn := firstIndex_eq_none.mp hf j hj
    exact absurd h (startsWithAny_eq_false.mp hn word (mem_singleton_self _))
  | some i =>
    refine ⟨i, ?_, rfl⟩
    by_contra hlt
    have hn := (firstIndex_eq_some.mp hf).2.2 j (Nat.not_le.mp hlt)
    exact startsWithAny_eq_false.mp hn word (mem_singleton_self _) h

/-- The delimiter found is one that starts first. -/
theorem findNextOpen_some {pos : Nat} (h : findNextOpen specs pending = some (pos, spec)) :
    spec ∈ specs ∧ find pending spec.openText.1 = some pos ∧
      firstIndex (startsWithAny (specs.map (·.openText.1))) pending = some pos := by
  obtain ⟨best, hb, heq⟩ := Option.map_eq_some_iff.mp h
  cases heq
  obtain ⟨hm, hl⟩ := minBy_spec (fun a b => (pos_le_of_compare a b).1) (fun a b => (pos_le_of_compare a b).2) hb
  obtain ⟨hspec, hfind⟩ := mem_candidates hm
  obtain ⟨hp, hs, _⟩ := firstIndex_eq_some.mp hfind
  refine ⟨hspec, hfind, firstIndex_eq_some.mpr ⟨hp, ?_, fun j hj => ?_⟩⟩
  · obtain ⟨word, hw, hle⟩ := startsWithAny_eq_true.mp hs
    rw [mem_singleton.mp hw] at hle
    exact startsWithAny_eq_true.mpr ⟨_, mem_map_of_mem hspec, hle⟩
  · rw [startsWithAny_eq_false]
    intro word hw he
    obtain ⟨x, ho, rfl⟩ := mem_map.mp hw
    obtain ⟨i, hi, hf⟩ := find_le (by omega) he
    obtain ⟨found, hc, rfl⟩ := exists_candidate ho hf
    have := hl found hc
    omega

theorem findNextOpen_none (h : findNextOpen specs pending = none) :
    firstIndex (startsWithAny (specs.map (·.openText.1))) pending = none := by
  have hn := minBy_eq_none.mp (Option.map_eq_none_iff.mp h)
  rw [firstIndex_eq_none]
  intro j hj
  rw [startsWithAny_eq_false]
  intro word hw hs
  obtain ⟨spec, hspec, rfl⟩ := mem_map.mp hw
  obtain ⟨i, _, hf⟩ := find_le hj hs
  obtain ⟨found, hc, _⟩ := exists_candidate hspec hf
  rw [hn] at hc
  cases hc

theorem find_within (h : find text word = some i) : i + word.length ≤ text.length := by
  obtain ⟨hi, hs, _⟩ := firstIndex_eq_some.mp h
  obtain ⟨found, hf, hle⟩ := startsWithAny_eq_true.mp hs
  obtain rfl := mem_singleton.mp hf
  have hl := hle.length_le
  rw [length_drop] at hl
  omega

theorem length_drop_lt (hne : word ≠ []) (h : find pending word = some i) :
    (pending.drop (i + word.length)).length < pending.length := by
  have he := find_within h
  have hp := length_pos_of_ne_nil hne
  rw [length_drop]
  omega

theorem le_go (hk : k ≤ n) (h : needle.take k <:+ text) : k ≤ longestSuffixPrefixLen.go text needle n := by
  induction n with
  | zero => exact hk
  | succ n ih =>
    rw [longestSuffixPrefixLen.go]
    split
    · exact hk
    · rename_i hn
      have hne : k ≠ n + 1 := by
        rintro rfl
        exact hn h
      exact ih (by omega)

/-- What is held back covers every end of the text that may begin the delimiter. -/
theorem overlapLe_longestSuffixPrefixLen : OverlapLe text needle (longestSuffixPrefixLen text needle) := by
  intro i hi hs h
  apply le_go (by omega)
  have ht : needle.take (text.length - i) = text.drop i := by
    rw [← length_drop, ← prefix_iff_eq_take.mp h]
  rw [ht]
  exact drop_suffix ..

theorem overlapLe_maxOpenPrefixSuffixLen (hspec : spec ∈ specs) :
    OverlapLe pending spec.openText.1 (maxOpenPrefixSuffixLen specs pending) := by
  intro i hi hs h
  refine (overlapLe_longestSuffixPrefixLen i hi hs h).trans ?_
  exact le_max?_getD_of_mem (mem_map_of_mem hspec)

/-- The loop of `pushStr`: the state it stops in, and the output with what it added. -/
def pushLoop (specs : List (TagSpec τ)) (active : Option (ActiveTag τ)) (pending : Str)
    (out : StreamTextChunk (ExtractedInlineTag τ)) :
    Option (ActiveTag τ) × Str × StreamTextChunk (ExtractedInlineTag τ) :=
  match active with
  | some active =>
    match _hclose : find pending active.closeText.1 with
    | some closeIdx =>
      pushLoop specs none (pending.drop (closeIdx + active.closeText.1.length))
        { out with extracted := out.extracted ++ [⟨active.tag, active.content ++ pending.take closeIdx⟩] }
    | none =>
      let keep := longestSuffixPrefixLen pending active.closeText.1
      let take := pending.length - keep
      (some { active with content := active.content ++ pending.take take }, pending.drop take, out)
  | none =>
    match _hopen : findNextOpen specs pending with
    | some (openIdx, spec) =>
      pushLoop specs (some { tag := spec.tag, closeText := spec.closeText, content := [] })
        (pending.drop (openIdx + spec.openText.1.length))
        { out with visibleText := out.visibleText ++ pending.take openIdx }
    | none =>
      let keep := maxOpenPrefixSuffixLen specs pending
      let take := pending.length - keep
      (none, pending.drop take, { out with visibleText := out.visibleText ++ pending.take take })
termination_by pending.length
decreasing_by
  · exact length_drop_lt active.closeText.2 _hclose
  · exact length_drop_lt spec.openText.2 (findNextOpen_some _hopen).2.1

def pushStr (parser : InlineHiddenTagParser τ) (chunk : Str) :
    InlineHiddenTagParser τ × StreamTextChunk (ExtractedInlineTag τ) :=
  let (active, pending, out) := pushLoop parser.specs parser.active (parser.pending ++ chunk) ⟨[], []⟩
  ({ parser with active, pending }, out)

def finish (parser : InlineHiddenTagParser τ) :
    InlineHiddenTagParser τ × StreamTextChunk (ExtractedInlineTag τ) :=
  match parser.active with
  | some active =>
    ({ parser with active := none, pending := [] }, ⟨[], [⟨active.tag, active.content ++ parser.pending⟩]⟩)
  | none => ({ parser with pending := [] }, ⟨parser.pending, []⟩)

end HiddenTags
