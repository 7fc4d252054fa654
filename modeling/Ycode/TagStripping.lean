import Ycode.HiddenTags

/-!
# Stripping hidden tags from left to right

The whole text at once: up to the leftmost opening delimiter it is visible, from there to the first closing
delimiter it is hidden, and so on. The parser gives this result for every way the text is cut into chunks.
-/
namespace TagStripping

open RustStr DelimiterSearch HiddenTags List

variable {τ : Type}

def openings (specs : List (TagSpec τ)) : List Str := specs.map (·.openText.1)

/-- The leftmost place where a tag opens. -/
def leftmostOpen (specs : List (TagSpec τ)) (text : Str) : Option (Nat × TagSpec τ) :=
  match firstIndex (startsWithAny (openings specs)) text with
  | none => none
  | some i => (specs.find? fun spec => decide (spec.openText.1 <+: text.drop i)).map fun spec => (i, spec)

theorem leftmostOpen_some (h : leftmostOpen specs text = some (i, spec)) :
    i ≤ text.length ∧ spec.openText.1 <+: text.drop i := by
  unfold leftmostOpen at h
  split at h
  · cases h
  · rename_i j hfirst
    obtain ⟨found, hf, he⟩ := Option.map_eq_some_iff.mp h
    cases he
    exact ⟨(firstIndex_eq_some.mp hfirst).1, by simpa using find?_some hf⟩

def strip (specs : List (TagSpec τ)) (text : Str) : StreamTextChunk (ExtractedInlineTag τ) :=
  match _hopen : leftmostOpen specs text with
  | none => ⟨text, []⟩
  | some (i, spec) =>
    let rest := text.drop (i + spec.openText.1.length)
    match find rest spec.closeText.1 with
    | none => ⟨text.take i, [⟨spec.tag, rest⟩]⟩
    | some j =>
      let later := strip specs (rest.drop (j + spec.closeText.1.length))
      ⟨text.take i ++ later.visibleText, ⟨spec.tag, rest.take j⟩ :: later.extracted⟩
termination_by text.length
decreasing_by
  obtain ⟨hi, hstart⟩ := leftmostOpen_some _hopen
  have hlength := hstart.length_le
  have hpos := length_pos_of_ne_nil spec.openText.2
  simp only [length_drop] at *
  omega

/-- The result from a tag that is already open, or from outside any tag. -/
def stripFrom (specs : List (TagSpec τ)) (active : Option (ActiveTag τ)) (text : Str) :
    StreamTextChunk (ExtractedInlineTag τ) :=
  match active with
  | none => strip specs text
  | some active =>
    match find text active.closeText.1 with
    | none => ⟨[], [⟨active.tag, active.content ++ text⟩]⟩
    | some j =>
      let later := strip specs (text.drop (j + active.closeText.1.length))
      ⟨later.visibleText, ⟨active.tag, active.content ++ text.take j⟩ :: later.extracted⟩

def append (first second : StreamTextChunk (ExtractedInlineTag τ)) : StreamTextChunk (ExtractedInlineTag τ) :=
  ⟨first.visibleText ++ second.visibleText, first.extracted ++ second.extracted⟩

theorem append_assoc (a b c : StreamTextChunk (ExtractedInlineTag τ)) :
    append (append a b) c = append a (append b c) := by
  simp [append]

theorem strip_none (h : leftmostOpen specs text = none) : strip specs text = ⟨text, []⟩ := by
  rw [strip]
  split
  · rfl
  · rename_i ho
    rw [h] at ho
    cases ho

theorem strip_some (h : leftmostOpen specs text = some (i, spec)) :
    strip specs text = append ⟨text.take i, []⟩
      (stripFrom specs (some ⟨spec.tag, spec.closeText, []⟩) (text.drop (i + spec.openText.1.length))) := by
  rw [strip]
  split
  · rename_i ho
    rw [h] at ho
    cases ho
  · rename_i ho
    cases h.symm.trans ho
    rw [stripFrom]
    simp only
    split
    all_goals simp [append]

theorem stripFrom_none (specs : List (TagSpec τ)) (active : ActiveTag τ) (h : find text active.closeText.1 = none) :
    stripFrom specs (some active) text = ⟨[], [⟨active.tag, active.content ++ text⟩]⟩ := by
  rw [stripFrom, h]

theorem stripFrom_some (specs : List (TagSpec τ)) (active : ActiveTag τ)
    (h : find text active.closeText.1 = some j) :
    stripFrom specs (some active) text = append ⟨[], [⟨active.tag, active.content ++ text.take j⟩]⟩
      (stripFrom specs none (text.drop (j + active.closeText.1.length))) := by
  simp only [stripFrom, h, append, nil_append, singleton_append]

section Growing

theorem drop_behind {front rest : Str} (h : front.length = k) :
    (front ++ rest).drop (i + k + n) = rest.drop (i + n) := by
  rw [← h, Nat.add_right_comm, Nat.add_comm _ front.length, drop_length_add_append]

theorem take_behind {front rest : Str} (h : front.length = k) :
    (front ++ rest).take (i + k) = front ++ rest.take i := by
  rw [← h, Nat.add_comm, take_length_add_append]

theorem find_append (h : find text word = some i) (more : Str) : find (text ++ more) word = some i :=
  firstIndex_append (pairwise_singleton ..) h more

theorem find_held (h : find text word = none) (hkeep : OverlapLe text word keep)
    (more : Str) : find (text ++ more) word =
      (find (text.drop (text.length - keep) ++ more) word).map (· + (text.length - keep)) := by
  have hp : ∀ j < text.length - keep, startsWithAny [word] ((text ++ more).drop j) = false :=
    fun j hj => no_start_before h (by simpa using hkeep) hj
  rw [find, firstIndex_drop (by rw [length_append]; omega) hp, drop_append_of_le_length (Nat.sub_le ..)]
  rfl

variable {specs : List (TagSpec τ)}

theorem opening_ne (h : word ∈ openings specs) : word ≠ [] := by
  obtain ⟨spec, _, rfl⟩ := mem_map.mp h
  exact spec.openText.2

theorem leftmostOpen_append (hsep : Separate (openings specs))
    (h : findNextOpen specs text = some (i, spec)) (more : Str) :
    leftmostOpen specs (text ++ more) = some (i, spec) := by
  obtain ⟨hspec, hfind, hf⟩ := findNextOpen_some h
  have hg := firstIndex_append hsep hf more
  obtain ⟨hi, hs, _⟩ := firstIndex_eq_some.mp (find_append hfind more)
  obtain ⟨word, hw, hle⟩ := startsWithAny_eq_true.mp hs
  obtain rfl := mem_singleton.mp hw
  have hu : (specs.find? fun x => decide (x.openText.1 <+: (text ++ more).drop i)) = some spec := by
    cases ho : specs.find? fun x => decide (x.openText.1 <+: (text ++ more).drop i) with
    | none => exact absurd hle (by simpa using find?_eq_none.mp ho spec hspec)
    | some x =>
      have hm := mem_of_find?_eq_some ho
      have hsame := hsep.eq_of_start (mem_map_of_mem hm) (mem_map_of_mem hspec)
        (by simpa using find?_some ho) hle
      rw [inj_on_of_nodup_map hsep.nodup hm hspec hsame]
  unfold leftmostOpen
  rw [hg]
  simp only
  rw [hu]
  rfl

section

variable (h : findNextOpen specs text = none) (hkeep : ∀ spec ∈ specs, OverlapLe text spec.openText.1 keep)
include h hkeep

theorem leftmostOpen_held (more : Str) :
    leftmostOpen specs (text ++ more) = (leftmostOpen specs (text.drop (text.length - keep) ++ more)).map
      fun found => (found.1 + (text.length - keep), found.2) := by
  have hp : ∀ j < text.length - keep, startsWithAny (openings specs) ((text ++ more).drop j) = false := by
    intro j hj
    refine no_start_before (findNextOpen_none h) (fun word hw => ?_) hj
    obtain ⟨spec, hspec, rfl⟩ := mem_map.mp hw
    exact hkeep spec hspec
  have hs := firstIndex_drop (by rw [length_append]; omega) hp
  rw [drop_append_of_le_length (Nat.sub_le ..)] at hs
  unfold leftmostOpen
  rw [hs]
  cases firstIndex (startsWithAny (openings specs)) (text.drop (text.length - keep) ++ more) with
  | none => rfl
  | some i =>
    have hd : (text ++ more).drop (i + (text.length - keep)) = (text.drop (text.length - keep) ++ more).drop i := by
      rw [Nat.add_comm, ← drop_drop, drop_append_of_le_length (Nat.sub_le ..)]
    simp only [Option.map_some, hd, Option.map_map]
    rfl

theorem strip_held (more : Str) : strip specs (text ++ more) = append ⟨text.take (text.length - keep), []⟩
      (strip specs (text.drop (text.length - keep) ++ more)) := by
  have hh := leftmostOpen_held h hkeep more
  generalize hk : text.length - keep = k at *
  have hs : text ++ more = text.take k ++ (text.drop k ++ more) := by
    rw [← List.append_assoc, take_append_drop]
  have hl : (text.take k).length = k := by rw [length_take]; omega
  generalize text.drop k ++ more = rest at *
  generalize text.take k = front at *
  rw [hs] at hh ⊢
  cases hr : leftmostOpen specs rest with
  | none =>
    rw [hr] at hh
    rw [strip_none hh, strip_none hr]
    rfl
  | some found =>
    obtain ⟨i, spec⟩ := found
    rw [hr] at hh
    rw [strip_some hh, strip_some hr, drop_behind hl, take_behind hl, ← append_assoc]
    rfl

end

theorem stripFrom_held (h : find text active.closeText.1 = none)
    (hkeep : OverlapLe text active.closeText.1 keep) (more : Str) :
    stripFrom specs (some active) (text ++ more) =
      stripFrom specs (some { active with content := active.content ++ text.take (text.length - keep) })
        (text.drop (text.length - keep) ++ more) := by
  have hh := find_held h hkeep more
  generalize hk : text.length - keep = k at *
  have hs : text ++ more = text.take k ++ (text.drop k ++ more) := by
    rw [← List.append_assoc, take_append_drop]
  have hl : (text.take k).length = k := by rw [length_take]; omega
  generalize text.drop k ++ more = rest at *
  generalize text.take k = front at *
  rw [hs] at hh ⊢
  cases hr : find rest active.closeText.1 with
  | none =>
    rw [hr] at hh
    rw [stripFrom_none specs active hh, stripFrom_none specs { active with content := active.content ++ front } hr,
      List.append_assoc]
  | some j =>
    rw [hr] at hh
    rw [stripFrom_some specs active hh, stripFrom_some specs { active with content := active.content ++ front } hr,
      drop_behind hl, take_behind hl, List.append_assoc]

end Growing

/-- The loop moves text from what is pending to the output, and leaves the result for any continuation as it is. -/
theorem pushLoop_strips (hsep : Separate (openings specs)) (active : Option (ActiveTag τ)) (pend : Str)
    (out : StreamTextChunk (ExtractedInlineTag τ)) (more : Str) :
    append (pushLoop specs active pend out).2.2
        (stripFrom specs (pushLoop specs active pend out).1 ((pushLoop specs active pend out).2.1 ++ more)) =
      append out (stripFrom specs active (pend ++ more)) := by
  fun_induction pushLoop specs active pend out with
  | case1 pend out active closeIdx hc ih =>
    -- the closing delimiter stays where it was found
    have he := find_within hc
    rw [ih, stripFrom_some specs active (find_append hc more), ← append_assoc,
      take_append_of_le_length (by omega), drop_append_of_le_length he]
    simp [append]
  | case2 pend out active hc keep take =>
    exact congrArg (append out) (stripFrom_held hc (overlapLe_longestSuffixPrefixLen) more).symm
  | case3 pend out openIdx spec ho ih =>
    have he := find_within (findNextOpen_some ho).2.1
    have hs := strip_some (leftmostOpen_append hsep ho more)
    rw [take_append_of_le_length (by omega), drop_append_of_le_length he] at hs
    rw [ih, stripFrom, hs, ← append_assoc]
    simp [append]
  | case4 pend out ho keep take =>
    have hh := strip_held ho (fun _ hspec => overlapLe_maxOpenPrefixSuffixLen hspec) more
    have hout : append out ⟨pend.take take, []⟩ = { out with visibleText := out.visibleText ++ pend.take take } := by
      simp [append]
    simp only [stripFrom]
    rw [hh, ← append_assoc, ← hout]

/-- The delimiter the parser waits for is not in what it holds back. -/
def Settled (specs : List (TagSpec τ)) (active : Option (ActiveTag τ)) (pending : Str) : Prop :=
  match active with
  | none => firstIndex (startsWithAny (openings specs)) pending = none
  | some active => find pending active.closeText.1 = none

theorem pushLoop_settled : Settled specs (pushLoop specs active pend out).1 (pushLoop specs active pend out).2.1 := by
  fun_induction pushLoop specs active pend out with
  | case1 pend out active closeIdx hc ih => exact ih
  | case2 pend out active hc keep take => exact firstIndex_drop_none hc (Nat.sub_le ..)
  | case3 pend out openIdx spec ho ih => exact ih
  | case4 pend out ho keep take => exact firstIndex_drop_none (findNextOpen_none ho) (Nat.sub_le ..)

/-- All chunks, one after the other. -/
def pushChunks (parser : InlineHiddenTagParser τ) :
    List Str → InlineHiddenTagParser τ × StreamTextChunk (ExtractedInlineTag τ)
  | [] => (parser, ⟨[], []⟩)
  | chunk :: chunks =>
    let (parser, out) := pushStr parser chunk
    let (parser, later) := pushChunks parser chunks
    (parser, append out later)

/-- What the parser shows and extracts over all chunks and the end of the text. -/
def parseChunks (parser : InlineHiddenTagParser τ) (chunks : List Str) : StreamTextChunk (ExtractedInlineTag τ) :=
  let (parser, out) := pushChunks parser chunks
  append out (finish parser).2

theorem finish_strips (h : Settled parser.specs parser.active parser.pending) :
    (finish parser).2 = stripFrom parser.specs parser.active parser.pending := by
  unfold finish
  split
  · rename_i active ha
    rw [ha] at h ⊢
    exact (stripFrom_none parser.specs active h).symm
  · rename_i ha
    rw [ha] at h ⊢
    have ho : leftmostOpen parser.specs parser.pending = none := by rw [leftmostOpen, h]
    rw [stripFrom, strip_none ho]

theorem pushStr_strips (hs : Separate (openings parser.specs)) :
    append (pushStr parser chunk).2
        (stripFrom parser.specs (pushStr parser chunk).1.active ((pushStr parser chunk).1.pending ++ more)) =
      stripFrom parser.specs parser.active (parser.pending ++ (chunk ++ more)) := by
  exact (pushLoop_strips hs parser.active (parser.pending ++ chunk) ⟨[], []⟩ more).trans (by simp [append])

theorem parseChunks_eq (hsep : Separate (openings parser.specs))
    (ht : Settled parser.specs parser.active parser.pending) :
    parseChunks parser cs = stripFrom parser.specs parser.active (parser.pending ++ cs.flatten) := by
  induction cs generalizing parser with
  | nil =>
    rw [flatten_nil, append_nil, ← finish_strips ht]
    simp [parseChunks, pushChunks, append]
  | cons c cs ih =>
    have hn : parseChunks parser (c :: cs) =
        append (pushStr parser c).2 (parseChunks (pushStr parser c).1 cs) := append_assoc ..
    have hs : (pushStr parser c).1.specs = parser.specs := rfl
    rw [hn, ih (hs ▸ hsep) (pushLoop_settled ..), flatten_cons, hs, pushStr_strips hsep]

def unchecked (spec : TagSpec τ) : InlineTagSpec τ := ⟨spec.tag, spec.openText.1, spec.closeText.1⟩

theorem checkSpecs_ok {specs : List (InlineTagSpec τ)}
    (h : ∀ spec ∈ specs, spec.openText ≠ [] ∧ spec.closeText ≠ []) :
    ∃ checked, checkSpecs specs = .ok checked ∧ checked.map unchecked = specs := by
  induction specs with
  | nil => exact ⟨[], rfl, rfl⟩
  | cons spec specs ih =>
    obtain ⟨⟨ho, hc⟩, hr⟩ := forall_mem_cons.mp h
    obtain ⟨checked, hh, hs⟩ := ih hr
    refine ⟨⟨spec.tag, ⟨spec.openText, ho⟩, ⟨spec.closeText, hc⟩⟩ :: checked, ?_, ?_⟩
    · rw [checkSpecs, checkSpec, dif_neg ho, dif_neg hc]
      rw [hh]
    · rw [map_cons, hs]
      rfl

theorem new_ok {specs : List (InlineTagSpec τ)} (hne : specs ≠ [])
    (hd : ∀ spec ∈ specs, spec.openText ≠ [] ∧ spec.closeText ≠ []) :
    ∃ parser, new specs = .ok parser ∧ parser.specs.map unchecked = specs ∧ parser.pending = [] ∧
      parser.active = none := by
  obtain ⟨checked, hc, hs⟩ := checkSpecs_ok hd
  rw [new, hc]
  cases checked with
  | nil => exact absurd hs.symm hne
  | cons spec checked => exact ⟨_, rfl, hs, rfl, rfl⟩

/-- A parser with nothing pending strips its whole input. -/
theorem parseChunks_fresh {parser : InlineHiddenTagParser τ} (hsep : Separate (openings parser.specs))
    (hp : parser.pending = []) (ha : parser.active = none) (cs : List Str) :
    parseChunks parser cs = strip parser.specs cs.flatten := by
  have hs : Settled parser.specs parser.active parser.pending := by
    rw [hp, ha, Settled, firstIndex_eq_none]
    intro j hj
    rw [startsWithAny_eq_false, drop_nil]
    intro word hw hstart
    exact opening_ne hw (prefix_nil.mp hstart)
  rw [parseChunks_eq hsep hs, hp, ha]
  rfl

theorem openings_unchecked (specs : List (TagSpec τ)) : openings specs = (specs.map unchecked).map (·.openText) := by
  rw [map_map]
  rfl

/-- For specs that the parser accepts, with no opening delimiter inside another, every way to cut the text into
chunks gives what stripping the whole text from left to right gives. -/
theorem stripping_independent_of_streaming (specs : List (InlineTagSpec τ)) (hne : specs ≠ [])
    (hdelimiters : ∀ spec ∈ specs, spec.openText ≠ [] ∧ spec.closeText ≠ [])
    (hsep : Separate (specs.map (·.openText))) (chunks : List Str) :
    ∃ parser, new specs = .ok parser ∧ parser.specs.map unchecked = specs ∧
      parseChunks parser chunks = parseChunks parser [chunks.flatten] ∧
      parseChunks parser [chunks.flatten] = strip parser.specs chunks.flatten := by
  obtain ⟨parser, hn, hs, hp, ha⟩ := new_ok hne hdelimiters
  have ho : Separate (openings parser.specs) := by rwa [openings_unchecked, hs]
  have hw := parseChunks_fresh ho hp ha [chunks.flatten]
  rw [flatten_singleton] at hw
  exact ⟨parser, hn, hs, (parseChunks_fresh ho hp ha chunks).trans hw.symm, hw⟩

inductive CitationTag where
  | citation

def citationOpen : Str := "<oai-mem-citation>".toList
def citationClose : Str := "</oai-mem-citation>".toList

def citationSpecs : List (InlineTagSpec CitationTag) := [⟨.citation, citationOpen, citationClose⟩]

def citationParser : InlineHiddenTagParser CitationTag where
  specs := [⟨.citation, ⟨citationOpen, by decide⟩, ⟨citationClose, by decide⟩⟩]
  specs_ne := cons_ne_nil _ _
  pending := []
  active := none

example : new citationSpecs = .ok citationParser := rfl

/-- The citation parser returns the bodies only. -/
def citations (chunk : StreamTextChunk (ExtractedInlineTag CitationTag)) : StreamTextChunk Str :=
  ⟨chunk.visibleText, chunk.extracted.map (·.content)⟩

def stripCitations (text : Str) : Str × List Str :=
  let out := citations (parseChunks citationParser [text])
  (out.visibleText, out.extracted)

/-- Streaming a message through the citation parser shows and extracts what stripping the message does. -/
theorem citations_parseChunks :
    ((citations (parseChunks citationParser chunks)).visibleText,
      (citations (parseChunks citationParser chunks)).extracted) = stripCitations chunks.flatten := by
  have hs : Separate (openings citationParser.specs) := pairwise_singleton ..
  rw [stripCitations, parseChunks_fresh hs rfl rfl chunks, parseChunks_fresh hs rfl rfl [chunks.flatten],
    flatten_singleton]

theorem citations_independent_of_streaming : ∃ parser, new citationSpecs = .ok parser ∧
    parser.specs.map unchecked = citationSpecs ∧
    parseChunks parser ["see <oai-".toList, "mem-citation>a</oai".toList, "-mem-citation>.".toList] =
      parseChunks parser ["see <oai-mem-citation>a</oai-mem-citation>.".toList] ∧
    parseChunks parser ["see <oai-mem-citation>a</oai-mem-citation>.".toList] =
      strip parser.specs "see <oai-mem-citation>a</oai-mem-citation>.".toList :=
  stripping_independent_of_streaming citationSpecs (by decide) (by decide) (pairwise_singleton ..)
    ["see <oai-".toList, "mem-citation>a</oai".toList, "-mem-citation>.".toList]

end TagStripping
