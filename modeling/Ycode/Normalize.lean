import Ycode.Transcript

/-!
# Pairing calls with their outputs

Before the history goes to the model, every call without an output gets one right behind it, outputs
without a call are dropped, and content that the model cannot read is replaced by a placeholder.
-/
namespace Normalize

open RustStr Transcript List

inductive InputModality where
  | text | image | audio
  deriving DecidableEq

def imageContentOmittedPlaceholder : Str := "image content omitted because you do not support image input".toList

def audioContentOmittedPlaceholder : Str := "audio content omitted because you do not support audio input".toList

-- the text of the version 5 UUID of a name, in the namespace of synthetic outputs
variable (newV5 : Str → Str)

def syntheticOutputId (kind : Str) (itemId : Option Str) : Option Str :=
  (itemId.filter (· ≠ [])).map fun sourceId => kind ++ "_".toList ++ newV5 (kind ++ ":".toList ++ sourceId)

def functionOutputIds (items : List ResponseItem) : List Str :=
  items.filterMap fun
    | .functionCallOutput _ callId _ _ => some callId
    | _ => none

def toolSearchOutputIds (items : List ResponseItem) : List Str :=
  items.filterMap fun
    | .toolSearchOutput _ callId _ _ _ _ => callId
    | _ => none

def customToolOutputIds (items : List ResponseItem) : List Str :=
  items.filterMap fun
    | .customToolCallOutput _ callId _ _ _ => some callId
    | _ => none

def aborted : FunctionCallOutputPayload := ⟨.text "aborted".toList, none⟩

/-- The output that the second loop collects for a call. -/
def missingOutput (items : List ResponseItem) : ResponseItem → Option ResponseItem
  | .functionCall id _ _ _ _ callId _ =>
    if callId ∈ functionOutputIds items then none
    else some (.functionCallOutput (syntheticOutputId newV5 "fco".toList id) callId aborted none)
  | .toolSearchCall id (some callId) _ _ _ _ =>
    if callId ∈ toolSearchOutputIds items then none
    else some (.toolSearchOutput (syntheticOutputId newV5 "tso".toList id) (some callId) "completed".toList
      "client".toList [] none)
  | .customToolCall id _ callId _ _ _ _ =>
    if callId ∈ customToolOutputIds items then none
    else some (.customToolCallOutput (syntheticOutputId newV5 "ctco".toList id) callId none aborted none)
  | .localShellCall id (some callId) _ _ _ =>
    if callId ∈ functionOutputIds items then none
    else some (.functionCallOutput (syntheticOutputId newV5 "fco".toList id) callId aborted none)
  | _ => none

def missingOutputsToInsert (items : List ResponseItem) : List (Nat × ResponseItem) :=
  items.zipIdx.filterMap fun entry => (missingOutput newV5 items entry.1).map (entry.2, ·)

def ensureCallOutputsPresent (items : List ResponseItem) : List ResponseItem :=
  (missingOutputsToInsert newV5 items).reverse.foldl (fun items entry => items.insertIdx (entry.1 + 1) entry.2) items

def functionCallIds (items : List ResponseItem) : List Str :=
  items.filterMap fun
    | .functionCall _ _ _ _ _ callId _ => some callId
    | _ => none

def toolSearchCallIds (items : List ResponseItem) : List Str :=
  items.filterMap fun
    | .toolSearchCall _ callId _ _ _ _ => callId
    | _ => none

def localShellCallIds (items : List ResponseItem) : List Str :=
  items.filterMap fun
    | .localShellCall _ callId _ _ _ => callId
    | _ => none

def customToolCallIds (items : List ResponseItem) : List Str :=
  items.filterMap fun
    | .customToolCall _ _ callId _ _ _ _ => some callId
    | _ => none

def hasMatch (items : List ResponseItem) : ResponseItem → Bool
  | .functionCallOutput _ callId _ _ => callId ∈ functionCallIds items || callId ∈ localShellCallIds items
  | .customToolCallOutput _ callId _ _ _ => callId ∈ customToolCallIds items
  | .toolSearchOutput _ callId _ execution _ _ =>
    if execution = "server".toList then true
    else match callId with
      | some callId => callId ∈ toolSearchCallIds items
      | none => true
  | _ => true

def removeOrphanOutputs (items : List ResponseItem) : List ResponseItem := items.filter (hasMatch items)

def mapContentItems (f : FunctionCallOutputContentItem → FunctionCallOutputContentItem)
    (output : FunctionCallOutputPayload) : FunctionCallOutputPayload :=
  match output.body with
  | .contentItems items => { output with body := .contentItems (items.map f) }
  | .text _ => output

/-- The walk that both strips make over an item. -/
def mapContent (f : ContentItem → ContentItem) (g : FunctionCallOutputContentItem → FunctionCallOutputContentItem) :
    ResponseItem → ResponseItem
  | .message id role content phase metadata => .message id role (content.map f) phase metadata
  | .functionCallOutput id callId output metadata =>
    .functionCallOutput id callId (mapContentItems g output) metadata
  | .customToolCallOutput id callId name output metadata =>
    .customToolCallOutput id callId name (mapContentItems g output) metadata
  | item => item

def omitImage : ContentItem → ContentItem
  | .inputImage _ _ => .inputText imageContentOmittedPlaceholder
  | item => item

def omitOutputImage : FunctionCallOutputContentItem → FunctionCallOutputContentItem
  | .inputImage _ _ => .inputText imageContentOmittedPlaceholder
  | item => item

def stripImages : ResponseItem → ResponseItem
  | .imageGenerationCall id status revisedPrompt _ metadata =>
    .imageGenerationCall id status revisedPrompt [] metadata
  | item => mapContent omitImage omitOutputImage item

def stripImagesWhenUnsupported (inputModalities : List InputModality) (items : List ResponseItem) :
    List ResponseItem :=
  if .image ∈ inputModalities then items else items.map stripImages

def omitAudio : ContentItem → ContentItem
  | .inputAudio _ => .inputText audioContentOmittedPlaceholder
  | item => item

def omitOutputAudio : FunctionCallOutputContentItem → FunctionCallOutputContentItem
  | .inputAudio _ => .inputText audioContentOmittedPlaceholder
  | item => item

def stripAudio : ResponseItem → ResponseItem := mapContent omitAudio omitOutputAudio

def stripAudioWhenUnsupported (inputModalities : List InputModality) (items : List ResponseItem) :
    List ResponseItem :=
  if .audio ∈ inputModalities then items else items.map stripAudio

def normalizeHistory (inputModalities : List InputModality) (items : List ResponseItem) : List ResponseItem :=
  stripAudioWhenUnsupported inputModalities (stripImagesWhenUnsupported inputModalities
    (removeOrphanOutputs (ensureCallOutputsPresent newV5 items)))

section Keys

/-- Function outputs answer function calls and local shell calls. -/
inductive CallKind where
  | function | toolSearch | customTool
  deriving DecidableEq

/-- What a call waits for. -/
def callKey : ResponseItem → Option (CallKind × Str)
  | .functionCall _ _ _ _ _ callId _ => some (.function, callId)
  | .localShellCall _ callId _ _ _ => callId.map (.function, ·)
  | .toolSearchCall _ callId _ _ _ _ => callId.map (.toolSearch, ·)
  | .customToolCall _ _ callId _ _ _ _ => some (.customTool, callId)
  | _ => none

/-- What an output answers. -/
def outputKey : ResponseItem → Option (CallKind × Str)
  | .functionCallOutput _ callId _ _ => some (.function, callId)
  | .toolSearchOutput _ callId _ _ _ _ => callId.map (.toolSearch, ·)
  | .customToolCallOutput _ callId _ _ _ => some (.customTool, callId)
  | _ => none

/-- The outputs that need a call: those of searches on the server do not. -/
def boundKey : ResponseItem → Option (CallKind × Str)
  | .toolSearchOutput _ callId _ execution _ _ =>
    if execution = "server".toList then none else callId.map (.toolSearch, ·)
  | item => outputKey item

def hasCall (items : List ResponseItem) (key : CallKind × Str) : Bool := items.any (callKey · == some key)

def hasOutput (items : List ResponseItem) (key : CallKind × Str) : Bool := items.any (outputKey · == some key)

theorem hasCall_iff : hasCall items key = true ↔ ∃ call ∈ items, callKey call = some key := by
  simp [hasCall]

theorem hasOutput_iff : hasOutput items key = true ↔ ∃ out ∈ items, outputKey out = some key := by
  simp [hasOutput]

/-- An item with the key is one that the loop over the items collects. -/
theorem any_key_eq {items : List ResponseItem} {keyOf : ResponseItem → Option (CallKind × Str)}
    {idOf : ResponseItem → Option Str} {key : CallKind × Str} {callId : Str}
    (h : ∀ item, keyOf item = some key ↔ idOf item = some callId) :
    items.any (keyOf · == some key) = decide (callId ∈ items.filterMap idOf) := by
  rw [Bool.eq_iff_iff, any_eq_true, decide_eq_true_iff, mem_filterMap]
  exact exists_congr fun item => and_congr_right fun _ => by rw [beq_iff_eq, h]

variable (items : List ResponseItem) (callId : Str)

theorem hasOutput_function : hasOutput items (.function, callId) = decide (callId ∈ functionOutputIds items) :=
  any_key_eq fun item => by cases item <;> simp [outputKey]

theorem hasOutput_toolSearch : hasOutput items (.toolSearch, callId) = decide (callId ∈ toolSearchOutputIds items) :=
  any_key_eq fun item => by cases item <;> simp [outputKey]

theorem hasOutput_customTool : hasOutput items (.customTool, callId) = decide (callId ∈ customToolOutputIds items) :=
  any_key_eq fun item => by cases item <;> simp [outputKey]

theorem hasCall_function : hasCall items (.function, callId) =
    (decide (callId ∈ functionCallIds items) || decide (callId ∈ localShellCallIds items)) := by
  rw [Bool.eq_iff_iff, hasCall_iff, Bool.or_eq_true, decide_eq_true_iff, decide_eq_true_iff, functionCallIds,
    localShellCallIds, mem_filterMap, mem_filterMap, ← exists_or]
  refine exists_congr fun item => ?_
  cases item <;> simp [callKey]

theorem hasCall_toolSearch : hasCall items (.toolSearch, callId) = decide (callId ∈ toolSearchCallIds items) :=
  any_key_eq fun item => by cases item <;> simp [callKey]

theorem hasCall_customTool : hasCall items (.customTool, callId) = decide (callId ∈ customToolCallIds items) :=
  any_key_eq fun item => by cases item <;> simp [callKey]

/-- The second pass drops the outputs that need a call and have none. -/
theorem hasMatch_eq (items : List ResponseItem) (item : ResponseItem) :
    hasMatch items item = (boundKey item).all (hasCall items) := by
  cases item with
  | functionCallOutput => simp [hasMatch, boundKey, outputKey, hasCall_function]
  | customToolCallOutput => simp [hasMatch, boundKey, outputKey, hasCall_customTool]
  | toolSearchOutput id callId status execution =>
    simp only [hasMatch, boundKey]
    split
    · rfl
    · cases callId with
      | none => rfl
      | some callId => simp [hasCall_toolSearch]
  | _ => rfl

end Keys

variable (newV5 : Str → Str)

/-- A synthetic output answers its call, for which there was no output. -/
structure Synthetic (items : List ResponseItem) (item out : ResponseItem) (key : CallKind × Str) : Prop where
  call : callKey item = some key
  missing : hasOutput items key = false
  output : outputKey out = some key
  bound : boundKey out = some key
  notCall : callKey out = none
  text : stripImages out = out ∧ stripAudio out = out

theorem missingOutput_synthetic (h : missingOutput newV5 items item = some out) :
    ∃ key, Synthetic items item out key := by
  cases item with
  | functionCall id name space arguments args callId md =>
    simp only [missingOutput] at h
    split at h
    · cases h
    · rename_i hn
      cases h
      exact ⟨_, rfl, by simpa [hasOutput_function] using hn, rfl, rfl, rfl, rfl, rfl⟩
  | customToolCall id status callId name space input md =>
    simp only [missingOutput] at h
    split at h
    · cases h
    · rename_i hn
      cases h
      exact ⟨_, rfl, by simpa [hasOutput_customTool] using hn, rfl, rfl, rfl, rfl, rfl⟩
  | localShellCall id callId status a md =>
    cases callId with
    | none => cases h
    | some callId =>
      simp only [missingOutput] at h
      split at h
      · cases h
      · rename_i hn
        cases h
        exact ⟨_, rfl, by simpa [hasOutput_function] using hn, rfl, rfl, rfl, rfl, rfl⟩
  | toolSearchCall id callId status execution arguments md =>
    cases callId with
    | none => cases h
    | some callId =>
      simp only [missingOutput] at h
      split at h
      · cases h
      · rename_i hn
        cases h
        exact ⟨_, rfl, by simpa [hasOutput_toolSearch] using hn, rfl, by simp [boundKey], rfl, rfl, rfl⟩
  | _ => cases h

/-- A call gets an output unless it has one. -/
theorem missingOutput_isSome (items : List ResponseItem) (h : callKey item = some key) :
    (missingOutput newV5 items item).isSome = !hasOutput items key := by
  cases item with
  | functionCall =>
    cases h
    simp only [missingOutput, hasOutput_function]
    split <;> simp_all
  | customToolCall =>
    cases h
    simp only [missingOutput, hasOutput_customTool]
    split <;> simp_all
  | localShellCall id callId =>
    cases callId with
    | none => cases h
    | some callId =>
      cases h
      simp only [missingOutput, hasOutput_function]
      split <;> simp_all
  | toolSearchCall id callId =>
    cases callId with
    | none => cases h
    | some callId =>
      cases h
      simp only [missingOutput, hasOutput_toolSearch]
      split <;> simp_all
  | _ => cases h

theorem insertIdx_append_length (pre items : List α) (new : α) (i : Nat) :
    (pre ++ items).insertIdx (pre.length + i) new = pre ++ items.insertIdx i new := by
  induction pre with
  | nil => simp
  | cons first pre ih =>
    rw [length_cons, show pre.length + 1 + i = pre.length + i + 1 by omega, cons_append,
      insertIdx_succ_cons, ih, cons_append]

/-- Inserting from the back puts each new element right behind its own. -/
theorem foldr_insertIdx (f : α → Option α) (before items : List α) :
    ((items.zipIdx before.length).filterMap fun e => (f e.1).map (e.2, ·)).foldr
        (fun e items => items.insertIdx (e.1 + 1) e.2) (before ++ items) =
      before ++ items.flatMap fun item => item :: (f item).toList := by
  induction items generalizing before with
  | nil => simp
  | cons item items ih =>
    have hr := ih (before ++ [item])
    rw [length_append, length_singleton, append_assoc, singleton_append] at hr
    rw [zipIdx_cons, filterMap_cons]
    cases hf : f item with
    | none =>
      simp only [Option.map_none]
      rw [hr]
      simp [hf]
    | some new =>
      simp only [Option.map_some]
      rw [foldr_cons, hr, append_assoc, insertIdx_append_length, singleton_append,
        insertIdx_succ_cons, insertIdx_zero]
      simp [hf]

theorem ensureCallOutputsPresent_eq :
    ensureCallOutputsPresent newV5 items =
      items.flatMap fun item => item :: (missingOutput newV5 items item).toList := by
  have h := foldr_insertIdx (missingOutput newV5 items) [] items
  rw [ensureCallOutputsPresent, foldl_reverse]
  exact h

/-- The calls are those of the history, as synthetic items are outputs. -/
theorem hasCall_ensureCallOutputsPresent : hasCall (ensureCallOutputsPresent newV5 items) = hasCall items := by
  funext key
  rw [Bool.eq_iff_iff, hasCall_iff, hasCall_iff, ensureCallOutputsPresent_eq]
  constructor
  · rintro ⟨call, hc, hk⟩
    obtain ⟨item, hi, hc⟩ := mem_flatMap.mp hc
    rcases mem_cons.mp hc with rfl | hc
    · exact ⟨call, hi, hk⟩
    · obtain ⟨_, hn⟩ := missingOutput_synthetic newV5 (Option.mem_toList.mp hc)
      rw [hn.notCall] at hk
      cases hk
  · rintro ⟨call, hc, hk⟩
    exact ⟨call, mem_flatMap.mpr ⟨call, hc, mem_cons_self⟩, hk⟩

theorem boundKey_of_callKey (h : callKey item = some key) : boundKey item = none := by
  cases item <;> first | rfl | cases h

theorem flatMap_filter (p : α → Bool) (f : α → List β) (items : List α) :
    (items.filter p).flatMap f = items.flatMap fun item => if p item then f item else [] := by
  induction items with
  | nil => rfl
  | cons item items ih =>
    rw [filter_cons, flatMap_cons, ← ih]
    split <;> simp

/-- An output that gets dropped is none of the synthetic ones, and a synthetic one stands behind a call, so
dropping may as well come first. -/
theorem removeOrphanOutputs_ensureCallOutputsPresent (items : List ResponseItem) :
    removeOrphanOutputs (ensureCallOutputsPresent newV5 items) =
      (items.filter (hasMatch items)).flatMap fun item => item :: (missingOutput newV5 items item).toList := by
  have hm : hasMatch (ensureCallOutputsPresent newV5 items) = hasMatch items := by
    funext item
    rw [hasMatch_eq, hasMatch_eq, hasCall_ensureCallOutputsPresent]
  rw [removeOrphanOutputs, hm, ensureCallOutputsPresent_eq, filter_flatMap, flatMap_filter]
  refine flatMap_congr fun item hitem => ?_
  cases hs : missingOutput newV5 items item with
  | none => cases hm : hasMatch items item <;> simp [hm]
  | some out =>
    obtain ⟨key, hn⟩ := missingOutput_synthetic newV5 hs
    have hi : hasMatch items item = true := by
      rw [hasMatch_eq, boundKey_of_callKey hn.call]
      rfl
    have ho : hasMatch items out = true := by
      rw [hasMatch_eq, hn.bound]
      exact hasCall_iff.mpr ⟨item, hitem, hn.call⟩
    simp [hi, ho]

/-- What the last two passes do to an item. -/
def strip (inputModalities : List InputModality) (item : ResponseItem) : ResponseItem :=
  let item := if .image ∈ inputModalities then item else stripImages item
  if .audio ∈ inputModalities then item else stripAudio item

theorem strip_passes :
    stripAudioWhenUnsupported inputModalities (stripImagesWhenUnsupported inputModalities items) =
      items.map (strip inputModalities) := by
  unfold stripAudioWhenUnsupported stripImagesWhenUnsupported strip
  split <;> split <;> simp

theorem mapContentItems_mapContentItems :
    mapContentItems f (mapContentItems g output) = mapContentItems (f ∘ g) output := by
  obtain ⟨body, success⟩ := output
  cases body <;> simp [mapContentItems]

/-- The item stands for the same call or output as before. -/
structure SameKeys (new item : ResponseItem) : Prop where
  call : callKey new = callKey item
  output : outputKey new = outputKey item
  bound : boundKey new = boundKey item

theorem stripImages_sameKeys (item : ResponseItem) : SameKeys (stripImages item) item := by
  cases item <;> exact ⟨rfl, rfl, rfl⟩

theorem stripAudio_sameKeys (item : ResponseItem) : SameKeys (stripAudio item) item := by
  cases item <;> exact ⟨rfl, rfl, rfl⟩

theorem strip_sameKeys (ms : List InputModality) (item : ResponseItem) : SameKeys (strip ms item) item := by
  have hi := stripImages_sameKeys item
  have ha := fun item => stripAudio_sameKeys item
  unfold strip
  split <;> split
  · exact ⟨rfl, rfl, rfl⟩
  · exact ha item
  · exact hi
  · have hb := ha (stripImages item)
    exact ⟨hb.call.trans hi.call, hb.output.trans hi.output, hb.bound.trans hi.bound⟩

theorem mapContent_mapContent (f f' : ContentItem → ContentItem)
    (g g' : FunctionCallOutputContentItem → FunctionCallOutputContentItem) (item : ResponseItem) :
    mapContent f g (mapContent f' g' item) = mapContent (f ∘ f') (g ∘ g') item := by
  cases item <;> simp [mapContent, mapContentItems_mapContentItems]

theorem omitImage_omitImage : omitImage ∘ omitImage = omitImage := by
  funext txt
  cases txt <;> rfl

theorem omitOutputImage_omitOutputImage : omitOutputImage ∘ omitOutputImage = omitOutputImage := by
  funext txt
  cases txt <;> rfl

theorem omitAudio_omitAudio : omitAudio ∘ omitAudio = omitAudio := by
  funext txt
  cases txt <;> rfl

theorem omitOutputAudio_omitOutputAudio : omitOutputAudio ∘ omitOutputAudio = omitOutputAudio := by
  funext txt
  cases txt <;> rfl

theorem omitImage_omitAudio : omitImage ∘ omitAudio = omitAudio ∘ omitImage := by
  funext txt
  cases txt <;> rfl

theorem omitOutputImage_omitOutputAudio : omitOutputImage ∘ omitOutputAudio = omitOutputAudio ∘ omitOutputImage := by
  funext txt
  cases txt <;> rfl

theorem stripImages_stripImages (item : ResponseItem) : stripImages (stripImages item) = stripImages item := by
  have hw := mapContent_mapContent omitImage omitImage omitOutputImage omitOutputImage item
  rw [omitImage_omitImage, omitOutputImage_omitOutputImage] at hw
  cases item <;> first | rfl | exact hw

theorem stripAudio_stripAudio : stripAudio (stripAudio item) = stripAudio item := by
  rw [stripAudio, mapContent_mapContent, omitAudio_omitAudio, omitOutputAudio_omitOutputAudio]

theorem stripImages_stripAudio (item : ResponseItem) :
    stripImages (stripAudio item) = stripAudio (stripImages item) := by
  have hw := mapContent_mapContent omitImage omitAudio omitOutputImage omitOutputAudio item
  rw [omitImage_omitAudio, omitOutputImage_omitOutputAudio, ← mapContent_mapContent] at hw
  cases item <;> first | rfl | exact hw

theorem strip_strip : strip inputModalities (strip inputModalities item) = strip inputModalities item := by
  unfold strip
  by_cases hi : .image ∈ inputModalities <;> by_cases ha : .audio ∈ inputModalities
  · simp only [if_pos hi, if_pos ha]
  · simp only [if_pos hi, if_neg ha, stripAudio_stripAudio]
  · simp only [if_neg hi, if_pos ha, stripImages_stripImages]
  · simp only [if_neg hi, if_neg ha, stripImages_stripAudio, stripImages_stripImages, stripAudio_stripAudio]

theorem Synthetic.strip (h : Synthetic items item out key) (ms : List InputModality) : strip ms out = out := by
  unfold Normalize.strip
  split <;> split <;> simp [h.text]

/-- Every call has an output, and every output that needs a call has one. -/
structure Paired (items : List ResponseItem) : Prop where
  answered : ∀ call ∈ items, ∀ key, callKey call = some key → hasOutput items key
  called : ∀ out ∈ items, ∀ key, boundKey out = some key → hasCall items key

theorem hasCall_strip : hasCall (items.map (strip inputModalities)) key = hasCall items key := by
  rw [hasCall, any_map, hasCall]
  simp [Function.comp_def, (strip_sameKeys _ _).call]

theorem hasOutput_strip : hasOutput (items.map (strip inputModalities)) key = hasOutput items key := by
  rw [hasOutput, any_map, hasOutput]
  simp [Function.comp_def, (strip_sameKeys _ _).output]

theorem Paired.strip (h : Paired items) (ms : List InputModality) : Paired (items.map (strip ms)) := by
  constructor
  · intro call hc key hk
    obtain ⟨item, hi, rfl⟩ := mem_map.mp hc
    rw [hasOutput_strip]
    exact h.answered item hi key ((strip_sameKeys _ item).call.symm.trans hk)
  · intro out ho key hk
    obtain ⟨item, hi, rfl⟩ := mem_map.mp ho
    rw [hasCall_strip]
    exact h.called item hi key ((strip_sameKeys _ item).bound.symm.trans hk)

/-- Both passes leave a paired history alone. -/
theorem Paired.passes (h : Paired items) : removeOrphanOutputs (ensureCallOutputsPresent newV5 items) = items := by
  rw [removeOrphanOutputs_ensureCallOutputsPresent]
  have hk : items.filter (hasMatch items) = items := by
    refine filter_eq_self.mpr fun item hi => ?_
    rw [hasMatch_eq]
    cases hkey : boundKey item with
    | none => rfl
    | some key => exact h.called item hi key hkey
  have hn : ∀ item ∈ items, missingOutput newV5 items item = none := by
    intro item hi
    cases hm : missingOutput newV5 items item with
    | none => rfl
    | some out =>
      obtain ⟨key, hnew⟩ := missingOutput_synthetic newV5 hm
      have ho := h.answered item hi key hnew.call
      rw [hnew.missing] at ho
      cases ho
  calc (items.filter (hasMatch items)).flatMap (fun item => item :: (missingOutput newV5 items item).toList)
      = items.flatMap (fun item => [item]) := by
        rw [hk]
        exact flatMap_congr fun item hi => by rw [hn item hi]; rfl
    _ = items := by simp

theorem boundKey_eq : boundKey item = none ∨ boundKey item = outputKey item := by
  cases item with
  | toolSearchOutput id callId status execution =>
    rw [boundKey]
    split
    · exact .inl rfl
    · exact .inr rfl
  | _ => exact .inr rfl

/-- An output is kept if its call is there. -/
theorem hasMatch_of_hasCall (hk : outputKey out = some key) (hc : hasCall items key = true) :
    hasMatch items out = true := by
  rw [hasMatch_eq]
  rcases boundKey_eq with hb | hb
  · rw [hb]
    rfl
  · rw [hb, hk]
    exact hc

theorem paired_passes (items : List ResponseItem) :
    Paired (removeOrphanOutputs (ensureCallOutputsPresent newV5 items)) := by
  rw [removeOrphanOutputs_ensureCallOutputsPresent]
  have hk : ∀ item ∈ items, hasMatch items item = true → ∀ out ∈ item :: (missingOutput newV5 items item).toList,
      out ∈ (items.filter (hasMatch items)).flatMap fun item => item :: (missingOutput newV5 items item).toList :=
    fun item hi hm out hout =>
      mem_flatMap.mpr ⟨item, mem_filter.mpr ⟨hi, hm⟩, hout⟩
  have hl : ∀ call ∈ items, ∀ key, callKey call = some key → hasMatch items call = true := by
    intro call _ key hkey
    rw [hasMatch_eq, boundKey_of_callKey hkey]
    rfl
  constructor
  · intro call hcall key hkey
    obtain ⟨item, hi, hcall⟩ := mem_flatMap.mp hcall
    obtain ⟨hi, hm⟩ := mem_filter.mp hi
    rcases mem_cons.mp hcall with rfl | hcall
    · cases hout : hasOutput items key with
      | true =>
        obtain ⟨out, hmem, ho⟩ := hasOutput_iff.mp hout
        have hu := hasMatch_of_hasCall ho (hasCall_iff.mpr ⟨call, hi, hkey⟩)
        exact hasOutput_iff.mpr ⟨out, hk out hmem hu out mem_cons_self, ho⟩
      | false =>
        have hsome := missingOutput_isSome newV5 items hkey
        rw [hout] at hsome
        obtain ⟨out, hg⟩ := Option.isSome_iff_exists.mp hsome
        obtain ⟨key', hn⟩ := missingOutput_synthetic newV5 hg
        have hs := hn.call.symm.trans hkey
        cases hs
        exact hasOutput_iff.mpr ⟨out, hk call hi hm out (by simp [hg]), hn.output⟩
    · obtain ⟨_, hn⟩ := missingOutput_synthetic newV5 (Option.mem_toList.mp hcall)
      rw [hn.notCall] at hkey
      cases hkey
  · intro out hout key hkey
    obtain ⟨item, hi, hout⟩ := mem_flatMap.mp hout
    obtain ⟨hi, hm⟩ := mem_filter.mp hi
    have hcall : ∃ call ∈ items, callKey call = some key := by
      rcases mem_cons.mp hout with rfl | hout
      · rw [hasMatch_eq, hkey] at hm
        exact hasCall_iff.mp hm
      · obtain ⟨key', hn⟩ := missingOutput_synthetic newV5 (Option.mem_toList.mp hout)
        have hs := hn.bound.symm.trans hkey
        cases hs
        exact ⟨item, hi, hn.call⟩
    obtain ⟨call, hmem, hc⟩ := hcall
    exact hasCall_iff.mpr ⟨call, hk call hmem (hl call hmem key hc) call mem_cons_self, hc⟩

/-- An output that needs a call and has none. -/
def isOrphan (items : List ResponseItem) (item : ResponseItem) : Bool :=
  (boundKey item).any fun key => !hasCall items key

theorem hasMatch_eq_not_isOrphan : hasMatch items = fun item => !isOrphan items item := by
  funext item
  rw [hasMatch_eq, isOrphan]
  cases boundKey item <;> simp

/-- Normalising a history pairs its calls with outputs: the orphans go, every other item stays in its place, each
call without an output has its synthetic one right behind it, and a second round changes nothing. -/
theorem normalizeHistory_pairs (inputModalities : List InputModality) (items : List ResponseItem) :
    let result := normalizeHistory newV5 inputModalities items
    (∀ call ∈ result, ∀ key, callKey call = some key → ∃ out ∈ result, outputKey out = some key) ∧
      (∀ out ∈ result, ∀ key, boundKey out = some key → ∃ call ∈ result, callKey call = some key) ∧
      result = (items.filter fun item => !isOrphan items item).flatMap (fun item =>
        strip inputModalities item :: (missingOutput newV5 items item).toList) ∧
      (∀ item out, missingOutput newV5 items item = some out → ∃ key, callKey item = some key ∧
        outputKey out = some key ∧ ∀ earlier ∈ items, outputKey earlier ≠ some key) ∧
      normalizeHistory newV5 inputModalities result = result := by
  intro result
  have hr : result = (removeOrphanOutputs (ensureCallOutputsPresent newV5 items)).map (strip inputModalities) :=
    strip_passes
  have hp : Paired result := by
    rw [hr]
    exact (paired_passes newV5 items).strip inputModalities
  refine ⟨fun call hc key hk => hasOutput_iff.mp (hp.answered call hc key hk),
    fun out ho key hk => hasCall_iff.mp (hp.called out ho key hk), ?_, ?_, ?_⟩
  · rw [hr, removeOrphanOutputs_ensureCallOutputsPresent, map_flatMap, hasMatch_eq_not_isOrphan]
    refine flatMap_congr fun item _ => ?_
    cases hm : missingOutput newV5 items item with
    | none => rfl
    | some out =>
      obtain ⟨_, hn⟩ := missingOutput_synthetic newV5 hm
      simp [hn.strip]
  · intro item out hm
    obtain ⟨key, hn⟩ := missingOutput_synthetic newV5 hm
    refine ⟨key, hn.call, hn.output, fun earlier he hk => ?_⟩
    have ho := hasOutput_iff.mpr ⟨earlier, he, hk⟩
    rw [hn.missing] at ho
    cases ho
  · calc normalizeHistory newV5 inputModalities result
        = (removeOrphanOutputs (ensureCallOutputsPresent newV5 result)).map (strip inputModalities) :=
          strip_passes
      _ = result.map (strip inputModalities) := by rw [hp.passes]
      _ = result := by
          rw [hr, map_map]
          exact map_congr_left fun item _ => strip_strip

section Removal

/-- The counterpart of an item that was taken out goes too: the first output with the key of a call, the first call
with the key of an output. For a function output, a function call comes before a local shell call. -/
def removeCorrespondingFor (items : List ResponseItem) (item : ResponseItem) : List ResponseItem :=
  match callKey item, outputKey item with
  | some key, _ => items.eraseP (outputKey · == some key)
  | none, some (.function, callId) =>
    if items.any (callId ∈ functionCallIds [·]) then items.eraseP (callId ∈ functionCallIds [·])
    else items.eraseP (callId ∈ localShellCallIds [·])
  | none, some key => items.eraseP (callKey · == some key)
  | none, none => items

def removeFirstItem : List ResponseItem → List ResponseItem
  | [] => []
  | removed :: items => removeCorrespondingFor items removed

/-- No call id stands on two calls or on two outputs. -/
structure Unique (items : List ResponseItem) : Prop where
  calls : ((items.filterMap callKey).map Prod.snd).Nodup
  outputs : ((items.filterMap outputKey).map Prod.snd).Nodup

variable (f g : ResponseItem → Option (CallKind × Str)) (item : ResponseItem) (items kept : List ResponseItem)

/-- Of the items with a key under `f`, just the partner of `item` is gone. -/
def Parted : Prop := ∀ key, kept.any (f · == some key) ↔ g item ≠ some key ∧ items.any (f · == some key)

structure Removed : Prop where
  sublist : kept <+ items
  calls : Parted callKey outputKey item items kept
  outputs : Parted outputKey callKey item items kept

variable {f g item items kept} {p : ResponseItem → Bool}

theorem not_any_of_nodup (h : (((item :: items).filterMap f).map Prod.snd).Nodup) (hk : f item = some key) :
    ¬ items.any (f · == some key) := by
  rw [filterMap_cons_some hk, map_cons, nodup_cons] at h
  intro ha
  obtain ⟨x, hx, hf⟩ := any_eq_true.mp ha
  exact h.1 (mem_map.mpr ⟨key, mem_filterMap.mpr ⟨x, hx, beq_iff_eq.mp hf⟩, rfl⟩)

theorem any_eraseP (hp : ∀ x, p x = true → f x ≠ some k) :
    (items.eraseP p).any (f · == some k) ↔ items.any (f · == some k) := by
  simp only [any_eq_true, beq_iff_eq]
  exact exists_congr fun x => and_congr_left fun hx => mem_eraseP_of_neg fun hpx => hp x hpx hx

/-- The only item with the key is the one that `eraseP` takes out. -/
theorem parted_eraseP (h : ((items.filterMap f).map Prod.snd).Nodup) (hg : g item = some key)
    (hp : ∀ x, p x = true → f x = some key) (hm : items.any (f · == some key) → items.any p) :
    Parted f g item items (items.eraseP p) := by
  intro k
  rw [hg]
  by_cases hk : key = k
  · subst hk
    refine iff_of_false (fun he => ?_) (by simp)
    obtain ⟨x, hx, hf⟩ := any_eq_true.mp he
    obtain ⟨y, hy, hpy⟩ := any_eq_true.mp (hm (any_eq_true.mpr ⟨x, mem_of_mem_eraseP hx, hf⟩))
    obtain ⟨a, pre, post, -, ha, rfl, hr⟩ := exists_of_eraseP hy hpy
    rw [hr] at he
    exact not_any_of_nodup (((perm_middle.filterMap f).map Prod.snd).nodup_iff.mp h) (hp a ha) he
  · rw [any_eraseP fun x hx hf => hk (Option.some.inj ((hp x hx).symm.trans hf))]
    simp [hk]

theorem parted_of_none (hg : g item = none) (hp : ∀ x, p x = true → f x = none) :
    Parted f g item items (items.eraseP p) := by
  intro k
  rw [any_eraseP (by simp +contextual [hp]), hg]
  simp

theorem Parted.any (hf : Parted f g item items kept) (hg : Parted g f item items kept)
    (hn : (((item :: items).filterMap f).map Prod.snd).Nodup) (hk : kept.any (f · == some key))
    (h : (item :: items).any (g · == some key)) : kept.any (g · == some key) := by
  obtain ⟨hne, ha⟩ := (hf key).mp hk
  rw [any_cons, beq_false_of_ne hne] at h
  exact (hg key).mpr ⟨fun hi => not_any_of_nodup hn hi ha, h⟩

theorem outputKey_of_call (h : callKey item = some key) : outputKey item = none := by
  cases item <;> first | rfl | cases h

theorem removed_call (h : Unique items) (hc : callKey item = none) (hk : outputKey item = some key)
    (hp : ∀ x, p x = true → callKey x = some key) (hm : hasCall items key → items.any p) :
    Removed item items (items.eraseP p) :=
  ⟨eraseP_sublist, parted_eraseP h.calls hk hp hm, parted_of_none hc fun x hx => outputKey_of_call (hp x hx)⟩

theorem removeCorrespondingFor_removed (h : Unique items) (item : ResponseItem) :
    Removed item items (removeCorrespondingFor items item) := by
  rw [removeCorrespondingFor]
  split
  next key hk =>
    refine ⟨eraseP_sublist, parted_of_none (outputKey_of_call hk) fun x hx => ?_,
      parted_eraseP h.outputs hk (fun x => beq_iff_eq.mp) id⟩
    cases hx' : callKey x with
    | none => rfl
    | some k =>
      rw [outputKey_of_call hx'] at hx
      cases hx
  next callId hc hk =>
    have hkey : ∀ x, callKey x = some (.function, callId) ↔
        callId ∈ functionCallIds [x] ∨ callId ∈ localShellCallIds [x] := fun x => by
      have hx := hasCall_function [x] callId
      rw [Bool.eq_iff_iff, hasCall_iff] at hx
      simpa using hx
    split
    next ha => exact removed_call h hc hk (fun x hx => (hkey x).mpr (.inl (by simpa using hx))) fun _ => ha
    next ha =>
      refine removed_call h hc hk (fun x hx => (hkey x).mpr (.inr (by simpa using hx))) fun hm => ?_
      obtain ⟨call, hcall, hf⟩ := hasCall_iff.mp hm
      refine any_eq_true.mpr ⟨call, hcall, ?_⟩
      simpa using ((hkey call).mp hf).resolve_left fun hf => ha (any_eq_true.mpr ⟨call, hcall, by simpa using hf⟩)
  next key hk hc => exact removed_call h ‹_› ‹_› (fun x => beq_iff_eq.mp) id
  next hc hk => exact ⟨Sublist.refl _, by simp [Parted, hk], by simp [Parted, hc]⟩

theorem Unique.sublist (h : Unique items) (hs : kept <+ items) : Unique kept :=
  ⟨h.calls.sublist ((hs.filterMap _).map _), h.outputs.sublist ((hs.filterMap _).map _)⟩

theorem removeFirstItem_paired (hu : Unique items) (h : Paired items) :
    Unique (removeFirstItem items) ∧ Paired (removeFirstItem items) := by
  cases items with
  | nil => exact ⟨hu, h⟩
  | cons item items =>
    have hr := removeCorrespondingFor_removed (hu.sublist (sublist_cons_self ..)) item
    have hs := hr.sublist.cons item
    refine ⟨hu.sublist hs, fun call hc key hk => ?_, fun out ho key hk => ?_⟩
    · exact hr.calls.any hr.outputs hu.calls (hasCall_iff.mpr ⟨call, hc, hk⟩) (h.answered call (hs.subset hc) key hk)
    · have hb : outputKey out = some key := by
        rcases boundKey_eq with hb | hb
        · rw [hb] at hk
          cases hk
        · rw [← hb, hk]
      exact hr.outputs.any hr.calls hu.outputs (hasOutput_iff.mpr ⟨out, ho, hb⟩) (h.called out (hs.subset ho) key hk)

/-- Dropping the oldest item any number of times leaves every call with its output and every output with its call. -/
theorem removeFirstItem_iterate (n : Nat) (items : List ResponseItem) (hu : Unique items) (h : Paired items) :
    Unique (removeFirstItem^[n] items) ∧ Paired (removeFirstItem^[n] items) := by
  induction n generalizing items with
  | zero => exact ⟨hu, h⟩
  | succ n ih =>
    obtain ⟨hu', h'⟩ := removeFirstItem_paired hu h
    exact ih _ hu' h'

theorem removeFirstItem_iterate_pair :
    let items : List ResponseItem := [.localShellCall none (some []) [] [] none, .functionCallOutput none [] aborted none]
    Unique (removeFirstItem^[1] items) ∧ Paired (removeFirstItem^[1] items) :=
  removeFirstItem_iterate 1 _ ⟨by decide, by decide⟩ ⟨by simp [callKey, hasOutput, outputKey], by
    simp [boundKey, outputKey, hasCall, callKey]⟩

end Removal

end Normalize
