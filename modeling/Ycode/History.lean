import Ycode.Transcript

/-!
# The conversation history

The history records the items that the model sees and takes whole instruction turns back off
its end. A rollback cuts the list in front of an instruction and then goes further back over the
context that was injected for it. Compactions without a replacement history rebuild the list from
the user messages in it.
-/
namespace History

open RustStr Transcript List

/-- The functions of other crates that the history calls: deserialising an inter-agent
communication, truncating a tool output under the session's policy, and the token estimates. -/
structure Host where
  isCommunication : Str → Bool
  truncatePayload : FunctionCallOutputPayload → FunctionCallOutputPayload
  approxTokenCount : Str → Nat
  truncateTokens : Str → Nat → Str

variable (H : Host)

def isApiMessage : ResponseItem → Bool
  | .message _ role _ _ _ => role != "system".toList
  | .compactionTrigger => false
  | .other => false
  | _ => true

def processItem : ResponseItem → ResponseItem
  | .functionCallOutput id callId output metadata =>
    .functionCallOutput id callId (H.truncatePayload output) metadata
  | .customToolCallOutput id callId name output metadata =>
    .customToolCallOutput id callId name (H.truncatePayload output) metadata
  | item => item

/-- What recording one item appends. -/
def recorded (item : ResponseItem) : List ResponseItem :=
  if isApiMessage item then [processItem H item] else []

def recordItems (items : List ResponseItem) (new : List ResponseItem) : List ResponseItem :=
  items ++ new.flatMap (recorded H)

abbrev isBoundary (item : ResponseItem) : Bool := isUserTurnBoundary H.isCommunication item

def userMessagePositions (items : List ResponseItem) : List Nat :=
  (items.zipIdx.filter fun entry => isBoundary H entry.1).map Prod.snd

/-- The cut moves back over injected context, but not past the first instruction. -/
def trimPreTurnContextUpdates (snapshot : List ResponseItem) (firstInstructionTurnIdx : Nat) : Nat → Nat
  | 0 => 0
  | cutIdx + 1 =>
    if firstInstructionTurnIdx < cutIdx + 1 ∧ (snapshot[cutIdx]?.any isContextual) = true then
      trimPreTurnContextUpdates snapshot firstInstructionTurnIdx cutIdx
    else cutIdx + 1

def dropLastNUserTurns (numTurns : Nat) (items : List ResponseItem) : List ResponseItem :=
  if numTurns = 0 then items
  else
    let userPositions := userMessagePositions H items
    match userPositions.head? with
    | none => items
    | some firstInstructionTurnIdx =>
      let cutIdx :=
        if numTurns ≥ userPositions.length then firstInstructionTurnIdx
        else userPositions.getD (userPositions.length - numTurns) 0
      items.take (trimPreTurnContextUpdates items firstInstructionTurnIdx cutIdx)

inductive UserInput where
  | text (text : Str)
  | image (imageUrl : Str) (detail : Option ImageDetail)
  | audio (audioUrl : Str)

def isOpenTagText (tag labelled text : Str) : Bool :=
  (stripPrefix text labelled).any (endsWith · ">".toList) || text == tag

def isImage : ContentItem → Bool
  | .inputImage .. => true
  | _ => false

def isAudio : ContentItem → Bool
  | .inputAudio .. => true
  | _ => false

/-- A text that only labels the image in front of it or behind it. -/
def isImageLabel (before after : Option ContentItem) (text : Str) : Bool :=
  (isOpenTagText "<image>".toList "<image name=".toList text && after.any isImage) ||
    (text == "</image>".toList && before.any isImage)

def isAudioLabel (before after : Option ContentItem) (text : Str) : Bool :=
  (isOpenTagText "<audio>".toList "<audio name=".toList text && after.any isAudio) ||
    (text == "</audio>".toList && before.any isAudio)

def userInputs (before : Option ContentItem) : List ContentItem → List UserInput
  | [] => []
  | item :: rest =>
    let here := match item with
      | .inputText text =>
        if isImageLabel before rest.head? text || isAudioLabel before rest.head? text then []
        else [.text text]
      | .inputImage imageUrl detail => [.image imageUrl detail]
      | .inputAudio audioUrl => [.audio audioUrl]
      | .outputText _ => []
    here ++ userInputs (some item) rest

def parseUserMessage (message : List ContentItem) : Option (List UserInput) :=
  if isContextualUserMessageContent message then none else some (userInputs none message)

/-- `UserMessageItem::message` -/
def messageText (content : List UserInput) : Str :=
  content.flatMap fun
    | .text text => text
    | _ => []

structure CompactedUserMessage where
  message : Str
  metadata : Option Passthrough

def summaryPrefix : Str :=
  ("Another language model started to solve this problem and produced a summary of its thinking " ++
    "process. You also have access to the state of the tools that were used by that language " ++
    "model. Use this to build on the work that has already been done and avoid duplicating work. " ++
    "Here is the summary produced by the other language model, use the information in this " ++
    "summary to assist with your own analysis:").toList

def isSummaryMessage (message : Str) : Bool := startsWith message (summaryPrefix ++ ['\n'])

def collectUserMessages (items : List ResponseItem) : List CompactedUserMessage :=
  items.filterMap fun
    | .message _ role content _ metadata =>
      if role = "user".toList then
        (parseUserMessage content).bind fun user =>
          if isSummaryMessage (messageText user) then none
          else some ⟨messageText user, metadata⟩
      else none
    | _ => none

/-- The newest messages that fit the budget, newest first; the last one may be truncated. -/
def selectMessages : Nat → List CompactedUserMessage → List CompactedUserMessage
  | _, [] => []
  | remaining, message :: older =>
    if remaining = 0 then []
    else if H.approxTokenCount message.message ≤ remaining then
      message :: selectMessages (remaining - H.approxTokenCount message.message) older
    else [{ message with message := H.truncateTokens message.message remaining }]

def userTextMessage (text : Str) (metadata : Option Passthrough) : ResponseItem :=
  .message none "user".toList [.inputText text] none metadata

def buildCompactedHistoryWithLimit (history : List ResponseItem) (userMessages : List CompactedUserMessage)
    (summaryText : Str) (maxTokens : Nat) : List ResponseItem :=
  let selected := (selectMessages H maxTokens userMessages.reverse).reverse
  let summary := if summaryText = [] then "(no summary available)".toList else summaryText
  history ++ selected.map (fun m => userTextMessage m.message m.metadata) ++ [userTextMessage summary none]

def buildCompactedHistory (initialContext : List ResponseItem) (userMessages : List CompactedUserMessage)
    (summaryText : Str) : List ResponseItem :=
  buildCompactedHistoryWithLimit H initialContext userMessages summaryText 20000

/-- The `j`-th recorded position has exactly `j` hits in front of it. -/
theorem positions_split (p : α → Bool) (xs : List α) (k j i : Nat)
    (h : (((xs.zipIdx k).filter fun e => p e.1).map Prod.snd)[j]? = some i) :
    ∃ before b post, xs = before ++ b :: post ∧ i = k + before.length ∧ p b = true ∧ before.countP p = j := by
  induction xs generalizing k j with
  | nil => simp at h
  | cons x xs ih =>
    rw [zipIdx_cons] at h
    by_cases hx : p x = true
    · rw [filter_cons_of_pos (by exact hx), map_cons] at h
      cases j with
      | zero => exact ⟨[], x, xs, rfl, by simpa using h.symm, hx, rfl⟩
      | succ j =>
        obtain ⟨before, b, post, rfl, hi, hb, hj⟩ := ih (k + 1) j (by simpa using h)
        refine ⟨x :: before, b, post, rfl, ?_, hb, ?_⟩
        · rw [hi, length_cons]; omega
        · rw [countP_cons_of_pos hx, hj]
    · rw [filter_cons_of_neg (by exact hx)] at h
      obtain ⟨before, b, post, rfl, hi, hb, hj⟩ := ih (k + 1) j h
      refine ⟨x :: before, b, post, rfl, ?_, hb, ?_⟩
      · rw [hi, length_cons]; omega
      · rw [countP_cons_of_neg hx, hj]

theorem length_userMessagePositions (xs : List ResponseItem) :
    (userMessagePositions H xs).length = xs.countP (isBoundary H) := by
  rw [userMessagePositions, length_map, ← countP_eq_length_filter]
  conv_rhs => rw [← zipIdx_map_fst 0 xs, countP_map]
  rfl

/-- Behind the trimmed cut stands only injected context. -/
theorem take_trim (snapshot : List ResponseItem) (first cut : Nat) :
    ∃ ctx, snapshot.take cut = snapshot.take (trimPreTurnContextUpdates snapshot first cut) ++ ctx ∧
      ∀ item ∈ ctx, isContextual item = true := by
  induction cut with
  | zero => exact ⟨[], by simp [trimPreTurnContextUpdates]⟩
  | succ cut ih =>
    rw [trimPreTurnContextUpdates]
    by_cases hc : first < cut + 1 ∧ (snapshot[cut]?.any isContextual) = true
    · rw [if_pos hc]
      obtain ⟨ctx, ht, ho⟩ := ih
      obtain ⟨item, hi, hctx⟩ := (Option.any_eq_true _ _).mp hc.2
      refine ⟨ctx ++ [item], ?_, ?_⟩
      · rw [take_add_one, hi, ht, append_assoc]; rfl
      · intro x hx
        cases mem_append.mp hx with
        | inl hx => exact ho x hx
        | inr hx => rw [mem_singleton.mp hx]; exact hctx
    · rw [if_neg hc]
      exact ⟨[], by simp, by simp⟩

/-- How a rollback leaves the history: untouched when there is nothing to drop, or cut in front of
an instruction and of the context injected for it. -/
inductive Dropped (numTurns : Nat) (items : List ResponseItem) : List ResponseItem → Prop
  | untouched (h : numTurns = 0 ∨ items.countP (isBoundary H) = 0) : Dropped numTurns items items
  | cut (kept context rest : List ResponseItem) (b : ResponseItem)
      (hitems : items = kept ++ context ++ b :: rest) (hb : isBoundary H b = true)
      (hcontext : ∀ item ∈ context, isContextual item = true)
      (hcount : (kept ++ context).countP (isBoundary H) = items.countP (isBoundary H) - numTurns) :
      Dropped numTurns items kept

/-- A rollback cuts in front of the boundary with the right number of boundaries before it. -/
theorem dropLastNUserTurns_cons (hn : numTurns ≠ 0) (hp : userMessagePositions H items = first :: positions) :
    ∃ cut, (first :: positions)[(first :: positions).length - numTurns]? = some cut ∧
      dropLastNUserTurns H numTurns items = items.take (trimPreTurnContextUpdates items first cut) := by
  rw [dropLastNUserTurns, if_neg hn, hp]
  by_cases hg : numTurns ≥ (first :: positions).length
  · exact ⟨first, by rw [Nat.sub_eq_zero_of_le hg]; rfl, by simp only [head?_cons, if_pos hg]⟩
  · have hlt : (first :: positions).length - numTurns < (first :: positions).length := by
      simp only [length_cons] at hg ⊢; omega
    refine ⟨_, getElem?_eq_getElem hlt, ?_⟩
    simp only [head?_cons, if_neg hg, getD_eq_getElem?_getD, getElem?_eq_getElem hlt, Option.getD_some]

theorem dropLastNUserTurns_nil (hp : userMessagePositions H items = []) :
    dropLastNUserTurns H numTurns items = items := by
  rw [dropLastNUserTurns, hp]
  exact ite_self items

theorem dropLastNUserTurns_spec (n : Nat) (xs : List ResponseItem) : Dropped H n xs (dropLastNUserTurns H n xs) := by
  by_cases hn : n = 0
  · rw [dropLastNUserTurns, if_pos hn]
    exact .untouched (.inl hn)
  have hl := length_userMessagePositions H xs
  cases hp : userMessagePositions H xs with
  | nil =>
    rw [dropLastNUserTurns_nil H hp]
    exact .untouched (.inr (by rw [← hl, hp]; rfl))
  | cons first positions =>
    obtain ⟨i, hg, he⟩ := dropLastNUserTurns_cons H hn hp
    rw [← hp, hl] at hg
    obtain ⟨before, b, post, hi, hf, hb, hcount⟩ := positions_split _ xs 0 _ i hg
    obtain ⟨ctx, ht, hc⟩ := take_trim xs first i
    have hk : xs.take i = before := by rw [hi, hf]; simp
    rw [hk] at ht
    rw [he]
    refine .cut _ ctx post b ?_ hb hc ?_
    · rw [← ht]; exact hi
    · rw [← ht, hcount]

theorem dropLastNUserTurns_isPrefix (n : Nat) (items : List ResponseItem) :
    dropLastNUserTurns H n items <+: items := by
  have hs := dropLastNUserTurns_spec H n items
  generalize dropLastNUserTurns H n items = kept at hs
  cases hs with
  | untouched h => exact prefix_rfl
  | cut _ ctx rest b hi hb hc hcount =>
    rw [hi, append_assoc]
    exact prefix_append ..

theorem countP_context {context : List ResponseItem} (h : ∀ item ∈ context, isContextual item = true) :
    context.countP (isBoundary H) = 0 := by
  rw [countP_eq_zero]
  intro item hi
  rw [isBoundary, not_boundary_of_contextual (h item hi)]
  exact Bool.false_ne_true

/-- A rollback by `n` takes `n` boundaries off the end. -/
theorem countP_dropLastNUserTurns (numTurns : Nat) (xs : List ResponseItem) :
    (dropLastNUserTurns H numTurns xs).countP (isBoundary H) = xs.countP (isBoundary H) - numTurns := by
  have hs := dropLastNUserTurns_spec H numTurns xs
  generalize dropLastNUserTurns H numTurns xs = kept at hs
  cases hs with
  | untouched h => cases h with
    | inl h => rw [h, Nat.sub_zero]
    | inr h => rw [h, Nat.zero_sub]
  | cut _ ctx rest b hi hb hc hcount =>
    rw [← hcount, countP_append, countP_context H hc, Nat.add_zero]

/-- Two cuts in front of a boundary with equally many boundaries before them are the same cut. -/
theorem cut_unique (h : s ++ a :: u = t ++ b :: v) (ha : p a = true) (hb : p b = true)
    (hc : s.countP p = t.countP p) : s = t := by
  cases append_eq_append_iff.mp h with
  | inl h =>
    obtain ⟨w, ht, hw⟩ := h
    cases w with
    | nil => rw [ht, append_nil]
    | cons c w =>
      obtain ⟨rfl, -⟩ := List.cons.inj hw
      rw [ht, countP_append, countP_cons_of_pos ha] at hc
      omega
  | inr h =>
    obtain ⟨w, hs, hw⟩ := h
    cases w with
    | nil => rw [hs, append_nil]
    | cons c w =>
      obtain ⟨rfl, -⟩ := List.cons.inj hw
      rw [hs, countP_append, countP_cons_of_pos hb] at hc
      omega

/-- Taking back the last instruction leaves, up to injected context, what stands in front of it. -/
theorem filter_dropLast_one (items rest : List ResponseItem) (b : ResponseItem)
    (hb : isBoundary H b = true) (hr : rest.countP (isBoundary H) = 0) :
    (dropLastNUserTurns H 1 (items ++ b :: rest)).filter (! isContextual ·) = items.filter (! isContextual ·) := by
  have hc : (items ++ b :: rest).countP (isBoundary H) = items.countP (isBoundary H) + 1 := by
    rw [countP_append, countP_cons_of_pos hb, hr]
  have hs := dropLastNUserTurns_spec H 1 (items ++ b :: rest)
  generalize dropLastNUserTurns H 1 (items ++ b :: rest) = kept at hs
  cases hs with
  | untouched h => omega
  | cut _ ctx rest' b' hitems hb' hcontext hk =>
    have hsame := cut_unique hitems hb hb' (by rw [hk, hc]; omega)
    have hn : ctx.filter (! isContextual ·) = [] := by
      rw [filter_eq_nil_iff]
      intro item hi
      simp [hcontext item hi]
    rw [hsame, filter_append, hn, append_nil]

theorem userMessagePositions_sublist (xs : List ResponseItem) : userMessagePositions H xs <+ range' 0 xs.length := by
  rw [userMessagePositions, ← zipIdx_map_snd 0 xs]
  exact filter_sublist.map Prod.snd

/-- The boundaries of a prefix are the first boundaries of the whole history. -/
theorem userMessagePositions_prefix (h : kept <+: items) :
    userMessagePositions H kept = (userMessagePositions H items).take (kept.countP (isBoundary H)) := by
  obtain ⟨rest, rfl⟩ := h
  rw [← length_userMessagePositions]
  simp only [userMessagePositions, zipIdx_append, filter_append, map_append]
  rw [take_left]

/-- Trimming reads only the items in front of the cut. -/
theorem trim_take (xs : List ResponseItem) (first : Nat) (h : cut ≤ n) :
    trimPreTurnContextUpdates (xs.take n) first cut = trimPreTurnContextUpdates xs first cut := by
  induction cut with
  | zero => rfl
  | succ cut ih =>
    rw [trimPreTurnContextUpdates, trimPreTurnContextUpdates, getElem?_take_of_lt (by omega), ih (by omega)]

theorem trim_bounds (xs : List ResponseItem) (first cut : Nat) :
    trimPreTurnContextUpdates xs first cut ≤ cut ∧
      (first ≤ cut → first ≤ trimPreTurnContextUpdates xs first cut) := by
  induction cut with
  | zero => exact ⟨le_rfl, id⟩
  | succ cut ih =>
    rw [trimPreTurnContextUpdates]
    split
    · exact ⟨by omega, fun _ => ih.2 (by omega)⟩
    · exact ⟨le_rfl, id⟩

/-- The context that the first rollback trims stands behind every cut of the second. -/
theorem dropLastNUserTurns_add (n m : Nat) (items : List ResponseItem) :
    dropLastNUserTurns H m (dropLastNUserTurns H n items) = dropLastNUserTurns H (n + m) items := by
  by_cases hn : n = 0
  · subst hn
    rw [Nat.zero_add]
    rfl
  by_cases hm : m = 0
  · subst hm
    rfl
  cases hp : userMessagePositions H items with
  | nil => simp only [dropLastNUserTurns_nil H hp]
  | cons first positions =>
    have hcut := dropLastNUserTurns_isPrefix H n items
    have hk := userMessagePositions_prefix H hcut
    rw [countP_dropLastNUserTurns, ← length_userMessagePositions, hp] at hk
    obtain ⟨cut, hg, he⟩ := dropLastNUserTurns_cons H (show n + m ≠ 0 by omega) hp
    rw [he]
    by_cases hge : (first :: positions).length ≤ n
    · obtain ⟨cut', hg', he'⟩ := dropLastNUserTurns_cons H hn hp
      rw [Nat.sub_eq_zero_of_le hge] at hk hg'
      rw [Nat.sub_eq_zero_of_le (by omega), hg'] at hg
      cases hg
      rw [dropLastNUserTurns_nil H hk, he']
    · obtain ⟨j, hj⟩ : ∃ j, (first :: positions).length - n = j + 1 := ⟨_, (Nat.succ_pred (by omega)).symm⟩
      rw [hj, take_succ_cons] at hk
      obtain ⟨cut', hg', he'⟩ := dropLastNUserTurns_cons H hm hk
      have hl : (first :: positions.take j).length = j + 1 := by
        simp only [length_cons, length_take] at hj ⊢
        omega
      have hmem : cut' ∈ userMessagePositions H (dropLastNUserTurns H n items) := by
        rw [hk]
        exact mem_of_getElem? hg'
      have hlt := mem_range'_1.mp ((userMessagePositions_sublist H _).subset hmem)
      rw [hl, ← take_succ_cons, getElem?_take_of_lt (by omega), ← hj, Nat.sub_sub, hg] at hg'
      cases hg'
      rw [he', prefix_iff_eq_take.mp hcut, trim_take _ _ (by omega), take_take, Nat.min_eq_left]
      have := (trim_bounds items first cut).1
      omega

theorem takeWhile_prefix_dropLastNUserTurns (n : Nat) (items : List ResponseItem) :
    items.takeWhile (! isBoundary H ·) <+: dropLastNUserTurns H n items := by
  by_cases hn : n = 0
  · rw [dropLastNUserTurns, if_pos hn]
    exact takeWhile_prefix _
  cases hp : userMessagePositions H items with
  | nil =>
    rw [dropLastNUserTurns_nil H hp]
    exact takeWhile_prefix _
  | cons first positions =>
    obtain ⟨cut, hg, he⟩ := dropLastNUserTurns_cons H hn hp
    have hle : first ≤ cut := by
      have hs := pairwise_le_range'.sublist (userMessagePositions_sublist H items)
      rw [hp] at hs
      rcases mem_cons.mp (mem_of_getElem? hg) with rfl | hm
      · exact le_rfl
      · exact rel_of_pairwise_cons hs hm
    obtain ⟨pre, b, post, hi, hf, hb, hc⟩ :=
      positions_split (isBoundary H) items 0 0 first (by rw [← userMessagePositions, hp]; rfl)
    have ht : items.takeWhile (! isBoundary H ·) = items.take first := by
      rw [hi, takeWhile_append_of_pos (by simpa [countP_eq_zero] using hc), takeWhile_cons_of_neg (by simp [hb]),
        hf, Nat.zero_add, take_left, append_nil]
    rw [he, ht]
    exact take_prefix_take_left ((trim_bounds items first cut).2 hle)

/-- Rollbacks compose: the second cuts where one rollback by the sum would, a prefix stays that has lost the
last `n + m` boundaries, and nothing in front of the first boundary goes. -/
theorem dropLastNUserTurns_composes (n m : Nat) (items : List ResponseItem) :
    let kept := dropLastNUserTurns H m (dropLastNUserTurns H n items)
    kept = dropLastNUserTurns H (n + m) items ∧ kept <+: items ∧
      kept.countP (isBoundary H) = items.countP (isBoundary H) - n - m ∧
      items.takeWhile (! isBoundary H ·) <+: kept := by
  intro kept
  have he : kept = dropLastNUserTurns H (n + m) items := dropLastNUserTurns_add H n m items
  rw [he, countP_dropLastNUserTurns, Nat.sub_sub]
  exact ⟨rfl, dropLastNUserTurns_isPrefix H _ items, rfl, takeWhile_prefix_dropLastNUserTurns H _ items⟩

end History
