import Ycode.RustStr

/-!
# The head and tail of an output

A buffer of fixed capacity keeps the first half of its budget from the front of the output and the rest from
the end; what falls between is only counted. How the output was cut into chunks does not show.
-/
namespace OutputBuffer

open List RustStr

variable {α : Type}

theorem length_rtake (xs : List α) (n : Nat) : (xs.rtake n).length = min n xs.length := by
  rw [List.rtake, length_drop]
  omega

theorem rtake_of_length_le {items : List α} (h : items.length ≤ n) : items.rtake n = items := by
  rw [List.rtake, Nat.sub_eq_zero_of_le h, drop_zero]

theorem rtake_append_of_le (h : n ≤ later.length) (xs : List α) : (xs ++ later).rtake n = later.rtake n := by
  rw [List.rtake, List.rtake, length_append, Nat.add_sub_assoc h, drop_length_add_append]

theorem rtake_min_length (xs : List α) (n : Nat) : xs.rtake (min xs.length n) = xs.rtake n := by
  by_cases hle : xs.length ≤ n
  · rw [Nat.min_eq_left hle, rtake_of_length_le (Nat.le_refl _), rtake_of_length_le hle]
  · rw [Nat.min_eq_right (by omega)]

/-- What was cut off at the front earlier would be cut off now as well. -/
theorem rtake_rtake_append (xs later : List α) (n : Nat) : (xs.rtake n ++ later).rtake n = (xs ++ later).rtake n := by
  by_cases hle : xs.length ≤ n
  · rw [rtake_of_length_le hle]
  · have hs : xs ++ later = xs.take (xs.length - n) ++ (xs.rtake n ++ later) := by
      rw [← append_assoc, List.rtake, take_append_drop]
    have hl : n ≤ (xs.rtake n ++ later).length := by
      rw [length_append, length_rtake]
      omega
    rw [hs, rtake_append_of_le hl]

@[ext]
structure HeadTailBuffer where
  maxBytes : Nat
  headBudget : Nat
  tailBudget : Nat
  head : List UInt8
  tail : List UInt8
  omittedBytes : Nat
  deriving DecidableEq

def new (maxBytes : Nat) : HeadTailBuffer :=
  let headBudget := maxBytes / 2
  { maxBytes, headBudget, tailBudget := maxBytes - headBudget, head := [], tail := [], omittedBytes := 0 }

def trimTailToBudget (buffer : HeadTailBuffer) : HeadTailBuffer :=
  let excess := buffer.tail.length - buffer.tailBudget
  if excess > 0 then
    { buffer with tail := buffer.tail.drop excess, omittedBytes := saturatingAdd buffer.omittedBytes excess }
  else buffer

def pushToTail (buffer : HeadTailBuffer) (chunk : List UInt8) : HeadTailBuffer :=
  if chunk = [] then buffer
  else if buffer.tailBudget = 0 then
    { buffer with omittedBytes := saturatingAdd buffer.omittedBytes chunk.length }
  else if chunk.length ≥ buffer.tailBudget then
    -- the chunk alone fills the tail
    let kept := chunk.drop (chunk.length - buffer.tailBudget)
    let dropped := chunk.length - kept.length
    { buffer with
      omittedBytes := saturatingAdd (saturatingAdd buffer.omittedBytes buffer.tail.length) dropped
      tail := kept }
  else trimTailToBudget { buffer with tail := buffer.tail ++ chunk }

def pushChunk (buffer : HeadTailBuffer) (chunk : List UInt8) : HeadTailBuffer :=
  if chunk = [] then buffer
  else if buffer.maxBytes = 0 then
    { buffer with omittedBytes := saturatingAdd buffer.omittedBytes chunk.length }
  else
    let remainingHead := buffer.headBudget - buffer.head.length
    let headLen := min remainingHead chunk.length
    pushToTail { buffer with head := buffer.head ++ chunk.take headLen } (chunk.drop headLen)

/-- The drained buffer, and what is left in its place. -/
def drain (buffer : HeadTailBuffer) : HeadTailBuffer × HeadTailBuffer :=
  (buffer, { buffer with head := [], tail := [], omittedBytes := 0 })

def pushBuffer (buffer other : HeadTailBuffer) : HeadTailBuffer :=
  let pushed := pushChunk (pushChunk buffer other.head) other.tail
  { pushed with omittedBytes := saturatingAdd pushed.omittedBytes other.omittedBytes }

def pushChunks (buffer : HeadTailBuffer) (chunks : List (List UInt8)) : HeadTailBuffer := chunks.foldl pushChunk buffer

/-- What a buffer of the given capacity is to keep of a whole output. -/
def summary (maxBytes : Nat) (output : List UInt8) : HeadTailBuffer :=
  let headBudget := maxBytes / 2
  let tailBudget := maxBytes - headBudget
  let rest := output.drop headBudget
  { maxBytes, headBudget, tailBudget
    head := output.take headBudget
    tail := rest.rtake tailBudget
    omittedBytes := rest.length - tailBudget }

theorem summary_nil : summary maxBytes [] = new maxBytes := by
  simp [summary, new, List.rtake]

theorem summary_omittedBytes : (summary maxBytes output).omittedBytes = output.length - maxBytes := by
  simp only [summary, length_drop]
  omega

theorem summary_parts :
    (summary maxBytes output).head = output.take (min output.length (maxBytes / 2)) ∧
    (summary maxBytes output).tail = (output.drop (summary maxBytes output).head.length).rtake
      (min (output.length - (summary maxBytes output).head.length) (maxBytes - maxBytes / 2)) ∧
    (summary maxBytes output).omittedBytes =
      output.length - (summary maxBytes output).head.length - (summary maxBytes output).tail.length := by
  have hh : (summary maxBytes output).head.length = min (maxBytes / 2) output.length := length_take
  have ht : (summary maxBytes output).tail.length = min (maxBytes - maxBytes / 2) (output.length - maxBytes / 2) := by
    rw [← length_drop, ← length_rtake]
    rfl
  refine ⟨?_, ?_, ?_⟩
  · rw [Nat.min_comm, ← take_eq_take_min]
    rfl
  · have hr : output.length - min (maxBytes / 2) output.length = (output.drop (maxBytes / 2)).length := by
      rw [length_drop]
      omega
    rw [hh, ← drop_eq_drop_min, hr, rtake_min_length]
    rfl
  · rw [hh, ht, summary_omittedBytes]
    omega

theorem trimTailToBudget_eq (buffer : HeadTailBuffer) {omitted : Nat}
    (ho : buffer.omittedBytes + (buffer.tail.length - buffer.tailBudget) = omitted) (hle : omitted ≤ usizeMax) :
    trimTailToBudget buffer =
      { buffer with tail := buffer.tail.rtake buffer.tailBudget, omittedBytes := omitted } := by
  subst ho
  rw [trimTailToBudget]
  split
  · rw [saturatingAdd_eq hle]
    rfl
  · rename_i hf
    rw [rtake_of_length_le (by omega), Nat.eq_zero_of_not_pos hf]
    rfl

/-- If the tail holds the end of what came after the head, it still does when more comes. -/
theorem pushToTail_eq (ht : buffer.tail = rest.rtake buffer.tailBudget)
    (ho : buffer.omittedBytes = rest.length - buffer.tailBudget) (c : List UInt8)
    (hle : (rest ++ c).length ≤ usizeMax) :
    pushToTail buffer c =
      { buffer with
        tail := (rest ++ c).rtake buffer.tailBudget
        omittedBytes := (rest ++ c).length - buffer.tailBudget } := by
  rw [length_append] at hle
  have hlength : buffer.tail.length = min buffer.tailBudget rest.length := by rw [ht, length_rtake]
  rw [pushToTail]
  by_cases hn : c = []
  · rw [if_pos hn, hn, append_nil, ← ht, ← ho]
  rw [if_neg hn]
  by_cases hz : buffer.tailBudget = 0
  · rw [if_pos hz, saturatingAdd_eq (by omega), ho, ht, hz, length_append]
    simp [List.rtake]
  rw [if_neg hz]
  by_cases hl : c.length ≥ buffer.tailBudget
  · have hk : (c.drop (c.length - buffer.tailBudget)).length = buffer.tailBudget := by
      rw [length_drop]
      omega
    have hb : saturatingAdd buffer.omittedBytes buffer.tail.length = rest.length := by
      rw [saturatingAdd_eq (by omega)]
      omega
    rw [if_pos hl]
    simp only
    rw [hk, hb, saturatingAdd_eq (by omega), rtake_append_of_le hl, length_append, Nat.add_sub_assoc hl]
    rfl
  · have hc : buffer.omittedBytes + ((buffer.tail ++ c).length - buffer.tailBudget) =
        (rest ++ c).length - buffer.tailBudget := by
      rw [length_append, length_append]
      omega
    have htrim := trimTailToBudget_eq { buffer with tail := buffer.tail ++ c } hc
      (by rw [length_append]; omega)
    rw [if_neg hl, htrim, ht, rtake_rtake_append]

/-- The room left in the head is filled from the front of the chunk. -/
theorem take_append_min (items later : List α) (n : Nat) :
    items.take n ++ later.take (min (n - (items.take n).length) later.length) = (items ++ later).take n ∧
      items.drop n ++ later.drop (min (n - (items.take n).length) later.length) = (items ++ later).drop n := by
  have hr : n - (items.take n).length = n - items.length := by
    rw [length_take]
    omega
  rw [hr, take_append, drop_append, ← take_eq_take_min, ← drop_eq_drop_min]
  exact ⟨rfl, rfl⟩

/-- Pushing a chunk is the summary of the longer output. -/
theorem pushChunk_summary (hle : (output ++ chunk).length ≤ usizeMax) :
    pushChunk (summary maxBytes output) chunk = summary maxBytes (output ++ chunk) := by
  by_cases hn : chunk = []
  · rw [pushChunk, if_pos hn, hn, append_nil]
  by_cases hz : maxBytes = 0
  · subst hz
    rw [length_append] at hle
    rw [pushChunk, if_neg hn, if_pos (show (summary 0 output).maxBytes = 0 from rfl)]
    simp [summary, saturatingAdd_eq hle, List.rtake]
  · obtain ⟨ht, hd⟩ := take_append_min output chunk (maxBytes / 2)
    have hp : pushChunk (summary maxBytes output) chunk = pushToTail
        { summary maxBytes output with head := (output ++ chunk).take (maxBytes / 2) }
        (chunk.drop (min (maxBytes / 2 - (output.take (maxBytes / 2)).length) chunk.length)) := by
      rw [pushChunk, if_neg hn, if_neg (show (summary maxBytes output).maxBytes ≠ 0 from hz), ← ht]
      rfl
    rw [hp, pushToTail_eq rfl rfl, hd]
    · rfl
    · rw [hd, length_drop]
      omega

/-- A buffer that omitted nothing holds the whole output. -/
theorem summary_whole (h : output.length ≤ maxBytes) :
    (summary maxBytes output).head ++ (summary maxBytes output).tail = output ∧
      (summary maxBytes output).omittedBytes = 0 := by
  have hr : (output.drop (maxBytes / 2)).length ≤ maxBytes - maxBytes / 2 := by
    rw [length_drop]
    omega
  refine ⟨?_, Nat.sub_eq_zero_of_le hr⟩
  simp only [summary]
  rw [rtake_of_length_le hr, take_append_drop]

/-- A buffer that omitted something has a full head and a full tail. -/
theorem summary_merge (h : maxBytes < second.length) :
    (summary maxBytes (first ++ (summary maxBytes second).head ++ (summary maxBytes second).tail)).head =
      (summary maxBytes (first ++ second)).head ∧
    (summary maxBytes (first ++ (summary maxBytes second).head ++ (summary maxBytes second).tail)).tail =
      (summary maxBytes (first ++ second)).tail := by
  simp only [summary]
  have hh : (second.take (maxBytes / 2)).length = maxBytes / 2 := by
    rw [length_take]
    omega
  have ht : ((second.drop (maxBytes / 2)).rtake (maxBytes - maxBytes / 2)).length = maxBytes - maxBytes / 2 := by
    rw [length_rtake, length_drop]
    omega
  have hr : maxBytes / 2 ≤ (first ++ second.take (maxBytes / 2)).length := by
    rw [length_append, hh]
    omega
  have hs : first ++ second = first ++ second.take (maxBytes / 2) ++ second.drop (maxBytes / 2) := by
    rw [append_assoc, take_append_drop]
  rw [hs, take_append_of_le_length hr, take_append_of_le_length hr,
    drop_append_of_le_length hr, drop_append_of_le_length hr, rtake_append_of_le ht.ge,
    rtake_of_length_le ht.le, rtake_append_of_le]
  · exact ⟨rfl, rfl⟩
  · rw [length_drop]
    omega

/-- Merging two buffers is the summary of both outputs. -/
theorem pushBuffer_summary (hle : (first ++ second).length ≤ usizeMax) :
    pushBuffer (summary maxBytes first) (summary maxBytes second) = summary maxBytes (first ++ second) := by
  have hk : (first ++ (summary maxBytes second).head ++ (summary maxBytes second).tail).length =
      first.length + min second.length maxBytes := by
    simp only [summary, length_append, length_take, length_rtake, length_drop]
    omega
  have hh : (first ++ (summary maxBytes second).head).length ≤ usizeMax := by
    rw [length_append] at hk hle
    omega
  rw [length_append] at hle
  rw [pushBuffer, pushChunk_summary hh, pushChunk_summary (by omega), summary_omittedBytes,
    summary_omittedBytes, saturatingAdd_eq (by omega), hk]
  have ho : first.length + min second.length maxBytes - maxBytes + (second.length - maxBytes) =
      (summary maxBytes (first ++ second)).omittedBytes := by
    rw [summary_omittedBytes, length_append]
    omega
  rw [ho]
  by_cases hf : second.length ≤ maxBytes
  · rw [append_assoc, (summary_whole hf).1]
  · obtain ⟨hs, hm⟩ := summary_merge (Nat.not_le.mp hf)
    exact HeadTailBuffer.ext rfl rfl rfl hs hm rfl

theorem pushChunks_summary (hle : (output ++ cs.flatten).length ≤ usizeMax) :
    pushChunks (summary maxBytes output) cs = summary maxBytes (output ++ cs.flatten) := by
  induction cs generalizing output with
  | nil => rw [flatten_nil, append_nil]; rfl
  | cons c cs ih =>
    rw [flatten_cons, ← append_assoc] at hle ⊢
    have hf : (output ++ c).length ≤ usizeMax := by
      rw [length_append] at hle
      omega
    rw [pushChunks, foldl_cons, pushChunk_summary hf]
    exact ih hle

/-- The buffer depends on the whole output only, and merging a drained buffer is pushing its output. -/
theorem output_independent_of_chunking (maxBytes : Nat) (first second : List (List UInt8))
    (hle : (first ++ second).flatten.length ≤ usizeMax) :
    let output := (first ++ second).flatten
    let buffer := pushChunks (new maxBytes) (first ++ second)
    buffer.head = output.take (min output.length (maxBytes / 2)) ∧
    buffer.tail = (output.drop buffer.head.length).rtake
      (min (output.length - buffer.head.length) (maxBytes - maxBytes / 2)) ∧
    buffer.omittedBytes = output.length - buffer.head.length - buffer.tail.length ∧
    pushBuffer (pushChunks (new maxBytes) first) (drain (pushChunks (new maxBytes) second)).1 = buffer := by
  have hp : ∀ cs : List (List UInt8), cs.flatten.length ≤ usizeMax →
      pushChunks (new maxBytes) cs = summary maxBytes cs.flatten := by
    intro cs hc
    rw [← summary_nil, pushChunks_summary hc, nil_append]
  rw [flatten_append, length_append] at hle
  rw [hp _ (by rw [flatten_append, length_append]; exact hle), hp first (by omega),
    hp second (by omega), flatten_append]
  obtain ⟨hh, ht, ho⟩ := summary_parts
  exact ⟨hh, ht, ho, pushBuffer_summary (by rw [length_append]; exact hle)⟩

theorem output_of_two_chunks_and_one :
    pushBuffer (pushChunks (new 4) [[1, 2, 3]]) (drain (pushChunks (new 4) [[4, 5], [6]])).1 =
      pushChunks (new 4) [[1, 2, 3], [4, 5], [6]] :=
  (output_independent_of_chunking 4 [[1, 2, 3]] [[4, 5], [6]] (by decide)).2.2.2

end OutputBuffer
