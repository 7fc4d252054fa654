import Ycode.HiddenTags
import Ycode.Utf8

/-!
# Streaming bytes into a text parser

The bytes of a stream are decoded as they come. An incomplete code point at the end of a chunk is kept until the next
one, and a chunk with an invalid sequence is taken back as a whole.
-/
namespace ByteStreaming

open RustStr HiddenTags Utf8 List

/-- The trait of the inner parser. -/
structure StreamTextParser (π ε : Type) where
  pushStr : π → Str → StreamTextChunk ε × π
  finish : π → StreamTextChunk ε × π

inductive Utf8StreamParserError where
  | invalidUtf8 (validUpTo errorLen : Nat)
  | incompleteUtf8AtEof

structure Utf8StreamParser (π : Type) where
  inner : π
  pendingUtf8 : List UInt8

variable {π ε : Type} (parser : StreamTextParser π ε)

def pushBytes (s : Utf8StreamParser π) (chunk : List UInt8) :
    Except Utf8StreamParserError (StreamTextChunk ε) × Utf8StreamParser π :=
  let oldLen := s.pendingUtf8.length
  let pending := s.pendingUtf8 ++ chunk
  match fromUtf8 pending with
  | .ok text => (.ok (parser.pushStr s.inner text).1, ⟨(parser.pushStr s.inner text).2, []⟩)
  | .error ⟨validUpTo, some errorLen⟩ => (.error (.invalidUtf8 validUpTo errorLen), ⟨s.inner, pending.take oldLen⟩)
  | .error ⟨validUpTo, none⟩ =>
    if validUpTo = 0 then (.ok ⟨[], []⟩, ⟨s.inner, pending⟩)
    else match fromUtf8 (pending.take validUpTo) with
      | .ok text => (.ok (parser.pushStr s.inner text).1, ⟨(parser.pushStr s.inner text).2, pending.drop validUpTo⟩)
      | .error err => (.error (.invalidUtf8 err.validUpTo (err.errorLen.getD 0)), ⟨s.inner, pending.take oldLen⟩)

/-- The output of the inner parser's own `finish` goes behind what the pending bytes gave. -/
def finishInner (out : StreamTextChunk ε) (inner : π) :
    Except Utf8StreamParserError (StreamTextChunk ε) × Utf8StreamParser π :=
  (.ok ⟨out.visibleText ++ (parser.finish inner).1.visibleText, out.extracted ++ (parser.finish inner).1.extracted⟩,
    ⟨(parser.finish inner).2, []⟩)

def finish (s : Utf8StreamParser π) : Except Utf8StreamParserError (StreamTextChunk ε) × Utf8StreamParser π :=
  if s.pendingUtf8 = [] then finishInner parser ⟨[], []⟩ s.inner
  else match fromUtf8 s.pendingUtf8 with
    | .ok text => finishInner parser (parser.pushStr s.inner text).1 (parser.pushStr s.inner text).2
    | .error ⟨validUpTo, some errorLen⟩ => (.error (.invalidUtf8 validUpTo errorLen), s)
    | .error ⟨_, none⟩ => (.error .incompleteUtf8AtEof, s)

/-- The bytes of the chunks that were accepted, and the parser after all of them. -/
def pushAll (s : Utf8StreamParser π) : List (List UInt8) → List UInt8 × Utf8StreamParser π
  | [] => ([], s)
  | chunk :: rest =>
    let (bytes, last) := pushAll (pushBytes parser s chunk).2 rest
    ((match (pushBytes parser s chunk).1 with | .ok _ => chunk | .error _ => []) ++ bytes, last)

/-- The inner parser after it was given some pieces. -/
def feed (inner : π) (pieces : List Str) : π := pieces.foldl (fun inner piece => (parser.pushStr inner piece).2) inner

/-- A chunk is taken back, or its text goes to the inner parser and an incomplete code point at its end is kept. -/
theorem pushBytes_cases (s : Utf8StreamParser π) (c : List UInt8) :
    (∃ error, pushBytes parser s c = (.error error, s)) ∨
      ∃ out pcs rest, s.pendingUtf8 ++ c = encode pcs.flatten ++ rest ∧ (rest = [] ∨ Incomplete rest) ∧
        pushBytes parser s c = (.ok out, ⟨feed parser s.inner pcs, rest⟩) := by
  have ht : (s.pendingUtf8 ++ c).take s.pendingUtf8.length = s.pendingUtf8 := take_left
  cases hr : fromUtf8 (s.pendingUtf8 ++ c) with
  | ok text =>
    have hb := fromUtf8_ok_iff.mp hr
    refine .inr ⟨(parser.pushStr s.inner text).1, [text], [], ?_, .inl rfl, ?_⟩
    · rw [flatten_singleton, append_nil, hb]
    · simp only [pushBytes, hr]
      rfl
  | error err =>
    obtain ⟨validUpTo, errorLen⟩ := err
    cases errorLen with
    | some errorLen =>
      refine .inl ⟨.invalidUtf8 validUpTo errorLen, ?_⟩
      simp only [pushBytes, hr, ht]
    | none =>
      obtain ⟨text, rest, hb, hrest, rfl⟩ := fromUtf8_ends_iff.mp hr
      by_cases hz : (encode text).length = 0
      · refine .inr ⟨⟨[], []⟩, [], rest, ?_, .inr hrest, ?_⟩
        · rw [hb, length_eq_zero_iff.mp hz]
          rfl
        · simp only [pushBytes, hr, if_pos hz]
          rw [hb, length_eq_zero_iff.mp hz]
          rfl
      · have hd : fromUtf8 (encode text) = .ok text := fromUtf8_ok_iff.mpr rfl
        refine .inr ⟨(parser.pushStr s.inner text).1, [text], rest, ?_, .inr hrest, ?_⟩
        · rw [flatten_singleton, hb]
        · simp only [pushBytes, hr, if_neg hz]
          rw [hb, take_left, drop_left, hd]
          rfl

/-- The accepted bytes are the text of the pieces and what is pending. -/
theorem pushAll_spec (cs : List (List UInt8)) (s : Utf8StreamParser π)
    (h : s.pendingUtf8 = [] ∨ Incomplete s.pendingUtf8) :
    ((pushAll parser s cs).2.pendingUtf8 = [] ∨ Incomplete (pushAll parser s cs).2.pendingUtf8) ∧
      ∃ pieces, s.pendingUtf8 ++ (pushAll parser s cs).1 =
          encode pieces.flatten ++ (pushAll parser s cs).2.pendingUtf8 ∧
        (pushAll parser s cs).2.inner = feed parser s.inner pieces := by
  induction cs generalizing s with
  | nil => exact ⟨h, [], append_nil _, rfl⟩
  | cons c cs ih =>
    obtain ⟨err, hp⟩ | ⟨out, pieces, rest, hb, hr, hp⟩ := pushBytes_cases parser s c
    · simp only [pushAll, hp, nil_append]
      exact ih s h
    · simp only [pushAll, hp]
      obtain ⟨hl, more, hm, hi⟩ := ih ⟨feed parser s.inner pieces, rest⟩ hr
      refine ⟨hl, pieces ++ more, ?_, ?_⟩
      · rw [← append_assoc, hb, append_assoc, hm, flatten_append, encode, encode, encode,
          flatMap_append, append_assoc]
      · rw [hi, feed, feed, feed, foldl_append]

/-- Between calls at most a beginning of a code point is pending, a rejected chunk changes nothing, and a text that was
accepted in any chunks has reached the inner parser when the stream ends. -/
theorem bytes_reach_inner (inner : π) (chunks : List (List UInt8)) :
    let run := pushAll parser ⟨inner, []⟩ chunks
    (run.2.pendingUtf8 = [] ∨ Incomplete run.2.pendingUtf8 ∧ run.2.pendingUtf8.length ≤ 3) ∧
      (∀ chunk error, (pushBytes parser run.2 chunk).1 = .error error → (pushBytes parser run.2 chunk).2 = run.2) ∧
      ∀ text, run.1 = encode text → ∃ pieces out, pieces.flatten = text ∧
        finish parser run.2 = (.ok out, ⟨(parser.finish (feed parser inner pieces)).2, []⟩) := by
  intro run
  obtain ⟨hd, pieces, hb, hi⟩ := pushAll_spec parser chunks ⟨inner, []⟩ (.inl rfl)
  refine ⟨hd.imp id fun h => ⟨h, h.length_le⟩, fun chunk error he => ?_, fun text ht => ?_⟩
  · obtain ⟨_, hp⟩ | ⟨_, _, _, _, _, hp⟩ := pushBytes_cases parser run.2 chunk
    · rw [hp]
    · rw [hp] at he
      cases he
  · have hs : encode text ++ [] = encode pieces.flatten ++ run.2.pendingUtf8 := by
      rw [append_nil, ← ht, ← hb]
      rfl
    obtain ⟨rfl, hn⟩ := decode_unique hs (.inl rfl) hd
    have hf : finish parser run.2 = finishInner parser ⟨[], []⟩ (feed parser inner pieces) := by
      rw [finish, if_pos hn.symm, hi]
    exact ⟨pieces, _, rfl, hf⟩

/-- The parser that keeps what it is given. -/
def keeping : StreamTextParser Str Unit where
  pushStr kept text := (⟨text, []⟩, kept ++ text)
  finish kept := (⟨[], []⟩, kept)

/-- A code point that comes in two chunks, with a chunk that is rejected between them. -/
theorem split_char_reaches_inner :
    (pushAll keeping ⟨[], []⟩ [[0xC3], [0xFF], [0xA9]]).1 = encode ['é'] ∧
      ∃ out, finish keeping (pushAll keeping ⟨[], []⟩ [[0xC3], [0xFF], [0xA9]]).2 = (.ok out, ⟨['é'], []⟩) := by
  have hr : (pushAll keeping ⟨[], []⟩ [[0xC3], [0xFF], [0xA9]]).1 = encode ['é'] := by decide +kernel
  obtain ⟨pieces, out, hp, hf⟩ := (bytes_reach_inner keeping [] [[0xC3], [0xFF], [0xA9]]).2.2 ['é'] hr
  have hk : ∀ pieces kept, feed keeping kept pieces = kept ++ pieces.flatten := by
    intro pieces
    induction pieces with
    | nil => simp [feed]
    | cons piece pieces ih =>
      intro kept
      rw [feed, foldl_cons]
      exact (ih _).trans (by simp [keeping])
  refine ⟨hr, out, ?_⟩
  rw [hf, hk, hp]
  rfl

end ByteStreaming
