import Ycode.RustStr

/-!
# Messages in a stream of records

A message travels as its length in four bytes and its serialisation. The stream is cut into records
without regard to messages; the decoder collects records and takes out whole messages.
-/
namespace MessageFraming

open RustStr List

abbrev Bytes := List UInt8

/-- The JSON serialisation of messages: what is written reads back, and it is never empty. -/
structure JsonCodec (μ : Type) where
  toWriter : μ → Bytes
  fromSlice : Bytes → Except Str μ
  fromSlice_toWriter : ∀ message, fromSlice (toWriter message) = .ok message
  toWriter_ne_nil : ∀ message, toWriter message ≠ []

def maxNoiseJsonrpcMessageLen : Nat := 64 * 1024 * 1024

def noiseRecordPlaintextLen : Nat := 60 * 1024

def toBeBytes (n : Nat) : Bytes :=
  [UInt8.ofNat (n / 2 ^ 24), UInt8.ofNat (n / 2 ^ 16), UInt8.ofNat (n / 2 ^ 8), UInt8.ofNat n]

def fromBeBytes (b₀ b₁ b₂ b₃ : UInt8) : Nat :=
  2 ^ 24 * b₀.toNat + 2 ^ 16 * b₁.toNat + 2 ^ 8 * b₂.toNat + b₃.toNat

variable {μ : Type} (codec : JsonCodec μ)

def frameJsonrpcMessage (message : μ) : Except Str Bytes :=
  let body := codec.toWriter message
  if body.length > maxNoiseJsonrpcMessageLen then
    .error "Noise relay JSON-RPC message exceeds maximum length".toList
  else .ok (toBeBytes body.length ++ body)

/-- The loop of the decoder: the whole messages at the front, and the bytes that are left. -/
def takeMessages (buffered : Bytes) : Except Str (List μ × Bytes) :=
  match buffered with
  | b₀ :: b₁ :: b₂ :: b₃ :: rest =>
    let messageLen := fromBeBytes b₀ b₁ b₂ b₃
    if messageLen = 0 ∨ messageLen > maxNoiseJsonrpcMessageLen then
      .error "Noise relay JSON-RPC message has invalid length".toList
    else if rest.length < messageLen then .ok ([], b₀ :: b₁ :: b₂ :: b₃ :: rest)
    else match codec.fromSlice (rest.take messageLen) with
      | .error message => .error message
      | .ok message =>
        match takeMessages (rest.drop messageLen) with
        | .error message => .error message
        | .ok (messages, left) => .ok (message :: messages, left)
  | _ => .ok ([], buffered)
termination_by buffered.length
decreasing_by
  simp only [length_drop, length_cons]
  omega

/-- One record pushed to a decoder that has some bytes buffered. -/
def pushRecord (buffered record : Bytes) : Except Str (List μ × Bytes) :=
  if record.length > noiseRecordPlaintextLen then
    .error "Noise relay plaintext record exceeds maximum length".toList
  else match takeMessages codec (buffered ++ record) with
    | .error message => .error message
    | .ok (messages, left) =>
      if left.length > 4 + maxNoiseJsonrpcMessageLen then
        .error "Noise relay JSON-RPC reassembly buffer exceeds maximum length".toList
      else .ok (messages, left)

/-- The slices of at most the given length that make up a list. -/
def chunks {α : Type} (size : Nat) (items : List α) : List (List α) :=
  if items = [] ∨ size = 0 then [] else items.take size :: chunks size (items.drop size)
termination_by items.length
decreasing_by
  rename_i h
  have := length_pos_of_ne_nil (not_or.mp h).1
  simp only [length_drop]
  omega

variable {α : Type}

theorem chunks_flatten (hs : size ≠ 0) (items : List α) : (chunks size items).flatten = items := by
  induction hn : items.length using Nat.strong_induction_on generalizing items with
  | _ n ih =>
    rw [chunks]
    split
    · rename_i h
      rw [h.resolve_right hs]
      rfl
    · rename_i h
      have hp := length_pos_of_ne_nil (not_or.mp h).1
      rw [flatten_cons, ih _ (by simp only [length_drop]; omega) (items.drop size) rfl, take_append_drop]

theorem length_le_of_mem_chunks (h : chunk ∈ chunks size items) : chunk.length ≤ size := by
  induction hn : items.length using Nat.strong_induction_on generalizing items with
  | _ n ih =>
    rw [chunks] at h
    split at h
    · cases h
    · rename_i hne
      have hp := length_pos_of_ne_nil (not_or.mp hne).1
      rcases mem_cons.mp h with rfl | h
      · exact length_take_le ..
      · exact ih _ (by simp only [length_drop]; omega) h rfl

theorem fromBeBytes_toBeBytes (h : n < 2 ^ 32) :
    fromBeBytes (UInt8.ofNat (n / 2 ^ 24)) (UInt8.ofNat (n / 2 ^ 16)) (UInt8.ofNat (n / 2 ^ 8)) (UInt8.ofNat n) = n := by
  simp only [fromBeBytes, UInt8.toNat_ofNat']
  omega

/-- The bytes of a framed message. -/
def framed (message : μ) : Bytes := toBeBytes (codec.toWriter message).length ++ codec.toWriter message

/-- Within the size limit. -/
def Sendable (message : μ) : Prop := (codec.toWriter message).length ≤ maxNoiseJsonrpcMessageLen

/-- The messages as one stream of bytes. -/
def stream (messages : List μ) : Bytes := messages.flatMap (framed codec)

theorem stream_cons :
    stream codec (msg :: messages) = framed codec msg ++ stream codec messages := flatMap_cons

theorem stream_append :
    stream codec (first ++ second) = stream codec first ++ stream codec second := flatMap_append

theorem length_framed : (framed codec message).length = 4 + (codec.toWriter message).length := by
  simp only [framed, length_append]
  rfl

theorem takeMessages_short (h : buffered.length < 4) : takeMessages codec buffered = .ok ([], buffered) := by
  rw [takeMessages]
  intro b₀ b₁ b₂ b₃ rest he
  rw [he] at h
  simp only [length_cons] at h
  omega

/-- The four bytes in front announce how many follow. -/
theorem takeMessages_announced (hp : messageLen ≠ 0) (hle : messageLen ≤ maxNoiseJsonrpcMessageLen) :
    takeMessages codec (toBeBytes messageLen ++ rest) =
      if rest.length < messageLen then .ok ([], toBeBytes messageLen ++ rest)
      else match codec.fromSlice (rest.take messageLen) with
        | .error msg => .error msg
        | .ok msg =>
          match takeMessages codec (rest.drop messageLen) with
          | .error msg => .error msg
          | .ok (messages, left) => .ok (msg :: messages, left) := by
  have hl := fromBeBytes_toBeBytes (lt_of_le_of_lt hle (by decide))
  simp only [toBeBytes, cons_append, nil_append]
  rw [takeMessages]
  simp only [hl]
  rw [if_neg (by omega)]

/-- A whole message in front is taken out. -/
theorem takeMessages_framed (h : Sendable codec msg) :
    takeMessages codec (framed codec msg ++ rest) =
      match takeMessages codec rest with
      | .error msg => .error msg
      | .ok (messages, left) => .ok (msg :: messages, left) := by
  have hp := length_pos_of_ne_nil (codec.toWriter_ne_nil msg)
  rw [framed, append_assoc, takeMessages_announced codec (Nat.ne_of_gt hp) h, if_neg (by simp),
    take_left, codec.fromSlice_toWriter, drop_left]

/-- A message that is not complete yet stays in the buffer. -/
theorem takeMessages_incomplete (h : Sendable codec message)
    (hp : part <+: framed codec message) (hlt : part.length < (framed codec message).length) :
    takeMessages codec part = .ok ([], part) := by
  by_cases hs : part.length < 4
  · exact takeMessages_short codec hs
  · obtain ⟨rest, rfl⟩ : toBeBytes (codec.toWriter message).length <+: part :=
      prefix_of_prefix_length_le (prefix_append ..) hp (Nat.not_lt.mp hs)
    have hpos := length_pos_of_ne_nil (codec.toWriter_ne_nil message)
    rw [takeMessages_announced codec (Nat.ne_of_gt hpos) h, if_pos]
    rw [framed, length_append, length_append] at hlt
    omega

/-- From the first part of a stream the decoder takes the messages that are complete; less than one message is left
over. -/
theorem takeMessages_stream (h : ∀ msg ∈ messages, Sendable codec msg)
    (hb : bytes <+: stream codec messages) :
    ∃ taken later left, messages = taken ++ later ∧ bytes = stream codec taken ++ left ∧
      takeMessages codec bytes = .ok (taken, left) ∧ takeMessages codec left = .ok ([], left) ∧
      left.length ≤ 4 + maxNoiseJsonrpcMessageLen ∧ (bytes = stream codec messages → later = []) := by
  induction messages generalizing bytes with
  | nil =>
    obtain rfl := prefix_nil.mp hb
    have hn : takeMessages codec [] = .ok ([], []) := takeMessages_short codec (by decide)
    exact ⟨[], [], [], rfl, rfl, hn, hn, Nat.zero_le _, fun _ => rfl⟩
  | cons msg messages ih =>
    obtain ⟨hf, hr⟩ := forall_mem_cons.mp h
    by_cases hlt : bytes.length < (framed codec msg).length
    · have hp : bytes <+: framed codec msg :=
        prefix_of_prefix_length_le hb (prefix_append ..) (Nat.le_of_lt hlt)
      have hw := takeMessages_incomplete codec hf hp hlt
      refine ⟨[], msg :: messages, bytes, rfl, rfl, hw, hw, ?_, ?_⟩
      · rw [length_framed] at hlt
        unfold Sendable at hf
        omega
      · intro he
        rw [he, stream_cons, length_append] at hlt
        omega
    · obtain ⟨rest, rfl⟩ : framed codec msg <+: bytes :=
        prefix_of_prefix_length_le (prefix_append ..) hb (Nat.not_lt.mp hlt)
      have hm : rest <+: stream codec messages := (prefix_append_right_inj _).mp hb
      obtain ⟨taken, later, left, hs, hleft, ht, hw, hl, ha⟩ := ih hr hm
      refine ⟨msg :: taken, later, left, by rw [hs]; rfl, ?_, ?_, hw, hl, fun he => ha ?_⟩
      · rw [hleft, stream_cons, append_assoc]
      · rw [takeMessages_framed codec hf, ht]
      · exact append_cancel_left he

theorem takeMessages_nil : takeMessages codec [] = .ok ([], []) := by
  rw [takeMessages]
  simp

/-- The records pushed one after the other; returns all messages. -/
def decodeAll (buffered : Bytes) : List Bytes → Except Str (List μ × Bytes)
  | [] => .ok ([], buffered)
  | record :: records =>
    match pushRecord codec buffered record with
    | .error message => .error message
    | .ok (messages, buffered) =>
      match decodeAll buffered records with
      | .error message => .error message
      | .ok (later, buffered) => .ok (messages ++ later, buffered)

/-- However a stream is cut into records, the decoder returns its messages. -/
theorem decodeAll_stream (h : ∀ msg ∈ messages, Sendable codec msg)
    (hw : takeMessages codec buffered = .ok ([], buffered))
    (hr : ∀ r ∈ rs, r.length ≤ noiseRecordPlaintextLen)
    (hb : buffered ++ rs.flatten <+: stream codec messages) :
    ∃ taken later left, messages = taken ++ later ∧ decodeAll codec buffered rs = .ok (taken, left) ∧
      (buffered ++ rs.flatten = stream codec messages → later = []) := by
  induction rs generalizing messages buffered with
  | nil =>
    rw [flatten_nil, append_nil] at hb ⊢
    obtain ⟨taken, later, left, hs, _, ht, _, _, ha⟩ := takeMessages_stream codec h hb
    rw [hw] at ht
    cases ht
    exact ⟨[], later, buffered, hs, rfl, ha⟩
  | cons r rs ih =>
    obtain ⟨hc, hm⟩ := forall_mem_cons.mp hr
    rw [flatten_cons, ← append_assoc] at hb ⊢
    obtain ⟨taken, later, left, rfl, hleft, ht, hw', hl, _⟩ :=
      takeMessages_stream codec h ((prefix_append ..).trans hb)
    have hrest : left ++ rs.flatten <+: stream codec later := by
      rw [hleft, stream_append, append_assoc] at hb
      exact (prefix_append_right_inj _).mp hb
    obtain ⟨taken', later', left', rfl, hd, ha⟩ :=
      ih (fun msg hmem => h msg (mem_append_right _ hmem)) hw' hm hrest
    refine ⟨taken ++ taken', later', left', (append_assoc ..).symm, ?_, fun he => ha ?_⟩
    · rw [decodeAll, pushRecord, if_neg (Nat.not_lt.mpr hc), ht]
      simp only
      rw [if_neg (Nat.not_lt.mpr hl)]
      simp only
      rw [hd]
    · rw [hleft, stream_append, append_assoc] at he
      exact append_cancel_left he

end MessageFraming
