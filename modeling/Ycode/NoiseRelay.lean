import Ycode.OrderedCiphertext

/-!
# Messages through the relay

The writer frames a message, cuts it into records, encrypts and numbers each one. The relay may delay and
repeat records. The reader orders the ciphertexts, decrypts them one by one and decodes the messages.
-/
namespace NoiseRelay

open RustStr MessageFraming OrderedCiphertext List

/-- The two ends of a cipher that counts its messages. While the ends are linked, the reader decrypts the
writer's next ciphertext, and they stay linked. -/
structure NoiseChannel (σ ρ : Type) where
  encrypt : σ → Bytes → Except Str (σ × Bytes)
  decrypt : ρ → Bytes → Except Str (ρ × Bytes)
  linked : σ → ρ → Prop
  decrypt_encrypt : ∀ {writer writer' : σ} {reader : ρ} {plaintext ciphertext : Bytes}, linked writer reader →
    encrypt writer plaintext = .ok (writer', ciphertext) →
    ∃ reader', decrypt reader ciphertext = .ok (reader', plaintext) ∧ linked writer' reader'

variable {μ σ ρ : Type} (codec : JsonCodec μ) (channel : NoiseChannel σ ρ)

def takeNextSequence (nextSeq : Nat) : Except Str (Nat × Nat) :=
  if nextSeq < u32Max then .ok (nextSeq, nextSeq + 1) else .error sequenceExhausted

structure Writer (σ : Type) where
  nextSeq : Nat
  transport : σ

def sendRecord (writer : Writer σ) (record : Bytes) : Except Str (Writer σ × RelayData) :=
  match takeNextSequence writer.nextSeq with
  | .error message => .error message
  | .ok (seq, nextSeq) =>
    match channel.encrypt writer.transport record with
    | .error message => .error message
    | .ok (transport, ciphertext) => .ok ({ nextSeq, transport }, { seq, payload := ciphertext })

def sendRecords (writer : Writer σ) : List Bytes → Except Str (Writer σ × List RelayData)
  | [] => .ok (writer, [])
  | record :: records =>
    match sendRecord channel writer record with
    | .error message => .error message
    | .ok (writer, data) =>
      match sendRecords writer records with
      | .error message => .error message
      | .ok (writer, later) => .ok (writer, data :: later)

/-- A writer that cuts each framed message into records. -/
def sendMessages (cut : Bytes → List Bytes) (writer : Writer σ) : List μ → Except Str (Writer σ × List RelayData)
  | [] => .ok (writer, [])
  | message :: messages =>
    match frameJsonrpcMessage codec message with
    | .error message => .error message
    | .ok framed =>
      match sendRecords channel writer (cut framed) with
      | .error message => .error message
      | .ok (writer, sent) =>
        match sendMessages cut writer messages with
        | .error message => .error message
        | .ok (writer, later) => .ok (writer, sent ++ later)

/-- The executor cuts a message into chunks. -/
def executorRecords (framed : Bytes) : List Bytes := chunks noiseRecordPlaintextLen framed

/-- The records from a cursor on. -/
def recordsFrom (framed : Bytes) (offset : Nat) : List Bytes :=
  let nextOffset := min (offset + noiseRecordPlaintextLen) framed.length
  if nextOffset ≤ offset then []
  else (framed.drop offset).take (nextOffset - offset) ::
    if nextOffset = framed.length then [] else recordsFrom framed nextOffset
termination_by framed.length - offset
decreasing_by
  simp only [noiseRecordPlaintextLen] at *
  omega

/-- The harness keeps a cursor into the message and sends the record at the cursor. -/
def harnessRecords (framed : Bytes) : List Bytes := recordsFrom framed 0

structure NoiseVirtualStream (ρ : Type) where
  transport : ρ
  inboundCiphertexts : OrderedCiphertextFrames
  inboundDecoder : Bytes

def NoiseVirtualStream.new (transport : ρ) : NoiseVirtualStream ρ :=
  { transport, inboundCiphertexts := .new, inboundDecoder := [] }

/-- The loop over the ciphertexts that one record releases. -/
def receiveCiphertexts (transport : ρ) (decoder : Bytes) : List Bytes → Except Str (ρ × Bytes × List μ)
  | [] => .ok (transport, decoder, [])
  | ciphertext :: ciphertexts =>
    match channel.decrypt transport ciphertext with
    | .error message => .error ("Noise relay decryption failed: ".toList ++ message)
    | .ok (transport, plaintext) =>
      match pushRecord codec decoder plaintext with
      | .error message => .error message
      | .ok (messages, decoder) =>
        match receiveCiphertexts transport decoder ciphertexts with
        | .error message => .error message
        | .ok (transport, decoder, later) => .ok (transport, decoder, messages ++ later)

def receiveData (stream : NoiseVirtualStream ρ) (data : RelayData) : Except Str (NoiseVirtualStream ρ × List μ) :=
  match push stream.inboundCiphertexts data.seq data.payload with
  | .error message => .error message
  | .ok (frames, ready) =>
    match receiveCiphertexts codec channel stream.transport stream.inboundDecoder ready with
    | .error message => .error message
    | .ok (transport, decoder, messages) =>
      .ok ({ transport, inboundCiphertexts := frames, inboundDecoder := decoder }, messages)

/-- A sequence of arrivals; returns all messages, in order. -/
def receiveAll (stream : NoiseVirtualStream ρ) : List RelayData → Except Str (NoiseVirtualStream ρ × List μ)
  | [] => .ok (stream, [])
  | data :: arrivals =>
    match receiveData codec channel stream data with
    | .error message => .error message
    | .ok (stream, messages) =>
      match receiveAll stream arrivals with
      | .error message => .error message
      | .ok (stream, later) => .ok (stream, messages ++ later)

section Writer

variable {codec channel}

theorem sendRecord_ok (h : sendRecord channel writer record = .ok (writer', data)) :
    writer.nextSeq < u32Max ∧ data.seq = writer.nextSeq ∧ writer'.nextSeq = writer.nextSeq + 1 ∧
      channel.encrypt writer.transport record = .ok (writer'.transport, data.payload) := by
  unfold sendRecord takeNextSequence at h
  by_cases hlt : writer.nextSeq < u32Max
  · rw [if_pos hlt] at h
    simp only at h
    split at h
    · cases h
    · rename_i he
      cases h
      exact ⟨hlt, rfl, rfl, he⟩
  · rw [if_neg hlt] at h
    cases h

theorem sendRecords_cons (h : sendRecords channel writer (r :: records) = .ok (writer', sent)) :
    ∃ mid data later, sendRecord channel writer r = .ok (mid, data) ∧
      sendRecords channel mid records = .ok (writer', later) ∧ sent = data :: later := by
  rw [sendRecords] at h
  split at h
  · cases h
  · rename_i mid data hf
    split at h
    · cases h
    · rename_i last later hr
      cases h
      exact ⟨mid, data, later, hf, hr, rfl⟩

theorem sendRecords_append (hf : sendRecords channel writer first = .ok (middle, sent))
    (hs : sendRecords channel middle second = .ok (writer', later)) :
    sendRecords channel writer (first ++ second) = .ok (writer', sent ++ later) := by
  induction first generalizing writer sent with
  | nil =>
    cases hf
    exact hs
  | cons r first ih =>
    obtain ⟨next, data, rest, hr, hrest, rfl⟩ := sendRecords_cons hf
    rw [cons_append, sendRecords, hr]
    simp only
    rw [ih hrest]
    rfl

/-- A message that was sent is within the size limit. -/
theorem sendable_of_framed (h : frameJsonrpcMessage codec message = .ok bytes) :
    Sendable codec message ∧ bytes = framed codec message := by
  unfold frameJsonrpcMessage at h
  simp only at h
  split at h
  · cases h
  · rename_i hle
    cases h
    exact ⟨Nat.not_lt.mp hle, rfl⟩

theorem sendMessages_ok (h : sendMessages codec channel cut writer msgs = .ok (writer', sent)) :
    (∀ msg ∈ msgs, Sendable codec msg) ∧
      sendRecords channel writer (msgs.flatMap fun msg => cut (framed codec msg)) = .ok (writer', sent) := by
  induction msgs generalizing writer sent with
  | nil =>
    cases h
    exact ⟨by simp, rfl⟩
  | cons msg msgs ih =>
    rw [sendMessages] at h
    split at h
    · cases h
    · rename_i bs hf
      obtain ⟨hs, rfl⟩ := sendable_of_framed hf
      split at h
      · cases h
      · rename_i mid first hfirst
        split at h
        · cases h
        · rename_i last later hrest
          cases h
          obtain ⟨ha, hr⟩ := ih hrest
          exact ⟨forall_mem_cons.mpr ⟨hs, ha⟩, sendRecords_append hfirst hr⟩

theorem sendRecords_numbered
    (h : sendRecords channel writer rs = .ok (writer', sent)) (hnext : writer.nextSeq ≤ u32Max) :
    (∀ (i : Nat) (data : RelayData), sent[i]? = some data → data.seq = writer.nextSeq + i) ∧
      writer.nextSeq + sent.length ≤ u32Max := by
  induction rs generalizing writer sent with
  | nil =>
    cases h
    exact ⟨by simp, hnext⟩
  | cons r rs ih =>
    obtain ⟨mid, data, later, hr, hrest, rfl⟩ := sendRecords_cons h
    obtain ⟨hlt, hs, hm, _⟩ := sendRecord_ok hr
    obtain ⟨hn, hl⟩ := ih hrest (by omega)
    refine ⟨fun i x hi => ?_, by rw [length_cons]; omega⟩
    cases i with
    | zero =>
      cases hi
      exact hs
    | succ i =>
      rw [hn i x hi, hm]
      omega

theorem sendRecords_length
    (h : sendRecords channel writer rs = .ok (writer', sent)) : sent.length = rs.length := by
  induction rs generalizing writer sent with
  | nil =>
    cases h
    rfl
  | cons r rs ih =>
    obtain ⟨mid, data, later, _, hr, rfl⟩ := sendRecords_cons h
    rw [length_cons, length_cons, ih hr]

variable (channel) in
/-- The reader's end, fed with ciphertexts in order. -/
def decryptAll (reader : ρ) : List Bytes → Except Str (ρ × List Bytes)
  | [] => .ok (reader, [])
  | ciphertext :: ciphertexts =>
    match channel.decrypt reader ciphertext with
    | .error message => .error message
    | .ok (reader, plaintext) =>
      match decryptAll reader ciphertexts with
      | .error message => .error message
      | .ok (reader, later) => .ok (reader, plaintext :: later)

/-- The linked reader decrypts any first part of what the writer sent. -/
theorem sendRecords_decrypt
    (h : sendRecords channel writer rs = .ok (writer', sent)) (hl : channel.linked writer.transport reader)
    (hp : cts <+: sent.map (·.payload)) :
    ∃ reader', decryptAll channel reader cts = .ok (reader', rs.take cts.length) := by
  induction rs generalizing writer reader sent cts with
  | nil =>
    cases h
    obtain rfl := prefix_nil.mp hp
    exact ⟨reader, rfl⟩
  | cons r rs ih =>
    obtain ⟨mid, data, later, hr, hrest, rfl⟩ := sendRecords_cons h
    obtain ⟨_, _, _, he⟩ := sendRecord_ok hr
    obtain ⟨next, hd, hs⟩ := channel.decrypt_encrypt hl he
    cases cts with
    | nil => exact ⟨reader, rfl⟩
    | cons ciphertext cts =>
      obtain ⟨rfl, hm⟩ := cons_prefix_cons.mp hp
      obtain ⟨last, ha⟩ := ih hrest hs hm
      refine ⟨last, ?_⟩
      rw [decryptAll, hd]
      simp only
      rw [ha]
      rfl

end Writer

section Reader

variable {codec channel}

theorem receiveCiphertexts_eq (hd : decryptAll channel reader cts = .ok (reader', records))
    (hdecode : decodeAll codec decoder records = .ok (messages, decoder')) :
    receiveCiphertexts codec channel reader decoder cts = .ok (reader', decoder', messages) := by
  induction cts generalizing reader decoder records messages with
  | nil =>
    cases hd
    cases hdecode
    rfl
  | cons ciphertext cts ih =>
    rw [decryptAll] at hd
    split at hd
    · cases hd
    · rename_i mid plaintext hf
      split at hd
      · cases hd
      · rename_i last later hl
        cases hd
        rw [decodeAll] at hdecode
        split at hdecode
        · cases hdecode
        · rename_i earlier buffered hp
          split at hdecode
          · cases hdecode
          · rename_i more rest hr
            cases hdecode
            rw [receiveCiphertexts, hf]
            simp only
            rw [hp]
            simp only
            rw [ih hl hr]

theorem receiveCiphertexts_append
    (h : receiveCiphertexts codec channel reader decoder (first ++ second) = .ok (reader', decoder', messages)) :
    ∃ mid buffered earlier later,
      receiveCiphertexts codec channel reader decoder first = .ok (mid, buffered, earlier) ∧
      receiveCiphertexts codec channel mid buffered second = .ok (reader', decoder', later) ∧
      messages = earlier ++ later := by
  induction first generalizing reader decoder messages with
  | nil => exact ⟨reader, decoder, [], messages, rfl, h, rfl⟩
  | cons ciphertext first ih =>
    rw [cons_append, receiveCiphertexts] at h
    split at h
    · cases h
    · rename_i next plaintext hd
      split at h
      · cases h
      · rename_i taken rest hp
        split at h
        · cases h
        · rename_i last left more hm
          cases h
          obtain ⟨mid, buffered, earlier, later, hf, hs, rfl⟩ := ih hm
          refine ⟨mid, buffered, taken ++ earlier, later, ?_, hs, (append_assoc ..).symm⟩
          rw [receiveCiphertexts, hd]
          simp only
          rw [hp]
          simp only
          rw [hf]

/-- Reading the arrivals is reading the ciphertexts that they release. -/
theorem receiveAll_eq {stream : NoiseVirtualStream ρ} {frames : OrderedCiphertextFrames}
    {released : List Bytes} (hp : pushAll stream.inboundCiphertexts arrivals = .ok (frames, released))
    (hr : receiveCiphertexts codec channel stream.transport stream.inboundDecoder released =
      .ok (reader, decoder, messages)) :
    receiveAll codec channel stream arrivals = .ok (⟨reader, frames, decoder⟩, messages) := by
  induction arrivals generalizing stream released messages with
  | nil =>
    cases hp
    cases hr
    rfl
  | cons data arrivals ih =>
    rw [pushAll] at hp
    split at hp
    · cases hp
    · rename_i next ready hf
      split at hp
      · cases hp
      · rename_i last later hrest
        cases hp
        obtain ⟨mid, buffered, earlier, more, hready, hl, rfl⟩ := receiveCiphertexts_append hr
        rw [receiveAll, receiveData, hf]
        simp only
        rw [hready]
        simp only
        rw [ih hrest hl]

end Reader

/-- A way to cut a framed message into records that a reader accepts. -/
def Cuts (cut : Bytes → List Bytes) : Prop :=
  ∀ framed, (cut framed).flatten = framed ∧ ∀ record ∈ cut framed, record.length ≤ noiseRecordPlaintextLen

theorem executorRecords_cuts : Cuts executorRecords :=
  fun framed => ⟨chunks_flatten (by decide) framed, fun _ hm => length_le_of_mem_chunks hm⟩

theorem recordsFrom_flatten (framed : Bytes) (offset : Nat) :
    (recordsFrom framed offset).flatten = framed.drop offset := by
  fun_induction recordsFrom framed offset with
  | case1 offset next hdone =>
    rw [drop_eq_nil_of_le (by simp only [next, noiseRecordPlaintextLen] at hdone; omega)]
    rfl
  | case2 offset next hmore ih =>
    have hdrop : framed.drop next = (framed.drop offset).drop (next - offset) := by
      rw [drop_drop, Nat.add_sub_cancel' (Nat.le_of_lt (Nat.not_le.mp hmore))]
    have hrest : (if next = framed.length then [] else recordsFrom framed next).flatten = framed.drop next := by
      split
      · rename_i hend
        rw [hend, drop_length]
        rfl
      · rename_i hend
        exact ih hend
    rw [flatten_cons, hrest, hdrop, take_append_drop]

theorem length_le_of_mem_recordsFrom {framed : Bytes} (h : record ∈ recordsFrom framed offset) :
    record.length ≤ noiseRecordPlaintextLen := by
  fun_induction recordsFrom framed offset with
  | case1 => cases h
  | case2 offset next hmore ih =>
    rcases mem_cons.mp h with rfl | h
    · rw [length_take]
      exact (min_le_left ..).trans (by omega)
    · split at h
      · cases h
      · rename_i hend
        exact ih hend h

theorem harnessRecords_cuts : Cuts harnessRecords :=
  fun framed => ⟨recordsFrom_flatten framed 0, fun _ hm => length_le_of_mem_recordsFrom hm⟩

theorem Cuts.flatten (hc : Cuts cut) (messages : List μ) :
    (messages.flatMap fun msg => cut (framed codec msg)).flatten = stream codec messages := by
  induction messages with
  | nil => rfl
  | cons msg messages ih => rw [flatMap_cons, flatten_append, ih, (hc _).1, stream_cons]

theorem Cuts.length_le (hc : Cuts cut) (msgs : List μ) :
    ∀ record ∈ msgs.flatMap fun msg => cut (framed codec msg), record.length ≤ noiseRecordPlaintextLen := by
  intro record hm
  obtain ⟨msg, _, hr⟩ := mem_flatMap.mp hm
  exact (hc _).2 record hr

variable {codec channel}

/-- The ciphertexts released so far decode to the messages so far. -/
theorem receiveCiphertexts_sent (hc : Cuts cut) (hi : channel.linked writer.transport reader)
    (hsend : sendMessages codec channel cut writer messages = .ok (writer', sent))
    (hp : released <+: sent.map (·.payload)) :
    ∃ reader' decoder taken, receiveCiphertexts codec channel reader [] released = .ok (reader', decoder, taken) ∧
      taken <+: messages ∧ (released = sent.map (·.payload) → taken = messages) := by
  obtain ⟨hs, hr⟩ := sendMessages_ok hsend
  obtain ⟨reader', hd⟩ := sendRecords_decrypt hr hi hp
  have hf := hc.flatten codec messages
  have hl := hc.length_le codec messages
  generalize (messages.flatMap fun msg => cut (framed codec msg)) = records at *
  have hb : [] ++ (records.take released.length).flatten <+: stream codec messages := by
    rw [nil_append, ← hf]
    conv_rhs => rw [← take_append_drop released.length records, flatten_append]
    exact prefix_append ..
  obtain ⟨taken, later, left, rfl, ho, ha⟩ := decodeAll_stream codec hs
    (takeMessages_nil codec) (fun r hm => hl r (mem_of_mem_take hm)) hb
  refine ⟨reader', left, taken, receiveCiphertexts_eq hd ho, prefix_append .., fun hreleased => ?_⟩
  have hcount : released.length = records.length := by
    rw [hreleased, length_map, sendRecords_length hr]
  rw [ha (by rw [nil_append, take_of_length_le hcount.ge, hf]), append_nil]

/-- Whatever the relay does within the window, the reader gets the messages that were sent, each once and in
order. For any arrivals, each number is released once, as the first copy that arrived. -/
theorem delivers_sent_messages {cut : Bytes → List Bytes} (hcut : Cuts cut) {transport : σ} {reader : ρ}
    (hlinked : channel.linked transport reader) {messages : List μ} {writer : Writer σ} {sent : List RelayData}
    (hsend : sendMessages codec channel cut ⟨0, transport⟩ messages = .ok (writer, sent))
    {arrivals : List RelayData} (hsub : ∀ data ∈ arrivals, data ∈ sent) (hwindow : WithinWindow .new arrivals) :
    (∃ stream delivered, receiveAll codec channel (.new reader) arrivals = .ok (stream, delivered) ∧
      delivered <+: messages ∧ ((∀ data ∈ sent, data ∈ arrivals) → delivered = messages)) ∧
    ∀ others frames released, pushAll .new others = .ok (frames, released) →
      released.length = frames.nextSeq ∧
      (∀ seq < frames.nextSeq, released[seq]? = firstCopy others seq) ∧
      frames.pendingBytes = (frames.pending.map fun entry => entry.2.length).sum := by
  have hs : Sent sent := by
    obtain ⟨hn, hl⟩ := sendRecords_numbered (sendMessages_ok hsend).2 (Nat.zero_le _)
    exact ⟨fun i data hi => by rw [hn i data hi, Nat.zero_add], by rwa [Nat.zero_add] at hl⟩
  refine ⟨?_, fun others frames released hp => ?_⟩
  · obtain ⟨frames, released, hp⟩ := pushAll_accepted hs (by simp) tracks_new hsub hwindow
    obtain ⟨hpart, hall⟩ := (tracks_new.pushAll hp).released_sent hs hsub
    obtain ⟨reader', decoder, taken, hr, htaken, hw⟩ := receiveCiphertexts_sent hcut hlinked hsend hpart
    exact ⟨_, taken, receiveAll_eq hp hr, htaken, fun ha => hw (hall ha)⟩
  · have ht := tracks_new.pushAll hp
    exact ⟨ht.count, ht.released, ht.bytes⟩

/-- Messages of one byte each. -/
def flagCodec : JsonCodec Bool where
  toWriter flag := [if flag then 1 else 0]
  fromSlice bytes := .ok (bytes == [1])
  fromSlice_toWriter flag := by cases flag <;> rfl
  toWriter_ne_nil _ := by simp

/-- A channel that writes the number of the message in front of it and reads no other number. -/
def countingChannel : NoiseChannel Nat Nat where
  encrypt count plaintext := .ok (count + 1, UInt8.ofNat count :: plaintext)
  decrypt
    | _, [] => .error "empty".toList
    | count, number :: plaintext =>
      if number = UInt8.ofNat count then .ok (count + 1, plaintext) else .error "out of order".toList
  linked writer reader := writer = reader
  decrypt_encrypt := by
    intro writer _ reader _ _ hlinked h
    cases h
    exact ⟨reader + 1, by simp [hlinked], congrArg (· + 1) hlinked⟩

theorem sendMessages_flags {cut : Bytes → List Bytes} (hcut : ∀ last, cut [0, 0, 0, 1, last] = [[0, 0, 0, 1, last]]) :
    sendMessages flagCodec countingChannel cut ⟨0, 0⟩ [true, false] =
      .ok (⟨2, 2⟩, [⟨0, [0, 0, 0, 0, 1, 1]⟩, ⟨1, [1, 0, 0, 0, 1, 0]⟩]) := by
  have ht : frameJsonrpcMessage flagCodec true = .ok [0, 0, 0, 1, 1] := by decide
  have hf : frameJsonrpcMessage flagCodec false = .ok [0, 0, 0, 1, 0] := by decide
  simp only [sendMessages, ht, hf, hcut]
  rfl

/-- Both ways to cut leave a short message whole. -/
theorem records_short (last : UInt8) : executorRecords [0, 0, 0, 1, last] = [[0, 0, 0, 1, last]] ∧
    harnessRecords [0, 0, 0, 1, last] = [[0, 0, 0, 1, last]] := by
  constructor
  · rw [executorRecords, chunks, if_neg (by simp [noiseRecordPlaintextLen]), chunks, if_pos (.inl rfl)]
    rfl
  · rw [harnessRecords, recordsFrom]
    rfl

/-- The second record comes first and the first one twice, and both messages are delivered in order. -/
def DeliversFlags (cut : Bytes → List Bytes) : Prop :=
  ∃ first second writer stream,
    sendMessages flagCodec countingChannel cut ⟨0, 0⟩ [true, false] = .ok (writer, [first, second]) ∧
      receiveAll flagCodec countingChannel (.new 0) [second, first, first] = .ok (stream, [true, false])

theorem delivers_flags_out_of_order : DeliversFlags executorRecords ∧ DeliversFlags harnessRecords := by
  have hwindow : WithinWindow .new
      [⟨1, [1, 0, 0, 0, 1, 0]⟩, ⟨0, [0, 0, 0, 0, 1, 1]⟩, ⟨0, [0, 0, 0, 0, 1, 1]⟩] :=
    ⟨fun _ _ => by decide, fun _ _ _ => ⟨fun hlt => absurd hlt (Nat.not_lt_zero _), fun _ _ _ =>
      ⟨fun hlt => absurd hlt (Nat.not_lt_zero _), fun _ _ _ => trivial⟩⟩⟩
  have hlinked : countingChannel.linked 0 0 := rfl
  have hdelivers : ∀ {cut}, Cuts cut → (∀ last, cut [0, 0, 0, 1, last] = [[0, 0, 0, 1, last]]) →
      DeliversFlags cut := by
    intro cut hcuts hshort
    have hsend := sendMessages_flags hshort
    obtain ⟨stream, delivered, hreceived, _, hall⟩ :=
      (delivers_sent_messages hcuts hlinked hsend (by decide) hwindow).1
    exact ⟨_, _, _, stream, hsend, hall (by decide) ▸ hreceived⟩
  exact ⟨hdelivers executorRecords_cuts fun last => (records_short last).1,
    hdelivers harnessRecords_cuts fun last => (records_short last).2⟩

end NoiseRelay
