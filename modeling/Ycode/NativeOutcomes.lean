import Ycode.RustStr
import Ycode.Utf8
import Ycode.WireFormat

/-!
# Results of native calls

The host answers the JOIN of a native call with one OUTCOME frame. The workflow's SDK reads the frame and decodes the
outcome.
-/
namespace NativeOutcomes

open RustStr Utf8 WireFormat List

def frameBytes : Nat := 64 * 1024

def callOutputBytes : Nat := 64 * 1024

def rawCallArtifactBytes : Nat := 1024 * 1024

inductive NativeOutcome where
  | success (value : Bytes)
  | retry (reason : Str)
  | failure (message : Str)

structure CapabilityResult where
  status : UInt8
  callId : Str
  value : Bytes

def limitText : Str := "native delegate output exceeded limit".toList

/-- What the delegate's outcome is sent as, before its length is checked. -/
def statusAndValue : Except Str NativeOutcome → UInt8 × Bytes
  | .ok (.success value) => (0, value)
  | .ok (.retry reason) => (1, encode reason)
  | .ok (.failure message) | .error message => (2, encode message)

/-- The end of `spawn_capability`. -/
def capabilityResult (callId : Str) (outcome : Except Str NativeOutcome) : CapabilityResult :=
  if (statusAndValue outcome).2.length > callOutputBytes then ⟨2, callId, encode limitText⟩
  else ⟨(statusAndValue outcome).1, callId, (statusAndValue outcome).2⟩

inductive FailureKind where
  | protocol
  | callLimit

/-- The bytes of a result, both for its artifact and for its frame. -/
def response (result : CapabilityResult) : Except String Bytes := do
  let callId ← putBytes (encode result.callId)
  return result.status :: callId ++ (← putBytes result.value)

def validByte (byte : UInt8) : Bool :=
  (48 ≤ byte && byte ≤ 57) || (65 ≤ byte && byte ≤ 90) || (97 ≤ byte && byte ≤ 122) || byte == 45

/-- `total` is the length of the artifacts written before. -/
def writeCallArtifact (callId : Str) (bytes : Bytes) (total : Nat) : Except String Nat :=
  if bytes.length > frameBytes + 1024 ∨ ¬(encode callId).all validByte then
    .error "call artifact exceeds per-call bound or has invalid identity"
  else if total + bytes.length > rawCallArtifactBytes then .error "raw call artifacts exceed per-run cap"
  else .ok (total + bytes.length)

def writeFrame (kind : BitVec 16) (payload : Bytes) : Except String Bytes :=
  if payload.length > frameBytes then .error "outgoing frame exceeds cap"
  else .ok (leBytes 4 0x59434e52 ++ leBytes 2 1 ++ leBytes 2 kind.toNat ++ leBytes 4 payload.length ++ payload)

/-- The answer to a JOIN, from the result of the task: the frame, or how the run ends. The artifact of the result has
the bytes of its frame. -/
def join (result : CapabilityResult) (total : Nat) : Except (FailureKind × String) (Bytes × Nat) :=
  match response result with
  | .error error => .error (.protocol, error)
  | .ok payload =>
    match writeCallArtifact result.callId payload total with
    | .error error => .error (.callLimit, error)
    | .ok total =>
      match writeFrame 102 payload with
      | .error error => .error (.protocol, error)
      | .ok frame => .ok (frame, total)

/-- `read_frame` of the SDK. -/
def readFrame : Reader (BitVec 16 × Bytes) := do
  let header ← take 12
  if fromLe (header.take 4) ≠ 0x59434e52 then throw "bad frame magic"
  if fromLe ((header.drop 4).take 2) ≠ 1 then throw "unsupported protocol version"
  let length := fromLe ((header.drop 8).take 4)
  if length > frameBytes then throw "declared frame too large"
  return (BitVec.ofNat 16 (fromLe ((header.drop 6).take 2)), ← take length)

inductive Outcome where
  | success (callId : Str) (output : Bytes)
  | retry (callId reason : Str)
  | failure (callId message : Str)

def text (message : String) (bytes : Bytes) : Except String Str := (fromUtf8 bytes).mapError fun _ => message

def readOutcome : Reader (UInt8 × Str × Bytes) := do
  let status ← byte
  let callId ← text "string was not UTF-8" (← bytes)
  return (status, callId, ← bytes)

def outcomeOf : UInt8 × Str × Bytes → Except String Outcome
  | (0, callId, value) => .ok (.success callId value)
  | (1, callId, value) => (text "retry reason was not UTF-8" value).map (.retry callId)
  | (2, callId, value) => (text "failure message was not UTF-8" value).map (.failure callId)
  | _ => .error "unknown outcome tag"

def decodeOutcome (payload : Bytes) : Except String Outcome :=
  match readOutcome payload with
  | .error error => .error error
  | .ok (parts, []) => outcomeOf parts
  | .ok _ => .error "trailing payload bytes"

inductive Error where
  | protocol (message : String)
  | host (message : Bytes)

/-- What `Context::join` makes of the host's answer. -/
def receive (stream : Bytes) : Except Error Outcome :=
  match readFrame stream with
  | .error error => .error (.protocol error)
  | .ok ((kind, payload), _) =>
    if kind = 199 then .error (.host payload)
    else if kind ≠ 102 then .error (.protocol s!"unexpected response kind {kind.toNat}")
    else (decodeOutcome payload).mapError .protocol

/-- The outcome the workflow is to see. -/
def delivered (callId : Str) (outcome : Except Str NativeOutcome) : Outcome :=
  if (statusAndValue outcome).2.length > callOutputBytes then .failure callId limitText
  else
    match outcome with
    | .ok (.success value) => .success callId value
    | .ok (.retry reason) => .retry callId reason
    | .ok (.failure message) | .error message => .failure callId message

def CapabilityResult.size (result : CapabilityResult) : Nat := 9 + (encode result.callId).length + result.value.length

theorem putBytes_ok (h : value.length < 2 ^ 32) : putBytes value = .ok (leBytes 4 value.length ++ value) := if_pos h

theorem response_ok {res : CapabilityResult} (h : res.size ≤ frameBytes) :
    ∃ id v, putBytes (encode res.callId) = .ok id ∧ putBytes res.value = .ok v ∧
      response res = .ok (res.status :: id ++ v) ∧
      (res.status :: id ++ v).length = res.size := by
  simp only [CapabilityResult.size, frameBytes] at h
  have hid : (encode res.callId).length < 2 ^ 32 := by omega
  have hv : res.value.length < 2 ^ 32 := by omega
  refine ⟨_, _, putBytes_ok hid, putBytes_ok hv, ?_, ?_⟩
  · rw [response, putBytes_ok hid, putBytes_ok hv]
    rfl
  · simp only [CapabilityResult.size, length_append, length_cons, length_leBytes]
    omega

theorem length_response (h : response result = .ok out) : out.length = result.size := by
  unfold response putBytes at h
  split at h
  · split at h
    · cases h
      simp only [CapabilityResult.size, length_append, length_cons, length_leBytes]
      omega
    · cases h
  · cases h

/-- A result whose bytes do not fit into a frame ends the run. -/
theorem size_le_of_join (h : join result total = .ok answer) : result.size ≤ frameBytes := by
  unfold join at h
  split at h
  · cases h
  · rename_i pl hr
    split at h
    · cases h
    · by_contra hle
      rw [← length_response hr] at hle
      rw [writeFrame, if_pos (Nat.lt_of_not_le hle)] at h
      cases h

theorem join_ok (hid : (encode result.callId).all validByte) (hb : total + result.size ≤ rawCallArtifactBytes)
    (hr : response result = .ok payload) (hf : writeFrame 102 payload = .ok frame)
    (hle : result.size ≤ frameBytes) : join result total = .ok (frame, total + result.size) := by
  have ha : writeCallArtifact result.callId payload total = .ok (total + result.size) := by
    unfold writeCallArtifact
    simp only [length_response hr]
    split
    · rename_i hi
      rcases hi with hl | hn
      · omega
      · exact absurd hid hn
    · exact if_neg (Nat.not_lt.mpr hb)
  simp only [join, hr, hf, ha]

theorem readFrame_write (kind : BitVec 16) (hle : payload.length ≤ frameBytes) :
    ∃ frame, writeFrame kind payload = .ok frame ∧ readFrame frame = .ok ((kind, payload), []) := by
  refine ⟨_, if_neg (Nat.not_lt.mpr hle), ?_⟩
  have hk : kind.toNat < 256 ^ 2 := kind.isLt
  have hl : payload.length < 256 ^ 4 := by
    simp only [frameBytes] at hle
    omega
  have hr := take_append
    (leBytes 4 0x59434e52 ++ leBytes 2 1 ++ leBytes 2 kind.toNat ++ leBytes 4 payload.length) payload
  simp only [length_append, length_leBytes] at hr
  rw [readFrame, read_bind hr]
  simp [drop_append, take_of_length_le, drop_of_length_le, fromLe_leBytes hk, fromLe_leBytes hl,
    fromLe_leBytes (by decide : 0x59434e52 < 256 ^ 4), fromLe_leBytes (by decide : 1 < 256 ^ 2)]
  have hp := take_append payload []
  rw [append_nil] at hp
  rw [if_neg (Nat.not_lt.mpr hle), ← bind_pure_comp, read_bind hp]
  rfl

theorem text_encode (msg : String) (value : Str) : text msg (encode value) = .ok value := by
  rw [text, fromUtf8_ok_iff.mpr rfl]
  rfl

/-- The SDK decodes what the host has put into the frame. -/
theorem decodeOutcome_response (hid : putBytes (encode callId) = .ok first) (hv : putBytes value = .ok last) :
    decodeOutcome (status :: first ++ last) = outcomeOf (status, callId, value) := by
  have hl := bytes_of_put hv []
  rw [append_nil] at hl
  have hr : readOutcome (status :: first ++ last) = .ok ((status, callId, value), []) := by
    rw [readOutcome, cons_append, read_bind (rfl : byte (status :: (first ++ last)) = .ok (status, _)),
      read_bind (bytes_of_put hid last), text_encode, read_bind (rfl : _ = Except.ok (callId, last)), read_bind hl]
    rfl
  simp only [decodeOutcome, hr]

theorem outcomeOf_result (callId : Str) (out : Except Str NativeOutcome) :
    outcomeOf ((capabilityResult callId out).status, callId, (capabilityResult callId out).value) =
      .ok (delivered callId out) := by
  unfold capabilityResult delivered
  split
  · simp only [outcomeOf, text_encode]
    rfl
  · rcases out with msg | ⟨v | reason | msg⟩ <;>
      simp only [statusAndValue, outcomeOf, text_encode] <;> rfl

theorem callId_capabilityResult : (capabilityResult callId outcome).callId = callId := by
  unfold capabilityResult
  split <;> rfl

/-- The length of what the delegate ended with. -/
def outcomeLength : Except Str NativeOutcome → Nat
  | .ok (.success value) => value.length
  | .ok (.retry text) | .ok (.failure text) | .error text => (encode text).length

/-- The length that is left of it in the frame. -/
def sentLength (outcome : Except Str NativeOutcome) : Nat :=
  if callOutputBytes < outcomeLength outcome then (encode limitText).length else outcomeLength outcome

theorem length_statusAndValue (outcome : Except Str NativeOutcome) :
    (statusAndValue outcome).2.length = outcomeLength outcome := by
  rcases outcome with msg | ⟨v | reason | msg⟩ <;> rfl

theorem size_capabilityResult (callId : Str) (outcome : Except Str NativeOutcome) :
    (capabilityResult callId outcome).size = 9 + (encode callId).length + sentLength outcome := by
  rw [CapabilityResult.size, callId_capabilityResult, sentLength, capabilityResult, length_statusAndValue]
  split
  · rfl
  · rw [length_statusAndValue]

/-- The outcome of a native call reaches the workflow if and only if the call id, the outcome and the nine bytes around
them fit into a frame. -/
theorem outcome_arrives_iff (callId : Str) (outcome : Except Str NativeOutcome) (total : Nat)
    (hid : (encode callId).all validByte)
    (hbudget : total + (9 + (encode callId).length + sentLength outcome) ≤ rawCallArtifactBytes) :
    (∃ frame after, join (capabilityResult callId outcome) total = .ok (frame, after) ∧
      receive frame = .ok (delivered callId outcome)) ↔
    9 + (encode callId).length + sentLength outcome ≤ frameBytes := by
  rw [← size_capabilityResult callId outcome] at hbudget ⊢
  constructor
  · rintro ⟨frame, after, hj, _⟩
    exact size_le_of_join hj
  · intro hle
    obtain ⟨first, last, hf, hlast, hr, hl⟩ := response_ok hle
    obtain ⟨frame, hframe, hread⟩ := readFrame_write 102 (hl ▸ hle)
    refine ⟨frame, _, join_ok (callId_capabilityResult ▸ hid) hbudget hr hframe hle, ?_⟩
    rw [callId_capabilityResult] at hf
    have hd := (decodeOutcome_response hf hlast).trans (outcomeOf_result callId outcome)
    simp only [receive, hread]
    rw [if_neg (by decide), if_neg (by decide), hd]
    rfl

theorem oneByte_arrives : (encode "native-1".toList).all validByte ∧ ∃ frame after,
    join (capabilityResult "native-1".toList (.ok (.success [7]))) 0 = .ok (frame, after) ∧
      receive frame = .ok (.success "native-1".toList [7]) :=
  ⟨by decide, (outcome_arrives_iff "native-1".toList (.ok (.success [7])) 0 (by decide) (by decide)).mpr (by decide)⟩

/-- A result of the largest length that is let through. -/
theorem fullResult_ends_the_run : (replicate callOutputBytes (0 : UInt8)).length ≤ callOutputBytes ∧
    ∀ answer, join (capabilityResult "native-1".toList (.ok (.success (replicate callOutputBytes 0)))) 0 ≠
      .ok answer := by
  refine ⟨by simp, fun answer h => ?_⟩
  have hle := size_le_of_join h
  rw [size_capabilityResult] at hle
  simp only [sentLength, outcomeLength, length_replicate, Nat.lt_irrefl, if_false, frameBytes, callOutputBytes]
    at hle
  omega

end NativeOutcomes
