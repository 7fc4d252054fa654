import Mathlib

/-!
# Length-prefixed formats

A reader takes a value off the front of a payload and leaves the rest; what a writer has put in front is read back.
-/
namespace WireFormat

abbrev Bytes := List UInt8

abbrev Reader := StateT Bytes (Except String)

/-- A sequence goes on where its first reader stops. -/
theorem read_bind {next : α → Reader β} (h : first payload = .ok (value, rest)) :
    (first >>= next) payload = next value rest := by
  change (first payload >>= fun read => next read.1 read.2) = _
  rw [h]
  rfl

/-- The little-endian bytes of a number. -/
def leBytes : Nat → Nat → Bytes
  | 0, _ => []
  | width + 1, n => UInt8.ofNat n :: leBytes width (n / 256)

def fromLe : Bytes → Nat
  | [] => 0
  | byte :: bytes => byte.toNat + 256 * fromLe bytes

@[simp] theorem length_leBytes (width n : Nat) : (leBytes width n).length = width := by
  induction width generalizing n with
  | zero => rfl
  | succ width ih => rw [leBytes, List.length_cons, ih]

theorem fromLe_leBytes (h : n < 256 ^ width) : fromLe (leBytes width n) = n := by
  induction width generalizing n with
  | zero => exact (Nat.lt_one_iff.mp h).symm
  | succ width ih =>
    have hr := ih (Nat.div_lt_of_lt_mul (by rwa [Nat.mul_comm, ← Nat.pow_succ]))
    rw [leBytes, fromLe, hr, UInt8.toNat_ofNat']
    exact Nat.mod_add_div n 256

def take (length : Nat) : Reader Bytes := fun payload =>
  if length ≤ payload.length then .ok (payload.take length, payload.drop length) else .error "truncated payload"

theorem take_append (v rest : Bytes) : take v.length (v ++ rest) = .ok (v, rest) := by
  simp [take]

def byte : Reader UInt8 := fun
  | [] => .error "truncated payload"
  | byte :: rest => .ok (byte, rest)

/-- A word of this many bytes. -/
def word (width : Nat) : Reader (BitVec (8 * width)) := do
  return BitVec.ofNat _ (fromLe (← take width))

def putBytes (bytes : Bytes) : Except String Bytes :=
  if bytes.length < 2 ^ 32 then .ok (leBytes 4 bytes.length ++ bytes) else .error "value too large"

def bytes : Reader Bytes := do
  take (← word 4).toNat

theorem word_leBytes (h : n < 256 ^ width) (rest : Bytes) :
    word width (leBytes width n ++ rest) = .ok (BitVec.ofNat _ n, rest) := by
  have hr := take_append (leBytes width n) rest
  rw [length_leBytes] at hr
  rw [word, read_bind hr, fromLe_leBytes h]
  rfl

theorem bytes_of_put (h : putBytes value = .ok out) (rest : Bytes) : bytes (out ++ rest) = .ok (value, rest) := by
  unfold putBytes at h
  split at h
  · rename_i hlt
    cases h
    rw [bytes, List.append_assoc, read_bind (word_leBytes hlt _), BitVec.toNat_ofNat, Nat.mod_eq_of_lt hlt, take_append]
  · cases h

end WireFormat
