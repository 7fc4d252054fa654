import Mathlib

/-!
# Decoding UTF-8

The validation of `std::str::from_utf8`, code point by code point. A byte sequence is a text, or it is a text and a
beginning of one code point, or it is invalid, and the error of the decoder tells the last two apart.
-/
namespace Utf8

open List

def encode (text : List Char) : List UInt8 := text.flatMap String.utf8EncodeChar

/-- A beginning of one code point, without its end. -/
def Incomplete (bytes : List UInt8) : Prop :=
  bytes ≠ [] ∧ ∃ c, bytes <+: String.utf8EncodeChar c ∧ bytes ≠ String.utf8EncodeChar c

structure Utf8Error where
  validUpTo : Nat
  errorLen : Option Nat
  deriving DecidableEq

/-- The ranges of the bytes behind a first byte. -/
def tails (first : UInt8) : Option (List (Nat × Nat)) :=
  if first.toNat < 0x80 then some []
  else if first.toNat < 0xC2 then none
  else if first.toNat < 0xE0 then some [(0x80, 0xBF)]
  else if first.toNat = 0xE0 then some [(0xA0, 0xBF), (0x80, 0xBF)]
  -- the surrogates are left out
  else if first.toNat = 0xED then some [(0x80, 0x9F), (0x80, 0xBF)]
  else if first.toNat < 0xF0 then some [(0x80, 0xBF), (0x80, 0xBF)]
  else if first.toNat = 0xF0 then some [(0x90, 0xBF), (0x80, 0xBF), (0x80, 0xBF)]
  else if first.toNat < 0xF4 then some [(0x80, 0xBF), (0x80, 0xBF), (0x80, 0xBF)]
  else if first.toNat = 0xF4 then some [(0x80, 0x8F), (0x80, 0xBF), (0x80, 0xBF)]
  else none

def Within (range : Nat × Nat) (byte : UInt8) : Prop := range.1 ≤ byte.toNat ∧ byte.toNat ≤ range.2

instance (range : Nat × Nat) (byte : UInt8) : Decidable (Within range byte) := inferInstanceAs (Decidable (_ ∧ _))

/-- The bytes behind the first one of a code point, and what follows it. An error tells how many bytes are at fault,
or that there are too few of them. -/
def readTails : List (Nat × Nat) → Nat → List UInt8 → Except (Option Nat) (List UInt8 × List UInt8)
  | [], _, rest => .ok ([], rest)
  | _ :: _, _, [] => .error none
  | range :: ranges, read, byte :: rest =>
    if Within range byte then (readTails ranges (read + 1) rest).map fun own => (byte :: own.1, own.2)
    else .error (some read)

def codePoint (first : UInt8) : List UInt8 → Nat
  | [] => first.toNat
  | [b] => first.toNat % 32 * 64 + b.toNat % 64
  | [b, c] => first.toNat % 16 * 4096 + b.toNat % 64 * 64 + c.toNat % 64
  | b :: c :: d :: _ => first.toNat % 8 * 262144 + b.toNat % 64 * 4096 + c.toNat % 64 * 64 + d.toNat % 64

def readChar (first : UInt8) (rest : List UInt8) : Except (Option Nat) (Char × List UInt8) :=
  match tails first with
  | none => .error (some 1)
  | some ranges => (readTails ranges 1 rest).map fun own => (Char.ofNat (codePoint first own.1), own.2)

theorem readTails_append (h : Forall₂ Within bounds own) (read : Nat) (rest : List UInt8) :
    readTails bounds read (own ++ rest) = .ok (own, rest) := by
  induction h generalizing read with
  | nil => rfl
  | cons hw _ ih =>
    rw [cons_append, readTails, if_pos hw, ih]
    rfl

theorem readTails_ends (h : Forall₂ Within front bytes) (hb : back ≠ []) (read : Nat) :
    readTails (front ++ back) read bytes = .error none := by
  induction h generalizing read with
  | nil =>
    obtain ⟨range, more, rfl⟩ := exists_cons_of_ne_nil hb
    rfl
  | cons hw _ ih =>
    rw [cons_append, readTails, if_pos hw, ih]
    rfl

/-- The bytes are there, or they end too early, or one of them is out of its range. -/
theorem readTails_cases (bounds : List (Nat × Nat)) (read : Nat) (bytes : List UInt8) :
    (∃ own rest, bytes = own ++ rest ∧ Forall₂ Within bounds own) ∨
    (∃ front back, bounds = front ++ back ∧ back ≠ [] ∧ Forall₂ Within front bytes) ∨
      ∃ length, readTails bounds read bytes = .error (some length) := by
  induction bounds generalizing read bytes with
  | nil => exact .inl ⟨[], bytes, rfl, .nil⟩
  | cons range bounds ih =>
    cases bytes with
    | nil => exact .inr (.inl ⟨[], range :: bounds, rfl, cons_ne_nil _ _, .nil⟩)
    | cons byte bytes =>
      by_cases hw : Within range byte
      · rcases ih (read + 1) bytes with ⟨own, rest, hb, ha⟩ | ⟨front, back, hb, hne, ha⟩ | ⟨length, hr⟩
        · exact .inl ⟨byte :: own, rest, congrArg (byte :: ·) hb, .cons hw ha⟩
        · exact .inr (.inl ⟨range :: front, back, congrArg (range :: ·) hb, hne, .cons hw ha⟩)
        · refine .inr (.inr ⟨length, ?_⟩)
          rw [readTails, if_pos hw, hr]
          rfl
      · exact .inr (.inr ⟨read, by rw [readTails, if_neg hw]⟩)

theorem utf8EncodeChar_ofNat (h : v < 0xD800 ∨ 0xDFFF < v ∧ v < 0x110000) :
    String.utf8EncodeChar (Char.ofNat v) =
      if v ≤ 127 then [UInt8.ofNat v]
      else if v ≤ 2047 then [UInt8.ofNat (v / 64 % 32 + 192), UInt8.ofNat (v % 64 + 128)]
      else if v ≤ 65535 then
        [UInt8.ofNat (v / 4096 % 16 + 224), UInt8.ofNat (v / 64 % 64 + 128), UInt8.ofNat (v % 64 + 128)]
      else
        [UInt8.ofNat (v / 262144 % 8 + 240), UInt8.ofNat (v / 4096 % 64 + 128), UInt8.ofNat (v / 64 % 64 + 128),
          UInt8.ofNat (v % 64 + 128)] := by
  have hv : (Char.ofNat v).val.toNat = v := (Char.toNat_ofNat v).trans (if_pos h)
  rw [String.utf8EncodeChar, hv]

def IsTail (byte : UInt8) : Prop := Within (0x80, 0xBF) byte

theorem utf8EncodeChar_two (ha : Within (0xC2, 0xDF) a) (hb : IsTail b) :
    String.utf8EncodeChar (Char.ofNat (codePoint a [b])) = [a, b] := by
  simp only [IsTail, Within] at ha hb
  rw [codePoint, utf8EncodeChar_ofNat (by omega), if_neg (by omega), if_pos (by omega)]
  simp only [cons.injEq, UInt8.ofNat_eq_iff_mod_eq_toNat, and_true]
  omega

theorem utf8EncodeChar_three (ha : Within (0xE0, 0xEF) a) (hb : IsTail b) (hc : IsTail c)
    (hlow : a.toNat = 0xE0 → 0xA0 ≤ b.toNat) (hsurrogate : a.toNat = 0xED → b.toNat ≤ 0x9F) :
    String.utf8EncodeChar (Char.ofNat (codePoint a [b, c])) = [a, b, c] := by
  simp only [IsTail, Within] at ha hb hc
  rw [codePoint, utf8EncodeChar_ofNat (by omega), if_neg (by omega), if_neg (by omega), if_pos (by omega)]
  simp only [cons.injEq, UInt8.ofNat_eq_iff_mod_eq_toNat, and_true]
  omega

theorem utf8EncodeChar_four (ha : Within (0xF0, 0xF4) a) (hb : IsTail b) (hc : IsTail c) (hd : IsTail d)
    (hlow : a.toNat = 0xF0 → 0x90 ≤ b.toNat) (hhigh : a.toNat = 0xF4 → b.toNat ≤ 0x8F) :
    String.utf8EncodeChar (Char.ofNat (codePoint a [b, c, d])) = [a, b, c, d] := by
  simp only [IsTail, Within] at ha hb hc hd
  rw [codePoint, utf8EncodeChar_ofNat (by omega), if_neg (by omega), if_neg (by omega), if_neg (by omega)]
  simp only [cons.injEq, UInt8.ofNat_eq_iff_mod_eq_toNat, and_true]
  omega

/-- Bytes in their ranges are the code point that is put together from them. -/
theorem utf8EncodeChar_codePoint (h : tails first = some bounds) (ho : Forall₂ Within bounds own) :
    String.utf8EncodeChar (Char.ofNat (codePoint first own)) = first :: own := by
  have hf := first.toNat_lt
  -- the rows of the table: the byte alone, two, three or four bytes
  unfold tails at h
  repeat' split at h
  all_goals cases h
  all_goals obtain _ | ⟨hb, _ | ⟨hc, _ | ⟨hd, _ | _⟩⟩⟩ := ho
  · rw [codePoint, utf8EncodeChar_ofNat (by omega), if_pos (by omega), UInt8.ofNat_toNat]
  all_goals simp only [Within] at hb
  · exact utf8EncodeChar_two (by unfold Within; omega) hb
  iterate 3
    exact utf8EncodeChar_three (by unfold Within; omega) (by unfold IsTail Within; omega) hc (by omega) (by omega)
  all_goals
    exact utf8EncodeChar_four (by unfold Within; omega) (by unfold IsTail Within; omega) hc hd (by omega) (by omega)

theorem tails_two (h : Within (0xC2, 0xDF) a) : tails a = some [(0x80, 0xBF)] := by
  simp only [Within] at h
  rw [tails, if_neg (by omega), if_neg (by omega), if_pos (by omega)]

theorem tails_three (h : Within (0xE0, 0xEF) a) (hb : IsTail b) (hc : IsTail c)
    (hlow : a.toNat = 0xE0 → 0xA0 ≤ b.toNat) (hsurrogate : a.toNat = 0xED → b.toNat ≤ 0x9F) :
    ∃ bounds, tails a = some bounds ∧ Forall₂ Within bounds [b, c] := by
  simp only [IsTail, Within] at h hb
  rw [tails, if_neg (by omega), if_neg (by omega), if_neg (by omega)]
  split
  · exact ⟨_, rfl, .cons (by unfold Within; omega) (.cons hc .nil)⟩
  · split
    · exact ⟨_, rfl, .cons (by unfold Within; omega) (.cons hc .nil)⟩
    · rw [if_pos (by omega)]
      exact ⟨_, rfl, .cons hb (.cons hc .nil)⟩

theorem tails_four (h : Within (0xF0, 0xF4) a) (hb : IsTail b) (hc : IsTail c) (hd : IsTail d)
    (hlow : a.toNat = 0xF0 → 0x90 ≤ b.toNat) (hhigh : a.toNat = 0xF4 → b.toNat ≤ 0x8F) :
    ∃ bounds, tails a = some bounds ∧ Forall₂ Within bounds [b, c, d] := by
  simp only [IsTail, Within] at h hb
  rw [tails, if_neg (by omega), if_neg (by omega), if_neg (by omega), if_neg (by omega), if_neg (by omega),
    if_neg (by omega)]
  split
  · exact ⟨_, rfl, .cons (by unfold Within; omega) (.cons hc (.cons hd .nil))⟩
  · split
    · exact ⟨_, rfl, .cons hb (.cons hc (.cons hd .nil))⟩
    · rw [if_pos (by omega)]
      exact ⟨_, rfl, .cons (by unfold Within; omega) (.cons hc (.cons hd .nil))⟩

theorem isTail_ofNat (h : n < 64) : IsTail (UInt8.ofNat (n + 128)) := by
  simp only [IsTail, Within, UInt8.toNat_ofNat']
  omega

/-- The bytes of a code point are in the ranges of the first of them. -/
theorem tails_utf8EncodeChar (c : Char) : ∃ first own bounds, String.utf8EncodeChar c = first :: own ∧
    tails first = some bounds ∧ Forall₂ Within bounds own := by
  have hv : c.val.toNat < 0xD800 ∨ 0xDFFF < c.val.toNat ∧ c.val.toNat < 0x110000 := c.valid
  rw [String.utf8EncodeChar]
  generalize c.val.toNat = v at hv
  split
  · refine ⟨_, _, _, rfl, ?_, .nil⟩
    rw [tails, if_pos (by rw [UInt8.toNat_ofNat']; omega)]
  · split
    · refine ⟨_, _, _, rfl, tails_two ?_, .cons (isTail_ofNat (by omega)) .nil⟩
      simp only [Within, UInt8.toNat_ofNat']
      omega
    · split
      · obtain ⟨bounds, ht, ho⟩ := tails_three (a := UInt8.ofNat (v / 4096 % 16 + 224))
          (b := UInt8.ofNat (v / 64 % 64 + 128)) (c := UInt8.ofNat (v % 64 + 128))
          (by simp only [Within, UInt8.toNat_ofNat']; omega) (isTail_ofNat (by omega)) (isTail_ofNat (by omega))
          (by simp only [UInt8.toNat_ofNat']; omega) (by simp only [UInt8.toNat_ofNat']; omega)
        exact ⟨_, _, bounds, rfl, ht, ho⟩
      · obtain ⟨bounds, ht, ho⟩ := tails_four (a := UInt8.ofNat (v / 262144 % 8 + 240))
          (b := UInt8.ofNat (v / 4096 % 64 + 128)) (c := UInt8.ofNat (v / 64 % 64 + 128))
          (d := UInt8.ofNat (v % 64 + 128))
          (by simp only [Within, UInt8.toNat_ofNat']; omega) (isTail_ofNat (by omega)) (isTail_ofNat (by omega))
          (isTail_ofNat (by omega)) (by simp only [UInt8.toNat_ofNat']; omega)
          (by simp only [UInt8.toNat_ofNat']; omega)
        exact ⟨_, _, bounds, rfl, ht, ho⟩

theorem tails_satisfiable (h : tails first = some bounds) : ∀ range ∈ bounds, range.1 ≤ range.2 ∧ range.2 < 256 := by
  unfold tails at h
  repeat' split at h
  all_goals cases h
  all_goals decide

theorem char_unique (h : String.utf8EncodeChar c ++ x = String.utf8EncodeChar d ++ y) : c = d := by
  have hb := congrArg List.toByteArray h
  rw [toByteArray_append, toByteArray_append] at hb
  have hc := ByteArray.utf8DecodeChar?_utf8EncodeChar_append (c := c) (b := x.toByteArray)
  rw [hb, ByteArray.utf8DecodeChar?_utf8EncodeChar_append] at hc
  exact (Option.some.inj hc).symm

theorem readChar_ok_iff : readChar first rest = .ok (c, more) ↔ first :: rest = String.utf8EncodeChar c ++ more := by
  constructor
  · intro h
    rw [readChar] at h
    split at h
    · cases h
    · rename_i bounds ht
      rcases readTails_cases bounds 1 rest with ⟨own, behind, rfl, ho⟩ | ⟨front, back, rfl, hb, hf⟩ | ⟨length, hr⟩
      · rw [readTails_append ho] at h
        cases h
        rw [utf8EncodeChar_codePoint ht ho, cons_append]
      · rw [readTails_ends hf hb] at h
        cases h
      · rw [hr] at h
        cases h
  · intro h
    obtain ⟨f, own, bounds, he, ht, ho⟩ := tails_utf8EncodeChar c
    rw [he, cons_append, cons.injEq] at h
    obtain ⟨rfl, rfl⟩ := h
    have hc : Char.ofNat (codePoint first own) = c :=
      char_unique (x := []) (y := []) (by rw [utf8EncodeChar_codePoint ht ho, he])
    rw [readChar, ht]
    simp only [readTails_append ho, Except.map, hc]

theorem readChar_ends_iff : readChar first rest = .error none ↔ Incomplete (first :: rest) := by
  constructor
  · intro h
    rw [readChar] at h
    split at h
    · cases h
    · rename_i bounds ht
      rcases readTails_cases bounds 1 rest with ⟨own, behind, rfl, ho⟩ | ⟨front, back, rfl, hb, hf⟩ | ⟨length, hr⟩
      · rw [readTails_append ho] at h
        cases h
      · -- the least bytes of the ranges that are left complete the code point
        have hw : Forall₂ Within back (back.map fun range => UInt8.ofNat range.1) := by
          rw [forall₂_map_right_iff, forall₂_same]
          intro range hr
          have hs := tails_satisfiable ht range (mem_append_right _ hr)
          simp only [Within, UInt8.toNat_ofNat']
          omega
        generalize back.map (fun range => UInt8.ofNat range.1) = more at hw
        have he : _ = first :: (rest ++ more) := utf8EncodeChar_codePoint ht (rel_append hf hw)
        have hm : more ≠ [] := by
          rintro rfl
          cases hw
          exact hb rfl
        refine ⟨cons_ne_nil _ _, _, ⟨more, he.symm⟩, ?_⟩
        rw [he]
        simpa using hm
      · rw [hr] at h
        cases h
  · rintro ⟨-, c, ⟨tail, ht⟩, hne⟩
    obtain ⟨f, own, bounds, he, hta, ho⟩ := tails_utf8EncodeChar c
    rw [he, cons_append, cons.injEq] at ht
    obtain ⟨rfl, rfl⟩ := ht
    have hb : bounds.drop rest.length ≠ [] := by
      intro hn
      have hd := forall₂_drop_append _ _ _ ho
      rw [hn] at hd
      cases hd
      exact hne (by rw [he, append_nil])
    have hr := readTails_ends (forall₂_take_append _ _ _ ho) hb 1
    rw [take_append_drop] at hr
    rw [readChar, hta]
    simp only [hr, Except.map]

/-- `run_utf8_validation` from an offset on. -/
def validate (offset : Nat) : List UInt8 → Except Utf8Error (List Char)
  | [] => .ok []
  | first :: rest =>
    match _h : readChar first rest with
    | .error errorLen => .error ⟨offset, errorLen⟩
    | .ok (c, more) => (validate (offset + c.utf8Size) more).map (c :: ·)
termination_by bytes => bytes.length
decreasing_by
  have hl := congrArg List.length (readChar_ok_iff.mp _h)
  have hs := c.utf8Size_pos
  rw [length_append, String.length_utf8EncodeChar] at hl
  omega

def fromUtf8 (bytes : List UInt8) : Except Utf8Error (List Char) := validate 0 bytes

theorem Incomplete.not_char : ¬ Incomplete (String.utf8EncodeChar c ++ more) := by
  rintro ⟨_, d, ⟨tail, ht⟩, hp⟩
  rw [append_assoc] at ht
  obtain rfl : c = d := char_unique (ht.trans (append_nil _).symm)
  have hn := append_right_eq_self.mp ht
  exact hp (by rw [(append_eq_nil_iff.mp hn).1, append_nil])

theorem encode_cons : encode (c :: text) = String.utf8EncodeChar c ++ encode text := flatMap_cons

/-- A text and a rest that is empty or incomplete are found in their bytes. -/
theorem decode_unique (h : encode s ++ x = encode t ++ y)
    (hx : x = [] ∨ Incomplete x) (hy : y = [] ∨ Incomplete y) : s = t ∧ x = y := by
  have hn : ∀ {c : Char} {more z : List UInt8}, z = String.utf8EncodeChar c ++ more → ¬ (z = [] ∨ Incomplete z) := by
    rintro c more z rfl (hnil | hi)
    · exact String.utf8EncodeChar_ne_nil (append_eq_nil_iff.mp hnil).1
    · exact hi.not_char
  induction s generalizing t with
  | nil =>
    cases t with
    | nil => exact ⟨rfl, h⟩
    | cons d t => exact absurd hx (hn (h.trans (append_assoc _ _ _)))
  | cons c s ih =>
    cases t with
    | nil => exact absurd hy (hn (h.symm.trans (append_assoc _ _ _)))
    | cons d t =>
      rw [encode_cons, encode_cons, append_assoc, append_assoc] at h
      obtain rfl := char_unique h
      obtain ⟨rfl, rfl⟩ := ih (append_cancel_left h)
      exact ⟨rfl, rfl⟩

theorem Incomplete.length_le {bytes : List UInt8} (h : Incomplete bytes) : bytes.length ≤ 3 := by
  obtain ⟨_, c, hf, hp⟩ := h
  have hlt : bytes.length ≠ (String.utf8EncodeChar c).length := fun he => hp (hf.eq_of_length he)
  have hle := hf.length_le
  rw [String.length_utf8EncodeChar] at hle hlt
  have := c.utf8Size_le_four
  omega

theorem validate_char (offset : Nat) (c : Char) (more : List UInt8) :
    validate offset (String.utf8EncodeChar c ++ more) = (validate (offset + c.utf8Size) more).map (c :: ·) := by
  obtain ⟨first, own, he⟩ := exists_cons_of_ne_nil (String.utf8EncodeChar_ne_nil (c := c))
  have hr : readChar first (own ++ more) = .ok (c, more) := readChar_ok_iff.mpr (by rw [he, cons_append])
  rw [he, cons_append, validate]
  split
  · rename_i hn
    rw [hr] at hn
    cases hn
  · rename_i ho
    rw [hr] at ho
    cases ho
    rfl

theorem validate_incomplete (offset : Nat) (h : Incomplete rest) : validate offset rest = .error ⟨offset, none⟩ := by
  obtain ⟨first, more, rfl⟩ := exists_cons_of_ne_nil h.1
  have hr := readChar_ends_iff.mpr h
  rw [validate]
  split
  · rename_i hn
    rw [hr] at hn
    cases hn
    rfl
  · rename_i ho
    rw [hr] at ho
    cases ho

theorem validate_append (offset : Nat) (text : List Char) (rest : List UInt8) :
    validate offset (encode text ++ rest) = (validate (offset + (encode text).length) rest).map (text ++ ·) := by
  induction text generalizing offset with
  | nil =>
    rw [encode, flatMap_nil, nil_append]
    simp only [length_nil, Nat.add_zero, nil_append]
    cases validate offset rest <;> rfl
  | cons c text ih =>
    rw [encode_cons, append_assoc, validate_char, ih, length_append, String.length_utf8EncodeChar, Nat.add_assoc]
    cases validate (offset + (c.utf8Size + (encode text).length)) rest <;> rfl

/-- The bytes are a text, or they end inside a code point behind a text, or there is an error with a length. -/
theorem validate_cases (offset : Nat) (bytes : List UInt8) :
    (∃ text, bytes = encode text ∧ validate offset bytes = .ok text) ∨
    (∃ text rest, bytes = encode text ++ rest ∧ Incomplete rest ∧
      validate offset bytes = .error ⟨offset + (encode text).length, none⟩) ∨
    ∃ upTo length, validate offset bytes = .error ⟨upTo, some length⟩ := by
  fun_induction validate offset bytes with
  | case1 offset => exact .inl ⟨[], rfl, rfl⟩
  | case2 offset first rest errorLen h =>
    cases errorLen with
    | none => exact .inr (.inl ⟨[], first :: rest, rfl, readChar_ends_iff.mp h, rfl⟩)
    | some length => exact .inr (.inr ⟨offset, length, rfl⟩)
  | case3 offset first rest c more h ih =>
    rw [readChar_ok_iff.mp h]
    rcases ih with ⟨text, rfl, hv⟩ | ⟨text, rest, rfl, hi, hv⟩ | ⟨upTo, length, hv⟩
    · exact .inl ⟨c :: text, encode_cons.symm, by rw [hv]; rfl⟩
    · refine .inr (.inl ⟨c :: text, rest, by rw [encode_cons, append_assoc], hi, ?_⟩)
      rw [hv, encode_cons, length_append, String.length_utf8EncodeChar, Nat.add_assoc]
      rfl
    · exact .inr (.inr ⟨upTo, length, by rw [hv]; rfl⟩)

/-- A byte sequence is read as a text exactly if it is the text's encoding. -/
theorem fromUtf8_ok_iff : fromUtf8 bytes = .ok text ↔ bytes = encode text := by
  constructor
  · intro h
    rcases validate_cases 0 bytes with ⟨read, hb, hv⟩ | ⟨_, _, _, _, hv⟩ | ⟨_, _, hv⟩
    · rw [fromUtf8, hv] at h
      cases h
      exact hb
    all_goals
      rw [fromUtf8, hv] at h
      cases h
  · rintro rfl
    rw [fromUtf8, ← append_nil (encode text), validate_append, validate]
    simp [Except.map]

/-- The error has no length exactly if the bytes end inside a code point. -/
theorem fromUtf8_ends_iff : fromUtf8 bytes = .error ⟨validUpTo, none⟩ ↔
    ∃ text rest, bytes = encode text ++ rest ∧ Incomplete rest ∧ validUpTo = (encode text).length := by
  constructor
  · intro h
    rcases validate_cases 0 bytes with ⟨_, _, hv⟩ | ⟨text, rest, hb, hi, hv⟩ | ⟨_, _, hv⟩
    · rw [fromUtf8, hv] at h
      cases h
    · rw [fromUtf8, hv, Nat.zero_add] at h
      cases h
      exact ⟨text, rest, hb, hi, rfl⟩
    · rw [fromUtf8, hv] at h
      cases h
  · rintro ⟨text, rest, rfl, hi, rfl⟩
    rw [fromUtf8, validate_append, validate_incomplete _ hi, Nat.zero_add]
    rfl

end Utf8
