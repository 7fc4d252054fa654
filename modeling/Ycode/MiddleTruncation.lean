import Ycode.RustStr

/-!
# Truncating the middle of a text

A text over its byte budget keeps a beginning and an end, and a marker counts what was taken out between them. Offsets
are in bytes of the UTF-8 text; a slice at an offset inside a character panics.
-/
namespace MiddleTruncation

open RustStr List

def byteLen (s : Str) : Nat := (s.map Char.utf8Size).sum

@[simp] theorem byteLen_nil : byteLen [] = 0 := rfl
@[simp] theorem byteLen_cons (c : Char) (s : Str) : byteLen (c :: s) = c.utf8Size + byteLen s := sum_cons
@[simp] theorem byteLen_append (s t : Str) : byteLen (s ++ t) = byteLen s + byteLen t := by simp [byteLen]
theorem byteLen_reverse : byteLen s.reverse = byteLen s := by simp [byteLen, sum_reverse]

/-- The text in front of and behind a byte offset. -/
def splitAtByte : Str → Nat → Option (Str × Str)
  | s, 0 => some ([], s)
  | [], _ + 1 => none
  | c :: s, n + 1 =>
    if c.utf8Size ≤ n + 1 then (splitAtByte s (n + 1 - c.utf8Size)).map fun (front, rest) => (c :: front, rest) else none

/-- The variables of the loop over the characters, with the offset of the next one. -/
structure Scan where
  idx : Nat
  prefixEnd : Nat
  suffixStart : Nat
  removedChars : Nat
  suffixStarted : Bool
  deriving DecidableEq, Repr

def scanChar (beginningBytes tailStartTarget : Nat) (st : Scan) (ch : Char) : Scan :=
  let charEnd := st.idx + ch.utf8Size
  if charEnd ≤ beginningBytes then { st with idx := charEnd, prefixEnd := charEnd }
  else if tailStartTarget ≤ st.idx then
    if st.suffixStarted then { st with idx := charEnd }
    else { st with idx := charEnd, suffixStart := st.idx, suffixStarted := true }
  else { st with idx := charEnd, removedChars := st.removedChars + 1 }

/-- The number of characters removed, what stays in front of them and what stays behind. -/
def splitString (s : Str) (beginningBytes endBytes : Nat) : Option (Nat × Str × Str) :=
  if s = [] then some (0, [], [])
  else do
    let st := s.foldl (scanChar beginningBytes (byteLen s - endBytes)) ⟨0, 0, byteLen s, 0, false⟩
    let (before, _) ← splitAtByte s st.prefixEnd
    let (_, after) ← splitAtByte s (max st.suffixStart st.prefixEnd)
    return (st.removedChars, before, after)

def splitBudget (budget : Nat) : Nat × Nat := (budget / 2, budget - budget / 2)

def approxTokensFromByteCount (bytes : Nat) : Nat := (bytes + 3) / 4

def formatTruncationMarker (useTokens : Bool) (removedCount : Nat) : Str :=
  "…".toList ++ (toString removedCount).toList ++
    if useTokens then " tokens truncated…".toList else " chars truncated…".toList

def removedUnits (useTokens : Bool) (removedBytes removedChars : Nat) : Nat :=
  if useTokens then approxTokensFromByteCount removedBytes else removedChars

def truncateWithByteEstimate (s : Str) (maxBytes : Nat) (useTokens : Bool) : Option Str :=
  if s = [] then some []
  else if maxBytes = 0 then
    some (formatTruncationMarker useTokens (removedUnits useTokens (byteLen s) s.length))
  else if byteLen s ≤ maxBytes then some s
  else do
    let (leftBudget, rightBudget) := splitBudget maxBytes
    let (removedChars, left, right) ← splitString s leftBudget rightBudget
    return left ++ formatTruncationMarker useTokens (removedUnits useTokens (byteLen s - maxBytes) removedChars) ++ right

def truncateMiddleChars (s : Str) (maxBytes : Nat) : Option Str := truncateWithByteEstimate s maxBytes false

def LongestPrefix (s : Str) (budget : Nat) (p : Str) : Prop :=
  p <+: s ∧ byteLen p ≤ budget ∧ ∀ q, q <+: s → byteLen q ≤ budget → q.length ≤ p.length

def LongestSuffix (s : Str) (budget : Nat) (p : Str) : Prop :=
  p <:+ s ∧ byteLen p ≤ budget ∧ ∀ q, q <:+ s → byteLen q ≤ budget → q.length ≤ p.length

theorem splitAtByte_byteLen (pre rest : Str) : splitAtByte (pre ++ rest) (byteLen pre) = some (pre, rest) := by
  induction pre with
  | nil => cases rest <;> rfl
  | cons c pre ih =>
    have hp := c.utf8Size_pos
    obtain ⟨n, hn⟩ : ∃ n, byteLen (c :: pre) = n + 1 := ⟨c.utf8Size - 1 + byteLen pre, by rw [byteLen_cons]; omega⟩
    rw [byteLen_cons] at hn
    rw [byteLen_cons, cons_append, hn, splitAtByte, if_pos (by omega),
      show n + 1 - c.utf8Size = byteLen pre by omega, ih]
    rfl

/-- A text is cut where nothing more of it fits. -/
theorem exists_cut (budget : Nat) (s : Str) : ∃ pre rest, s = pre ++ rest ∧ byteLen pre ≤ budget ∧
    ∀ more, more <+: rest → more ≠ [] → budget < byteLen pre + byteLen more := by
  induction s generalizing budget with
  | nil => exact ⟨[], [], rfl, Nat.zero_le _, fun more hm hne => absurd (prefix_nil.mp hm) hne⟩
  | cons c s ih =>
    by_cases hfit : c.utf8Size ≤ budget
    · obtain ⟨pre, rest, rfl, hf, hn⟩ := ih (budget - c.utf8Size)
      refine ⟨c :: pre, rest, rfl, by rw [byteLen_cons]; omega, fun more hm hne => ?_⟩
      have := hn more hm hne
      rw [byteLen_cons]
      omega
    · refine ⟨[], c :: s, rfl, Nat.zero_le _, fun more hm hne => ?_⟩
      obtain ⟨d, more, rfl⟩ := exists_cons_of_ne_nil hne
      obtain ⟨rfl, -⟩ := cons_prefix_cons.mp hm
      rw [byteLen_nil, byteLen_cons]
      omega

theorem exists_cut_end (budget : Nat) (s : Str) : ∃ init rest, s = init ++ rest ∧ byteLen rest ≤ budget ∧
    ∀ more, more <:+ init → more ≠ [] → budget < byteLen rest + byteLen more := by
  obtain ⟨pre, rest, hs, hf, hn⟩ := exists_cut budget s.reverse
  refine ⟨rest.reverse, pre.reverse, ?_, by rwa [byteLen_reverse], fun more hm hne => ?_⟩
  · rw [← reverse_append, ← hs, reverse_reverse]
  · have := hn more.reverse (by rwa [← reverse_suffix, reverse_reverse]) (by simpa using hne)
    rwa [byteLen_reverse] at this ⊢

theorem longestPrefix_of_cut (hf : byteLen front ≤ budget)
    (hn : ∀ more, more <+: rest → more ≠ [] → budget < byteLen front + byteLen more) :
    LongestPrefix (front ++ rest) budget front := by
  refine ⟨prefix_append _ _, hf, fun q hq hb => ?_⟩
  by_contra hl
  obtain ⟨more, rfl⟩ := prefix_of_prefix_length_le (prefix_append front rest) hq (by omega)
  have ho := hn more ((prefix_append_right_inj front).mp hq) (by rintro rfl; simp at hl)
  rw [byteLen_append] at hb
  omega

theorem longestSuffix_of_cut (hr : byteLen rest ≤ budget)
    (hn : ∀ more, more <:+ init → more ≠ [] → budget < byteLen rest + byteLen more) :
    LongestSuffix (init ++ rest) budget rest := by
  refine ⟨suffix_append _ _, hr, fun q hq hb => ?_⟩
  by_contra hlong
  obtain ⟨more, rfl⟩ := suffix_of_suffix_length_le (suffix_append init rest) hq (by omega)
  obtain ⟨left, hl⟩ := hq
  rw [← append_assoc] at hl
  have ho := hn more ⟨left, append_cancel_right hl⟩ (by rintro rfl; simp at hlong)
  rw [byteLen_append] at hb
  omega

section Loop

variable (beginning target : Nat)

/-- The loop over the beginning that fits. -/
theorem foldl_beginning (pre : Str) (i suf : Nat) (h : i + byteLen pre ≤ beginning) :
    pre.foldl (scanChar beginning target) ⟨i, i, suf, 0, false⟩ =
      ⟨i + byteLen pre, i + byteLen pre, suf, 0, false⟩ := by
  induction pre generalizing i with
  | nil => rfl
  | cons c pre ih =>
    rw [byteLen_cons] at h ⊢
    rw [foldl_cons, scanChar, if_pos (by simp only; omega), ← Nat.add_assoc]
    exact ih (i + c.utf8Size) (by omega)

/-- The loop over characters behind the beginning that start in front of the target. -/
theorem foldl_middle (mid : Str) (i start removed : Nat) (suf : Nat)
    (h : ∀ pre c rest, mid = pre ++ c :: rest →
      i + byteLen pre < target ∧ beginning < i + byteLen pre + c.utf8Size) :
    mid.foldl (scanChar beginning target) ⟨i, start, suf, removed, false⟩ =
      ⟨i + byteLen mid, start, suf, removed + mid.length, false⟩ := by
  induction mid generalizing i removed with
  | nil => rfl
  | cons c mid ih =>
    obtain ⟨hb, ho⟩ := h [] c mid rfl
    rw [byteLen_nil, Nat.add_zero] at hb ho
    have hr := ih (i + c.utf8Size) (removed + 1) fun pre d rest hs => by
      have := h (c :: pre) d rest (by rw [hs]; rfl)
      rw [byteLen_cons] at this
      omega
    rw [foldl_cons, scanChar, if_neg (by simp only; omega), if_neg (by simp only; omega), byteLen_cons,
      length_cons, ← Nat.add_assoc, Nat.add_comm mid.length, ← Nat.add_assoc]
    exact hr

theorem foldl_started (rest : Str) (i start suf removed : Nat) (ht : target ≤ i) (hb : beginning ≤ i) :
    rest.foldl (scanChar beginning target) ⟨i, start, suf, removed, true⟩ =
      ⟨i + byteLen rest, start, suf, removed, true⟩ := by
  induction rest generalizing i with
  | nil => rfl
  | cons c rest ih =>
    have hp := c.utf8Size_pos
    rw [foldl_cons, scanChar, if_neg (by simp only; omega), if_pos ht, byteLen_cons, ← Nat.add_assoc]
    exact ih (i + c.utf8Size) (by omega) (by omega)

/-- The loop over the end: it starts where the middle stops, also if it is empty. -/
theorem foldl_end (rest : Str) (i start removed : Nat) (ht : target ≤ i) (hb : beginning ≤ i) :
    ∃ started, rest.foldl (scanChar beginning target) ⟨i, start, i + byteLen rest, removed, false⟩ =
      ⟨i + byteLen rest, start, i, removed, started⟩ := by
  cases rest with
  | nil => exact ⟨false, rfl⟩
  | cons c rest =>
    have hp := c.utf8Size_pos
    rw [foldl_cons, scanChar, if_neg (by simp only; omega), if_pos ht, byteLen_cons, ← Nat.add_assoc]
    exact ⟨true, foldl_started beginning target rest (i + c.utf8Size) start i removed (by omega) (by omega)⟩

end Loop

/-- A text over the two budgets is cut into a beginning, a middle and an end. -/
theorem splitString_cut (hl : beginning + ending < byteLen s) :
    ∃ pre mid rest, s = pre ++ mid ++ rest ∧ LongestPrefix s beginning pre ∧
      LongestSuffix s ending rest ∧ splitString s beginning ending = some (mid.length, pre, rest) := by
  obtain ⟨pre, tail, hs, hf, hn⟩ := exists_cut beginning s
  obtain ⟨init, rest, hs', hr, hp⟩ := exists_cut_end ending s
  have hb : byteLen s = byteLen init + byteLen rest := by rw [hs', byteLen_append]
  obtain ⟨mid, rfl⟩ : pre <+: init := by
    refine prefix_of_prefix_length_le ⟨tail, hs.symm⟩ ⟨rest, hs'.symm⟩ (Nat.le_of_not_lt fun hlt => ?_)
    obtain ⟨more, rfl⟩ := prefix_of_prefix_length_le ⟨rest, hs'.symm⟩ ⟨tail, hs.symm⟩ (Nat.le_of_lt hlt)
    rw [byteLen_append] at hf
    omega
  obtain rfl : tail = mid ++ rest := by
    rw [hs', append_assoc] at hs
    exact (append_cancel_left hs).symm
  refine ⟨pre, mid, rest, hs', hs ▸ longestPrefix_of_cut hf hn, hs' ▸ longestSuffix_of_cut hr hp, ?_⟩
  rw [byteLen_append] at hb
  have hm : mid.foldl (scanChar beginning (byteLen s - ending)) ⟨byteLen pre, byteLen pre, byteLen s, 0, false⟩ =
      ⟨byteLen pre + byteLen mid, byteLen pre, byteLen s, 0 + mid.length, false⟩ := by
    refine foldl_middle _ _ mid _ _ _ _ fun before c post hsplit => ?_
    have hstart := hp (c :: post) ⟨pre ++ before, by rw [hsplit, append_assoc]⟩ (by simp)
    have ho := hn (before ++ [c]) ⟨post ++ rest, by rw [hsplit]; simp⟩ (by simp)
    rw [hsplit, byteLen_append] at hb
    simp only [byteLen_append, byteLen_cons, byteLen_nil] at ho
    omega
  have hg := foldl_beginning beginning (byteLen s - ending) pre 0 (byteLen s) (by omega)
  obtain ⟨started, he⟩ := foldl_end beginning (byteLen s - ending) rest
    (byteLen pre + byteLen mid) (byteLen pre) (0 + mid.length) (by omega) (by omega)
  have hscan : s.foldl (scanChar beginning (byteLen s - ending)) ⟨0, 0, byteLen s, 0, false⟩ =
      ⟨byteLen s, byteLen pre, byteLen pre + byteLen mid, mid.length, started⟩ := by
    rw [← hb, Nat.zero_add] at he
    conv_lhs => rw [hs', foldl_append, foldl_append, ← hs', hg, Nat.zero_add, hm, Nat.zero_add]
    exact he
  have hbefore : splitAtByte s (byteLen pre) = some (pre, mid ++ rest) := hs ▸ splitAtByte_byteLen pre _
  have ha : splitAtByte s (byteLen pre + byteLen mid) = some (pre ++ mid, rest) := by
    rw [← byteLen_append, hs']
    exact splitAtByte_byteLen _ rest
  rw [splitString, if_neg (by rintro rfl; exact Nat.not_lt_zero _ hl)]
  simp only [hscan, Nat.max_eq_left (Nat.le_add_right _ _), hbefore, ha]
  rfl

/-- The longest beginning and end within their halves of the budget are kept around a marker with the number of
characters between them. -/
theorem truncateMiddleChars_keeps_ends (s : Str) (maxBytes : Nat) :
    (byteLen s ≤ maxBytes → truncateMiddleChars s maxBytes = some s) ∧
      (0 < maxBytes → maxBytes < byteLen s → ∃ front middle rest, s = front ++ middle ++ rest ∧
        LongestPrefix s (maxBytes / 2) front ∧ LongestSuffix s (maxBytes - maxBytes / 2) rest ∧
        truncateMiddleChars s maxBytes = some (front ++
          ("…".toList ++ (toString middle.length).toList ++ " chars truncated…".toList) ++ rest)) := by
  constructor
  · intro hle
    unfold truncateMiddleChars truncateWithByteEstimate
    by_cases hs : s = []
    · rw [hs, if_pos rfl]
    · obtain ⟨c, rest, rfl⟩ := exists_cons_of_ne_nil hs
      have hp := c.utf8Size_pos
      have hm : maxBytes ≠ 0 := by
        rw [byteLen_cons] at hle
        omega
      rw [if_neg hs, if_neg hm, if_pos hle]
  · intro hp hlt
    have hl : maxBytes / 2 + (maxBytes - maxBytes / 2) < byteLen s := by omega
    obtain ⟨front, middle, rest, hs, hf, hr, hsplit⟩ := splitString_cut hl
    refine ⟨front, middle, rest, hs, hf, hr, ?_⟩
    rw [truncateMiddleChars, truncateWithByteEstimate, if_neg (by rintro rfl; exact Nat.not_lt_zero _ hlt),
      if_neg (by omega), if_neg (by omega)]
    simp only [splitBudget, hsplit]
    rfl

end MiddleTruncation
