import Mathlib

/-!
# String slices as character sequences

A `&str` is the list of its `char`s. The operations below are those of the
standard library that a line-oriented parser needs: trimming of Unicode white
space, stripping of a fixed prefix or suffix, and splitting into lines. None of
them mentions any particular grammar. Sizes are numbers up to `usizeMax`.
-/
namespace RustStr

open List

abbrev Str := List Char

instance : LawfulBEq Str := inferInstance

def usizeMax : Nat := 2 ^ 64 - 1

def saturatingAdd (a b : Nat) : Nat := min (a + b) usizeMax

theorem saturatingAdd_eq (h : a + b ≤ usizeMax) : saturatingAdd a b = a + b := Nat.min_eq_left h

/-- `char::is_whitespace`: the Unicode `White_Space` property. -/
def isWhitespace (c : Char) : Bool :=
  let n := c.toNat
  (9 ≤ n && n ≤ 13) || n == 0x20 || n == 0x85 || n == 0xA0 || n == 0x1680 ||
    (0x2000 ≤ n && n ≤ 0x200A) || n == 0x2028 || n == 0x2029 || n == 0x202F ||
    n == 0x205F || n == 0x3000

def trimStart (s : Str) : Str := s.dropWhile isWhitespace

def trimEnd (s : Str) : Str := s.rdropWhile isWhitespace

def trim (s : Str) : Str := trimEnd (trimStart s)

def stripPrefix (s p : Str) : Option Str := s.dropPrefix? p

def startsWith (s p : Str) : Bool := p.isPrefixOf s

def endsWith (s p : Str) : Bool := p.isSuffixOf s

/-- `line.strip_suffix('\r').unwrap_or(line)`: at most one carriage return goes. -/
def stripCr (s : Str) : Str := if s.getLast? = some '\r' then s.dropLast else s

/-- The lines of a text that are terminated by a newline. -/
def terminated (s : Str) : List Str := (s.splitOn '\n').dropLast

/-- What stands behind the last newline. -/
def unterminated (s : Str) : Str := (s.splitOn '\n').getLastD []

/-- `str::lines`: an unterminated last line keeps its carriage return, and a
terminated one is not followed by an empty line. -/
def lines (s : Str) : List Str :=
  (terminated s).map stripCr ++ (if unterminated s = [] then [] else [unterminated s])

/-- `lines.join("\n")` -/
def joinLines (ls : List Str) : Str := ['\n'].intercalate ls

/-- `str::eq_ignore_ascii_case` -/
def eqIgnoreAsciiCase (s t : Str) : Bool := s.map Char.toLower == t.map Char.toLower

/-- `str::split_once`: what stands before and behind the first separator. -/
def splitOnce (sep : Str) : Str → Option (Str × Str)
  | [] => if sep = [] then some ([], []) else none
  | c :: s =>
    match stripPrefix (c :: s) sep with
    | some rest => some ([], rest)
    | none => (splitOnce sep s).map fun (before, rest) => (c :: before, rest)

@[simp] theorem isWhitespace_newline : isWhitespace '\n' = true := by decide
@[simp] theorem isWhitespace_cr : isWhitespace '\r' = true := by decide
@[simp] theorem isWhitespace_space : isWhitespace ' ' = true := by decide

/-- A line with no white space at either end is its own trimming. -/
def Trimmed (s : Str) : Prop := trimStart s = s ∧ trimEnd s = s

@[simp] theorem trimStart_nil : trimStart [] = [] := rfl
@[simp] theorem trimEnd_nil : trimEnd [] = [] := rfl
@[simp] theorem trim_nil : trim [] = [] := rfl

theorem stripPrefix_eq_some : stripPrefix s p = some r ↔ s = p ++ r := by
  rw [stripPrefix, dropPrefix?_eq_some_iff]
  constructor
  · rintro ⟨q, hs, hq⟩
    rw [hs, eq_of_beq hq]
  · intro hs
    exact ⟨p, hs, BEq.rfl⟩

@[simp] theorem stripPrefix_cons_self : stripPrefix (c :: s) [c] = some s := stripPrefix_eq_some.mpr rfl

@[simp] theorem startsWith_singleton : startsWith (c :: s) [d] = (d == c) := by
  simp [startsWith, List.isPrefixOf]

theorem stripPrefix_eq_none : stripPrefix s p = none ↔ ¬ p <+: s := by
  rw [Option.eq_none_iff_forall_ne_some]
  constructor
  · rintro h ⟨r, hr⟩
    exact h r (stripPrefix_eq_some.mpr hr.symm)
  · intro h r hr
    exact h ⟨r, (stripPrefix_eq_some.mp hr).symm⟩

/-- The two words differ at a common position. -/
def differ (p m : Str) : Bool := (p.zip m).any fun (a, b) => a != b

/-- Words that differ at a common position do not start the same text. -/
theorem not_starts_of_differ (h : differ p m = true) (r : Str) : ¬ p <+: m ++ r := by
  induction p generalizing m with
  | nil => simp [differ] at h
  | cons a p ih =>
    cases m with
    | nil => simp [differ] at h
    | cons b m =>
      rw [cons_append, cons_prefix_cons]
      rintro ⟨rfl, hp⟩
      exact ih (by simpa [differ] using h) hp

theorem stripPrefix_of_differ (h : differ p m = true) (r : Str) : stripPrefix (m ++ r) p = none :=
  stripPrefix_eq_none.mpr (not_starts_of_differ h r)

theorem append_ne_of_differ (h : differ p m = true) (r : Str) : m ++ r ≠ p := by
  intro he
  exact not_starts_of_differ h r (he ▸ prefix_rfl)

theorem stripPrefix_cons_ne (h : c ≠ d) : stripPrefix (c :: s) (d :: p) = none := by
  rw [stripPrefix_eq_none, cons_prefix_cons]
  exact fun hp => h hp.1.symm

theorem trimStart_cons_of_not (s : Str) (h : isWhitespace c = false) : trimStart (c :: s) = c :: s := by
  simp [trimStart, h]

theorem trimEnd_eq_self_iff : trimEnd s = s ↔ ∀ c, s.getLast? = some c → isWhitespace c = false := by
  rw [trimEnd, rdropWhile_eq_self_iff]
  constructor
  · intro h c hc
    have hs : s ≠ [] := by rintro rfl; simp at hc
    rw [getLast?_eq_getLast_of_ne_nil hs, Option.some.injEq] at hc
    simpa [hc] using h hs
  · intro h hs
    simpa using h _ (getLast?_eq_getLast_of_ne_nil hs)

theorem trimEnd_trimEnd (s : Str) : trimEnd (trimEnd s) = trimEnd s := rdropWhile_idempotent ..

/-- White space at the end of a line never survives either trimming. -/
theorem trimEnd_append_ws (s w : Str) (hw : ∀ c ∈ w, isWhitespace c) : trimEnd (s ++ w) = trimEnd s := by
  induction w using List.reverseRecOn with
  | nil => simp
  | append_singleton w c ih =>
    rw [← append_assoc, trimEnd, rdropWhile_concat_pos _ _ _ (hw c (by simp))]
    exact ih fun d hd => hw d (by simp [hd])

theorem trimEnd_decompose (s : Str) : ∃ w, s = trimEnd s ++ w ∧ ∀ c ∈ w, isWhitespace c := by
  refine ⟨s.rtakeWhile isWhitespace, ?_, ?_⟩
  · rw [trimEnd, rdropWhile_append_rtakeWhile]
  · intro c hc
    have h := mem_takeWhile_imp (mem_reverse.mp hc)
    exact h

/-- Trimming the end does not touch the beginning. -/
theorem eq_cons_of_trimEnd (h : trimEnd s = c :: t) : ∃ t', s = c :: t' := by
  obtain ⟨w, hs, -⟩ := trimEnd_decompose s
  rw [h] at hs
  exact ⟨t ++ w, hs⟩

theorem trimEnd_cons_of_not (s : Str) (h : isWhitespace c = false) : trimEnd (c :: s) = c :: trimEnd s := by
  obtain ⟨w, hs, hw⟩ := trimEnd_decompose s
  conv_lhs => rw [hs, ← cons_append, trimEnd_append_ws _ _ hw]
  rw [trimEnd_eq_self_iff]
  intro d hd
  cases ht : trimEnd s with
  | nil =>
    rw [ht, getLast?_singleton] at hd
    rwa [← Option.some.inj hd]
  | cons e t =>
    rw [ht, getLast?_cons_cons, ← ht] at hd
    exact trimEnd_eq_self_iff.mp (trimEnd_trimEnd s) d hd

/-- A text that ends in a trimmed, non-empty word is trimmed at its end. -/
theorem trimEnd_append_trimmed (s : Str) (ht : trimEnd t = t) (hne : t ≠ []) : trimEnd (s ++ t) = s ++ t := by
  rw [trimEnd_eq_self_iff]
  intro c hc
  refine trimEnd_eq_self_iff.mp ht c ?_
  rw [getLast?_append] at hc
  rw [getLast?_eq_getLast_of_ne_nil hne] at hc ⊢
  simpa using hc

theorem trimStart_decompose (s : Str) : ∃ w, s = w ++ trimStart s ∧ ∀ c ∈ w, isWhitespace c :=
  ⟨s.takeWhile isWhitespace, (takeWhile_append_dropWhile ..).symm, fun _ hc => mem_takeWhile_imp hc⟩

theorem trimStart_ws_append (w s : Str) (hw : ∀ c ∈ w, isWhitespace c) : trimStart (w ++ s) = trimStart s := by
  induction w with
  | nil => rfl
  | cons c w ih =>
    have hc : isWhitespace c = true := hw c (by simp)
    rw [cons_append, trimStart, dropWhile_cons_of_pos hc]
    exact ih fun d hd => hw d (by simp [hd])

/-- Trimming is determined by any split into white space, a trimmed core and
white space. -/
theorem trim_sandwich (w s w' : Str) (hw : ∀ c ∈ w, isWhitespace c)
    (hs : Trimmed s) (hne : s ≠ []) (hw' : ∀ c ∈ w', isWhitespace c) :
    trim (w ++ s ++ w') = s := by
  obtain ⟨c, t, rfl⟩ := exists_cons_of_ne_nil hne
  have hc : isWhitespace c = false := by
    have h := hs.1
    by_contra hcon
    have hcw : isWhitespace c = true := by simpa using hcon
    rw [trimStart, dropWhile_cons_of_pos hcw] at h
    have := congrArg List.length h
    have := (dropWhile_suffix (l := t) isWhitespace).length_le
    simp only [length_cons] at *
    omega
  rw [trim, append_assoc, trimStart_ws_append _ _ hw, cons_append,
    trimStart_cons_of_not _ hc, ← cons_append, trimEnd_append_ws _ _ hw', hs.2]

theorem trim_eq_nil_iff : trim s = [] ↔ ∀ c ∈ s, isWhitespace c := by
  rw [trim, trimEnd, rdropWhile_eq_nil_iff]
  constructor
  · intro h c hc
    obtain ⟨w, he, hw⟩ := trimStart_decompose s
    rw [he] at hc
    rcases mem_append.mp hc with hc | hc
    · exact hw c hc
    · exact h c hc
  · intro h c hc
    exact h c ((dropWhile_suffix isWhitespace).subset hc)

theorem trimStart_trimEnd (s : Str) : trimStart (trimEnd s) = trim s := by
  obtain ⟨w, hs, hw⟩ := trimEnd_decompose s
  obtain ⟨v, hv, hvw⟩ := trimStart_decompose (trimEnd s)
  by_cases hne : trimStart (trimEnd s) = []
  · rw [hne, append_nil] at hv
    rw [hne, eq_comm, trim_eq_nil_iff, hs, hv]
    intro c hc
    cases mem_append.mp hc with
    | inl hc => exact hvw c hc
    | inr hc => exact hw c hc
  · have hcore : Trimmed (trimStart (trimEnd s)) := by
      refine ⟨dropWhile_idempotent .., trimEnd_eq_self_iff.mpr fun c hc => ?_⟩
      refine trimEnd_eq_self_iff.mp (trimEnd_trimEnd s) c ?_
      rw [hv, getLast?_append, hc, Option.some_or]
    have h := trim_sandwich v _ w hvw hcore hne hw
    rwa [← hv, ← hs, eq_comm] at h

/-! ## Carriage returns and lines -/

theorem stripCr_decompose (s : Str) : ∃ w, s = stripCr s ++ w ∧ ∀ c ∈ w, isWhitespace c := by
  unfold stripCr
  split
  · rename_i h
    obtain ⟨t, rfl⟩ := getLast?_eq_some_iff.mp h
    exact ⟨['\r'], by simp, by simp⟩
  · exact ⟨[], by simp, by simp⟩

@[simp] theorem trimEnd_stripCr (s : Str) : trimEnd (stripCr s) = trimEnd s := by
  obtain ⟨w, hs, hw⟩ := stripCr_decompose s
  conv_rhs => rw [hs]
  rw [trimEnd_append_ws _ _ hw]

@[simp] theorem trim_stripCr (s : Str) : trim (stripCr s) = trim s := by
  rw [← trimStart_trimEnd, trimEnd_stripCr, trimStart_trimEnd]

@[simp] theorem stripCr_nil : stripCr [] = [] := rfl

theorem stripCr_cons (h : c ≠ '\r') : stripCr (c :: s) = c :: stripCr s := by
  cases s with
  | nil => simp [stripCr, h]
  | cons d s =>
    unfold stripCr
    rw [getLast?_cons_cons]
    split <;> rfl

theorem stripCr_subset (s : Str) : stripCr s ⊆ s := by
  obtain ⟨w, hs, -⟩ := stripCr_decompose s
  conv_rhs => rw [hs]
  exact subset_append_left _ _

theorem stripCr_eq_self_iff : stripCr s = s ↔ s.getLast? ≠ some '\r' := by
  unfold stripCr
  split
  · rename_i h
    obtain ⟨t, rfl⟩ := getLast?_eq_some_iff.mp h
    simp
  · simpa

theorem length_stripCr_le (s : Str) : (stripCr s).length ≤ s.length := by
  obtain ⟨w, hs, -⟩ := stripCr_decompose s
  have := congrArg List.length hs
  rw [length_append] at this
  omega

theorem terminated_of_not_mem (h : '\n' ∉ s) : terminated s = [] := by
  simp [terminated, splitOn_eq_singleton h]

theorem unterminated_of_not_mem (h : '\n' ∉ s) : unterminated s = s := by
  simp [unterminated, splitOn_eq_singleton h]

theorem splitOn_newline : s.splitOn '\n' = terminated s ++ [unterminated s] := by
  have hne := splitOn_ne_nil '\n' s
  rw [terminated, unterminated, getLastD_eq_getLast?, getLast?_eq_getLast_of_ne_nil hne,
    Option.getD_some, dropLast_append_getLast hne]

theorem terminated_append_newline (s t : Str) :
    terminated (s ++ '\n' :: t) = terminated s ++ unterminated s :: terminated t ∧
      unterminated (s ++ '\n' :: t) = unterminated t := by
  have h := splitOn_append_cons_self (a := '\n') s t
  rw [splitOn_newline, splitOn_newline, splitOn_newline] at h
  have h' : terminated (s ++ '\n' :: t) ++ [unterminated (s ++ '\n' :: t)] =
      (terminated s ++ unterminated s :: terminated t) ++ [unterminated t] := by simpa using h
  obtain ⟨h₁, h₂⟩ := append_inj' h' rfl
  exact ⟨h₁, by simpa using h₂⟩

/-- A line, its newline and the rest of the text. -/
theorem terminated_cons (h : '\n' ∉ l) (s : Str) : terminated (l ++ '\n' :: s) = l :: terminated s := by
  rw [(terminated_append_newline l s).1, terminated_of_not_mem h, unterminated_of_not_mem h, nil_append]

theorem unterminated_cons (l s : Str) : unterminated (l ++ '\n' :: s) = unterminated s :=
  (terminated_append_newline l s).2

/-- A text has no newline, or it starts with a terminated line. -/
theorem line_or_terminated (s : Str) : '\n' ∉ s ∨ ∃ l rest, '\n' ∉ l ∧ s = l ++ '\n' :: rest := by
  by_cases h : '\n' ∈ s
  · obtain ⟨l, rest, hs, hl⟩ := eq_append_cons_of_mem h
    exact .inr ⟨l, rest, hl, hs⟩
  · exact .inl h

theorem not_mem_of_terminated (h : l ∈ terminated s) : '\n' ∉ l := by
  cases line_or_terminated s with
  | inl hs => rw [terminated_of_not_mem hs] at h; cases h
  | inr hs =>
    obtain ⟨l', rest, hl', rfl⟩ := hs
    rw [terminated_cons hl'] at h
    cases mem_cons.mp h with
    | inl he => rw [he]; exact hl'
    | inr hr => exact not_mem_of_terminated hr
termination_by s.length

theorem not_mem_unterminated (s : Str) : '\n' ∉ unterminated s := by
  cases line_or_terminated s with
  | inl hs => rw [unterminated_of_not_mem hs]; exact hs
  | inr hs =>
    obtain ⟨l', rest, hl', rfl⟩ := hs
    rw [unterminated_cons]
    exact not_mem_unterminated rest
termination_by s.length

/-- The lines of a text consist of its characters. -/
theorem line_subset (h : l ∈ terminated s ∨ l = unterminated s) : l ⊆ s := by
  cases line_or_terminated s with
  | inl hs =>
    rw [terminated_of_not_mem hs, unterminated_of_not_mem hs] at h
    cases h with
    | inl h => cases h
    | inr h => rw [h]; exact List.Subset.refl _
  | inr hs =>
    obtain ⟨l', rest, hl', rfl⟩ := hs
    rw [terminated_cons hl', unterminated_cons, mem_cons, or_assoc] at h
    cases h with
    | inl h => rw [h]; exact subset_append_left _ _
    | inr h =>
      refine List.Subset.trans (line_subset h) (List.Subset.trans ?_ (subset_append_right _ _))
      exact subset_cons_self _ _
termination_by s.length

/-- Text behind the last newline goes to the unterminated line. -/
theorem terminated_append (hw : '\n' ∉ w) (s : Str) :
    terminated (s ++ w) = terminated s ∧ unterminated (s ++ w) = unterminated s ++ w := by
  cases line_or_terminated s with
  | inl hs =>
    have hsw : '\n' ∉ s ++ w := by simp [hs, hw]
    rw [terminated_of_not_mem hsw, terminated_of_not_mem hs, unterminated_of_not_mem hsw, unterminated_of_not_mem hs]
    exact ⟨rfl, rfl⟩
  | inr hs =>
    obtain ⟨l, rest, hl, rfl⟩ := hs
    obtain ⟨h₁, h₂⟩ := terminated_append hw rest
    rw [append_assoc, cons_append, terminated_cons hl, terminated_cons hl,
      unterminated_cons, unterminated_cons, h₁, h₂]
    exact ⟨rfl, rfl⟩
termination_by s.length

theorem joinLines_cons (l : Str) (h : ls ≠ []) : joinLines (l :: ls) = l ++ '\n' :: joinLines ls := by
  obtain ⟨l', ls', rfl⟩ := exists_cons_of_ne_nil h
  simp [joinLines, List.intercalate]

/-- Joined lines end with the last one. -/
theorem joinLines_concat (ls : List Str) (r : Str) : ∃ pre, joinLines (ls ++ [r]) = pre ++ r := by
  induction ls with
  | nil => exact ⟨[], by simp [joinLines]⟩
  | cons l ls ih =>
    obtain ⟨pre, hf⟩ := ih
    exact ⟨l ++ '\n' :: pre, by rw [cons_append, joinLines_cons l (by simp), hf]; simp⟩

theorem splitOn_joinLines (hls : ∀ l ∈ ls, '\n' ∉ l) (hr : '\n' ∉ r) :
    terminated (joinLines (ls ++ [r])) = ls ∧ unterminated (joinLines (ls ++ [r])) = r := by
  have ha : ∀ l ∈ ls ++ [r], '\n' ∉ l := by
    intro l hl
    cases mem_append.mp hl with
    | inl hl => exact hls l hl
    | inr hl => rw [mem_singleton.mp hl]; exact hr
  have h : (joinLines (ls ++ [r])).splitOn '\n' = ls ++ [r] := splitOn_intercalate '\n' ha (by simp)
  rw [splitOn_newline] at h
  obtain ⟨h₁, h₂⟩ := append_inj' h rfl
  exact ⟨h₁, by simpa using h₂⟩

end RustStr
