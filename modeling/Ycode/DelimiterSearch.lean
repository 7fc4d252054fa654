import Mathlib

/-!
# Searching a text that is still growing

The first place where one of several words starts. A place that was found stays the first one when the text
grows, if no word lies inside another. If none was found, the words can only start in the longest end of the
text that begins one of them.
-/
namespace DelimiterSearch

open List

variable {α : Type}

variable {text : List α}

/-- The first place from which the rest of the text satisfies the predicate. -/
def firstIndex (p : List α → Bool) : List α → Option Nat
  | [] => if p [] then some 0 else none
  | item :: items => if p (item :: items) then some 0 else (firstIndex p items).map (· + 1)

theorem firstIndex_eq_some :
    firstIndex p text = some i ↔ i ≤ text.length ∧ p (text.drop i) = true ∧ ∀ j < i, p (text.drop j) = false := by
  induction text generalizing i with
  | nil =>
    rw [firstIndex]
    constructor
    · intro h
      split at h
      · cases h
        exact ⟨Nat.le_refl _, ‹_›, by simp⟩
      · cases h
    · rintro ⟨hi, hp, _⟩
      obtain rfl := Nat.le_zero.mp hi
      exact if_pos hp
  | cons item xs ih =>
    rw [firstIndex]
    by_cases hh : p (item :: xs) = true
    · rw [if_pos hh]
      constructor
      · intro h
        cases h
        exact ⟨Nat.zero_le _, hh, by simp⟩
      · rintro ⟨_, _, hf⟩
        cases i with
        | zero => rfl
        | succ i =>
          have := hf 0 (Nat.succ_pos i)
          rw [drop_zero, hh] at this
          cases this
    · rw [if_neg hh, Option.map_eq_some_iff]
      constructor
      · rintro ⟨j, hj, rfl⟩
        obtain ⟨hle, hp, hf⟩ := ih.mp hj
        refine ⟨Nat.succ_le_succ hle, hp, fun k hk => ?_⟩
        cases k with
        | zero => exact Bool.eq_false_iff.mpr hh
        | succ k => exact hf k (Nat.lt_of_succ_lt_succ hk)
      · rintro ⟨hle, hp, hf⟩
        cases i with
        | zero => exact absurd hp hh
        | succ i =>
          exact ⟨i, ih.mpr ⟨Nat.le_of_succ_le_succ hle, hp, fun j hj => hf (j + 1) (Nat.succ_lt_succ hj)⟩, rfl⟩

theorem firstIndex_eq_none : firstIndex p text = none ↔ ∀ j ≤ text.length, p (text.drop j) = false := by
  induction text with
  | nil => simp [firstIndex]
  | cons item xs ih =>
    rw [firstIndex]
    by_cases hh : p (item :: xs) = true
    · rw [if_pos hh]
      constructor
      · intro h
        cases h
      · intro h
        have := h 0 (Nat.zero_le _)
        rw [drop_zero, hh] at this
        cases this
    · rw [if_neg hh, Option.map_eq_none_iff, ih]
      constructor
      · intro h j hj
        cases j with
        | zero => exact Bool.eq_false_iff.mpr hh
        | succ j => exact h j (Nat.le_of_succ_le_succ hj)
      · intro h j hj
        exact h (j + 1) (Nat.succ_le_succ hj)

/-- A part without a place to start can be passed over. -/
theorem firstIndex_drop (hk : k ≤ text.length) (h : ∀ j < k, p (text.drop j) = false) :
    firstIndex p text = (firstIndex p (text.drop k)).map (· + k) := by
  induction k generalizing text with
  | zero => simp
  | succ k ih =>
    cases text with
    | nil => exact absurd hk (Nat.not_succ_le_zero k)
    | cons item xs =>
      have hh : ¬p (item :: xs) = true := Bool.eq_false_iff.mp (h 0 (Nat.succ_pos k))
      rw [firstIndex, if_neg hh, drop_succ_cons,
        ih (Nat.le_of_succ_le_succ hk) fun j hj => h (j + 1) (Nat.succ_lt_succ hj), Option.map_map]
      rfl

theorem firstIndex_drop_none (h : firstIndex p text = none) (hk : k ≤ text.length) :
    firstIndex p (text.drop k) = none := by
  rw [firstIndex_eq_none] at h ⊢
  intro j hj
  rw [length_drop] at hj
  rw [drop_drop]
  exact h (k + j) (by omega)

section Words

variable [DecidableEq α]

variable {words : List (List α)} {text word : List α}

/-- One of the words starts the text. -/
def startsWithAny (words : List (List α)) (text : List α) : Bool := words.any fun word => decide (word <+: text)

theorem startsWithAny_eq_true : startsWithAny words text = true ↔ ∃ word ∈ words, word <+: text := by
  simp [startsWithAny]

theorem startsWithAny_eq_false : startsWithAny words text = false ↔ ∀ word ∈ words, ¬word <+: text := by
  simp [startsWithAny]

omit [DecidableEq α] in
theorem start_append (hi : i ≤ text.length) (h : word <+: text.drop i) :
    word <+: (text ++ more).drop i := by
  rw [drop_append_of_le_length hi]
  exact h.trans (prefix_append ..)

omit [DecidableEq α] in
/-- A word that starts in a text and does not end beyond it lies in the text. -/
theorem start_of_append (h : word <+: (text ++ more).drop i) (he : i + word.length ≤ text.length) :
    word <+: text.drop i := by
  rw [drop_append_of_le_length (by omega)] at h
  exact prefix_of_prefix_length_le h (prefix_append ..) (by rw [length_drop]; omega)

omit [DecidableEq α] in
/-- A word that starts in a text and ends beyond it begins with the end of the text. -/
theorem start_across (h : word <+: (text ++ more).drop i) (hi : i ≤ text.length)
    (he : text.length ≤ i + word.length) : text.drop i <+: word := by
  rw [drop_append_of_le_length hi] at h
  exact prefix_of_prefix_length_le (prefix_append ..) h (by rw [length_drop]; omega)

omit [DecidableEq α] in
theorem prefix_infix_drop (h : word <+: text.drop j) (hi : i ≤ j) : word <:+: text.drop i := by
  obtain ⟨k, rfl⟩ := Nat.exists_eq_add_of_le hi
  rw [← drop_drop] at h
  exact h.isInfix.trans (drop_suffix ..).isInfix

/-- No word lies inside another one. -/
def Separate (words : List (List α)) : Prop := words.Pairwise fun a b => ¬a <:+: b ∧ ¬b <:+: a

omit [DecidableEq α] in
theorem Separate.eq_of_infix (h : Separate words) (ha : a ∈ words) (hb : b ∈ words) (hi : a <:+: b) : a = b := by
  by_contra hne
  have hs : Std.Symm fun a b : List α => ¬a <:+: b ∧ ¬b <:+: a := ⟨fun _ _ hab => ⟨hab.2, hab.1⟩⟩
  exact (h.forall ha hb hne).1 hi

omit [DecidableEq α] in
theorem Separate.nodup (h : Separate words) : words.Nodup := by
  refine nodup_iff_pairwise_ne.mpr (h.imp ?_)
  rintro a b ha rfl
  exact ha.1 infix_rfl

omit [DecidableEq α] in
/-- At most one word starts at a place. -/
theorem Separate.eq_of_start (h : Separate words) (ha : a ∈ words)
    (hb : b ∈ words) (hs : a <+: text) (ht : b <+: text) : a = b := by
  rcases prefix_or_prefix_of_prefix hs ht with hab | hba
  · exact h.eq_of_infix ha hb hab.isInfix
  · exact (h.eq_of_infix hb ha hba.isInfix).symm

/-- The first place stays the first when the text grows. -/
theorem firstIndex_append (hsep : Separate words)
    (h : firstIndex (startsWithAny words) text = some i) (more : List α) :
    firstIndex (startsWithAny words) (text ++ more) = some i := by
  obtain ⟨hi, hs, hf⟩ := firstIndex_eq_some.mp h
  obtain ⟨word, hw, hb⟩ := startsWithAny_eq_true.mp hs
  have hl := hb.length_le
  rw [length_drop] at hl
  refine firstIndex_eq_some.mpr ⟨by rw [length_append]; omega, ?_, fun j hj => ?_⟩
  · exact startsWithAny_eq_true.mpr ⟨word, hw, start_append hi hb⟩
  · rw [startsWithAny_eq_false]
    intro other ho he
    by_cases hend : j + other.length ≤ text.length
    · exact startsWithAny_eq_false.mp (hf j hj) other ho (start_of_append he hend)
    · -- the earlier word would run over the found one
      have ha := start_across he (by omega) (by omega)
      have hn : word <:+: other := (prefix_infix_drop hb (Nat.le_of_lt hj)).trans ha.isInfix
      obtain rfl := hsep.eq_of_infix hw ho hn
      omega

end Words

/-- No end of the text that is longer than `keep` begins the word without being all of it. -/
def OverlapLe (text word : List α) (keep : Nat) : Prop :=
  ∀ i ≤ text.length, text.length - i < word.length → text.drop i <+: word → text.length - i ≤ keep

variable [DecidableEq α]

/-- Where nothing has started so far, something can start only in an end of the text that begins a word. -/
theorem no_start_before (hn : firstIndex (startsWithAny words) text = none)
    (hk : ∀ word ∈ words, OverlapLe text word keep) (hj : j < text.length - keep) :
    startsWithAny words ((text ++ more).drop j) = false := by
  rw [startsWithAny_eq_false]
  intro word hw hs
  by_cases he : j + word.length ≤ text.length
  · exact startsWithAny_eq_false.mp (firstIndex_eq_none.mp hn j (by omega)) word hw
      (start_of_append hs he)
  · have ho := hk word hw j (by omega) (by omega) (start_across hs (by omega) (by omega))
    omega

end DelimiterSearch
