import Mathlib

/-!
# Wildcard patterns

A pattern is a list of tokens: a letter, any one letter, or any run of letters. A text matches a concatenation
of patterns if it splits into texts that match the parts.
-/
namespace Wildcard

open List

variable {α : Type}

inductive Token (α : Type) where
  | run
  | one
  | letter (a : α)
  deriving DecidableEq

/-- Which letters count as the same is a parameter. -/
def isMatch (same : α → α → Bool) : List (Token α) → List α → Bool
  | [], text => text.isEmpty
  | .run :: pattern, text => text.tails.any fun rest => isMatch same pattern rest
  | .one :: pattern, text =>
    match text with
    | [] => false
    | _ :: rest => isMatch same pattern rest
  | .letter a :: pattern, text =>
    match text with
    | [] => false
    | b :: rest => same a b && isMatch same pattern rest

@[simp] theorem isMatch_nil : isMatch same [] text = true ↔ text = [] := by
  simp [isMatch]

theorem isMatch_run :
    isMatch same (.run :: pattern) text = true ↔ ∃ sk rest, text = sk ++ rest ∧ isMatch same pattern rest = true := by
  rw [isMatch, any_eq_true]
  constructor
  · rintro ⟨rest, hr, hm⟩
    obtain ⟨sk, rfl⟩ := (mem_tails ..).mp hr
    exact ⟨sk, rest, rfl, hm⟩
  · rintro ⟨sk, rest, rfl, hm⟩
    exact ⟨rest, (mem_tails ..).mpr (suffix_append ..), hm⟩

theorem isMatch_one :
    isMatch same (.one :: pattern) text = true ↔ ∃ b rest, text = b :: rest ∧ isMatch same pattern rest = true := by
  cases text with
  | _ => simp [isMatch]

theorem isMatch_letter :
    isMatch same (.letter a :: pattern) text = true ↔ ∃ b rest, text = b :: rest ∧ same a b = true ∧
      isMatch same pattern rest = true := by
  cases text with
  | nil => simp [isMatch]
  | cons b rest => simp [isMatch]

theorem isMatch_append :
    isMatch same (first ++ second) text = true ↔ ∃ pre back, text = pre ++ back ∧
      isMatch same first pre = true ∧ isMatch same second back = true := by
  induction first generalizing text with
  | nil => simp
  | cons token first ih =>
    rw [cons_append]
    cases token with
    | run =>
      rw [isMatch_run]
      constructor
      · rintro ⟨sk, rest, rfl, hr⟩
        obtain ⟨pre, back, rfl, hf, hb⟩ := ih.mp hr
        exact ⟨sk ++ pre, back, by rw [append_assoc], isMatch_run.mpr ⟨sk, pre, rfl, hf⟩, hb⟩
      · rintro ⟨pre, back, rfl, hf, hb⟩
        obtain ⟨sk, rest, rfl, hr⟩ := isMatch_run.mp hf
        exact ⟨sk, rest ++ back, by rw [append_assoc], ih.mpr ⟨rest, back, rfl, hr, hb⟩⟩
    | one =>
      rw [isMatch_one]
      constructor
      · rintro ⟨b, rest, rfl, hr⟩
        obtain ⟨pre, back, rfl, hf, hb⟩ := ih.mp hr
        exact ⟨b :: pre, back, rfl, isMatch_one.mpr ⟨b, pre, rfl, hf⟩, hb⟩
      · rintro ⟨pre, back, rfl, hf, hb⟩
        obtain ⟨b, rest, rfl, hr⟩ := isMatch_one.mp hf
        exact ⟨b, rest ++ back, rfl, ih.mpr ⟨rest, back, rfl, hr, hb⟩⟩
    | letter a =>
      rw [isMatch_letter]
      constructor
      · rintro ⟨b, rest, rfl, hs, hr⟩
        obtain ⟨pre, back, rfl, hf, hb⟩ := ih.mp hr
        exact ⟨b :: pre, back, rfl, isMatch_letter.mpr ⟨b, pre, rfl, hs, hf⟩, hb⟩
      · rintro ⟨pre, back, rfl, hf, hb⟩
        obtain ⟨b, rest, rfl, hs, hr⟩ := isMatch_letter.mp hf
        exact ⟨b, rest ++ back, rfl, hs, ih.mpr ⟨rest, back, rfl, hr, hb⟩⟩

/-- A pattern that is not only runs matches no empty text. -/
theorem ne_nil_of_isMatch (h : isMatch same pat text = true)
    (hm : token ∈ pat) (ht : token ≠ .run) : text ≠ [] := by
  rintro rfl
  induction pat with
  | nil => cases hm
  | cons first pat ih =>
    cases first with
    | run =>
      obtain ⟨sk, rest, hn, hr⟩ := isMatch_run.mp h
      obtain ⟨rfl, rfl⟩ := append_eq_nil_iff.mp hn.symm
      rcases mem_cons.mp hm with rfl | hm
      · exact ht rfl
      · exact ih hm hr
    | _ => simp [isMatch] at h

/-- One letter and then a run is any text but the empty one. -/
theorem isMatch_one_run (h : text ≠ []) : isMatch same [.one, .run] text = true := by
  obtain ⟨b, rest, rfl⟩ := exists_cons_of_ne_nil h
  exact isMatch_one.mpr ⟨b, rest, rfl, isMatch_run.mpr ⟨rest, [], (append_nil _).symm, isMatch_nil.mpr rfl⟩⟩

/-- What is not only runs is covered by any text that is not empty. -/
theorem isMatch_one_run_append (hm : token ∈ first) (ht : token ≠ .run)
    (h : isMatch same (first ++ second) text = true) : isMatch same ([.one, .run] ++ second) text = true := by
  obtain ⟨pre, back, rfl, hf, hb⟩ := isMatch_append.mp h
  exact isMatch_append.mpr ⟨pre, back, rfl, isMatch_one_run (ne_nil_of_isMatch hf hm ht), hb⟩

end Wildcard
