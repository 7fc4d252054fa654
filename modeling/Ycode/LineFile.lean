import Mathlib

/-!
# Files of lines

A file is a list of bytes. Its complete lines are those closed by a newline; what stands after the last newline
is its tail. Reading commutes with appending: the tail is read again together with what was appended.
-/
namespace LineFile

open List

variable {β ρ : Type} [DecidableEq β] (newline : β)

/-- The complete lines without their newline, and the tail. -/
def split : List β → List (List β) × List β
  | [] => ([], [])
  | byte :: bytes =>
    if byte = newline then ([] :: (split bytes).1, (split bytes).2)
    else match (split bytes).1 with
      | [] => ([], byte :: (split bytes).2)
      | line :: lines => ((byte :: line) :: lines, (split bytes).2)

def lines (file : List β) : List (List β) := (split newline file).1

def tail (file : List β) : List β := (split newline file).2

/-- The bytes of complete lines. -/
def join (lines : List (List β)) : List β := (lines.map (· ++ [newline])).flatten

/-- The records of a file: every line that parses, the tail included. -/
def records (parse : List β → Option ρ) (file : List β) : List ρ :=
  (lines newline file ++ [tail newline file]).filterMap parse

@[simp] theorem lines_nil : lines newline [] = [] := rfl

@[simp] theorem tail_nil : tail newline [] = [] := rfl

omit [DecidableEq β] in
@[simp] theorem join_nil : join newline [] = [] := rfl

omit [DecidableEq β] in
@[simp] theorem join_cons (line : List β) (rest : List (List β)) :
    join newline (line :: rest) = line ++ newline :: join newline rest := by
  simp [join]

omit [DecidableEq β] in
theorem join_append (first second : List (List β)) :
    join newline (first ++ second) = join newline first ++ join newline second := by
  simp [join]

@[simp] theorem lines_newline : lines newline (newline :: bytes) = [] :: lines newline bytes := by
  simp [lines, split]

@[simp] theorem tail_newline : tail newline (newline :: bytes) = tail newline bytes := by
  simp [tail, split]

theorem lines_cons_of_nil (hb : byte ≠ newline) (h : lines newline bytes = []) :
    lines newline (byte :: bytes) = [] ∧ tail newline (byte :: bytes) = byte :: tail newline bytes := by
  simp only [lines] at h
  simp [lines, tail, split, hb, h]

theorem lines_cons_of_cons (hb : byte ≠ newline) (h : lines newline bytes = line :: rest) :
    lines newline (byte :: bytes) = (byte :: line) :: rest ∧ tail newline (byte :: bytes) = tail newline bytes := by
  simp only [lines] at h
  simp [lines, tail, split, hb, h]

/-- A file is its complete lines followed by its tail. -/
theorem join_lines_append_tail (file : List β) : join newline (lines newline file) ++ tail newline file = file := by
  induction file with
  | nil => rfl
  | cons byte bs ih =>
    by_cases hb : byte = newline
    · subst hb
      simp [ih]
    · cases hl : lines newline bs with
      | nil =>
        obtain ⟨h₁, h₂⟩ := lines_cons_of_nil newline hb hl
        rw [hl] at ih
        rw [h₁, h₂]
        simpa using ih
      | cons line rest =>
        obtain ⟨h₁, h₂⟩ := lines_cons_of_cons newline hb hl
        rw [hl] at ih
        rw [h₁, h₂]
        simpa using ih

theorem lines_of_not_mem (h : newline ∉ bytes) : lines newline bytes = [] ∧ tail newline bytes = bytes := by
  induction bytes with
  | nil => exact ⟨rfl, rfl⟩
  | cons byte bytes ih =>
    rw [mem_cons, not_or] at h
    obtain ⟨hl, ht⟩ := ih h.2
    obtain ⟨h₁, h₂⟩ := lines_cons_of_nil newline (Ne.symm h.1) hl
    exact ⟨h₁, by rw [h₂, ht]⟩

/-- Appending re-reads the tail only. -/
theorem split_append :
    lines newline (file ++ bytes) = lines newline file ++ lines newline (tail newline file ++ bytes) ∧
      tail newline (file ++ bytes) = tail newline (tail newline file ++ bytes) := by
  induction file with
  | nil => exact ⟨rfl, rfl⟩
  | cons byte file ih =>
    obtain ⟨ihl, iht⟩ := ih
    by_cases hb : byte = newline
    · subst hb
      simp [ihl, iht]
    · cases hl : lines newline file with
      | nil =>
        -- the file is all tail, so nothing of it was read as a line
        have hf := join_lines_append_tail newline file
        rw [hl] at hf
        obtain ⟨h₁, h₂⟩ := lines_cons_of_nil newline hb hl
        rw [h₁, h₂, show tail newline file = file by simpa using hf]
        exact ⟨rfl, rfl⟩
      | cons line rest =>
        obtain ⟨h₁, h₂⟩ := lines_cons_of_cons newline hb hl
        rw [hl, cons_append] at ihl
        obtain ⟨h₃, h₄⟩ := lines_cons_of_cons newline hb ihl
        rw [h₁, h₂, cons_append, h₃, h₄]
        exact ⟨rfl, iht⟩

theorem lines_append :
    lines newline (file ++ bytes) = lines newline file ++ lines newline (tail newline file ++ bytes) :=
  (split_append newline).1

theorem tail_append : tail newline (file ++ bytes) = tail newline (tail newline file ++ bytes) :=
  (split_append newline).2

theorem newline_not_mem_tail : newline ∉ tail newline file := by
  induction file with
  | nil => simp
  | cons byte bs ih =>
    by_cases hb : byte = newline
    · subst hb
      simpa using ih
    · cases hl : lines newline bs with
      | nil =>
        rw [(lines_cons_of_nil newline hb hl).2]
        simp [Ne.symm hb, ih]
      | cons line rest => rwa [(lines_cons_of_cons newline hb hl).2]

/-- Bytes up to a newline are the first line. -/
theorem split_line (h : newline ∉ bs) :
    lines newline (bs ++ newline :: rest) = bs :: lines newline rest ∧
      tail newline (bs ++ newline :: rest) = tail newline rest := by
  induction bs with
  | nil => simp
  | cons byte bs ih =>
    rw [mem_cons, not_or] at h
    obtain ⟨hl, ht⟩ := ih h.2
    obtain ⟨h₁, h₂⟩ := lines_cons_of_cons newline (Ne.symm h.1) hl
    exact ⟨h₁, h₂.trans ht⟩

/-- A newline closes the tail. -/
theorem split_append_newline (file : List β) :
    lines newline (file ++ [newline]) = lines newline file ++ [tail newline file] ∧
      tail newline (file ++ [newline]) = [] := by
  rw [lines_append, tail_append]
  obtain ⟨h₁, h₂⟩ := split_line newline (newline_not_mem_tail newline)
  rw [h₁, h₂]
  exact ⟨rfl, rfl⟩

theorem newline_not_mem_of_mem_lines (h : line ∈ lines newline file) : newline ∉ line := by
  induction file generalizing line with
  | nil => cases h
  | cons byte bs ih =>
    by_cases hb : byte = newline
    · subst hb
      rw [lines_newline, mem_cons] at h
      rcases h with rfl | h
      · simp
      · exact ih h
    · cases hl : lines newline bs with
      | nil =>
        rw [(lines_cons_of_nil newline hb hl).1] at h
        cases h
      | cons first rest =>
        rw [(lines_cons_of_cons newline hb hl).1, mem_cons] at h
        rcases h with rfl | h
        · have hf := ih (hl ▸ mem_cons_self)
          simp [Ne.symm hb, hf]
        · exact ih (hl ▸ mem_cons_of_mem _ h)

/-- Complete lines are read as they were written. -/
theorem lines_join_append (h : ∀ line ∈ written, newline ∉ line) (rest : List β) :
    lines newline (join newline written ++ rest) = written ++ lines newline rest := by
  induction written with
  | nil => rfl
  | cons line written ih =>
    rw [forall_mem_cons] at h
    rw [join_cons, append_assoc, cons_append, (split_line newline h.1).1, ih h.2, cons_append]

variable {newline}

/-- Closing the tail does not change the records. -/
theorem records_append_newline (hn : parse [] = none) (file : List β) :
    records newline parse (file ++ [newline]) = records newline parse file := by
  obtain ⟨h₁, h₂⟩ := split_append_newline newline file
  rw [records, records, h₁, h₂, filterMap_append]
  simp [hn]

/-- Bytes that do not parse, written after a closed line, add no record. -/
theorem records_append_rejected (hc : tail newline file = [])
    (hb : newline ∉ bytes) (hn : parse [] = none) (hp : parse bytes = none) :
    records newline parse (file ++ bytes) = records newline parse file ∧ tail newline (file ++ bytes) = bytes := by
  obtain ⟨h₁, h₂⟩ := lines_of_not_mem newline hb
  rw [records, records, lines_append, tail_append, hc, nil_append, h₁, h₂]
  simp [hn, hp]

/-- A line that parses, written after a closed line and closed, adds its record. -/
theorem records_append_line (hc : tail newline file = [])
    (hb : newline ∉ bytes) (hn : parse [] = none) (hp : parse bytes = some record) :
    records newline parse (file ++ (bytes ++ [newline])) = records newline parse file ++ [record] ∧
      tail newline (file ++ (bytes ++ [newline])) = [] := by
  obtain ⟨h₁, h₂⟩ := split_append_newline newline bytes
  obtain ⟨h₃, h₄⟩ := lines_of_not_mem newline hb
  rw [records, records, lines_append, tail_append, hc, nil_append, h₁, h₂, h₃, h₄]
  simp [hn, hp]

end LineFile
