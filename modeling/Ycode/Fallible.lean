import Mathlib

/-!
# Computations that may fail

The parts of a sequence that succeeds have succeeded. A fold that may fail and writes an output goes over a list; a
checkpoint is the last state at which everything read so far has been settled, and what was read after it has written
nothing yet. Going on from the checkpoint, over what was read after it and what has come since, gives what one fold
over the whole list gives.
-/
namespace Fallible

variable {σ α β γ ω ε : Type}

theorem ok_of_bind {next : β → Except ε γ} {result : γ} (h : first >>= next = .ok result) :
    ∃ v, first = .ok v ∧ next v = .ok result := by
  cases first with
  | error err => cases h
  | ok v => exact ⟨v, rfl, h⟩

def fold (step : σ → α → Except ε (σ × List ω)) : σ → List α → Except ε (σ × List ω)
  | state, [] => .ok (state, [])
  | state, a :: rest =>
    match step state a with
    | .error error => .error error
    | .ok (state, output) =>
      match fold step state rest with
      | .error error => .error error
      | .ok (state, more) => .ok (state, output ++ more)

/-- What every step does to the checkpoint: it settles everything, or it writes nothing and leaves it. -/
structure Checkpoints (step : σ → α → Except ε (σ × List ω)) (checkpoint : σ → σ) : Prop where
  settles {state next : σ} {a : α} {output : List ω} (h : step state a = .ok (next, output)) :
    checkpoint next = next ∨ output = [] ∧ checkpoint next = checkpoint state

variable {step : σ → α → Except ε (σ × List ω)}

@[simp] theorem fold_nil : fold step state [] = .ok (state, []) := rfl

/-- One step of a fold that succeeds. -/
theorem fold_cons_ok (h : fold step state (a :: rest) = .ok (last, output)) :
    ∃ next written more, step state a = .ok (next, written) ∧ fold step next rest = .ok (last, more) ∧
      output = written ++ more := by
  rw [fold] at h
  cases hs : step state a with
  | error error =>
    rw [hs] at h
    cases h
  | ok res =>
    obtain ⟨next, written⟩ := res
    rw [hs] at h
    simp only at h
    cases hr : fold step next rest with
    | error error =>
      rw [hr] at h
      cases h
    | ok res =>
      obtain ⟨end', more⟩ := res
      rw [hr] at h
      cases h
      exact ⟨next, written, more, rfl, hr, rfl⟩

theorem fold_append (h : fold step state first = .ok (next, output)) (second : List α) :
    fold step state (first ++ second) = (fold step next second).map fun res => (res.1, output ++ res.2) := by
  induction first generalizing state output with
  | nil =>
    cases h
    rw [List.nil_append]
    cases fold step next second <;> rfl
  | cons a first ih =>
    obtain ⟨mid, written, more, hs, hr, rfl⟩ := fold_cons_ok h
    rw [List.cons_append, fold, hs]
    simp only [ih hr]
    cases fold step next second with
    | error error => rfl
    | ok res => simp [Except.map, List.append_assoc]

/-- A fold over a longer list that succeeds has succeeded before. -/
theorem fold_of_append (h : fold step state (first ++ second) = .ok (last, output)) :
    ∃ next out more, fold step state first = .ok (next, out) ∧ fold step next second = .ok (last, more) ∧
      output = out ++ more := by
  induction first generalizing state output with
  | nil => exact ⟨state, [], output, rfl, h, rfl⟩
  | cons a first ih =>
    obtain ⟨mid, written, rest, hstep, hr, rfl⟩ := fold_cons_ok h
    obtain ⟨next, out, more, hf, hs, rfl⟩ := ih hr
    refine ⟨next, written ++ out, more, ?_, hs, (List.append_assoc _ _ _).symm⟩
    simp only [fold, hstep, hf]

theorem fold_singleton : fold step state [a] = step state a := by
  rw [fold]
  cases step state a with
  | error error => rfl
  | ok res => simp [fold]

/-- What was read up to the checkpoint wrote everything; the rest, read from the checkpoint, leads to the same
state and writes nothing. -/
theorem exists_checkpoint (hc : Checkpoints step checkpoint) (hstate : checkpoint state = state)
    (h : fold step state as = .ok (last, output)) :
    ∃ settled open', as = settled ++ open' ∧ fold step state settled = .ok (checkpoint last, output) ∧
      fold step (checkpoint last) open' = .ok (last, []) := by
  -- from the last element: it settles all that was read, or stays open with what is open already
  induction as using List.reverseRecOn generalizing last output with
  | nil =>
    cases h
    exact ⟨[], [], rfl, by simp [hstate], by simp [hstate]⟩
  | append_singleton as a ih =>
    obtain ⟨next, out, more, hf, hl, rfl⟩ := fold_of_append h
    rw [fold_singleton] at hl
    rcases hc.settles hl with hs | ⟨rfl, hk⟩
    · exact ⟨as ++ [a], [], by simp, by rw [hs]; exact h, by rw [hs]; rfl⟩
    · obtain ⟨settled, open', rfl, hs, ho⟩ := ih hf
      rw [hk]
      refine ⟨settled, open' ++ [a], by simp, by simpa using hs, ?_⟩
      rw [fold_append ho, fold_singleton, hl]
      rfl

end Fallible
