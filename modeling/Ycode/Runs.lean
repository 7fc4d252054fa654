import Mathlib

/-!
# Runs of a machine

A machine is a step function on states; a run is a list of actions. A property of states is proved
along a run from what one step does, and a condition on the steps is exact when it fails only at steps
that break the property.
-/
namespace Runs

variable {σ α : Type} (step : σ → α → σ)

def run (s : σ) (actions : List α) : σ := actions.foldl step s

/-- The property holds in every state of the run, the first one included. -/
def Every (p : σ → Prop) : σ → List α → Prop
  | s, [] => p s
  | s, action :: actions => p s ∧ Every p (step s action) actions

/-- Every action of the run is taken in a state where the condition allows it. -/
def Each (q : σ → α → Prop) : σ → List α → Prop
  | _, [] => True
  | s, action :: actions => q s action ∧ Each q (step s action) actions

instance decidableEach {q : σ → α → Prop} [∀ s action, Decidable (q s action)] :
    (s : σ) → (actions : List α) → Decidable (Each step q s actions)
  | _, [] => .isTrue trivial
  | s, action :: actions => @instDecidableAnd _ _ _ (decidableEach (step s action) actions)

@[simp] theorem run_nil (s : σ) : run step s [] = s := rfl

@[simp] theorem run_cons (s : σ) (a : α) (actions : List α) :
    run step s (a :: actions) = run step (step s a) actions := rfl

theorem run_append (s : σ) (first second : List α) :
    run step s (first ++ second) = run step (run step s first) second :=
  List.foldl_append

variable {step}

/-- What every step keeps, every run keeps. -/
theorem invariant {p : σ → Prop} (hs : ∀ s a, p s → p (step s a)) (h : p s)
    (acts : List α) : p (run step s acts) := by
  induction acts generalizing s with
  | nil => exact h
  | cons a acts ih => exact ih (hs s a h)

theorem every_of_invariant {p : σ → Prop} (hs : ∀ s a, p s → p (step s a)) (h : p s)
    (acts : List α) : Every step p s acts := by
  induction acts generalizing s with
  | nil => exact h
  | cons a acts ih => exact ⟨h, ih (hs s a h)⟩

theorem Every.head (h : Every step p s acts) : p s := by
  cases acts with
  | nil => exact h
  | cons a acts => exact h.1

/-- A condition that keeps an invariant, and whose failure breaks the property, says exactly in which runs the
property holds throughout. -/
theorem every_iff_each (inv : σ → Prop) {allowed cond : σ → α → Prop} (hp : ∀ s, inv s → p s)
    (hk : ∀ s action, inv s → allowed s action → cond s action → inv (step s action))
    (hb : ∀ s action, inv s → allowed s action → ¬cond s action → ¬p (step s action))
    {s : σ} (h : inv s) {actions : List α} (ha : Each step allowed s actions) :
    Every step p s actions ↔ Each step cond s actions := by
  induction actions generalizing s with
  | nil => exact ⟨fun _ => trivial, fun _ => hp s h⟩
  | cons action actions ih =>
    obtain ⟨hf, hr⟩ := ha
    constructor
    · rintro ⟨_, he⟩
      have hc : cond s action := by
        by_contra hn
        exact hb s action h hf hn he.head
      exact ⟨hc, (ih (hk s action h hf hc) hr).mp he⟩
    · rintro ⟨hc, heach⟩
      exact ⟨hp s h, (ih (hk s action h hf hc) hr).mpr heach⟩

/-- One party of a list moves on: how many of them have a property changes as the party does. -/
theorem countP_set_add {parties : List α} (h : parties[index]? = some old) (p : α → Bool) (new : α) :
    (parties.set index new).countP p + (p old).toNat = parties.countP p + (p new).toNat := by
  obtain ⟨hlt, rfl⟩ := List.getElem?_eq_some_iff.mp h
  have hle : (p parties[index]).toNat ≤ parties.countP p := by
    cases hp : p parties[index] with
    | false => exact Nat.zero_le _
    | true => exact List.countP_pos_iff.mpr ⟨_, List.getElem_mem hlt, hp⟩
  rw [List.countP_set hlt]
  cases ho : p parties[index] <;> cases hn : p new <;> simp_all

end Runs
