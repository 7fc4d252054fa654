import Mathlib

/-!
# Lists that only grow at their end

A producer that publishes its output while it is still working on the last
element may revise that element, but nothing before it. `Grows R xs ys` says that
`ys` is a later stage of `xs`, where `R` relates the successive stages of one
element.
-/
namespace ListGrowth

open List

variable {α : Type}

/-- Change the last element, if there is one. -/
def mapLast (f : α → α) (l : List α) : List α :=
  match l.getLast? with
  | some x => l.dropLast ++ [f x]
  | none => l

@[simp] theorem mapLast_nil : mapLast f [] = [] := rfl

@[simp] theorem mapLast_concat : mapLast f (l ++ [x]) = l ++ [f x] := by
  simp [mapLast]

theorem dropLast_mapLast : (mapLast f l).dropLast = l.dropLast := by
  cases eq_nil_or_concat' l with
  | inl he => rw [he]; rfl
  | inr hc =>
    obtain ⟨pre, x, rfl⟩ := hc
    rw [mapLast_concat, dropLast_concat, dropLast_concat]

/-- Everything but the last element stays where it is, and the last element is
replaced by a later stage of itself. -/
structure Grows (R : α → α → Prop) (xs ys : List α) : Prop where
  kept : ∀ i, i + 1 < xs.length → ys[i]? = xs[i]?
  last : ∀ x, xs.getLast? = some x → ∃ y, ys[xs.length - 1]? = some y ∧ R x y

theorem Grows.of_nil : Grows R [] ys := ⟨by simp, by simp⟩

/-- The two shapes of a stage: nothing yet, or a revised last element. -/
theorem Grows.of_last (h : R x y) : Grows R (front ++ [x]) (front ++ y :: rest) := by
  constructor
  · intro i hi
    have hlt : i < front.length := by simpa using hi
    rw [getElem?_append_left hlt, getElem?_append_left hlt]
  · intro z hz
    have he : x = z := by simpa using hz
    subst he
    exact ⟨y, by simp, h⟩

theorem Grows.append (hR : ∀ x, R x x) (xs rest : List α) : Grows R xs (xs ++ rest) := by
  cases eq_nil_or_concat' xs with
  | inl he => rw [he]; exact .of_nil
  | inr hc =>
    obtain ⟨pre, x, rfl⟩ := hc
    simpa using Grows.of_last (hR x)

theorem Grows.refl (hR : ∀ x, R x x) (xs : List α) : Grows R xs xs := by
  simpa using Grows.append hR xs []

theorem Grows.of_mapLast (hf : ∀ x, R x (f x)) : Grows R xs (mapLast f xs) := by
  cases eq_nil_or_concat' xs with
  | inl he => rw [he]; exact .of_nil
  | inr hc =>
    obtain ⟨pre, x, rfl⟩ := hc
    simpa using Grows.of_last (hf x)

theorem Grows.length_le (h : Grows R xs ys) : xs.length ≤ ys.length := by
  cases hx : xs.getLast? with
  | none => simp [getLast?_eq_none_iff.mp hx]
  | some x =>
    obtain ⟨y, hy, -⟩ := h.last x hx
    obtain ⟨hlt, -⟩ := List.getElem?_eq_some_iff.mp hy
    omega

theorem Grows.trans (hxy : Grows R xs ys) (hyz : Grows R ys zs) (hR : ∀ {x y z}, R x y → R y z → R x z) :
    Grows R xs zs := by
  have hle := hxy.length_le
  constructor
  · intro i hi
    rw [hyz.kept i (by omega), hxy.kept i hi]
  · intro x hx
    obtain ⟨y, hy, hx'⟩ := hxy.last x hx
    have hp : 0 < xs.length := length_pos_of_ne_nil (by rintro rfl; simp at hx)
    by_cases hlen : xs.length < ys.length
    · exact ⟨y, by rw [hyz.kept _ (by omega), hy], hx'⟩
    · have he : ys.length = xs.length := by omega
      have hl : ys.getLast? = some y := by rw [getLast?_eq_getElem?, he, hy]
      obtain ⟨z, hz, hy'⟩ := hyz.last y hl
      exact ⟨z, by rw [← he, hz], hR hx' hy'⟩

theorem Grows.eq_nil (h : Grows R xs []) : xs = [] := by
  have := h.length_le
  exact length_eq_zero_iff.mp (by simpa using this)

end ListGrowth
