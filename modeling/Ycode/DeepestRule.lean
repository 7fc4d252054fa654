import Mathlib

/-!
# The deepest rule on a path

Rules stand at places, which are paths. On a path the rules at its beginnings apply, and the one at the deepest
place wins; of several rules at that place the one of the highest rank does.
-/
namespace DeepestRule

open List

variable {α β ρ : Type} (place : ρ → List α)

def HasRule (rules : List ρ) (path : List α) : Prop := ∃ rule ∈ rules, place rule = path

/-- The deepest place on the path at which a rule stands. -/
structure Deepest (rules : List ρ) (path deepest : List α) : Prop where
  hasRule : HasRule place rules deepest
  above : deepest <+: path
  max : ∀ rule ∈ rules, place rule <+: path → place rule <+: deepest

section Places

variable {place}

theorem Deepest.self (h : HasRule place rules path) : Deepest place rules path path :=
  ⟨h, prefix_refl path, fun _ _ hr => hr⟩

theorem Deepest.le_of_hasRule (h : Deepest place rules path deepest)
    (ho : HasRule place rules other) (ha : other <+: path) : other <+: deepest := by
  obtain ⟨rule, hm, rfl⟩ := ho
  exact h.max rule hm ha

/-- The path takes one step below a place with a rule, and no rule stands there. -/
theorem Deepest.step {next : α} (hr : HasRule place rules path) (hn : ¬HasRule place rules (path ++ [next])) :
    Deepest place rules (path ++ [next]) path := by
  refine ⟨hr, prefix_append .., fun rule hm ha => ?_⟩
  rcases prefix_concat_iff.mp ha with he | ha
  · exact absurd ⟨rule, hm, he⟩ hn
  · exact ha

theorem Deepest.unique (h : Deepest place rules path deepest) (h' : Deepest place rules path other) :
    deepest = other := by
  refine List.IsPrefix.eq_of_length_le ?_ ?_
  · exact h'.le_of_hasRule h.hasRule h.above
  · exact (h.le_of_hasRule h'.hasRule h'.above).length_le

end Places

variable [DecidableEq α] [LinearOrder β] (rank : ρ → β)

instance (rules : List ρ) (path : List α) : Decidable (HasRule place rules path) :=
  inferInstanceAs (Decidable (∃ rule ∈ rules, place rule = path))

def precedence (rule : ρ) : Nat ×ₗ β := toLex ((place rule).length, rank rule)

def winner (rules : List ρ) (path : List α) : Option ρ :=
  (rules.filter fun rule => (place rule).isPrefixOf path).argmax (precedence place rank)

variable {place rank} {rules : List ρ}

theorem mem_applying :
    rule ∈ rules.filter (fun rule => (place rule).isPrefixOf path) ↔ rule ∈ rules ∧ place rule <+: path := by
  rw [mem_filter, isPrefixOf_iff_prefix]

theorem winner_eq_none (h : ∀ rule ∈ rules, ¬place rule <+: path) : winner place rank rules path = none := by
  rw [winner, argmax_eq_none, eq_nil_iff_forall_not_mem]
  intro rule hm
  obtain ⟨hr, ha⟩ := mem_applying.mp hm
  exact h rule hr ha

/-- Some rule wins as soon as one applies. It stands at the deepest place and no rule there has a higher rank. -/
theorem winner_eq_some (rank : ρ → β) (h : ∃ rule ∈ rules, place rule <+: path) :
    ∃ rule ∈ rules, winner place rank rules path = some rule ∧ Deepest place rules path (place rule) ∧
      ∀ x ∈ rules, place x = place rule → rank x ≤ rank rule := by
  obtain ⟨applying, ha, habove⟩ := h
  cases hw : winner place rank rules path with
  | none =>
    have hn := argmax_eq_none.mp hw
    have hm := mem_applying.mpr ⟨ha, habove⟩
    rw [hn] at hm
    cases hm
  | some rule =>
    obtain ⟨hrule, hr⟩ := mem_applying.mp (argmax_mem hw)
    have hmax : ∀ x ∈ rules, place x <+: path →
        precedence place rank x ≤ precedence place rank rule :=
      fun x hother ho => le_of_mem_argmax (mem_applying.mpr ⟨hother, ho⟩) hw
    refine ⟨rule, hrule, rfl, ⟨⟨rule, hrule, rfl⟩, hr, ?_⟩, ?_⟩
    · intro x hother ho
      have hle := Prod.Lex.toLex_le_toLex.mp (hmax x hother ho)
      exact prefix_of_prefix_length_le ho hr (by rcases hle with h | h <;> omega)
    · intro x hother hp
      have hle := Prod.Lex.toLex_le_toLex.mp (hmax x hother (hp ▸ hr))
      rcases hle with hlt | ⟨_, hle⟩
      · rw [hp] at hlt
        exact absurd hlt (lt_irrefl _)
      · exact hle

/-- The rule that wins on a path, seen from the deepest place. -/
theorem Deepest.winner (rank : ρ → β) (h : Deepest place rules path deepest) :
    ∃ rule ∈ rules, winner place rank rules path = some rule ∧ place rule = deepest ∧
      ∀ x ∈ rules, place x = deepest → rank x ≤ rank rule := by
  obtain ⟨applying, ha, hp⟩ := h.hasRule
  obtain ⟨rule, hr, hw, hd, hm⟩ := winner_eq_some rank ⟨applying, ha, hp ▸ h.above⟩
  obtain rfl := h.unique hd
  exact ⟨rule, hr, hw, rfl, hm⟩

/-- The rank that wins depends only on which rules there are. -/
theorem winner_rank_congr (rank : ρ → β) (h : ∀ rule, rule ∈ rules ↔ rule ∈ others) :
    (winner place rank rules path).map rank = (DeepestRule.winner place rank others path).map rank := by
  by_cases ha : ∃ rule ∈ rules, place rule <+: path
  · obtain ⟨rule, hr, hw, hd, hm⟩ := winner_eq_some rank ha
    have ht : Deepest place others path (place rule) :=
      ⟨⟨rule, (h rule).mp hr, rfl⟩, hd.above, fun x ho => hd.max x ((h x).mpr ho)⟩
    obtain ⟨x, ho, hw', hp, hm'⟩ := ht.winner rank
    have hle := hm x ((h x).mpr ho) hp
    have hg := hm' rule ((h rule).mp hr) rfl
    rw [hw, hw', Option.map_some, Option.map_some, le_antisymm hg hle]
  · push Not at ha
    rw [winner_eq_none ha, winner_eq_none fun rule hr => ha rule ((h rule).mpr hr)]

end DeepestRule
