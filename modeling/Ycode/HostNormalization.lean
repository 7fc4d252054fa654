import Ycode.PatternReading

/-!
# What normalizing a host leaves of its text

Normalizing takes letters out of the text, which is put in lower case, and never adds one. So a host that is
normalized again can only get shorter, and it stays as it is exactly if no letter is lost. A pattern whose
normalized host has no wildcard compiles to the one glob of that host.
-/
namespace HostNormalization

open RustStr Wildcard NetworkPolicy PatternReading List

theorem trim_sublist (text : Str) : (trim text).Sublist text := by
  have h : trim text <+: trimStart text := rdropWhile_prefix _ _
  exact h.sublist.trans (dropWhile_suffix _).sublist

theorem trim_idem : trim (trim text) = trim text := by
  have hs : trimStart (trimStart text) = trimStart text := dropWhile_idempotent _ text
  conv_lhs => rw [trim, show trim text = trimEnd (trimStart text) from rfl, trimStart_trimEnd, trim, hs]
  exact trimEnd_trimEnd _

theorem splitOnce_eq_some (h : splitOnce sep text = some (before, rest)) : text = before ++ sep ++ rest := by
  induction text generalizing before with
  | nil =>
    rw [splitOnce] at h
    split at h
    · rename_i hsep
      cases h
      rw [hsep]
      rfl
    · cases h
  | cons c text ih =>
    rw [splitOnce] at h
    cases hs : stripPrefix (c :: text) sep with
    | some post =>
      rw [hs] at h
      cases h
      exact stripPrefix_eq_some.mp hs
    | none =>
      rw [hs] at h
      obtain ⟨⟨pre, back⟩, hsplit, he⟩ := Option.map_eq_some_iff.mp h
      cases he
      rw [ih hsplit]
      rfl

/-- The literal of an address with a scope: only the escape of the percent sign goes. -/
theorem literal_cases :
    (normalizeIpLiteral libs host).getD host = host ∨
      ∃ ip scope, host = ip ++ "%25".toList ++ scope ∧
        (normalizeIpLiteral libs host).getD host = ip ++ "%".toList ++ scope := by
  have hs : ∀ delimiter literal, scopedIpLiteral libs host delimiter = some literal →
      ∃ ip scope, host = ip ++ delimiter ++ scope ∧ literal = ip ++ "%".toList ++ scope := by
    intro delimiter literal h
    unfold scopedIpLiteral at h
    split at h
    · rename_i ip scope hsplit
      split at h
      · cases h
        exact ⟨ip, scope, splitOnce_eq_some hsplit, rfl⟩
      · cases h
    · cases h
  unfold normalizeIpLiteral
  split
  · exact .inl rfl
  · cases he : scopedIpLiteral libs host "%25".toList with
    | some literal =>
      obtain ⟨ip, scope, hh, hl⟩ := hs _ _ he
      exact .inr ⟨ip, scope, hh, hl⟩
    | none =>
      left
      cases hp : scopedIpLiteral libs host "%".toList with
      | some literal =>
        obtain ⟨ip, scope, hh, hl⟩ := hs _ _ hp
        exact hl.trans hh.symm
      | none => rfl

theorem literal_sublist : ((normalizeIpLiteral libs host).getD host).Sublist host := by
  rcases literal_cases with h | ⟨ip, scope, hh, hl⟩
  · rw [h]
  · rw [hl]
    conv_rhs => rw [hh]
    exact ((List.Sublist.refl ip).append (by decide)).append (List.Sublist.refl scope)

theorem mem_literal (hc : c ∉ "%25".toList) (h : c ∈ host) : c ∈ (normalizeIpLiteral libs host).getD host := by
  rcases literal_cases with he | ⟨ip, scope, hh, hl⟩
  · rwa [he]
  · rw [hl]
    rw [hh] at h
    simp only [mem_append] at h ⊢
    rcases h with (hi | hsep) | hs
    · exact .inl (.inl hi)
    · exact absurd hsep hc
    · exact .inr hs

theorem normalizeDns_sublist : (normalizeDnsHostOrIpLiteral libs host).Sublist (toAsciiLowercase host) :=
  literal_sublist.trans (trimEndDots_sublist _)

/-- What is read of the trimmed text: all of it, what stands in brackets, or what stands before a port. -/
theorem normalizeHost_cases :
    ∃ part, part <:+: trim text ∧ normalizeHost libs text = normalizeDnsHostOrIpLiteral libs part := by
  unfold normalizeHost
  simp only
  split
  · rename_i inner hi
    refine ⟨inner, ?_, rfl⟩
    unfold bracketed at hi
    split at hi
    · rename_i rest ht
      split at hi
      · cases hi
        rw [ht]
        have hpart : rest.takeWhile (· ≠ ']') <+: rest := takeWhile_prefix _
        exact hpart.isInfix.trans (suffix_cons _ _).isInfix
      · cases hi
    · cases hi
  · split
    · have hpart : (trim text).takeWhile (· ≠ ':') <+: trim text := takeWhile_prefix _
      exact ⟨_, hpart.isInfix, rfl⟩
    · exact ⟨_, infix_rfl, rfl⟩

theorem normalizeHost_sublist (libs : Libraries) (text : Str) :
    (normalizeHost libs text).Sublist (toAsciiLowercase (trim text)) := by
  obtain ⟨part, hp, he⟩ := normalizeHost_cases
  rw [he]
  exact (normalizeDns_sublist).trans (hp.sublist.map _)

theorem lowercase_of_sublist (h : part.Sublist (toAsciiLowercase text)) : toAsciiLowercase part = part := by
  refine (map_congr_left fun c hc => ?_).trans (map_id part)
  obtain ⟨d, _, rfl⟩ := mem_map.mp (h.subset hc)
  exact toLower_toLower d

theorem toAsciiLowercase_normalizeHost (libs : Libraries) (text : Str) :
    toAsciiLowercase (normalizeHost libs text) = normalizeHost libs text :=
  lowercase_of_sublist (normalizeHost_sublist libs text)

theorem normalizeHost_trim : normalizeHost libs (trim text) = normalizeHost libs text := by
  rw [normalizeHost, trim_idem]
  rfl

/-- Normalizing again leaves a part of the host. -/
theorem again_sublist (libs : Libraries) (text : Str) :
    (normalizeHost libs (normalizeHost libs text)).Sublist (trim (normalizeHost libs text)) := by
  have h := normalizeHost_sublist libs (normalizeHost libs text)
  rwa [← trim_toAsciiLowercase, toAsciiLowercase_normalizeHost] at h

/-- The host is normalized for good. -/
def Stable (libs : Libraries) (text : Str) : Prop :=
  normalizeHost libs (normalizeHost libs text) = normalizeHost libs text

instance (text : Str) : Decidable (Stable libs text) := inferInstanceAs (Decidable (_ = _))

theorem Stable.trim_eq (h : Stable libs text) : trim (normalizeHost libs text) = normalizeHost libs text := by
  have hs := again_sublist libs text
  rw [h] at hs
  exact (trim_sublist _).antisymm hs

theorem stable_of_trim_again
    (h : trim (normalizeHost libs (normalizeHost libs text)) = normalizeHost libs text) : Stable libs text := by
  have ha := (again_sublist libs text).trans (trim_sublist _)
  have hb : (normalizeHost libs text).Sublist (normalizeHost libs (normalizeHost libs text)) := by
    conv_lhs => rw [← h]
    exact trim_sublist _
  exact ha.antisymm hb

/-- The characters that a glob does not take as they stand. -/
def globMetacharacters : List Char := "*?[]\x7b\x7d\\".toList

/-- A text without wildcards, classes, alternatives and escapes. -/
def Literal (text : Str) : Prop := ∀ c ∈ text, c ∉ globMetacharacters

instance (text : Str) : Decidable (Literal text) := List.decidableBAll _ text

theorem Literal.of_sublist (h : Literal text) (hp : part.Sublist text) : Literal part :=
  fun c hc => h c (hp.subset hc)

theorem Literal.no_star (h : Literal text) : '*' ∉ text := fun hm => h '*' hm (by decide)

theorem Literal.again (h : Literal (normalizeHost libs text)) :
    Literal (normalizeHost libs (normalizeHost libs text)) :=
  h.of_sublist ((again_sublist libs text).trans (trim_sublist _))

/-- A literal glob matches the hosts that are the same up to the case of letters. -/
theorem globMatches_literal (h : Literal glob) (host : Str) :
    globMatches glob host = true ↔ toAsciiLowercase glob = toAsciiLowercase host := by
  induction glob generalizing host with
  | nil =>
    rw [globMatches, map_nil, isMatch_nil]
    constructor
    · rintro rfl
      rfl
    · intro hn
      exact map_eq_nil_iff.mp hn.symm
  | cons c glob ih =>
    have ht : token c = .letter c := by
      have hc := h c mem_cons_self
      rw [token, if_neg, if_neg]
      all_goals
        rintro rfl
        exact hc (by decide)
    have hr := ih fun d hd => h d (mem_cons_of_mem c hd)
    rw [globMatches, map_cons, ht, isMatch_letter]
    constructor
    · rintro ⟨d, rest, rfl, hs, hm⟩
      have hl : c.toLower = d.toLower := of_decide_eq_true hs
      exact congrArg₂ List.cons hl ((hr rest).mp hm)
    · intro he
      cases host with
      | nil => cases he
      | cons d rest =>
        obtain ⟨hl, htail⟩ := List.cons.inj he
        exact ⟨d, rest, rfl, decide_eq_true hl, (hr rest).mpr htail⟩

/-- A star at the beginning survives. -/
theorem star_mem_normalizeHost (h : trim text = '*' :: rest) : '*' ∈ normalizeHost libs text := by
  have hd : ∀ part : Str, '*' ∈ part → '*' ∈ normalizeDnsHostOrIpLiteral libs part := by
    intro part hp
    refine mem_literal (by decide) (mem_trimEndDots (by decide) ?_)
    exact (mem_toAsciiLowercase (by decide)).mpr hp
  unfold normalizeHost
  simp only
  rw [h, bracketed_cons_ne (by decide)]
  simp only
  split
  · exact hd _ (by simp)
  · exact hd _ mem_cons_self

/-- A pattern without a wildcard at the front is a host. -/
theorem normalizePattern_of_no_star (h : '*' ∉ normalizeHost libs pattern) :
    normalizePattern libs pattern = normalizeHost libs pattern := by
  have hs : ∀ rest, trim pattern ≠ '*' :: rest := fun rest hr => h (star_mem_normalizeHost hr)
  unfold normalizePattern
  rw [if_neg (show trim pattern ≠ "*".toList from hs [])]
  cases ha : stripPrefix (trim pattern) "**.".toList with
  | some domain => exact absurd (stripPrefix_eq_some.mp ha) (hs _)
  | none =>
    cases hsub : stripPrefix (trim pattern) "*.".toList with
    | some domain => exact absurd (stripPrefix_eq_some.mp hsub) (hs _)
    | none => exact normalizeHost_trim

theorem expandDomainPattern_of_no_star (h : '*' ∉ domain) : expandDomainPattern domain = [trim domain] := by
  have hs : ∀ rest, trim domain ≠ '*' :: rest := by
    intro rest hr
    exact h ((trim_sublist domain).subset (hr ▸ mem_cons_self))
  unfold expandDomainPattern parse
  by_cases hn : trim domain = []
  · rw [if_pos hn, hn]
  · rw [if_neg hn]
    cases ha : stripPrefix (trim domain) "**.".toList with
    | some rest => exact absurd (stripPrefix_eq_some.mp ha) (hs _)
    | none =>
      cases hsub : stripPrefix (trim domain) "*.".toList with
      | some rest => exact absurd (stripPrefix_eq_some.mp hsub) (hs _)
      | none => rfl

/-- The globs of a pattern whose host is literal. -/
theorem globs_of_literal (h : Literal (normalizeHost libs pattern)) :
    expandDomainPattern (normalizePattern libs pattern) = [trim (normalizeHost libs pattern)] := by
  rw [normalizePattern_of_no_star h.no_star, expandDomainPattern_of_no_star h.no_star]

end HostNormalization
