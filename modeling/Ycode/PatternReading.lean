import Ycode.NetworkPolicy

/-!
# The two readings of a host pattern

Neither reading depends on the case of letters. Where both readings of two entries are the same pattern, an entry that
validation lets stand under a managed one compiles to globs that match no other hosts.
-/
namespace PatternReading

open RustStr Wildcard NetworkPolicy List

section LetterCase

variable {d : Char}

theorem toLower_cases (c : Char) :
    c.toLower = c ∨ (65 ≤ c.toNat ∧ c.toNat ≤ 90 ∧ c.toLower.toNat = c.toNat + 32) := by
  by_cases h : c.val ≥ 'A'.val ∧ c.val ≤ 'Z'.val
  · right
    have hl : 65 ≤ c.val.toNat := UInt32.le_iff_toNat_le.mp h.1
    have hh : c.val.toNat ≤ 90 := UInt32.le_iff_toNat_le.mp h.2
    refine ⟨hl, hh, ?_⟩
    have hv : c.toLower.val = c.val + 32 := by
      rw [Char.toLower, dif_pos h]
      rfl
    rw [Char.toNat, hv, UInt32.toNat_add, Char.toNat]
    change (c.val.toNat + 32) % 2 ^ 32 = _
    omega
  · left
    rw [Char.toLower, dif_neg h]

theorem isWhitespace_toLower (c : Char) : isWhitespace c.toLower = isWhitespace c := by
  rcases toLower_cases c with h | ⟨hlo, hh, hlower⟩
  · rw [h]
  · have hl : ∀ d : Char, 65 ≤ d.toNat → d.toNat ≤ 122 → isWhitespace d = false := by
      intro d hlo hh
      simp only [isWhitespace, Bool.or_eq_false_iff, Bool.and_eq_false_iff, decide_eq_false_iff_not, beq_eq_false_iff_ne]
      omega
    rw [hl c hlo (by omega), hl _ (by omega) (by omega)]

theorem toLower_eq_iff (hd : d.toNat < 65 ∨ 122 < d.toNat ∨ (90 < d.toNat ∧ d.toNat < 97)) :
    c.toLower = d ↔ c = d := by
  rcases toLower_cases c with h | ⟨hlo, hh, hl⟩
  · rw [h]
  · constructor
    all_goals
      rintro rfl
      omega

theorem toLower_toLower (c : Char) : c.toLower.toLower = c.toLower := by
  rcases toLower_cases c with h | ⟨hlo, hh, hl⟩
  · rw [h, h]
  · rcases toLower_cases c.toLower with h | ⟨hl', hh', _⟩
    · exact h
    · omega

theorem dropWhile_toLower (hp : ∀ c, p c.toLower = p c) (text : Str) :
    (toAsciiLowercase text).dropWhile p = toAsciiLowercase (text.dropWhile p) := by
  rw [toAsciiLowercase, dropWhile_map, show p ∘ Char.toLower = p from funext hp]
  rfl

theorem rdropWhile_toLower (hp : ∀ c, p c.toLower = p c) (text : Str) :
    (toAsciiLowercase text).rdropWhile p = toAsciiLowercase (text.rdropWhile p) := by
  have hd := dropWhile_toLower hp text.reverse
  rw [List.rdropWhile, List.rdropWhile, toAsciiLowercase, ← map_reverse]
  rw [toAsciiLowercase] at hd
  rw [hd, toAsciiLowercase, toAsciiLowercase, map_reverse]

theorem takeWhile_toLower (hp : ∀ c, p c.toLower = p c) :
    (toAsciiLowercase text).takeWhile p = toAsciiLowercase (text.takeWhile p) := by
  rw [toAsciiLowercase, takeWhile_map, show p ∘ Char.toLower = p from funext hp]
  rfl

theorem takeWhile_ne_toAsciiLowercase
    (hd : d.toNat < 65 ∨ 122 < d.toNat ∨ (90 < d.toNat ∧ d.toNat < 97)) (text : Str) :
    (toAsciiLowercase text).takeWhile (· ≠ d) = toAsciiLowercase (text.takeWhile (· ≠ d)) := by
  refine takeWhile_toLower (fun c => ?_)
  rw [decide_eq_decide, ne_eq, ne_eq, toLower_eq_iff hd]

theorem trim_toAsciiLowercase (text : Str) : trim (toAsciiLowercase text) = toAsciiLowercase (trim text) := by
  rw [trim, trimStart, dropWhile_toLower isWhitespace_toLower, trimEnd, rdropWhile_toLower isWhitespace_toLower]
  rfl

theorem toAsciiLowercase_idem : toAsciiLowercase (toAsciiLowercase text) = toAsciiLowercase text := by
  rw [toAsciiLowercase, toAsciiLowercase, map_map]
  exact map_congr_left fun c _ => toLower_toLower c

theorem stripPrefix_cons_cons : stripPrefix (c :: text) (c :: mark) = stripPrefix text mark := by
  simp [stripPrefix, List.dropPrefix?]

theorem stripPrefix_toAsciiLowercase (hm : ∀ d ∈ mark, d.toNat < 65) (text : Str) :
    stripPrefix (toAsciiLowercase text) mark = (stripPrefix text mark).map toAsciiLowercase := by
  induction mark generalizing text with
  | nil => simp [stripPrefix]
  | cons d mark ih =>
    obtain ⟨hd, hr⟩ := forall_mem_cons.mp hm
    cases text with
    | nil => rfl
    | cons c text =>
      by_cases hc : c = d
      · subst hc
        have hs : c.toLower = c := (toLower_eq_iff (.inl hd)).mpr rfl
        rw [toAsciiLowercase, map_cons, hs, stripPrefix_cons_cons, stripPrefix_cons_cons]
        exact ih hr text
      · have hl : c.toLower ≠ d := fun h => hc ((toLower_eq_iff (.inl hd)).mp h)
        rw [toAsciiLowercase, map_cons, stripPrefix_cons_ne hl, stripPrefix_cons_ne hc]
        rfl

theorem mem_toAsciiLowercase (hd : d.toNat < 65 ∨ 122 < d.toNat ∨ (90 < d.toNat ∧ d.toNat < 97)) :
    d ∈ toAsciiLowercase text ↔ d ∈ text := by
  rw [toAsciiLowercase, mem_map]
  constructor
  · rintro ⟨c, hc, hl⟩
    rwa [← (toLower_eq_iff hd).mp hl]
  · intro h
    exact ⟨d, h, (toLower_eq_iff hd).mpr rfl⟩

theorem count_toAsciiLowercase (hd : d.toNat < 65) (text : Str) : (toAsciiLowercase text).count d = text.count d := by
  rw [toAsciiLowercase, List.count, countP_map]
  refine countP_congr fun c _ => ?_
  simp only [Function.comp_apply, beq_iff_eq]
  exact toLower_eq_iff (.inl hd)

variable (libs : Libraries)

theorem normalizeDns_toAsciiLowercase (host : Str) :
    normalizeDnsHostOrIpLiteral libs (toAsciiLowercase host) = normalizeDnsHostOrIpLiteral libs host := by
  rw [normalizeDnsHostOrIpLiteral, toAsciiLowercase_idem]
  rfl

theorem bracketed_cons_ne {c : Char} (h : c ≠ '[') (rest : Str) : bracketed (c :: rest) = none := by
  unfold bracketed
  split
  · rename_i he
    cases he
    exact absurd rfl h
  · rfl

theorem bracketed_toAsciiLowercase (host : Str) :
    bracketed (toAsciiLowercase host) = (bracketed host).map toAsciiLowercase := by
  cases host with
  | nil => rfl
  | cons c rest =>
    by_cases hc : c = '['
    · subst hc
      have hm : ']' ∈ toAsciiLowercase rest ↔ ']' ∈ rest := mem_toAsciiLowercase (by decide)
      have hi := takeWhile_ne_toAsciiLowercase (d := ']') (by decide) rest
      change (if ']' ∈ toAsciiLowercase rest then some ((toAsciiLowercase rest).takeWhile (· ≠ ']')) else none) =
        (if ']' ∈ rest then some (rest.takeWhile (· ≠ ']')) else none).map toAsciiLowercase
      by_cases he : ']' ∈ rest
      · rw [if_pos he, if_pos (hm.mpr he), hi]
        rfl
      · rw [if_neg he, if_neg (fun h => he (hm.mp h))]
        rfl
    · have hl : c.toLower ≠ '[' := fun h => hc ((toLower_eq_iff (by decide)).mp h)
      rw [toAsciiLowercase, map_cons, bracketed_cons_ne hl, bracketed_cons_ne hc]
      rfl

theorem normalizeHost_toAsciiLowercase (host : Str) :
    normalizeHost libs (toAsciiLowercase host) = normalizeHost libs host := by
  have hp := takeWhile_ne_toAsciiLowercase (d := ':') (by decide) (trim host)
  unfold normalizeHost
  simp only
  rw [trim_toAsciiLowercase, bracketed_toAsciiLowercase]
  cases bracketed (trim host) with
  | some inner => exact normalizeDns_toAsciiLowercase libs inner
  | none =>
    simp only [Option.map_none]
    rw [count_toAsciiLowercase (by decide), hp, normalizeDns_toAsciiLowercase, normalizeDns_toAsciiLowercase]

theorem toAsciiLowercase_eq_star : toAsciiLowercase text = "*".toList ↔ text = "*".toList := by
  have hs : ∀ text : Str, text = "*".toList ↔ stripPrefix text "*".toList = some [] := by
    intro text
    rw [stripPrefix_eq_some, append_nil]
  rw [hs, hs, stripPrefix_toAsciiLowercase (by simp)]
  cases stripPrefix text "*".toList with
  | none => simp
  | some rest => simp [toAsciiLowercase]

/-- Entries that differ in the case of letters only are compiled alike. -/
theorem normalizePattern_toAsciiLowercase :
    normalizePattern libs (toAsciiLowercase pattern) = normalizePattern libs pattern := by
  unfold normalizePattern
  simp only
  rw [trim_toAsciiLowercase, stripPrefix_toAsciiLowercase (by simp), stripPrefix_toAsciiLowercase (by simp)]
  by_cases hs : trim pattern = "*".toList
  · rw [if_pos hs, if_pos (toAsciiLowercase_eq_star.mpr hs)]
  · rw [if_neg hs, if_neg (fun h => hs (toAsciiLowercase_eq_star.mp h))]
    cases stripPrefix (trim pattern) "**.".toList with
    | some domain => simp only [Option.map_some, normalizeHost_toAsciiLowercase]
    | none =>
      cases stripPrefix (trim pattern) "*.".toList with
      | some domain => simp only [Option.map_some, Option.map_none, normalizeHost_toAsciiLowercase]
      | none => simp only [Option.map_none, normalizeHost_toAsciiLowercase]

theorem normalizePattern_congr (h : toAsciiLowercase a = toAsciiLowercase b) :
    normalizePattern libs a = normalizePattern libs b := by
  rw [← normalizePattern_toAsciiLowercase libs, h, normalizePattern_toAsciiLowercase]

end LetterCase

theorem trimEndDots_sublist (name : Str) : (trimEndDots name).Sublist name := by
  have h : trimEndDots name <+: name := rdropWhile_prefix _ name
  exact h.sublist

theorem mem_trimEndDots (hc : c ≠ '.') (h : c ∈ name) : c ∈ trimEndDots name := by
  have hs : trimEndDots name ++ name.rtakeWhile (· = '.') = name := rdropWhile_append_rtakeWhile
  rcases mem_append.mp (hs.symm ▸ h) with hf | hd
  · exact hf
  · exact absurd (by simpa using mem_rtakeWhile_imp hd) hc

theorem trimEndDots_idem : trimEndDots (trimEndDots name) = trimEndDots name := rdropWhile_idempotent _ name

section Readings

variable {domain host child : Str}

/-- What a pattern stands for beside its domain. -/
inductive Mark where
  | host
  | subdomains
  | hostAndSubdomains
  deriving DecidableEq

def mark : DomainPattern → Mark
  | .exact _ => .host
  | .subdomainsOnly _ => .subdomains
  | .apexAndSubdomains _ => .hostAndSubdomains

def domainOf : DomainPattern → Str
  | .exact domain | .subdomainsOnly domain | .apexAndSubdomains domain => domain

def Mark.globs (mark : Mark) (domain : Str) : List Str :=
  match mark with
  | .host => [domain]
  | .subdomains => ["?*.".toList ++ domain]
  | .hostAndSubdomains => [domain, "?*.".toList ++ domain]

theorem expandDomainPattern_eq (text : Str) :
    expandDomainPattern text = (mark (parse text)).globs (domainOf (parse text)) := by
  rw [expandDomainPattern]
  cases parse text with
  | _ => rfl

/-- Behind the stars it begins with, a name does not go on with a dot. -/
def BeginsWithLabel (name : Str) : Prop := (name.dropWhile (· = '*')).head? ≠ some '.'

instance (name : Str) : Decidable (BeginsWithLabel name) := inferInstanceAs (Decidable (_ ≠ _))

/-- The pattern that is compiled for an entry is, up to the case of letters, the one that validation compares. -/
def SameReading (libs : Libraries) (entry : Str) : Prop :=
  mark (parse (normalizePattern libs entry)) = mark (parseForConstraints libs entry) ∧
    toAsciiLowercase (domainOf (parse (normalizePattern libs entry))) =
      normalizeDomain (domainOf (parseForConstraints libs entry))

/-- Both readings of an entry are the same, and one that stands for a host begins with a label of it. -/
def ReadAlike (libs : Libraries) (entry : Str) : Prop :=
  SameReading libs entry ∧ (mark (parse (normalizePattern libs entry)) ≠ .subdomains →
    BeginsWithLabel (domainOf (parse (normalizePattern libs entry))))

instance (libs : Libraries) (entry : Str) : Decidable (SameReading libs entry) := inferInstanceAs (Decidable (_ ∧ _))

instance (libs : Libraries) (entry : Str) : Decidable (ReadAlike libs entry) := inferInstanceAs (Decidable (_ ∧ _))

theorem BeginsWithLabel.exists_ne_star (h : BeginsWithLabel (front ++ '.' :: rest)) : ∃ c ∈ front, c ≠ '*' := by
  by_contra hs
  have hd : (front ++ '.' :: rest).dropWhile (· = '*') = '.' :: rest := by
    rw [dropWhile_append_of_pos (by simpa using hs)]
    simp
  exact h (by rw [hd]; rfl)

theorem BeginsWithLabel.toAsciiLowercase (h : BeginsWithLabel name) : BeginsWithLabel (toAsciiLowercase name) := by
  have hd := dropWhile_toLower (p := fun c => c = '*')
    (fun c => by rw [decide_eq_decide, toLower_eq_iff (by decide)]) name
  rw [BeginsWithLabel, hd, NetworkPolicy.toAsciiLowercase, head?_map]
  intro hh
  obtain ⟨c, hc, hdot⟩ := Option.map_eq_some_iff.mp hh
  rw [toLower_eq_iff (by decide)] at hdot
  exact h (hdot ▸ hc)

theorem token_toLower (c : Char) :
    token c.toLower = match token c with | .letter d => .letter d.toLower | other => other := by
  by_cases hs : c = '*'
  · subst hs
    rfl
  · by_cases ho : c = '?'
    · subst ho
      rfl
    · have hl : ∀ d : Char, d.toNat < 65 → c ≠ d → c.toLower ≠ d := fun d hd hne h =>
        hne ((toLower_eq_iff (.inl hd)).mp h)
      rw [token, if_neg (hl '*' (by decide) hs), if_neg (hl '?' (by decide) ho), token, if_neg hs, if_neg ho]

/-- The case of the letters of a glob does not matter. -/
theorem globMatches_toAsciiLowercase (glob host : Str) :
    globMatches (toAsciiLowercase glob) host = globMatches glob host := by
  rw [Bool.eq_iff_iff, globMatches, globMatches, toAsciiLowercase]
  induction glob generalizing host with
  | nil => rfl
  | cons c glob ih =>
    rw [map_cons, map_cons, map_cons, token_toLower]
    cases token c with
    | run => simp only [isMatch_run, ih]
    | one => simp only [isMatch_one, ih]
    | letter d => simp only [isMatch_letter, ih, sameLetter, toLower_toLower]

theorem globMatches_subdomains (hc : c ∈ front) (hne : c ≠ '*')
    (h : globMatches (front ++ '.' :: domain) host = true) : globMatches ("?*.".toList ++ domain) host = true := by
  have ht : token c ≠ .run := by
    rw [token, if_neg hne]
    split <;> simp
  rw [globMatches, map_append] at h
  exact isMatch_one_run_append (mem_map_of_mem hc) ht h

theorem isSubdomainOrEqual_cases (h : isSubdomainOrEqual child parent = true) :
    normalizeDomain child = normalizeDomain parent ∨
      ∃ pre, normalizeDomain child = pre ++ '.' :: normalizeDomain parent := by
  unfold isSubdomainOrEqual at h
  simp only at h
  split at h
  · rename_i he
    exact .inl he
  · obtain ⟨pre, hf⟩ := isSuffixOf_iff_suffix.mp h
    exact .inr ⟨pre, hf.symm⟩

theorem isStrictSubdomain_cases (h : isStrictSubdomain child parent = true) :
    ∃ pre, normalizeDomain child = pre ++ '.' :: normalizeDomain parent := by
  obtain ⟨pre, hf⟩ := isSuffixOf_iff_suffix.mp (Bool.and_eq_true_iff.mp h).2
  exact ⟨pre, hf.symm⟩

/-- A pattern allows another for one of two reasons: both have the same domain and the globs of the one are among
those of the other, or the domain is below that of a pattern for subdomains. -/
theorem allows_cases {managed cand : DomainPattern} (h : allows managed cand = true) :
    (normalizeDomain (domainOf cand) = normalizeDomain (domainOf managed) ∧
      ∀ name, (mark cand).globs name ⊆ (mark managed).globs name) ∨
    ((∃ pre, normalizeDomain (domainOf cand) = pre ++ '.' :: normalizeDomain (domainOf managed)) ∧
      ∀ name, "?*.".toList ++ name ∈ (mark managed).globs name) := by
  cases managed with
  | exact domain =>
    cases cand with
    | exact child => exact .inl ⟨of_decide_eq_true h, fun name => List.Subset.refl _⟩
    | _ => cases h
  | subdomainsOnly domain =>
    have hm : ∀ name, "?*.".toList ++ name ∈ Mark.subdomains.globs name := fun name => mem_singleton_self _
    cases cand with
    | subdomainsOnly child =>
      rcases isSubdomainOrEqual_cases h with he | hb
      · exact .inl ⟨he, fun name => List.Subset.refl _⟩
      · exact .inr ⟨hb, hm⟩
    | _ => exact .inr ⟨isStrictSubdomain_cases h, hm⟩
  | apexAndSubdomains domain =>
    have hm : ∀ name, "?*.".toList ++ name ∈ Mark.hostAndSubdomains.globs name := by simp [Mark.globs]
    have hs : ∀ name, (mark cand).globs name ⊆ Mark.hostAndSubdomains.globs name := by
      intro name
      cases mark cand <;> simp [Mark.globs]
    have ho : isSubdomainOrEqual (domainOf cand) domain = true := by
      cases cand <;> exact h
    rcases isSubdomainOrEqual_cases ho with he | hb
    · exact .inl ⟨he, hs⟩
    · exact .inr ⟨hb, hm⟩

theorem Mark.matches_below (mark : Mark) (hl : mark ≠ .subdomains → BeginsWithLabel (front ++ '.' :: domain))
    (hg : glob ∈ mark.globs (front ++ '.' :: domain)) (h : globMatches glob host = true) :
    globMatches ("?*.".toList ++ domain) host = true := by
  have hcases : (mark ≠ .subdomains ∧ glob = front ++ '.' :: domain) ∨
      glob = "?*.".toList ++ (front ++ '.' :: domain) := by
    cases mark with
    | host => exact .inl ⟨by decide, mem_singleton.mp hg⟩
    | subdomains => exact .inr (mem_singleton.mp hg)
    | hostAndSubdomains => simpa [Mark.globs] using hg
  rcases hcases with ⟨hm, rfl⟩ | rfl
  · obtain ⟨c, hc, hne⟩ := (hl hm).exists_ne_star
    exact globMatches_subdomains hc hne h
  · exact globMatches_subdomains (mem_append_left front (show '?' ∈ "?*.".toList by decide)) (by decide) h

theorem Mark.globs_toAsciiLowercase (mark : Mark) (name : Str) :
    mark.globs (toAsciiLowercase name) = (mark.globs name).map toAsciiLowercase := by
  have hq : toAsciiLowercase ("?*.".toList ++ name) = "?*.".toList ++ toAsciiLowercase name := by
    rw [toAsciiLowercase, map_append]
    rfl
  cases mark with
  | host => rfl
  | _ => simp only [Mark.globs, map_cons, map_nil, hq]

/-- Where validation lets an entry stand under a managed one and both are read alike, the managed globs match every
host that the globs of the entry match. -/
theorem globs_covered (hd : SameReading libs managed) (hc : ReadAlike libs candidate)
    (h : allows (parseForConstraints libs managed) (parseForConstraints libs candidate) = true)
    (hg : glob ∈ expandDomainPattern (normalizePattern libs candidate)) (hm : globMatches glob host = true) :
    ∃ glob ∈ expandDomainPattern (normalizePattern libs managed), globMatches glob host = true := by
  obtain ⟨⟨hcm, hcd⟩, hl⟩ := hc
  obtain ⟨hmm, hmd⟩ := hd
  rw [expandDomainPattern_eq] at hg ⊢
  have hlow := mem_map_of_mem (f := toAsciiLowercase) hg
  rw [← Mark.globs_toAsciiLowercase, hcd] at hlow
  rw [← globMatches_toAsciiLowercase] at hm
  -- a managed glob in lower case is enough
  suffices hs : ∃ own ∈ (mark (parse (normalizePattern libs managed))).globs
      (normalizeDomain (domainOf (parseForConstraints libs managed))), globMatches own host = true by
    obtain ⟨own, ho, hom⟩ := hs
    rw [← hmd, Mark.globs_toAsciiLowercase] at ho
    obtain ⟨found, hf, rfl⟩ := mem_map.mp ho
    exact ⟨found, hf, (globMatches_toAsciiLowercase found host).symm.trans hom⟩
  rw [hmm]
  rcases allows_cases h with ⟨heq, hs⟩ | ⟨⟨pre, hb⟩, hmem⟩
  · rw [heq, hcm] at hlow
    exact ⟨_, hs _ hlow, hm⟩
  · have hlabel : mark (parse (normalizePattern libs candidate)) ≠ .subdomains → BeginsWithLabel
        (pre ++ '.' :: normalizeDomain (domainOf (parseForConstraints libs managed))) := by
      intro hn
      rw [← hb, ← hcd]
      exact (hl hn).toAsciiLowercase
    rw [hb] at hlow
    exact ⟨_, hmem _, Mark.matches_below _ hlabel hlow hm⟩

end Readings

end PatternReading
