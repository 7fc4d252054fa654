import Ycode.HostNormalization

/-!
# Network rules of the execution policy

A policy keeps its network rules in the order in which they were added, and compiles them to a list of allowed and a
list of denied hosts. A rule is added in memory and appended to the policy file as a call that is read again when the
policy is loaded; its host is normalized on both ways.
-/
namespace NetworkRules

open RustStr NetworkPolicy PatternReading HostNormalization List

inductive Decision where
  | allow | prompt | forbidden
  deriving DecidableEq, Repr

inductive NetworkRuleProtocol where
  | http | https | socks5Tcp | socks5Udp
  deriving DecidableEq, Repr

structure NetworkRule where
  host : Str
  protocol : NetworkRuleProtocol
  decision : Decision
  justification : Option Str
  deriving DecidableEq, Repr

inductive Error where
  | invalidDecision (raw : Str)
  | invalidRule (text : Str)
  deriving DecidableEq, Repr

def Error.text : Error → Str
  | .invalidDecision raw => "invalid decision: ".toList ++ raw
  | .invalidRule text => "invalid rule: ".toList ++ text

structure Policy where
  networkRules : List NetworkRule

section Domains

def upsertDomain (entries : List Str) (host : Str) : List Str := entries.filter (· ≠ host) ++ [host]

/-- One round of the loop over the rules, on the allowed and the denied hosts. -/
def compileRule (domains : List Str × List Str) (rule : NetworkRule) : List Str × List Str :=
  match rule.decision with
  | .allow => (upsertDomain domains.1 rule.host, domains.2.filter (· ≠ rule.host))
  | .forbidden => (domains.1.filter (· ≠ rule.host), upsertDomain domains.2 rule.host)
  | .prompt => domains

def Policy.compiledNetworkDomains (policy : Policy) : List Str × List Str :=
  policy.networkRules.foldl compileRule ([], [])

/-- Rule `i` is the last one for the host that does not ask, and this is its decision. -/
structure Decides (rules : List NetworkRule) (host : Str) (decision : Decision) (i : Nat) : Prop where
  rule : ∃ rule, rules[i]? = some rule ∧ rule.host = host ∧ rule.decision = decision
  firm : decision ≠ .prompt
  last : ∀ j later, i < j → rules[j]? = some later → later.host = host → later.decision = .prompt

/-- The entries are the hosts that end with the decision, in the order of the rules that decide. -/
structure Listed (rules : List NetworkRule) (decision : Decision) (entries : List Str) : Prop where
  mem_iff : ∀ host, host ∈ entries ↔ ∃ i, Decides rules host decision i
  sorted : entries.Pairwise fun a b => ∀ i j, Decides rules a decision i → Decides rules b decision j → i < j

theorem Decides.lt (h : Decides rules host decision i) : i < rules.length := by
  obtain ⟨rule, hr, _⟩ := h.rule
  exact (List.getElem?_eq_some_iff.mp hr).1

theorem Decides.le (h : Decides rules host decision i) (h' : Decides rules host other j) : j ≤ i := by
  obtain ⟨rule, hr, hh, hd⟩ := h'.rule
  by_contra hlt
  have hp := h.last j rule (by omega) hr hh
  exact h'.firm (hd.symm.trans hp)

theorem Decides.unique (h : Decides rules host decision i) (h' : Decides rules host other j) :
    i = j ∧ decision = other := by
  have hi : i = j := Nat.le_antisymm (h'.le h) (h.le h')
  subst hi
  obtain ⟨rule, hr, _, hd⟩ := h.rule
  obtain ⟨rule', hr', _, hd'⟩ := h'.rule
  cases hr.symm.trans hr'
  exact ⟨rfl, hd.symm.trans hd'⟩

/-- One more rule decides for its host, unless it asks; the other hosts stay with their rules. -/
theorem decides_concat : Decides (rules ++ [rule]) host decision i ↔
    (i = rules.length ∧ rule.host = host ∧ rule.decision = decision ∧ decision ≠ .prompt) ∨
      (Decides rules host decision i ∧ (rule.host = host → rule.decision = .prompt)) := by
  have hlast : (rules ++ [rule])[rules.length]? = some rule := getElem?_concat_length
  constructor
  · intro h
    obtain ⟨decider, hg, hh, hd⟩ := h.rule
    have hlt := h.lt
    rw [length_append, length_singleton] at hlt
    by_cases hi : i = rules.length
    · rw [hi, hlast] at hg
      cases hg
      exact .inl ⟨hi, hh, hd, h.firm⟩
    · have hb : i < rules.length := by omega
      rw [getElem?_append_left hb] at hg
      refine .inr ⟨⟨⟨decider, hg, hh, hd⟩, h.firm, ?_⟩, h.last _ _ hb hlast⟩
      intro j later hij hl
      have hj := (List.getElem?_eq_some_iff.mp hl).1
      exact h.last j later hij (by rw [getElem?_append_left hj, hl])
  · rintro (⟨rfl, hh, hd, hf⟩ | ⟨h, ha⟩)
    · refine ⟨⟨rule, hlast, hh, hd⟩, hf, ?_⟩
      intro j later hij hl
      have hj := (List.getElem?_eq_some_iff.mp hl).1
      rw [length_append, length_singleton] at hj
      omega
    · obtain ⟨decider, hg, hc⟩ := h.rule
      refine ⟨⟨decider, by rw [getElem?_append_left h.lt, hg], hc⟩, h.firm, ?_⟩
      intro j later hij hl
      have hj := (List.getElem?_eq_some_iff.mp hl).1
      rw [length_append, length_singleton] at hj
      by_cases he : j = rules.length
      · rw [he, hlast] at hl
        cases hl
        exact ha
      · rw [getElem?_append_left (by omega)] at hl
        exact h.last j later hij hl

section

variable (h : Listed rules decision entries)
include h

/-- A rule that asks changes nothing. -/
theorem Listed.keep (ha : rule.decision = .prompt) : Listed (rules ++ [rule]) decision entries := by
  have hs : ∀ host i, Decides (rules ++ [rule]) host decision i ↔ Decides rules host decision i := by
    intro host i
    rw [decides_concat]
    constructor
    · rintro (⟨_, _, rfl, hf⟩ | ⟨ho, _⟩)
      · exact absurd ha hf
      · exact ho
    · intro ho
      exact .inr ⟨ho, fun _ => ha⟩
  refine ⟨fun host => ?_, ?_⟩
  · simp only [h.mem_iff, hs]
  · simpa only [hs] using h.sorted

/-- A rule with the other decision takes its host out. -/
theorem Listed.retain (hf : rule.decision ≠ .prompt) (ho : rule.decision ≠ decision) :
    Listed (rules ++ [rule]) decision (entries.filter (· ≠ rule.host)) := by
  have hs : ∀ host i, Decides (rules ++ [rule]) host decision i ↔
      Decides rules host decision i ∧ host ≠ rule.host := by
    intro host i
    rw [decides_concat]
    constructor
    · rintro (⟨_, _, he, _⟩ | ⟨hold, ha⟩)
      · exact absurd he ho
      · exact ⟨hold, fun he => hf (ha he.symm)⟩
    · rintro ⟨hold, hne⟩
      exact .inr ⟨hold, fun he => absurd he.symm hne⟩
  refine ⟨fun host => ?_, (h.sorted.filter _).imp fun hlt i j hi hj => ?_⟩
  · simp only [mem_filter, decide_eq_true_eq, h.mem_iff, hs, exists_and_right]
  · exact hlt i j ((hs _ _).mp hi).1 ((hs _ _).mp hj).1

/-- A rule with the decision moves its host to the end. -/
theorem Listed.upsert (hf : decision ≠ .prompt) (he : rule.decision = decision) :
    Listed (rules ++ [rule]) decision (upsertDomain entries rule.host) := by
  have hs : ∀ host i, Decides (rules ++ [rule]) host decision i ↔
      (i = rules.length ∧ host = rule.host) ∨ (Decides rules host decision i ∧ host ≠ rule.host) := by
    intro host i
    rw [decides_concat]
    constructor
    · rintro (⟨hi, hh, _⟩ | ⟨ho, hask⟩)
      · exact .inl ⟨hi, hh.symm⟩
      · exact .inr ⟨ho, fun hh => hf (he.symm.trans (hask hh.symm))⟩
    · rintro (⟨hi, hh⟩ | ⟨ho, hne⟩)
      · exact .inl ⟨hi, hh.symm, he, hf⟩
      · exact .inr ⟨ho, fun hh => absurd hh.symm hne⟩
  refine ⟨fun host => ?_, pairwise_append.mpr ⟨?_, pairwise_singleton _ _, ?_⟩⟩
  · simp only [upsertDomain, mem_append, mem_filter, decide_eq_true_eq, mem_singleton, h.mem_iff, hs,
      exists_or, exists_and_right, exists_eq, true_and]
    exact or_comm
  · refine (h.sorted.filter _).imp_of_mem fun ha hb hlt i j hi hj => ?_
    have hane := of_decide_eq_true (mem_filter.mp ha).2
    have hbne := of_decide_eq_true (mem_filter.mp hb).2
    have hi' := ((hs _ _).mp hi).resolve_left fun hl => hane hl.2
    have hj' := ((hs _ _).mp hj).resolve_left fun hl => hbne hl.2
    exact hlt i j hi'.1 hj'.1
  · intro a ha b hb i j hi hj
    have hane := of_decide_eq_true (mem_filter.mp ha).2
    have hi' := ((hs _ _).mp hi).resolve_left fun hl => hane hl.2
    have hj' := ((hs _ _).mp hj).resolve_right fun ho => ho.2 (mem_singleton.mp hb)
    rw [hj'.1]
    exact hi'.1.lt

theorem Listed.nodup : entries.Nodup := by
  refine h.sorted.imp_of_mem fun ha _ hlt he => ?_
  obtain ⟨i, hi⟩ := (h.mem_iff _).mp ha
  subst he
  exact Nat.lt_irrefl i (hlt i i hi hi)

end

/-- The loop after any number of rules. -/
theorem listed_foldl :
    Listed rules .allow (rules.foldl compileRule ([], [])).1 ∧
      Listed rules .forbidden (rules.foldl compileRule ([], [])).2 := by
  induction rules using List.reverseRecOn with
  | nil =>
    have hn : ∀ decision, Listed [] decision [] := by
      refine fun decision => ⟨fun host => iff_of_false not_mem_nil ?_, List.Pairwise.nil⟩
      rintro ⟨i, hi⟩
      exact Nat.not_lt_zero i hi.lt
    exact ⟨hn _, hn _⟩
  | append_singleton rules rule ih =>
    rw [foldl_append, foldl_cons, foldl_nil, compileRule]
    cases hd : rule.decision with
    | allow => exact ⟨ih.1.upsert (by decide) hd, ih.2.retain (by rw [hd]; decide) (by rw [hd]; decide)⟩
    | prompt => exact ⟨ih.1.keep hd, ih.2.keep hd⟩
    | forbidden => exact ⟨ih.1.retain (by rw [hd]; decide) (by rw [hd]; decide), ih.2.upsert (by decide) hd⟩

/-- The last rule of a host that does not ask decides whether it is allowed or denied, and where it stands. -/
theorem last_rule_decides (policy : Policy) :
    policy.compiledNetworkDomains.1.Nodup ∧ policy.compiledNetworkDomains.2.Nodup ∧
      policy.compiledNetworkDomains.1.Disjoint policy.compiledNetworkDomains.2 ∧
      Listed policy.networkRules .allow policy.compiledNetworkDomains.1 ∧
      Listed policy.networkRules .forbidden policy.compiledNetworkDomains.2 := by
  obtain ⟨ha, hd⟩ := listed_foldl
  refine ⟨ha.nodup, hd.nodup, fun host hin ho => ?_, ha, hd⟩
  obtain ⟨i, hi⟩ := (ha.mem_iff host).mp hin
  obtain ⟨j, hj⟩ := (hd.mem_iff host).mp ho
  exact absurd (hi.unique hj).2 (by decide)

end Domains

def invalid (text : String) : Error := .invalidRule text.toList

def isPort (port : Str) : Bool := port ≠ [] && port.all Char.isDigit

/-- The only colon of the host separates a port from a name. -/
def hasPort (host : Str) : Bool :=
  host.count ':' = 1 && host.takeWhile (· ≠ ':') ≠ [] && isPort (host.dropWhile (· ≠ ':')).tail

/-- The text between the brackets of an address, or in front of a port. -/
def withoutPort (raw host : Str) : Except Error Str :=
  match stripPrefix host "[".toList with
  | some stripped =>
    match splitOnce "]".toList stripped with
    | none => .error (invalid "network_rule host has an invalid bracketed IPv6 literal")
    | some (inside, rest) =>
      if rest ≠ [] && !(stripPrefix rest ":".toList).any isPort then
        .error (.invalidRule ("network_rule host contains an unsupported suffix: ".toList ++ raw))
      else .ok inside
  | none => .ok (if hasPort host then host.takeWhile (· ≠ ':') else host)

def checkHost (normalized : Str) : Except Error Str :=
  if normalized = [] then .error (invalid "network_rule host cannot be empty")
  else if '*' ∈ normalized then
    .error (invalid "network_rule host must be a specific host; wildcards are not allowed")
  else if normalized.any isWhitespace then .error (invalid "network_rule host cannot contain whitespace")
  else .ok normalized

def normalizeNetworkRuleHost (raw : Str) : Except Error Str :=
  if trim raw = [] then .error (invalid "network_rule host cannot be empty")
  else if "://".toList <:+: trim raw ∨ '/' ∈ trim raw ∨ '?' ∈ trim raw ∨ '#' ∈ trim raw then
    .error (invalid "network_rule host must be a hostname or IP literal (without scheme or path)")
  else match withoutPort raw (trim raw) with
    | .error error => .error error
    | .ok host => checkHost (toAsciiLowercase (trim (trimEndDots host)))

def justificationBlank (justification : Option Str) : Bool := justification.any fun raw => trim raw = []

def Policy.addNetworkRule (policy : Policy) (host : Str) (protocol : NetworkRuleProtocol) (decision : Decision)
    (justification : Option Str) : Except Error Policy :=
  match normalizeNetworkRuleHost host with
  | .error error => .error error
  | .ok host =>
    if justificationBlank justification then .error (invalid "justification cannot be empty")
    else .ok { policy with networkRules := policy.networkRules ++ [⟨host, protocol, decision, justification⟩] }

/-- Nothing that normalizing would take away. -/
def Bare (host : Str) : Prop := host.head? ≠ some '[' ∧ hasPort host = false ∧ host.getLast? ≠ some '.'

instance (host : Str) : Decidable (Bare host) := inferInstanceAs (Decidable (_ ∧ _ ∧ _))

theorem checkHost_ok : checkHost host = .ok part ↔
    host ≠ [] ∧ '*' ∉ host ∧ host.any isWhitespace = false ∧ part = host := by
  unfold checkHost
  split_ifs with he hstar hs
  · simp [he]
  · simp [hstar]
  · simp [hs]
  · simp only [Except.ok.injEq, he, hstar, hs, ne_eq, not_false_eq_true, true_and]
    exact eq_comm

theorem withoutPort_of_bare (h : Bare host) : withoutPort raw host = .ok host := by
  have hb : stripPrefix host "[".toList = none := by
    rw [stripPrefix_eq_none]
    rintro ⟨rest, rfl⟩
    exact h.1 rfl
  rw [withoutPort, hb, h.2.1]
  rfl

/-- Brackets and ports that are taken off shorten the text. -/
theorem withoutPort_cases (h : withoutPort raw host = .ok part) :
    part.Sublist host ∧ (part = host → host.head? ≠ some '[' ∧ hasPort host = false) := by
  unfold withoutPort at h
  split at h
  · rename_i stripped hs
    have hhost := stripPrefix_eq_some.mp hs
    split at h
    · cases h
    · rename_i inside rest hsplit
      have hi := splitOnce_eq_some hsplit
      split at h
      · cases h
      · cases h
        rw [hhost, hi, append_assoc]
        refine ⟨(sublist_append_left _ _).trans (sublist_append_right _ _), fun he => ?_⟩
        have hl := congrArg List.length he
        exact absurd hl (by simp; omega)
  · rename_i hn
    have hh : host.head? ≠ some '[' := by
      intro hh
      obtain ⟨rest, rfl⟩ := head?_eq_some_iff.mp hh
      exact absurd hn (by simp)
    cases hp : hasPort host with
    | false =>
      rw [hp] at h
      cases h
      exact ⟨List.Sublist.refl _, fun _ => ⟨hh, rfl⟩⟩
    | true =>
      rw [hp] at h
      cases h
      refine ⟨takeWhile_sublist _, fun he => absurd hp ?_⟩
      have hc : ':' ∉ host := by
        intro hm
        have ha := takeWhile_eq_self_iff.mp he ':' hm
        exact absurd ha (by decide)
      rw [hasPort, count_eq_zero.mpr hc]
      simp

theorem remainder_sublist (h : withoutPort raw host = .ok part) : (trim (trimEndDots part)).Sublist host :=
  ((trim_sublist _).trans (trimEndDots_sublist _)).trans (withoutPort_cases h).1

/-- What normalizing gives has no white space and nothing of a scheme or a path. -/
theorem normalize_ok_iff : normalizeNetworkRuleHost raw = .ok host ↔
    (trim raw ≠ [] ∧ ¬ "://".toList <:+: trim raw ∧ '/' ∉ trim raw ∧ '?' ∉ trim raw ∧ '#' ∉ trim raw) ∧
      ∃ part, withoutPort raw (trim raw) = .ok part ∧
        checkHost (toAsciiLowercase (trim (trimEndDots part))) = .ok host := by
  unfold normalizeNetworkRuleHost
  split_ifs with he hs
  · simp [he]
  · refine iff_of_false (fun h => nomatch h) fun ⟨⟨_, hn⟩, _⟩ => ?_
    obtain h | h | h | h := hs
    · exact hn.1 h
    · exact hn.2.1 h
    · exact hn.2.2.1 h
    · exact hn.2.2.2 h
  · have hn : ¬ "://".toList <:+: trim raw ∧ '/' ∉ trim raw ∧ '?' ∉ trim raw ∧ '#' ∉ trim raw := by
      simpa only [not_or] using hs
    cases hp : withoutPort raw (trim raw) with
    | error error => simp
    | ok part => simp only [he, hn, ne_eq, not_false_eq_true, true_and, Except.ok.injEq, exists_eq_left']

theorem trimEndDots_eq_self : trimEndDots host = host ↔ host.getLast? ≠ some '.' := by
  cases host using List.reverseRecOn with
  | nil => simp [trimEndDots]
  | append_singleton pre c =>
    rw [getLast?_concat, trimEndDots, rdropWhile_concat]
    by_cases hc : c = '.'
    · have hs := (trimEndDots_sublist pre).length_le
      refine iff_of_false (fun he => ?_) (fun hne => hne (by rw [hc]))
      rw [if_pos (decide_eq_true hc)] at he
      rw [trimEndDots, he, length_append, length_singleton] at hs
      omega
    · rw [if_neg (by simpa using hc)]
      simpa using hc

theorem trim_eq_self (h : host.any isWhitespace = false) : trim host = host := by
  have hn : ∀ c ∈ host, ¬ isWhitespace c := by simpa using h
  have hs : trimStart host = host := by
    cases host with
    | nil => rfl
    | cons c rest => exact trimStart_cons_of_not rest (by simpa using hn c mem_cons_self)
  rw [trim, hs]
  exact rdropWhile_eq_self_iff.mpr fun hne => hn _ (getLast_mem hne)

theorem isPort_toAsciiLowercase : isPort (toAsciiLowercase port) = isPort port := by
  have hdigit : ∀ c : Char, c.toLower.isDigit = c.isDigit := by
    intro c
    rcases toLower_cases c with h | ⟨hlo, hh, hlower⟩
    · rw [h]
    · have hl : ∀ d : Char, 65 ≤ d.toNat → d.isDigit = false := by
        intro d hd
        rw [Char.isDigit, Bool.and_eq_false_iff, decide_eq_false_iff_not, decide_eq_false_iff_not]
        exact .inr fun hle => absurd (hd.trans (UInt32.le_iff_toNat_le.mp hle)) (by decide)
      rw [hl c hlo, hl _ (by omega)]
  simp [isPort, toAsciiLowercase, all_map, Function.comp_def, hdigit]

/-- A result is normalized to itself exactly if it is bare. -/
theorem normalize_again_iff (h : normalizeNetworkRuleHost raw = .ok host) :
    normalizeNetworkRuleHost host = .ok host ↔ Bare host := by
  obtain ⟨⟨_, _, hslash, hq, hhash⟩, part, hp, hc⟩ := normalize_ok_iff.mp h
  obtain ⟨hne, hstar, hs, hh⟩ := checkHost_ok.mp hc
  rw [← hh] at hne hstar hs
  have ht := trim_eq_self hs
  have hlower : toAsciiLowercase host = host := by rw [hh, toAsciiLowercase_idem]
  have hsub := remainder_sublist hp
  constructor
  · intro hagain
    obtain ⟨_, again, ha, hi⟩ := normalize_ok_iff.mp hagain
    rw [ht] at ha
    have he := (checkHost_ok.mp hi).2.2.2
    have hcut := trimEndDots_sublist again
    have hl : host.length ≤ (trimEndDots again).length := by
      rw [he, toAsciiLowercase, length_map]
      exact (trim_sublist _).length_le
    obtain ⟨hshort, hsame⟩ := withoutPort_cases ha
    have hn : again = host := hshort.eq_of_length_le (hl.trans hcut.length_le)
    subst hn
    exact ⟨(hsame rfl).1, (hsame rfl).2, trimEndDots_eq_self.mp (hcut.eq_of_length_le hl)⟩
  · intro hb
    refine normalize_ok_iff.mpr ⟨?_, host, ?_, ?_⟩
    · rw [ht]
      have hg : ∀ d : Char, d.toNat < 65 → d ∉ trim raw → d ∉ host := by
        intro d hd hd' hm
        rw [hh, mem_toAsciiLowercase (.inl hd)] at hm
        exact hd' (hsub.subset hm)
      refine ⟨hne, ?_, hg _ (by decide) hslash, hg _ (by decide) hq, hg _ (by decide) hhash⟩
      intro hscheme
      exact hg _ (by decide) hslash (hscheme.subset (by decide))
    · rw [ht]
      exact withoutPort_of_bare hb
    · rw [trimEndDots_eq_self.mpr hb.2.2, ht, hlower]
      exact checkHost_ok.mpr ⟨hne, hstar, hs, rfl⟩

theorem bare_toAsciiLowercase : Bare (toAsciiLowercase text) ↔ Bare text := by
  have hp : hasPort (toAsciiLowercase text) = hasPort text := by
    have hn : ∀ c : Char, (decide (c.toLower ≠ ':')) = decide (c ≠ ':') := by
      intro c
      rw [decide_eq_decide, ne_eq, ne_eq, toLower_eq_iff (.inl (by decide))]
    rw [hasPort, count_toAsciiLowercase (by decide), takeWhile_toLower hn, dropWhile_toLower hn]
    rw [toAsciiLowercase, toAsciiLowercase, ← map_tail]
    rw [show List.map Char.toLower (text.dropWhile (· ≠ ':')).tail = toAsciiLowercase _ from rfl,
      isPort_toAsciiLowercase]
    simp [hasPort]
  have hm : ∀ (d : Char) (o : Option Char), 90 < d.toNat ∧ d.toNat < 97 ∨ d.toNat < 65 →
      (o.map Char.toLower ≠ some d ↔ o ≠ some d) := by
    intro d o hd
    cases o with
    | none => simp
    | some c => rw [Option.map_some, ne_eq, ne_eq, Option.some_inj, Option.some_inj, toLower_eq_iff (by omega)]
  rw [Bare, Bare, hp, toAsciiLowercase, head?_map, getLast?_map, hm _ _ (by decide), hm _ _ (by decide)]

def Blank (text : Str) : Prop := ∀ c ∈ text, isWhitespace c = true

def Dots (text : Str) : Prop := ∀ c ∈ text, c = '.'

/-- A text that has a bracket, a port or a dot behind the white space and the dots that are taken off its ends. -/
inductive Layered : Str → Prop
  | bracket (hlead : Blank lead) : Layered (lead ++ '[' :: rest)
  | port (hlead : Blank lead) (hname : name ≠ []) (hsolid : name.any isWhitespace = false) (hcolon : ':' ∉ name)
      (hport : isPort port = true) (hgap : Blank gap) (hdots : Dots dots) :
      Layered (lead ++ (name ++ ':' :: port) ++ gap ++ dots)
  | dot (hgap : Blank gap) (hne : gap ≠ []) (hdots : Dots dots) : Layered (pre ++ ['.'] ++ gap ++ dots)

/-- The host texts of which one layer is taken off and another stays: between brackets, in front of a port, or in the
whole text. -/
inductive TwoLayers : Str → Prop
  | inBrackets (hinside : ']' ∉ inside) (h : Layered inside) : TwoLayers ('[' :: (inside ++ ']' :: rest))
  | beforePort (hname : name.head? ≠ some '[') (hcolon : ':' ∉ name) (hport : isPort port = true) (h : Layered name) :
      TwoLayers (name ++ ':' :: port)
  | whole (hhost : host.head? ≠ some '[') (hport : hasPort host = false) (h : Layered host) : TwoLayers host

theorem takeWhile_until (h : c ∉ front) (rest : Str) : (front ++ c :: rest).takeWhile (· ≠ c) = front := by
  have hf : ∀ d ∈ front, decide (d ≠ c) = true := by
    intro d hd
    exact decide_eq_true fun he => h (he ▸ hd)
  rw [takeWhile_append_of_pos hf]
  simp

theorem dropWhile_until (h : c ∉ front) (rest : Str) : (front ++ c :: rest).dropWhile (· ≠ c) = c :: rest := by
  have hs := takeWhile_append_dropWhile (p := (· ≠ c)) (l := front ++ c :: rest)
  rw [takeWhile_until h] at hs
  exact append_cancel_left hs

theorem isDigit_of_isPort (h : isPort port = true) : ∀ c ∈ port, c.isDigit = true :=
  all_eq_true.mp (Bool.and_eq_true_iff.mp h).2

theorem isPort_no_colon (h : isPort port = true) : ':' ∉ port :=
  fun hm => absurd (isDigit_of_isPort h ':' hm) (by decide)

theorem isPort_no_whitespace (h : isPort port = true) : port.any isWhitespace = false := by
  refine any_eq_false.mpr fun c hc => ?_
  have hd := isDigit_of_isPort h c hc
  rw [Char.isDigit, Bool.and_eq_true, decide_eq_true_eq, decide_eq_true_eq] at hd
  have hlow : 48 ≤ c.toNat := UInt32.le_iff_toNat_le.mp hd.1
  have hhigh : c.toNat ≤ 57 := UInt32.le_iff_toNat_le.mp hd.2
  simp only [isWhitespace, Bool.or_eq_true, Bool.and_eq_true, decide_eq_true_eq, beq_iff_eq]
  omega

theorem hasPort_iff : hasPort host = true ↔
    ∃ name port, host = name ++ ':' :: port ∧ name ≠ [] ∧ ':' ∉ name ∧ isPort port = true := by
  simp only [hasPort, Bool.and_eq_true, decide_eq_true_eq]
  constructor
  · rintro ⟨⟨hc, hn⟩, hp⟩
    obtain ⟨name, port, rfl, hcolon⟩ := eq_append_cons_of_mem (count_pos_iff.mp (by omega : 0 < host.count ':'))
    rw [takeWhile_until hcolon] at hn
    rw [dropWhile_until hcolon] at hp
    exact ⟨name, port, rfl, hn, hcolon, hp⟩
  · rintro ⟨name, port, rfl, hn, hcolon, hp⟩
    rw [takeWhile_until hcolon, dropWhile_until hcolon]
    simp [count_eq_zero.mpr hcolon, count_eq_zero.mpr (isPort_no_colon hp), hn, hp]

theorem trimEndDots_append (hd : Dots dots) (hl : text.getLast? ≠ some '.') : trimEndDots (text ++ dots) = text := by
  induction dots using List.reverseRecOn with
  | nil => rw [append_nil, trimEndDots_eq_self.mpr hl]
  | append_singleton dots c ih =>
    have hc : c = '.' := hd c (by simp)
    rw [← append_assoc, trimEndDots, rdropWhile_concat_pos _ _ _ (by simpa using hc)]
    exact ih fun d hm => hd d (mem_append_left _ hm)

/-- The ends that are taken off a text. -/
theorem trim_trimEndDots_decompose (part : Str) : ∃ lead gap dots,
    part = lead ++ trim (trimEndDots part) ++ gap ++ dots ∧ Blank lead ∧ Blank gap ∧ Dots dots ∧
      (lead ++ trim (trimEndDots part) ++ gap).getLast? ≠ some '.' := by
  obtain ⟨lead, hlead, hl⟩ := trimStart_decompose (trimEndDots part)
  obtain ⟨gap, hgap, hg⟩ := trimEnd_decompose (trimStart (trimEndDots part))
  have hx : lead ++ trim (trimEndDots part) ++ gap = trimEndDots part := by
    rw [append_assoc, trim, ← hgap, ← hlead]
  refine ⟨lead, gap, part.rtakeWhile (· = '.'), ?_, hl, hg, ?_, ?_⟩
  · rw [hx]
    exact rdropWhile_append_rtakeWhile.symm
  · exact fun c hc => by simpa using mem_rtakeWhile_imp hc
  · rw [hx]
    exact trimEndDots_eq_self.mp trimEndDots_idem

theorem trimmed_of_solid (h : text.any isWhitespace = false) : Trimmed text := by
  have hn : ∀ c ∈ text, isWhitespace c = false := by simpa using h
  refine ⟨?_, trimEnd_eq_self_iff.mpr fun c hc => hn c (mem_of_getLast? hc)⟩
  cases text with
  | nil => rfl
  | cons c rest => exact trimStart_cons_of_not rest (hn c mem_cons_self)

theorem getLast?_append_ne (hne : back ≠ []) (hc : c ∉ back) : (text ++ back).getLast? ≠ some c := by
  rw [getLast?_append_of_ne_nil text hne]
  exact fun h => hc (mem_of_getLast? h)

theorem Blank.no_dot (h : Blank gap) : '.' ∉ gap := fun hm => absurd (h '.' hm) (by decide)

theorem layered_iff (hne : trim (trimEndDots part) ≠ []) (hs : (trim (trimEndDots part)).any isWhitespace = false) :
    Layered part ↔ ¬ Bare (trim (trimEndDots part)) := by
  obtain ⟨lead, gap, dots, hp, hl, hg, hd, hlast⟩ := trim_trimEndDots_decompose part
  generalize hcore : trim (trimEndDots part) = core at hne hs hp hlast
  have hnot : ¬ Bare core ↔ core.head? = some '[' ∨ hasPort core = true ∨ core.getLast? = some '.' := by
    simp only [Bare, not_and_or, not_not, Bool.not_eq_false]
  rw [hnot]
  constructor
  · intro h
    cases h with
    | bracket hb =>
      obtain ⟨c, rest, rfl⟩ := exists_cons_of_ne_nil hne
      have hc : isWhitespace c = false := (Bool.or_eq_false_iff.mp hs).1
      have ht := congrArg trimStart hp
      rw [trimStart_ws_append _ _ hb, trimStart_cons_of_not _ (by decide), append_assoc, append_assoc,
        trimStart_ws_append _ _ hl, cons_append, trimStart_cons_of_not _ hc] at ht
      cases ht
      exact .inl rfl
    | @port lead name port gap dots hlead hname hsolid hcolon hport hgap hdots =>
      have hdot : '.' ∉ port := fun hm => absurd (isDigit_of_isPort hport '.' hm) (by decide)
      have hlast : (lead ++ (name ++ ':' :: port) ++ gap).getLast? ≠ some '.' := by
        have he : lead ++ (name ++ ':' :: port) ++ gap = (lead ++ name) ++ (':' :: port ++ gap) := by simp
        rw [he]
        refine getLast?_append_ne (by simp) ?_
        simpa using ⟨hdot, hgap.no_dot⟩
      have hw : (name ++ ':' :: port).any isWhitespace = false := by
        rw [any_append, any_cons, hsolid, isPort_no_whitespace hport]
        rfl
      rw [trimEndDots_append hdots hlast,
        trim_sandwich lead (name ++ ':' :: port) gap hlead (trimmed_of_solid hw) (by simp) hgap] at hcore
      subst hcore
      exact .inr (.inl (hasPort_iff.mpr ⟨name, port, rfl, hname, hcolon, hport⟩))
    | @dot gap dots pre hgap hgne hdots =>
      rw [trimEndDots_append hdots (getLast?_append_ne hgne hgap.no_dot), ← trimStart_trimEnd,
        trimEnd_append_ws _ _ hgap, trimEnd_append_trimmed pre (by decide) (by decide)] at hcore
      obtain ⟨lead, hpre, -⟩ := trimStart_decompose (pre ++ ['.'])
      rw [hcore] at hpre
      have hend := congrArg getLast? hpre
      rw [getLast?_concat, getLast?_append_of_ne_nil lead hne] at hend
      exact .inr (.inr hend.symm)
  · rintro (hb | hhas | hdot)
    · obtain ⟨rest, rfl⟩ := head?_eq_some_iff.mp hb
      rw [hp, append_assoc, append_assoc]
      exact .bracket hl
    · obtain ⟨name, port, rfl, hn, hco, hpt⟩ := hasPort_iff.mp hhas
      rw [any_append, Bool.or_eq_false_iff] at hs
      rw [hp]
      exact .port hl hn hs.1 hco hpt hg hd
    · obtain ⟨pre, rfl⟩ := getLast?_eq_some_iff.mp hdot
      rw [hp, ← append_assoc lead]
      refine .dot hg ?_ hd
      rintro rfl
      exact hlast (by simp)

theorem splitOnce_front (h : splitOnce [c] text = some (front, rest)) : c ∉ front := by
  induction text generalizing front with
  | nil => cases h
  | cons d text ih =>
    rw [splitOnce] at h
    split at h
    · cases h
      exact not_mem_nil
    · rename_i hn
      obtain ⟨⟨before, back⟩, hs, he⟩ := Option.map_eq_some_iff.mp h
      cases he
      have hd : d ≠ c := by
        rintro rfl
        simp [stripPrefix, dropPrefix?] at hn
      simpa using ⟨Ne.symm hd, ih hs⟩

theorem Layered.ne_nil (h : Layered text) : text ≠ [] := by
  cases h with
  | _ => simp

theorem twoLayers_brackets_iff (hin : ']' ∉ inside) : TwoLayers ('[' :: (inside ++ ']' :: rest)) ↔ Layered inside := by
  refine ⟨fun h => ?_, .inBrackets hin⟩
  generalize hhost : '[' :: (inside ++ ']' :: rest) = host at h
  cases h with
  | inBrackets hin' hl =>
    have ht := congrArg (·.tail.takeWhile (· ≠ ']')) hhost
    simp only [tail_cons, takeWhile_until hin, takeWhile_until hin'] at ht
    exact ht ▸ hl
  | @beforePort name port hname =>
    cases name with
    | nil => cases hhost
    | cons c name => exact absurd (congrArg some (cons.inj hhost).1.symm) hname
  | whole hopen => exact absurd (by rw [← hhost]; rfl) hopen

theorem twoLayers_port_iff (hne : name ≠ []) (hopen : name.head? ≠ some '[') (hcolon : ':' ∉ name)
    (hport : isPort port = true) : TwoLayers (name ++ ':' :: port) ↔ Layered name := by
  refine ⟨fun h => ?_, .beforePort hopen hcolon hport⟩
  generalize hhost : name ++ ':' :: port = host at h
  cases h with
  | inBrackets =>
    obtain ⟨c, rest, rfl⟩ := exists_cons_of_ne_nil hne
    exact absurd (congrArg some (cons.inj hhost).1) hopen
  | beforePort _ hcolon' _ hl =>
    have ht := congrArg (·.takeWhile (· ≠ ':')) hhost
    simp only [takeWhile_until hcolon, takeWhile_until hcolon'] at ht
    exact ht ▸ hl
  | whole _ hno =>
    rw [← hhost, hasPort_iff.mpr ⟨_, _, rfl, hne, hcolon, hport⟩] at hno
    cases hno

theorem twoLayers_whole_iff (hopen : host.head? ≠ some '[') (hp : hasPort host = false) :
    TwoLayers host ↔ Layered host := by
  refine ⟨fun h => ?_, .whole hopen hp⟩
  cases h with
  | inBrackets => exact absurd rfl hopen
  | beforePort _ hcolon hport hl =>
    rw [hasPort_iff.mpr ⟨_, _, rfl, hl.ne_nil, hcolon, hport⟩] at hp
    cases hp
  | whole _ _ hl => exact hl

theorem twoLayers_iff (h : withoutPort raw host = .ok part) : TwoLayers host ↔ Layered part := by
  unfold withoutPort at h
  split at h
  · rename_i stripped hs
    split at h
    · cases h
    · rename_i inside rest hsplit
      split at h
      · cases h
      · cases h
        have hhost : host = '[' :: (part ++ ']' :: rest) := by
          rw [stripPrefix_eq_some.mp hs, splitOnce_eq_some hsplit]
          simp
        rw [hhost, twoLayers_brackets_iff (splitOnce_front hsplit)]
  · rename_i hn
    have hopen : host.head? ≠ some '[' := by
      intro hh
      obtain ⟨rest, rfl⟩ := head?_eq_some_iff.mp hh
      exact absurd hn (by simp)
    cases hp : hasPort host with
    | true =>
      rw [hp] at h
      cases h
      obtain ⟨name, port, rfl, hne, hcolon, hport⟩ := hasPort_iff.mp hp
      rw [head?_append_of_ne_nil _ hne] at hopen
      rw [takeWhile_until hcolon]
      exact twoLayers_port_iff hne hopen hcolon hport
    | false =>
      rw [hp] at h
      cases h
      exact twoLayers_whole_iff hopen hp

/-- Hosts that normalizing leaves alone, among the texts it accepts. -/
theorem stable_iff (h : normalizeNetworkRuleHost raw = .ok host) :
    normalizeNetworkRuleHost host = .ok host ↔ ¬ TwoLayers (trim raw) := by
  obtain ⟨_, part, hp, hc⟩ := normalize_ok_iff.mp h
  obtain ⟨hne, hst, hs, hh⟩ := checkHost_ok.mp hc
  have hn : trim (trimEndDots part) ≠ [] := by
    intro he
    rw [he] at hne
    exact hne rfl
  have hw : (trim (trimEndDots part)).any isWhitespace = false := by
    simpa [toAsciiLowercase, any_map, Function.comp_def, isWhitespace_toLower] using hs
  rw [normalize_again_iff h, hh, bare_toAsciiLowercase, twoLayers_iff hp, layered_iff hn hw, not_not]

def NetworkRuleProtocol.parse (raw : Str) : Except Error NetworkRuleProtocol :=
  if raw = "http".toList then .ok .http
  else if raw = "https".toList ∨ raw = "https_connect".toList ∨ raw = "http-connect".toList then .ok .https
  else if raw = "socks5_tcp".toList then .ok .socks5Tcp
  else if raw = "socks5_udp".toList then .ok .socks5Udp
  else .error (.invalidRule
    ("network_rule protocol must be one of http, https, socks5_tcp, socks5_udp (got ".toList ++ raw ++ ")".toList))

def NetworkRuleProtocol.asPolicyString : NetworkRuleProtocol → Str
  | .http => "http".toList
  | .https => "https".toList
  | .socks5Tcp => "socks5_tcp".toList
  | .socks5Udp => "socks5_udp".toList

def Decision.parse (raw : Str) : Except Error Decision :=
  if raw = "allow".toList then .ok .allow
  else if raw = "prompt".toList then .ok .prompt
  else if raw = "forbidden".toList then .ok .forbidden
  else .error (.invalidDecision raw)

def parseNetworkRuleDecision (raw : Str) : Except Error Decision :=
  if raw = "deny".toList then .ok .forbidden else Decision.parse raw

/-- The texts a call of `network_rule` in a policy file is given. -/
structure Arguments where
  host : Str
  protocol : Str
  decision : Str
  justification : Option Str
  deriving DecidableEq

/-- The builtin `network_rule` of the policy language. -/
def networkRule (arguments : Arguments) : Except Error NetworkRule := do
  let protocol ← NetworkRuleProtocol.parse arguments.protocol
  let decision ← parseNetworkRuleDecision arguments.decision
  if justificationBlank arguments.justification then throw (invalid "justification cannot be empty")
  let host ← normalizeNetworkRuleHost arguments.host
  return ⟨host, protocol, decision, arguments.justification⟩

/-- The arguments that are written for a rule. -/
def NetworkRule.arguments (rule : NetworkRule) : Arguments where
  host := rule.host
  protocol := rule.protocol.asPolicyString
  decision := match rule.decision with
    | .allow => "allow".toList
    | .prompt => "prompt".toList
    | .forbidden => "deny".toList
  justification := rule.justification

/-- The line of a call; `quote` is `serde_json::to_string`. -/
def Arguments.line (quote : Str → Str) (arguments : Arguments) : Str :=
  let args := ["host=".toList ++ quote arguments.host, "protocol=".toList ++ quote arguments.protocol,
    "decision=".toList ++ quote arguments.decision] ++
    (arguments.justification.map fun justification => "justification=".toList ++ quote justification).toList
  "network_rule(".toList ++ ", ".toList.intercalate args ++ ")".toList

/-- The contents of the policy file after a line was appended under its lock. -/
def appendLockedLine (contents line : Str) : Str :=
  if line ∈ lines contents then contents
  else if contents = [] ∨ contents.getLast? = some '\n' then contents ++ line ++ "\n".toList
  else contents ++ "\n".toList ++ line ++ "\n".toList

inductive AmendError where
  | invalidNetworkRule (text : Str)
  deriving DecidableEq, Repr

def blockingAppendNetworkRule (quote : Str → Str) (contents host : Str) (protocol : NetworkRuleProtocol)
    (decision : Decision) (justification : Option Str) : Except AmendError Str :=
  match normalizeNetworkRuleHost host with
  | .error error => .error (.invalidNetworkRule error.text)
  | .ok host =>
    if justificationBlank justification then .error (.invalidNetworkRule "justification cannot be empty".toList)
    else .ok (appendLockedLine contents ((NetworkRule.mk host protocol decision justification).arguments.line quote))

/-- A line is found again in the file it was appended to. -/
theorem mem_appendLockedLine (hline : '\n' ∉ line) (hc : stripCr line = line) :
    line ∈ lines (appendLockedLine contents line) := by
  have hl : ∀ pre, unterminated pre = [] → line ∈ lines (pre ++ line ++ "\n".toList) := by
    intro pre hf
    obtain ⟨_, hlast⟩ := terminated_append hline pre
    have hs := (terminated_append_newline (pre ++ line) []).1
    rw [hlast, hf, nil_append] at hs
    refine mem_append_left _ (mem_map.mpr ⟨line, ?_, hc⟩)
    exact hs ▸ mem_append_right _ mem_cons_self
  unfold appendLockedLine
  split_ifs with hm he
  · exact hm
  · refine hl contents ?_
    obtain rfl | hlast := he
    · rfl
    · obtain ⟨pre, rfl⟩ := getLast?_eq_some_iff.mp hlast
      exact unterminated_cons pre []
  · exact hl _ (unterminated_cons contents [])

theorem networkRule_arguments (hb : justificationBlank rule.justification = false) :
    networkRule rule.arguments = .ok rule ↔ normalizeNetworkRuleHost rule.host = .ok rule.host := by
  obtain ⟨host, protocol, decision, justification⟩ := rule
  have hp : NetworkRuleProtocol.parse protocol.asPolicyString = .ok protocol := by cases protocol <;> rfl
  have hd : parseNetworkRuleDecision (NetworkRule.mk host protocol decision justification).arguments.decision =
      .ok decision := by cases decision <;> rfl
  unfold networkRule
  rw [hd]
  simp only [NetworkRule.arguments, hp, hb]
  cases normalizeNetworkRuleHost host with
  | error error => exact iff_of_false (by rintro ⟨⟩) (by rintro ⟨⟩)
  | ok again => exact ⟨fun h => by cases h; rfl, fun h => by cases h; rfl⟩

/-- A rule that was added and appended is read back as it was added exactly if its host text has not two layers.
`read` is the policy language, which is only asked for the texts that were quoted in the appended line. -/
theorem appended_rule_read_back_iff (rule : NetworkRule) (raw : Str) (quote : Str → Str) (read : Str → Option Arguments)
    (policy : Policy) (contents : Str)
    (hhost : normalizeNetworkRuleHost raw = .ok rule.host) (hblank : justificationBlank rule.justification = false)
    (hread : read (rule.arguments.line quote) = some rule.arguments) (hline : '\n' ∉ rule.arguments.line quote) :
    (normalizeNetworkRuleHost rule.host = .ok rule.host ↔ ¬ TwoLayers (trim raw)) ∧
      policy.addNetworkRule raw rule.protocol rule.decision rule.justification =
        .ok ⟨policy.networkRules ++ [rule]⟩ ∧
      ∃ written,
        blockingAppendNetworkRule quote contents raw rule.protocol rule.decision rule.justification = .ok written ∧
        rule.arguments.line quote ∈ lines written ∧
        ((read (rule.arguments.line quote)).map networkRule = some (.ok rule) ↔ ¬ TwoLayers (trim raw)) := by
  have hc : stripCr (rule.arguments.line quote) = rule.arguments.line quote := by
    rw [stripCr_eq_self_iff]
    change (_ ++ [')']).getLast? ≠ _
    rw [getLast?_concat]
    decide
  refine ⟨stable_iff hhost, ?_, appendLockedLine contents _, ?_, mem_appendLockedLine hline hc, ?_⟩
  · rw [Policy.addNetworkRule, hhost]
    simp only [hblank]
    rfl
  · rw [blockingAppendNetworkRule, hhost]
    simp only [hblank]
    rfl
  · rw [hread, Option.map_some, Option.some_inj, networkRule_arguments hblank, stable_iff hhost]

def inQuotes (text : Str) : Str := '"' :: text ++ ['"']

/-- The arguments of a call whose texts have no quotes inside. -/
def readCall (line : Str) : Option Arguments :=
  match line.splitOn '"' with
  | [_, host, _, protocol, _, decision, _] => some ⟨host, protocol, decision, none⟩
  | [_, host, _, protocol, _, decision, _, justification, _] => some ⟨host, protocol, decision, some justification⟩
  | _ => none

def localhostRule : NetworkRule := ⟨"localhost".toList, .http, .allow, some "local server".toList⟩

theorem appended_rule_read_back_localhost :
    ¬ TwoLayers (trim " LocalHost.:80".toList) ∧ ∃ written,
      blockingAppendNetworkRule inQuotes "# hosts".toList " LocalHost.:80".toList .http .allow
        (some "local server".toList) = .ok written ∧
      localhostRule.arguments.line inQuotes ∈ lines written ∧
      (readCall (localhostRule.arguments.line inQuotes)).map networkRule = some (.ok localhostRule) := by
  obtain ⟨hs, -, written, hw, hl, hr⟩ := appended_rule_read_back_iff localhostRule
    " LocalHost.:80".toList inQuotes readCall ⟨[]⟩ "# hosts".toList (by decide) (by decide) (by decide) (by decide)
  have hn := hs.mp (by decide)
  exact ⟨hn, written, hw, hl, hr.mpr hn⟩

/-- A port in front of a dot and a bracket inside the brackets stay in the text; the first is taken off when the rule
is read again, the second stops the policy from loading. -/
theorem port_and_bracket_stay :
    normalizeNetworkRuleHost "api.example.com:443.".toList = .ok "api.example.com:443".toList ∧
      normalizeNetworkRuleHost "api.example.com:443".toList = .ok "api.example.com".toList ∧
      normalizeNetworkRuleHost "[[::1]".toList = .ok "[::1".toList ∧
      normalizeNetworkRuleHost "[::1".toList =
        .error (.invalidRule "network_rule host has an invalid bracketed IPv6 literal".toList) := by
  decide

end NetworkRules
