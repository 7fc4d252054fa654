import Ycode.RustStr
import Ycode.Wildcard

/-!
# Host patterns of the network policy

A pattern of the policy is a host, `*.host` for its subdomains or `**.host` for both. It is read in two ways:
enforcement normalizes it as a host and compiles it to globs, and validation reads it for comparison with the
managed patterns.
-/
namespace NetworkPolicy

open RustStr Wildcard

/-- What the policy asks of other libraries: `url::Host::parse` with its text, whether a text is an IP address,
and whether a glob can be built. -/
structure Libraries where
  urlHost : Str → Option Str
  isIpAddr : Str → Bool
  globBuild : Str → Bool

/-- Libraries that read a domain as it stands. -/
def plainLibraries : Libraries where
  urlHost := some
  isIpAddr _ := false
  globBuild _ := true

section Hosts

def toAsciiLowercase (text : Str) : Str := text.map Char.toLower

def trimEndDots (text : Str) : Str := text.rdropWhile (· = '.')

variable (libs : Libraries)

def scopedIpLiteral (host delimiter : Str) : Option Str :=
  match splitOnce delimiter host with
  | some (ip, scope) => if libs.isIpAddr ip then some (ip ++ "%".toList ++ scope) else none
  | none => none

def normalizeIpLiteral (host : Str) : Option Str :=
  if libs.isIpAddr host then some host
  else match scopedIpLiteral libs host "%25".toList with
    | some literal => some literal
    | none => scopedIpLiteral libs host "%".toList

def normalizeDnsHostOrIpLiteral (host : Str) : Str :=
  let host := trimEndDots (toAsciiLowercase host)
  (normalizeIpLiteral libs host).getD host

/-- What stands between `[` and the first `]`. -/
def bracketed : Str → Option Str
  | '[' :: rest => if ']' ∈ rest then some (rest.takeWhile (· ≠ ']')) else none
  | _ => none

def normalizeHost (host : Str) : Str :=
  let host := trim host
  match bracketed host with
  | some inner => normalizeDnsHostOrIpLiteral libs inner
  | none =>
    -- one colon separates a port; more of them are an IPv6 literal
    if host.count ':' = 1 then normalizeDnsHostOrIpLiteral libs (host.takeWhile (· ≠ ':'))
    else normalizeDnsHostOrIpLiteral libs host

def normalizePattern (pattern : Str) : Str :=
  let pattern := trim pattern
  if pattern = "*".toList then "*".toList
  else match stripPrefix pattern "**.".toList with
    | some domain => "**.".toList ++ normalizeHost libs domain
    | none =>
      match stripPrefix pattern "*.".toList with
      | some domain => "*.".toList ++ normalizeHost libs domain
      | none => normalizeHost libs pattern

end Hosts

section Patterns

inductive DomainPattern where
  | apexAndSubdomains (domain : Str)
  | subdomainsOnly (domain : Str)
  | exact (domain : Str)
  deriving DecidableEq

def parseDomain (domain : Str) (build : Str → DomainPattern) : DomainPattern :=
  let domain := trim domain
  if domain = [] then .exact [] else build domain

def parse (input : Str) : DomainPattern :=
  let input := trim input
  if input = [] then .exact []
  else match stripPrefix input "**.".toList with
    | some domain => parseDomain domain .apexAndSubdomains
    | none =>
      match stripPrefix input "*.".toList with
      | some domain => parseDomain domain .subdomainsOnly
      | none => .exact input

variable (libs : Libraries)

def parseDomainForConstraints (domain : Str) : Str :=
  let domain := trimEndDots (trim domain)
  if domain = [] then []
  else
    let host := if startsWith domain "[".toList && endsWith domain "]".toList then domain.tail.dropLast else domain
    if '*' ∈ host ∨ '?' ∈ host ∨ '%' ∈ host then domain
    else match libs.urlHost host with
      | some host => host
      | none => []

def parseForConstraints (input : Str) : DomainPattern :=
  let input := trim input
  if input = [] then .exact []
  else match stripPrefix input "**.".toList with
    | some domain => .apexAndSubdomains (parseDomainForConstraints libs domain)
    | none =>
      match stripPrefix input "*.".toList with
      | some domain => .subdomainsOnly (parseDomainForConstraints libs domain)
      | none => .exact (parseDomainForConstraints libs input)

def normalizeDomain (domain : Str) : Str := toAsciiLowercase (trimEndDots domain)

def domainEq (left right : Str) : Bool := normalizeDomain left = normalizeDomain right

def isSubdomainOrEqual (child parent : Str) : Bool :=
  let child := normalizeDomain child
  let parent := normalizeDomain parent
  if child = parent then true else endsWith child ('.' :: parent)

def isStrictSubdomain (child parent : Str) : Bool :=
  let child := normalizeDomain child
  let parent := normalizeDomain parent
  child ≠ parent && endsWith child ('.' :: parent)

/-- The candidate allows no host that the pattern does not. -/
def allows (pattern candidate : DomainPattern) : Bool :=
  match pattern with
  | .exact domain =>
    match candidate with
    | .exact candidate => domainEq candidate domain
    | _ => false
  | .subdomainsOnly domain =>
    match candidate with
    | .exact candidate => isStrictSubdomain candidate domain
    | .subdomainsOnly candidate => isSubdomainOrEqual candidate domain
    | .apexAndSubdomains candidate => isStrictSubdomain candidate domain
  | .apexAndSubdomains domain =>
    match candidate with
    | .exact candidate => isSubdomainOrEqual candidate domain
    | .subdomainsOnly candidate => isSubdomainOrEqual candidate domain
    | .apexAndSubdomains candidate => isSubdomainOrEqual candidate domain

def expandDomainPattern (pattern : Str) : List Str :=
  match parse pattern with
  | .exact domain => [domain]
  | .subdomainsOnly domain => ["?*.".toList ++ domain]
  | .apexAndSubdomains domain => [domain, "?*.".toList ++ domain]

def isGlobalWildcardDomainPattern (pattern : Str) : Bool :=
  (expandDomainPattern (normalizePattern libs pattern)).any (· = "*".toList)

end Patterns

section Globs

/-- A star is any run, a question mark any one character, everything else itself. -/
def token (c : Char) : Token Char :=
  if c = '*' then .run else if c = '?' then .one else .letter c

def sameLetter (a b : Char) : Bool := a.toLower = b.toLower

def globMatches (glob host : Str) : Bool := isMatch sameLetter (glob.map token) host

structure GlobSet where
  globs : List Str

def GlobSet.isMatch (set : GlobSet) (host : Str) : Bool := set.globs.any fun glob => globMatches glob host

inductive GlobalWildcard where
  | allow
  | reject
  deriving DecidableEq

variable (libs : Libraries)

def addCandidates (seen : List Str) : List Str → Except Str (List Str)
  | [] => .ok seen
  | candidate :: candidates =>
    if candidate ∈ seen then addCandidates seen candidates
    else if libs.globBuild candidate then addCandidates (seen ++ [candidate]) candidates
    else .error ("invalid glob pattern: ".toList ++ candidate)

def addPatterns (globalWildcard : GlobalWildcard) (seen : List Str) : List Str → Except Str (List Str)
  | [] => .ok seen
  | pattern :: patterns =>
    if globalWildcard = .reject ∧ isGlobalWildcardDomainPattern libs pattern then
      .error ("unsupported global wildcard domain pattern \"*\"; use exact hosts or scoped wildcards like " ++
        "*.example.com or **.example.com").toList
    else match addCandidates libs seen (expandDomainPattern (normalizePattern libs pattern)) with
      | .error message => .error message
      | .ok seen => addPatterns globalWildcard seen patterns

def compileGlobsetWithPolicy (patterns : List Str) (globalWildcard : GlobalWildcard) : Except Str GlobSet :=
  match addPatterns libs globalWildcard [] patterns with
  | .error message => .error message
  | .ok globs => .ok { globs }

def compileAllowlistGlobset (patterns : List Str) : Except Str GlobSet :=
  compileGlobsetWithPolicy libs patterns .allow

def compileDenylistGlobset (patterns : List Str) : Except Str GlobSet :=
  compileGlobsetWithPolicy libs patterns .reject

end Globs

theorem mem_addCandidates (h : addCandidates libs seen candidates = .ok globs) :
    glob ∈ globs ↔ glob ∈ seen ∨ glob ∈ candidates := by
  induction candidates generalizing seen with
  | nil =>
    cases h
    simp
  | cons cand candidates ih =>
    rw [addCandidates] at h
    by_cases hs : cand ∈ seen
    · rw [if_pos hs] at h
      rw [ih h, List.mem_cons]
      constructor
      · rintro (ho | hn)
        · exact .inl ho
        · exact .inr (.inr hn)
      · rintro (ho | rfl | hn)
        · exact .inl ho
        · exact .inl hs
        · exact .inr hn
    · rw [if_neg hs] at h
      split at h
      · rw [ih h, List.mem_append, List.mem_singleton, List.mem_cons, or_assoc]
      · cases h

theorem mem_addPatterns (h : addPatterns libs policy seen patterns = .ok globs) :
    glob ∈ globs ↔ glob ∈ seen ∨ ∃ pat ∈ patterns, glob ∈ expandDomainPattern (normalizePattern libs pat) := by
  induction patterns generalizing seen with
  | nil =>
    cases h
    simp
  | cons pat patterns ih =>
    rw [addPatterns] at h
    split at h
    · cases h
    · split at h
      · cases h
      · rename_i added ha
        rw [ih h, mem_addCandidates ha, List.exists_mem_cons_iff, or_assoc]

/-- A compiled list matches a host if one of the globs of one of its patterns does. -/
theorem isMatch_compiled {set : GlobSet}
    (h : compileGlobsetWithPolicy libs patterns policy = .ok set) {host : Str} :
    set.isMatch host = true ↔ ∃ pat ∈ patterns, ∃ glob ∈ expandDomainPattern (normalizePattern libs pat),
      globMatches glob host = true := by
  unfold compileGlobsetWithPolicy at h
  split at h
  · cases h
  · rename_i globs hg
    cases h
    rw [GlobSet.isMatch, List.any_eq_true]
    constructor
    · rintro ⟨glob, hglob, hm⟩
      rcases (mem_addPatterns hg).mp hglob with hn | ⟨pat, hp, he⟩
      · cases hn
      · exact ⟨pat, hp, glob, he, hm⟩
    · rintro ⟨pat, hp, glob, he, hm⟩
      exact ⟨glob, (mem_addPatterns hg).mpr (.inr ⟨pat, hp, he⟩), hm⟩

end NetworkPolicy
