import Ycode.Fallible
import Ycode.PatternReading

/-!
# The network configuration under the managed constraints

A configuration is validated against the managed constraints and then compiled to the sets of hosts it allows and
denies. The denied hosts of the constraints stay denied. The allowed hosts stay within the managed ones where the
entries are plain; an entry that enforcement cuts at a port or a bracket escapes.
-/
namespace PolicyConstraints

open RustStr NetworkPolicy PatternReading List
open Fallible (ok_of_bind)

inductive NetworkDomainPermission where
  | none
  | allow
  | deny
  deriving DecidableEq

/-- Later variants win over earlier ones. -/
def NetworkDomainPermission.rank : NetworkDomainPermission → Nat
  | .none => 0
  | .allow => 1
  | .deny => 2

structure NetworkDomainPermissionEntry where
  pattern : Str
  permission : NetworkDomainPermission
  deriving DecidableEq

/-- The entry joins the one of the same pattern, or comes last. -/
def addEntry (entry : NetworkDomainPermissionEntry) :
    List NetworkDomainPermissionEntry → List NetworkDomainPermissionEntry
  | [] => [entry]
  | old :: entries =>
    if old.pattern = entry.pattern then
      if old.permission.rank < entry.permission.rank then { old with permission := entry.permission } :: entries
      else old :: entries
    else old :: addEntry entry entries

/-- One entry for each pattern, in the order of their first occurrence. -/
def effectiveEntries (entries : List NetworkDomainPermissionEntry) : List NetworkDomainPermissionEntry :=
  entries.foldl (fun effective entry => addEntry entry effective) []

inductive NetworkUnixSocketPermission where
  | allow
  | deny
  deriving DecidableEq

inductive NetworkMode where
  | limited
  | full
  deriving DecidableEq

def networkModeRank : NetworkMode → Nat
  | .limited => 0
  | .full => 1

def NetworkMode.debug : NetworkMode → Str
  | .limited => "Limited".toList
  | .full => "Full".toList

/-- The hooks of the MITM proxy are of any type `η`. -/
structure NetworkProxyConfig (η : Type) where
  enabled : Bool
  allowUpstreamProxy : Bool
  dangerouslyAllowNonLoopbackProxy : Bool
  dangerouslyAllowAllUnixSockets : Bool
  mode : NetworkMode
  domains : Option (List NetworkDomainPermissionEntry)
  unixSockets : Option (List (Str × NetworkUnixSocketPermission))
  allowLocalBinding : Bool
  mitm : Bool
  credentialBroker : Bool
  mitmHooks : List η
  deriving DecidableEq

variable {η : Type}

def NetworkProxyConfig.domainEntries (config : NetworkProxyConfig η) (permission : NetworkDomainPermission) :
    Option (List Str) :=
  (config.domains.map fun entries =>
    ((effectiveEntries entries).filter fun entry => entry.permission = permission).map (·.pattern)).filter
      fun entries => entries ≠ []

def NetworkProxyConfig.allowedDomains (config : NetworkProxyConfig η) : Option (List Str) :=
  config.domainEntries .allow

def NetworkProxyConfig.deniedDomains (config : NetworkProxyConfig η) : Option (List Str) :=
  config.domainEntries .deny

def NetworkProxyConfig.allowUnixSockets (config : NetworkProxyConfig η) : List Str :=
  (config.unixSockets.map fun entries =>
    (entries.filter fun entry => entry.2 = .allow).map (·.1)).getD []

structure NetworkProxyConstraints where
  enabled : Option Bool
  mode : Option NetworkMode
  allowUpstreamProxy : Option Bool
  dangerouslyAllowNonLoopbackProxy : Option Bool
  dangerouslyAllowAllUnixSockets : Option Bool
  allowedDomains : Option (List Str)
  allowlistExpansionEnabled : Option Bool
  deniedDomains : Option (List Str)
  denylistExpansionEnabled : Option Bool
  allowUnixSockets : Option (List Str)
  allowLocalBinding : Option Bool
  deriving DecidableEq

/-- What stands outside the policy: the checks of the MITM proxy, the paths of the operating system and the text
that debug output gives a list of strings. -/
structure Host (η : Type) where
  validateMitmHookConfig : NetworkProxyConfig η → Except Str Unit
  compileMitmHooks : NetworkProxyConfig η → Except Str Unit
  mitmState : Bool → Except Str Unit
  parseSocketPath : Str → Bool
  debugList : List Str → Str

section Validation

structure NetworkProxyConstraintError where
  fieldName : Str
  candidate : Str
  allowed : Str
  deriving DecidableEq

def NetworkProxyConstraintError.display (err : NetworkProxyConstraintError) : Str :=
  "invalid value for ".toList ++ err.fieldName ++ ": ".toList ++ err.candidate ++ " (allowed ".toList ++
    err.allowed ++ ")".toList

def invalidValue (fieldName candidate allowed : Str) : Except NetworkProxyConstraintError Unit :=
  .error { fieldName, candidate, allowed }

def invalidMitmHookConfiguration (message : Str) : NetworkProxyConstraintError where
  fieldName := "network.mitm_hooks".toList
  candidate := message
  allowed := "valid MITM hook configuration".toList

variable (host : Host η) (libs : Libraries)

def validateNonGlobalWildcardDomainPatterns (fieldName : Str) (patterns : List Str) :
    Except NetworkProxyConstraintError Unit :=
  match patterns.find? (isGlobalWildcardDomainPattern libs) with
  | some pattern =>
    invalidValue fieldName (trim pattern)
      "exact hosts or scoped wildcards like *.example.com or **.example.com".toList
  | none => .ok ()

/-- A switch that the managed configuration may hold off. -/
def validateSwitch (fieldName : Str) (candidate allowed : Bool) : Except NetworkProxyConstraintError Unit :=
  if candidate && !allowed then
    invalidValue fieldName "true".toList "false (disabled by managed config)".toList
  else .ok ()

def validateMode (candidate : NetworkMode) : Option NetworkMode → Except NetworkProxyConstraintError Unit
  | some maxMode =>
    if networkModeRank maxMode < networkModeRank candidate then
      invalidValue "network.mode".toList candidate.debug (maxMode.debug ++ " or more restrictive".toList)
    else .ok ()
  | none => .ok ()

def lowercaseSet (entries : List Str) : Finset Str := (entries.map toAsciiLowercase).toFinset

/-- The entries of a managed list, in lower case, that are in none of the sets. -/
def missingEntries (required : List Str) (present : Finset Str) : List Str :=
  (required.map toAsciiLowercase).dedup.filter fun entry => entry ∉ present

def validateAllowedDomains (candidate denied : List Str) (expansion : Option Bool) :
    Option (List Str) → Except NetworkProxyConstraintError Unit
  | none => .ok ()
  | some allowedDomains => do
    validateNonGlobalWildcardDomainPatterns libs "network.allowed_domains".toList allowedDomains
    match expansion with
    | some true =>
      let missing := missingEntries allowedDomains (lowercaseSet candidate ∪ lowercaseSet denied)
      if missing = [] then .ok ()
      else
        invalidValue "network.allowed_domains".toList "missing managed allowed_domains entries".toList
          (host.debugList missing)
    | some false =>
      if lowercaseSet candidate = lowercaseSet allowedDomains \ lowercaseSet denied then .ok ()
      else
        invalidValue "network.allowed_domains".toList (host.debugList candidate)
          "must match managed allowed_domains".toList
    | none =>
      let managedPatterns := allowedDomains.map (parseForConstraints libs)
      let invalid := candidate.filter fun entry =>
        !managedPatterns.any fun managed => allows managed (parseForConstraints libs entry)
      if invalid = [] then .ok ()
      else
        invalidValue "network.allowed_domains".toList (host.debugList invalid)
          "subset of managed allowed_domains".toList

def validateDeniedDomains (candidate : List Str) (expansion : Option Bool) :
    Option (List Str) → Except NetworkProxyConstraintError Unit
  | none => .ok ()
  | some deniedDomains => do
    validateNonGlobalWildcardDomainPatterns libs "network.denied_domains".toList deniedDomains
    match expansion with
    | some false =>
      if lowercaseSet candidate = lowercaseSet deniedDomains then .ok ()
      else
        invalidValue "network.denied_domains".toList (host.debugList candidate)
          "must match managed denied_domains".toList
    | _ =>
      let missing := missingEntries deniedDomains (lowercaseSet candidate)
      if missing = [] then .ok ()
      else
        invalidValue "network.denied_domains".toList "missing managed denied_domains entries".toList
          (host.debugList missing)

def validateAllowUnixSockets (candidate : List Str) : Option (List Str) → Except NetworkProxyConstraintError Unit
  | none => .ok ()
  | some allowUnixSockets =>
    let invalid := candidate.filter fun entry => toAsciiLowercase entry ∉ lowercaseSet allowUnixSockets
    if invalid = [] then .ok ()
    else invalidValue "network.allow_unix_sockets".toList (host.debugList invalid)
      "subset of managed allow_unix_sockets".toList

def validatePolicyAgainstConstraints (config : NetworkProxyConfig η) (constraints : NetworkProxyConstraints) :
    Except NetworkProxyConstraintError Unit := do
  let allowedDomains := config.allowedDomains.getD []
  let deniedDomains := config.deniedDomains.getD []
  (host.validateMitmHookConfig config).mapError invalidMitmHookConfiguration
  validateNonGlobalWildcardDomainPatterns libs "network.denied_domains".toList deniedDomains
  validateSwitch "network.enabled".toList config.enabled (constraints.enabled.getD true)
  validateMode config.mode constraints.mode
  validateSwitch "network.allow_upstream_proxy".toList config.allowUpstreamProxy
    (constraints.allowUpstreamProxy.getD true)
  validateSwitch "network.dangerously_allow_non_loopback_proxy".toList config.dangerouslyAllowNonLoopbackProxy
    (constraints.dangerouslyAllowNonLoopbackProxy.getD true)
  -- a managed list of sockets forbids all of them at once, unless the constraints say otherwise
  validateSwitch "network.dangerously_allow_all_unix_sockets".toList config.dangerouslyAllowAllUnixSockets
    (constraints.dangerouslyAllowAllUnixSockets.getD constraints.allowUnixSockets.isNone)
  validateSwitch "network.allow_local_binding".toList config.allowLocalBinding
    (constraints.allowLocalBinding.getD true)
  validateAllowedDomains host libs allowedDomains deniedDomains constraints.allowlistExpansionEnabled
    constraints.allowedDomains
  validateDeniedDomains host libs deniedDomains constraints.denylistExpansionEnabled constraints.deniedDomains
  validateAllowUnixSockets host config.allowUnixSockets constraints.allowUnixSockets

end Validation

section Build

variable (host : Host η) (libs : Libraries)

structure ConfigState (η : Type) where
  config : NetworkProxyConfig η
  allowSet : GlobSet
  denySet : GlobSet
  constraints : NetworkProxyConstraints

def validateUnixSocketAllowlistPaths (config : NetworkProxyConfig η) : Except Str Unit :=
  match config.allowUnixSockets.findIdx? fun path => !host.parseSocketPath path with
  | some index => .error ("invalid network.allow_unix_sockets[".toList ++ (toString index).toList ++ "]".toList)
  | none => .ok ()

def buildConfigState (config : NetworkProxyConfig η) (constraints : NetworkProxyConstraints) :
    Except Str (ConfigState η) := do
  validateUnixSocketAllowlistPaths host config
  if config.credentialBroker && !config.mitm then
    .error "network.credential_broker requires network.mitm = true".toList
  else
    let allowedDomains := config.allowedDomains.getD []
    let deniedDomains := config.deniedDomains.getD []
    (validateNonGlobalWildcardDomainPatterns libs "network.denied_domains".toList deniedDomains).mapError
      NetworkProxyConstraintError.display
    let denySet ← compileDenylistGlobset libs deniedDomains
    let allowSet ← compileAllowlistGlobset libs allowedDomains
    host.compileMitmHooks config
    (if config.mitm then host.mitmState config.allowUpstreamProxy else .ok ())
    return { config, allowSet, denySet, constraints }

end Build

theorem validate_ok (h : validatePolicyAgainstConstraints host libs config constraints = .ok ()) :
    validateAllowedDomains host libs (config.allowedDomains.getD []) (config.deniedDomains.getD [])
      constraints.allowlistExpansionEnabled constraints.allowedDomains = .ok () ∧
    validateDeniedDomains host libs (config.deniedDomains.getD []) constraints.denylistExpansionEnabled
      constraints.deniedDomains = .ok () := by
  obtain ⟨_, _, h⟩ := ok_of_bind h
  obtain ⟨_, _, h⟩ := ok_of_bind h
  obtain ⟨_, _, h⟩ := ok_of_bind h
  obtain ⟨_, _, h⟩ := ok_of_bind h
  obtain ⟨_, _, h⟩ := ok_of_bind h
  obtain ⟨_, _, h⟩ := ok_of_bind h
  obtain ⟨_, _, h⟩ := ok_of_bind h
  obtain ⟨_, _, h⟩ := ok_of_bind h
  obtain ⟨_, ha, h⟩ := ok_of_bind h
  obtain ⟨_, hd, _⟩ := ok_of_bind h
  exact ⟨ha, hd⟩

theorem build_ok (h : buildConfigState host libs config constraints = .ok state) :
    compileAllowlistGlobset libs (config.allowedDomains.getD []) = .ok state.allowSet ∧
    compileDenylistGlobset libs (config.deniedDomains.getD []) = .ok state.denySet := by
  obtain ⟨_, _, h⟩ := ok_of_bind h
  split at h
  · cases h
  · obtain ⟨_, _, h⟩ := ok_of_bind h
    obtain ⟨denySet, hd, h⟩ := ok_of_bind h
    obtain ⟨allowSet, ha, h⟩ := ok_of_bind h
    obtain ⟨_, _, h⟩ := ok_of_bind h
    obtain ⟨_, _, h⟩ := ok_of_bind h
    cases h
    exact ⟨ha, hd⟩

theorem mem_lowercaseSet : text ∈ lowercaseSet entries ↔ ∃ e ∈ entries, toAsciiLowercase e = text := by
  rw [lowercaseSet, mem_toFinset, mem_map]

theorem subset_of_missingEntries (h : missingEntries required present = []) : lowercaseSet required ⊆ present := by
  intro text ht
  by_contra ha
  have hr : text ∈ (required.map toAsciiLowercase).dedup := mem_dedup.mpr (mem_toFinset.mp ht)
  have hm : text ∈ missingEntries required present := mem_filter.mpr ⟨hr, decide_eq_true ha⟩
  rw [h] at hm
  cases hm

/-- Lists that agree up to the case of letters are compiled to sets of the same hosts. -/
theorem isMatch_of_subset {set set' : GlobSet} (hs : lowercaseSet patterns ⊆ lowercaseSet larger)
    (hset : compileGlobsetWithPolicy libs patterns policy = .ok set)
    (hs' : compileGlobsetWithPolicy libs larger policy' = .ok set') {ht : Str}
    (h : set.isMatch ht = true) : set'.isMatch ht = true := by
  obtain ⟨pat, hp, glob, hg, hm⟩ := (isMatch_compiled hset).mp h
  obtain ⟨x, ho, hc⟩ := mem_lowercaseSet.mp (hs (mem_lowercaseSet.mpr ⟨pat, hp, rfl⟩))
  rw [← normalizePattern_congr libs hc] at hg
  exact (isMatch_compiled hs').mpr ⟨x, ho, glob, hg, hm⟩

theorem denied_subset (h : validateDeniedDomains host libs candidate expansion (some managed) = .ok ()) :
    lowercaseSet managed ⊆ lowercaseSet candidate := by
  obtain ⟨_, _, h⟩ := ok_of_bind h
  split at h
  · split at h
    · rename_i he
      exact he.ge
    · cases h
  · simp only at h
    split at h
    · rename_i hm
      exact subset_of_missingEntries hm
    · cases h

theorem allowed_subset
    (h : validateAllowedDomains host libs candidate denied (some false) (some managed) = .ok ()) :
    lowercaseSet candidate ⊆ lowercaseSet managed := by
  obtain ⟨_, _, h⟩ := ok_of_bind h
  simp only at h
  split at h
  · rename_i he
    exact he.le.trans Finset.sdiff_subset
  · cases h

theorem allowed_under_managed (h : validateAllowedDomains host libs candidate denied none (some managed) = .ok ()) :
    ∀ e ∈ candidate, ∃ pat ∈ managed, allows (parseForConstraints libs pat) (parseForConstraints libs e) = true := by
  obtain ⟨_, _, h⟩ := ok_of_bind h
  simp only at h
  split at h
  · rename_i hi
    intro e he
    have ha := filter_eq_nil_iff.mp hi e he
    simpa using ha
  · cases h

/-- Validation compares of an allowed entry what is compiled: the entry stands in the managed list, or it is read alike,
and so is every managed pattern that allows it. -/
def Compared (libs : Libraries) (managed : List Str) (entry : Str) : Prop :=
  toAsciiLowercase entry ∈ lowercaseSet managed ∨
    ReadAlike libs entry ∧ ∀ pattern ∈ managed,
      allows (parseForConstraints libs pattern) (parseForConstraints libs entry) = true → SameReading libs pattern

instance (libs : Libraries) (managed : List Str) (entry : Str) : Decidable (Compared libs managed entry) :=
  inferInstanceAs (Decidable (_ ∨ _ ∧ _))

/-- A host where nothing can fail. -/
def openHost : Host Unit where
  validateMitmHookConfig _ := .ok ()
  compileMitmHooks _ := .ok ()
  mitmState _ := .ok ()
  parseSocketPath _ := true
  debugList _ := []

def configOf (entries : List NetworkDomainPermissionEntry) : NetworkProxyConfig Unit where
  enabled := true
  allowUpstreamProxy := true
  dangerouslyAllowNonLoopbackProxy := false
  dangerouslyAllowAllUnixSockets := false
  mode := .full
  domains := some entries
  unixSockets := none
  allowLocalBinding := false
  mitm := false
  credentialBroker := false
  mitmHooks := []

def corpConstraints : NetworkProxyConstraints where
  enabled := none
  mode := none
  allowUpstreamProxy := none
  dangerouslyAllowNonLoopbackProxy := none
  dangerouslyAllowAllUnixSockets := none
  allowedDomains := some ["*.corp.com".toList]
  allowlistExpansionEnabled := none
  deniedDomains := some ["old.corp.com".toList]
  denylistExpansionEnabled := none
  allowUnixSockets := none
  allowLocalBinding := none

def apiConfig : NetworkProxyConfig Unit :=
  configOf [⟨"api.corp.com".toList, .allow⟩, ⟨"*.*.corp.com".toList, .allow⟩, ⟨"OLD.corp.com".toList, .deny⟩]

end PolicyConstraints
