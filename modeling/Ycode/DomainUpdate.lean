import Ycode.HostNormalization
import Ycode.PolicyConstraints

/-!
# Adding a domain to the lists of the proxy

A running proxy is told to allow or to deny a host. The host is normalized, every entry for it is taken out of the
configuration, a new entry is put in and the lists are compiled again, which normalizes the entry a second time.
For a host that is normalized for good the update does what it is for and nothing else. For any other host the
new entry speaks of another one.
-/
namespace DomainUpdate

open RustStr NetworkPolicy PatternReading PolicyConstraints HostNormalization
open List hiding after
open Fallible (ok_of_bind)

section Model

/-- The state of the proxy, with the requests that it has blocked. -/
structure ProxyState (η β : Type) extends ConfigState η where
  blocked : List β
  blockedTotal : Nat

inductive DomainListKind where
  | allow
  | deny
  deriving DecidableEq

variable {η β : Type}

namespace DomainListKind

def listName : DomainListKind → Str
  | .allow => "allowlist".toList
  | .deny => "denylist".toList

def constraintField : DomainListKind → Str
  | .allow => "network.allowed_domains".toList
  | .deny => "network.denied_domains".toList

def permission : DomainListKind → NetworkDomainPermission
  | .allow => .allow
  | .deny => .deny

def entries (target : DomainListKind) (config : NetworkProxyConfig η) : List Str :=
  match target with
  | .allow => config.allowedDomains.getD []
  | .deny => config.deniedDomains.getD []

def oppositeEntries (target : DomainListKind) (config : NetworkProxyConfig η) : List Str :=
  match target with
  | .allow => config.deniedDomains.getD []
  | .deny => config.allowedDomains.getD []

end DomainListKind

def upsertDomainPermission (config : NetworkProxyConfig η) (host : Str) (permission : NetworkDomainPermission)
    (normalize : Str → Str) : NetworkProxyConfig η :=
  let normalizedHost := normalize host
  let kept := (config.domains.getD []).filter fun entry => normalize entry.pattern ≠ normalizedHost
  let entries := kept ++ [⟨host, permission⟩]
  { config with domains := if entries = [] then none else some entries }

/-- An error is a chain of messages, the outermost first. -/
def withContext {α : Type} (message : Str) (result : Except Str α) : Except (List Str) α :=
  result.mapError fun cause => [message, cause]

variable (host : Host η) (libs : Libraries)

def parseHost (input : Str) : Except Str Str :=
  if normalizeHost libs input = [] then .error "host is empty".toList else .ok (normalizeHost libs input)

variable [DecidableEq η]

/-- One round: `seen` is the state that it reads and `present` the one that it finds once the candidate is built.
It ends with the state before and after, or gives nothing if the configuration has changed in between. -/
def updateRound (normalizedHost : Str) (target : DomainListKind) (seen present : ProxyState η β) :
    Except (List Str) (Option (ProxyState η β × ProxyState η β)) :=
  let targetContains := (target.entries seen.config).any fun entry => normalizeHost libs entry = normalizedHost
  let oppositeContains :=
    (target.oppositeEntries seen.config).any fun entry => normalizeHost libs entry = normalizedHost
  if targetContains && !oppositeContains then .ok (some (seen, seen))
  else do
    let candidate := upsertDomainPermission seen.config normalizedHost target.permission (normalizeHost libs)
    withContext (target.constraintField ++ " constrained by managed config".toList)
      ((validatePolicyAgainstConstraints host libs candidate seen.constraints).mapError
        NetworkProxyConstraintError.display)
    let built ← withContext ("failed to compile updated network ".toList ++ target.listName)
      (buildConfigState host libs candidate seen.constraints)
    if present.constraints ≠ seen.constraints ∨ present.config ≠ seen.config then .ok none
    else .ok (some (present, { built with blocked := seen.blocked, blockedTotal := seen.blockedTotal }))

/-- What a round meets: an error of the reload, or the state that is read and the state at the end of the round. -/
abbrev Round (η β : Type) := Except (List Str) (ProxyState η β × ProxyState η β)

def updateLoop (normalizedHost : Str) (target : DomainListKind) :
    List (Round η β) → Option (Except (List Str) (ProxyState η β × ProxyState η β))
  | [] => none
  | .error err :: _ => some (.error err)
  | .ok (seen, present) :: rounds =>
    match updateRound host libs normalizedHost target seen present with
    | .error err => some (.error err)
    | .ok (some done) => some (.ok done)
    | .ok none => updateLoop normalizedHost target rounds

/-- The state before and after the update, once a round has ended it. -/
def updateDomainList (text : Str) (target : DomainListKind) (rounds : List (Round η β)) :
    Option (Except (List Str) (ProxyState η β × ProxyState η β)) :=
  match withContext "invalid network host".toList (parseHost libs text) with
  | .error err => some (.error err)
  | .ok normalizedHost => updateLoop host libs normalizedHost target rounds

end Model

variable {η β : Type}

variable {config : NetworkProxyConfig η}

theorem buildConfigState_config (h : buildConfigState host libs config constraints = .ok state) :
    state.config = config := by
  obtain ⟨_, _, h⟩ := ok_of_bind h
  split at h
  · cases h
  · obtain ⟨_, _, h⟩ := ok_of_bind h
    obtain ⟨_, _, h⟩ := ok_of_bind h
    obtain ⟨_, _, h⟩ := ok_of_bind h
    obtain ⟨_, _, h⟩ := ok_of_bind h
    obtain ⟨_, _, h⟩ := ok_of_bind h
    cases h
    rfl

/-- The entries of some patterns are not touched by the others. -/
theorem filter_addEntry (keep : Str → Bool) (e : NetworkDomainPermissionEntry)
    (es : List NetworkDomainPermissionEntry) :
    (addEntry e es).filter (fun e => keep e.pattern) =
      if keep e.pattern then addEntry e (es.filter fun e => keep e.pattern)
      else es.filter fun e => keep e.pattern := by
  induction es with
  | nil =>
    cases hk : keep e.pattern with
    | _ => simp [addEntry, hk]
  | cons old es ih =>
    rw [addEntry]
    by_cases hs : old.pattern = e.pattern
    · cases hk : keep e.pattern with
      | true => by_cases hr : old.permission.rank < e.permission.rank <;> simp [addEntry, hk, hs, hr]
      | false => by_cases hr : old.permission.rank < e.permission.rank <;> simp [hk, hs, hr]
    · rw [if_neg hs]
      cases ho : keep old.pattern with
      | true =>
        cases hk : keep e.pattern with
        | true => simp [addEntry, ho, hk, hs, ih]
        | false => simp [ho, hk, ih]
      | false =>
        cases hk : keep e.pattern with
        | _ => simp [ho, hk, ih]

theorem filter_effectiveEntries (keep : Str → Bool) (es : List NetworkDomainPermissionEntry) :
    (effectiveEntries es).filter (fun e => keep e.pattern) =
      effectiveEntries (es.filter fun e => keep e.pattern) := by
  have hf : ∀ effective : List NetworkDomainPermissionEntry,
      (es.foldl (fun effective e => addEntry e effective) effective).filter
          (fun e => keep e.pattern) =
        (es.filter fun e => keep e.pattern).foldl (fun effective e => addEntry e effective)
          (effective.filter fun e => keep e.pattern) := by
    induction es with
    | nil => exact fun _ => rfl
    | cons e es ih =>
      intro effective
      rw [foldl_cons, ih, filter_addEntry, filter_cons]
      split <;> rfl
  exact hf []

theorem mem_domainEntries :
    pattern ∈ (config.domainEntries permission).getD [] ↔
      ⟨pattern, permission⟩ ∈ effectiveEntries (config.domains.getD []) := by
  have hl : (config.domainEntries permission).getD [] =
      ((effectiveEntries (config.domains.getD [])).filter fun e => e.permission = permission).map
        (·.pattern) := by
    unfold NetworkProxyConfig.domainEntries
    cases config.domains with
    | none => rfl
    | some es =>
      rw [Option.map_some, Option.filter_some]
      split
      · rfl
      · rename_i hn
        simpa using hn
  rw [hl, mem_map]
  constructor
  · rintro ⟨e, he, rfl⟩
    obtain ⟨hm, hp⟩ := mem_filter.mp he
    rw [← of_decide_eq_true hp]
    exact hm
  · intro hm
    exact ⟨_, mem_filter.mpr ⟨hm, decide_eq_true rfl⟩, rfl⟩

/-- What becomes of a pattern depends on the entries of the patterns that are kept with it only. -/
theorem mem_effectiveEntries_filter (keep : Str → Bool)
    (hk : keep entry.pattern = true) (es : List NetworkDomainPermissionEntry) :
    entry ∈ effectiveEntries es ↔ entry ∈ effectiveEntries (es.filter fun entry => keep entry.pattern) := by
  rw [← filter_effectiveEntries, mem_filter, and_iff_left hk]

/-- The lists after the update: the entries of other hosts, and the new one in the list of its permission. -/
theorem mem_domainEntries_upsert {norm : Str → Str} :
    pat ∈ ((upsertDomainPermission config host permission norm).domainEntries other).getD [] ↔
      (norm pat ≠ norm host ∧ pat ∈ (config.domainEntries other).getD []) ∨ (pat = host ∧ other = permission) := by
  have he : (upsertDomainPermission config host permission norm).domains.getD [] =
      ((config.domains.getD []).filter fun e => norm e.pattern ≠ norm host) ++ [⟨host, permission⟩] := by
    simp [upsertDomainPermission]
  rw [mem_domainEntries, mem_domainEntries, he]
  by_cases hh : norm pat = norm host
  · rw [mem_effectiveEntries_filter (fun pat => norm pat = norm host) (by simpa using hh)]
    simp [effectiveEntries, addEntry, hh]
  · have hk : decide (norm pat ≠ norm host) = true := decide_eq_true hh
    rw [mem_effectiveEntries_filter (fun pat => norm pat ≠ norm host) hk,
      mem_effectiveEntries_filter (fun pat => norm pat ≠ norm host) hk (config.domains.getD [])]
    have hne : pat ≠ host := fun heq => hh (congrArg norm heq)
    simp [hh, hne]

section Runs

variable [DecidableEq η]

variable {before after : ProxyState η β}

/-- The sets of a state are the compiled lists of its configuration. -/
structure Compiled (libs : Libraries) (state : ProxyState η β) : Prop where
  allow : compileAllowlistGlobset libs (state.config.allowedDomains.getD []) = .ok state.allowSet
  deny : compileDenylistGlobset libs (state.config.deniedDomains.getD []) = .ok state.denySet

def AllCompiled (libs : Libraries) (rounds : List (Round η β)) : Prop :=
  ∀ seen present, .ok (seen, present) ∈ rounds → Compiled libs seen ∧ Compiled libs present

/-- The host has an entry in the list and none in the other one. -/
structure Listed (libs : Libraries) (normalizedHost : Str) (target : DomainListKind) (config : NetworkProxyConfig η) :
    Prop where
  contains : ∃ entry ∈ target.entries config, normalizeHost libs entry = normalizedHost
  opposite : ∀ entry ∈ target.oppositeEntries config, normalizeHost libs entry ≠ normalizedHost

/-- How an update ends: the host is listed and nothing changes, or the state is built anew from the configuration with
the new entry. -/
inductive Ended (libs : Libraries) (normalizedHost : Str) (target : DomainListKind) :
    ProxyState η β → ProxyState η β → Prop
  | kept {state : ProxyState η β} (hlisted : Listed libs normalizedHost target state.config) :
      Ended libs normalizedHost target state state
  | built {before after : ProxyState η β} (hlisted : ¬ Listed libs normalizedHost target before.config)
      (hconfig : after.config =
        upsertDomainPermission before.config normalizedHost target.permission (normalizeHost libs))
      (hcompiled : Compiled libs after) : Ended libs normalizedHost target before after

theorem withContext_ok (h : withContext message result = .ok value) : result = .ok value := by
  cases result with
  | error err => cases h
  | ok x => exact congrArg Except.ok (Except.ok.inj h)

/-- The step lemma: what a round that ends the update has done. -/
theorem updateRound_ended (hseen : Compiled libs seen) (hp : Compiled libs present)
    (h : updateRound host libs normalizedHost target seen present = .ok (some (before, after))) :
    Compiled libs before ∧ Ended libs normalizedHost target before after := by
  have hlisted : ((target.entries seen.config).any (fun e => normalizeHost libs e = normalizedHost) &&
      !(target.oppositeEntries seen.config).any (fun e => normalizeHost libs e = normalizedHost)) = true ↔
        Listed libs normalizedHost target seen.config := by
    rw [Bool.and_eq_true, Bool.not_eq_true', any_eq_true, any_eq_false]
    simp only [decide_eq_true_eq]
    exact ⟨fun hf => ⟨hf.1, hf.2⟩, fun hf => ⟨hf.contains, hf.opposite⟩⟩
  unfold updateRound at h
  simp only at h
  split at h
  · rename_i hf
    cases h
    exact ⟨hseen, .kept (hlisted.mp hf)⟩
  · rename_i hf
    obtain ⟨_, _, h⟩ := ok_of_bind h
    obtain ⟨built, hb, h⟩ := ok_of_bind h
    have hb := withContext_ok hb
    split at h
    · cases h
    · rename_i hc
      cases h
      push Not at hc
      refine ⟨hp, .built ?_ ?_ ?_⟩
      · rw [hc.2]
        exact fun hl => hf (hlisted.mpr hl)
      · rw [hc.2]
        exact buildConfigState_config hb
      · obtain ⟨ha, hd⟩ := build_ok hb
        constructor
        · rw [← buildConfigState_config hb] at ha
          exact ha
        · rw [← buildConfigState_config hb] at hd
          exact hd

/-- The run lemma: rounds that start over leave nothing behind. -/
theorem updateLoop_ended (hr : AllCompiled libs rounds)
    (h : updateLoop host libs normalizedHost target rounds = some (.ok (before, after))) :
    Compiled libs before ∧ Ended libs normalizedHost target before after := by
  induction rounds with
  | nil => cases h
  | cons round rounds ih =>
    cases round with
    | error err => cases h
    | ok states =>
      obtain ⟨seen, present⟩ := states
      obtain ⟨hs, hp⟩ := hr seen present mem_cons_self
      rw [updateLoop] at h
      split at h
      · cases h
      · rename_i done hround
        cases h
        exact updateRound_ended hs hp hround
      · exact ih (fun seen present hm => hr seen present (mem_cons_of_mem _ hm)) h

theorem updateDomainList_ended (hr : AllCompiled libs rounds)
    (h : updateDomainList host libs text target rounds = some (.ok (before, after))) :
    Compiled libs before ∧ Ended libs (normalizeHost libs text) target before after := by
  unfold updateDomainList parseHost at h
  by_cases hn : normalizeHost libs text = []
  · rw [if_pos hn] at h
    cases h
  · rw [if_neg hn] at h
    exact updateLoop_ended hr h

end Runs

/-- The list matches the host, for an allowed host no denied entry names it any more, and every other host is
matched as before. -/
structure TakesEffect (libs : Libraries) (text : Str) (target : DomainListKind) (before after : ProxyState η β) :
    Prop where
  added :
    match target with
    | .deny => after.denySet.isMatch (normalizeHost libs text) = true
    | .allow =>
      (∀ entry ∈ after.config.deniedDomains.getD [], normalizeHost libs entry ≠ normalizeHost libs text) ∧
        after.allowSet.isMatch (normalizeHost libs text) = true
  others : ∀ other, normalizeHost libs other ≠ normalizeHost libs text →
    after.denySet.isMatch (normalizeHost libs other) = before.denySet.isMatch (normalizeHost libs other) ∧
      after.allowSet.isMatch (normalizeHost libs other) = before.allowSet.isMatch (normalizeHost libs other)

/-- A compiled list matches the host of each of its entries that has no blank at its ends. -/
theorem isMatch_of_entry {set : GlobSet} {text e : Str}
    (hset : compileGlobsetWithPolicy libs patterns policy = .ok set)
    (ht : trim (normalizeHost libs text) = normalizeHost libs text)
    (hl : Literal (normalizeHost libs text)) (he : e ∈ patterns)
    (hsame : normalizeHost libs e = normalizeHost libs text) : set.isMatch (normalizeHost libs text) = true := by
  refine (isMatch_compiled hset).mpr ⟨e, he, normalizeHost libs text, ?_, ?_⟩
  · rw [globs_of_literal (hsame ▸ hl), hsame, ht]
    exact mem_singleton_self _
  · exact (globMatches_literal hl _).mpr rfl

/-- Lists that differ in entries of one host match the same other hosts. -/
theorem isMatch_other {set set' : GlobSet} {text x : Str}
    (hset : compileGlobsetWithPolicy libs patterns policy = .ok set)
    (hs' : compileGlobsetWithPolicy libs others policy = .ok set') (hs : Stable libs text)
    (hl : Literal (normalizeHost libs text))
    (hsub : ∀ pat ∈ patterns, normalizeHost libs pat ≠ normalizeHost libs text → pat ∈ others)
    (ho : normalizeHost libs x ≠ normalizeHost libs text)
    (h : set.isMatch (normalizeHost libs x) = true) : set'.isMatch (normalizeHost libs x) = true := by
  obtain ⟨pat, hp, glob, hg, hm⟩ := (isMatch_compiled hset).mp h
  refine (isMatch_compiled hs').mpr ⟨pat, hsub pat hp ?_, glob, hg, hm⟩
  intro hsame
  rw [globs_of_literal (hsame ▸ hl), hsame, hs.trim_eq, mem_singleton] at hg
  rw [hg, globMatches_literal hl, toAsciiLowercase_normalizeHost, toAsciiLowercase_normalizeHost] at hm
  exact ho hm.symm

theorem takesEffect_of_listed (ht : trim (normalizeHost libs text) = normalizeHost libs text)
    (hl : Literal (normalizeHost libs text)) {state : ProxyState η β} (hb : Compiled libs state)
    (h : Listed libs (normalizeHost libs text) target state.config) : TakesEffect libs text target state state := by
  refine ⟨?_, fun _ _ => ⟨rfl, rfl⟩⟩
  obtain ⟨⟨e, he, hsame⟩, hop⟩ := h
  cases target with
  | deny => exact isMatch_of_entry hb.deny ht hl he hsame
  | allow => exact ⟨hop, isMatch_of_entry hb.allow ht hl he hsame⟩

theorem takesEffect_of_stable (hs : Stable libs text) (hl : Literal (normalizeHost libs text))
    (hb : Compiled libs before) (h : Ended libs (normalizeHost libs text) target before after) :
    TakesEffect libs text target before after := by
  cases h with
  | kept hlisted => exact takesEffect_of_listed hs.trim_eq hl hb hlisted
  | built _ hc ha =>
    have hm : ∀ (permission : NetworkDomainPermission) (pattern : Str),
        pattern ∈ (after.config.domainEntries permission).getD [] ↔
          (normalizeHost libs pattern ≠ normalizeHost libs text ∧
            pattern ∈ (before.config.domainEntries permission).getD []) ∨
          (pattern = normalizeHost libs text ∧ permission = target.permission) := by
      intro permission pattern
      rw [hc, mem_domainEntries_upsert, hs]
    have hn : normalizeHost libs text ∈ (after.config.domainEntries target.permission).getD [] :=
      (hm _ _).mpr (.inr ⟨rfl, rfl⟩)
    have hk : ∀ permission : NetworkDomainPermission, ∀ pattern ∈ (after.config.domainEntries permission).getD [],
        normalizeHost libs pattern ≠ normalizeHost libs text →
          pattern ∈ (before.config.domainEntries permission).getD [] := by
      intro permission pattern hp hne
      rcases (hm permission pattern).mp hp with hold | ⟨rfl, _⟩
      · exact hold.2
      · exact absurd hs hne
    have hback : ∀ permission : NetworkDomainPermission, ∀ pattern ∈ (before.config.domainEntries permission).getD [],
        normalizeHost libs pattern ≠ normalizeHost libs text →
          pattern ∈ (after.config.domainEntries permission).getD [] :=
      fun permission pattern hp hne => (hm permission pattern).mpr (.inl ⟨hne, hp⟩)
    constructor
    · cases target with
      | deny => exact isMatch_of_entry ha.deny hs.trim_eq hl hn hs
      | allow =>
        refine ⟨fun e he => ?_, isMatch_of_entry ha.allow hs.trim_eq hl hn hs⟩
        rcases (hm .deny e).mp he with hold | ⟨_, hr⟩
        · exact hold.1
        · cases hr
    · intro x ho
      constructor
      · rw [Bool.eq_iff_iff]
        exact ⟨isMatch_other ha.deny hb.deny hs hl (hk .deny) ho, isMatch_other hb.deny ha.deny hs hl (hback .deny) ho⟩
      · rw [Bool.eq_iff_iff]
        exact ⟨isMatch_other ha.allow hb.allow hs hl (hk .allow) ho,
          isMatch_other hb.allow ha.allow hs hl (hback .allow) ho⟩

/-- A host on which nothing but the lists can fail. -/
def quietHost : Host η where
  validateMitmHookConfig _ := .ok ()
  compileMitmHooks _ := .ok ()
  mitmState _ := .ok ()
  parseSocketPath _ := true
  debugList _ := []

def noConstraints : NetworkProxyConstraints where
  enabled := none
  mode := none
  allowUpstreamProxy := none
  dangerouslyAllowNonLoopbackProxy := none
  dangerouslyAllowAllUnixSockets := none
  allowedDomains := none
  allowlistExpansionEnabled := none
  deniedDomains := none
  denylistExpansionEnabled := none
  allowUnixSockets := none
  allowLocalBinding := none

/-- A configuration with the given entries and nothing else. -/
def configWith (domains : Option (List NetworkDomainPermissionEntry)) : NetworkProxyConfig η where
  enabled := true
  allowUpstreamProxy := true
  dangerouslyAllowNonLoopbackProxy := false
  dangerouslyAllowAllUnixSockets := false
  mode := .full
  domains := domains
  unixSockets := none
  allowLocalBinding := false
  mitm := false
  credentialBroker := false
  mitmHooks := []

/-- The state of a proxy without entries, and of one that denies a host. -/
def stateWith (domains : Option (List NetworkDomainPermissionEntry)) (denied : List Str) : ProxyState η β where
  config := configWith domains
  allowSet := ⟨[]⟩
  denySet := ⟨denied⟩
  constraints := noConstraints
  blocked := []
  blockedTotal := 0

/-- The compiled list that the update is about. -/
def DomainListKind.set (target : DomainListKind) (state : ProxyState η β) : GlobSet :=
  match target with
  | .allow => state.allowSet
  | .deny => state.denySet

theorem TakesEffect.isMatch (h : TakesEffect libs text target before after) :
    (target.set after).isMatch (normalizeHost libs text) = true := by
  have ha := h.added
  cases target with
  | deny => exact ha
  | allow => exact ha.2

theorem compiled_set (h : Compiled libs state) (target : DomainListKind) : ∃ policy,
    compileGlobsetWithPolicy libs ((state.config.domainEntries target.permission).getD []) policy =
      .ok (target.set state) := by
  cases target with
  | allow => exact ⟨.allow, h.allow⟩
  | deny => exact ⟨.reject, h.deny⟩

/-- A new entry is all that can make a list match the host, and it does so only if it is the host. -/
theorem stable_of_built {target : DomainListKind} (hl : Literal (normalizeHost libs text)) (hb : Compiled libs before)
    (hn : (target.set before).isMatch (normalizeHost libs text) = false)
    (hconfig : after.config = upsertDomainPermission before.config (normalizeHost libs text) target.permission
      (normalizeHost libs)) (ha : Compiled libs after)
    (hm : (target.set after).isMatch (normalizeHost libs text) = true) : Stable libs text := by
  obtain ⟨policy, hset⟩ := compiled_set ha target
  obtain ⟨policy', hset'⟩ := compiled_set hb target
  obtain ⟨pat, hp, glob, hg, hgm⟩ := (isMatch_compiled hset).mp hm
  rw [hconfig, mem_domainEntries_upsert] at hp
  rcases hp with ⟨_, hold⟩ | ⟨rfl, _⟩
  · rw [(isMatch_compiled hset').mpr ⟨pat, hold, glob, hg, hgm⟩] at hn
    cases hn
  · -- the only glob is the host normalized twice
    have hla := hl.again.of_sublist (trim_sublist _)
    rw [globs_of_literal hl.again, mem_singleton] at hg
    rw [hg, globMatches_literal hla, toAsciiLowercase_normalizeHost, ← trim_toAsciiLowercase,
      toAsciiLowercase_normalizeHost] at hgm
    exact stable_of_trim_again hgm

/-- An update does what it is for if the host is normalized for good, or if it is listed already and has no blank at
its ends. Where the list does not match the host before, it does so only if the host is normalized for good. -/
theorem update_takes_effect_iff [DecidableEq η] (host : Host η) {rounds : List (Round η β)}
    {before after : ProxyState η β} (hliteral : Literal (normalizeHost libs text)) (hrounds : AllCompiled libs rounds)
    (hupdate : updateDomainList host libs text target rounds = some (.ok (before, after))) :
    (normalizeHost libs (normalizeHost libs text) = normalizeHost libs text ∨
      Listed libs (normalizeHost libs text) target before.config ∧
        trim (normalizeHost libs text) = normalizeHost libs text →
      TakesEffect libs text target before after) ∧
    ((target.set before).isMatch (normalizeHost libs text) = false →
      (TakesEffect libs text target before after ↔
        normalizeHost libs (normalizeHost libs text) = normalizeHost libs text)) := by
  obtain ⟨hb, hended⟩ := updateDomainList_ended hrounds hupdate
  refine ⟨?_, fun hn => ⟨fun ht => ?_, fun hs => takesEffect_of_stable hs hliteral hb hended⟩⟩
  · rintro (hs | ⟨hlisted, htrim⟩)
    · exact takesEffect_of_stable hs hliteral hb hended
    · cases hended with
      | kept => exact takesEffect_of_listed htrim hliteral hb hlisted
      | built hnot => exact absurd hlisted hnot
  · cases hended with
    | kept =>
      rw [ht.isMatch] at hn
      cases hn
    | built _ hconfig ha => exact stable_of_built hliteral hb hn hconfig ha ht.isMatch

theorem allCompiled_singleton {state : ProxyState η β} (h : Compiled libs state) :
    AllCompiled libs [.ok (state, state)] := by
  intro seen present hm
  cases mem_singleton.mp hm
  exact ⟨h, h⟩

/-- A name with a dot at its end is normalized for good. A port in brackets is not, and does no harm where it is denied
already. -/
theorem dotted_name_takes_effect :
    (∃ after : ProxyState Unit Unit,
      updateDomainList quietHost plainLibraries "API.Example.com.:443".toList .deny
        [.ok (stateWith none [], stateWith none [])] = some (.ok (stateWith none [], after)) ∧
      TakesEffect plainLibraries "API.Example.com.:443".toList .deny (stateWith none []) after) ∧
    ∃ state : ProxyState Unit Unit,
      updateDomainList quietHost plainLibraries "[example.com:443]".toList .deny [.ok (state, state)] =
        some (.ok (state, state)) ∧
      TakesEffect plainLibraries "[example.com:443]".toList .deny state state := by
  have hempty : AllCompiled plainLibraries [.ok (stateWith none [], (stateWith none [] : ProxyState Unit Unit))] :=
    allCompiled_singleton ⟨rfl, rfl⟩
  let listed : ProxyState Unit Unit :=
    stateWith (some [⟨"[example.com:443]".toList, .deny⟩]) ["example.com:443".toList]
  have hlisted : AllCompiled plainLibraries [.ok (listed, listed)] := allCompiled_singleton ⟨rfl, rfl⟩
  refine ⟨⟨_, rfl, ?_⟩, listed, rfl, ?_⟩
  · exact ((update_takes_effect_iff quietHost (by decide) hempty rfl).2 rfl).mpr rfl
  · refine (update_takes_effect_iff quietHost (by decide) hlisted rfl).1 (.inr ⟨⟨?_, ?_⟩, rfl⟩)
    · exact ⟨_, mem_singleton_self _, rfl⟩
    · rintro entry ⟨⟩

/-- A blank in front of the port stays in the host, and is trimmed away when the list is compiled: the denied host
is not denied, and another one is. -/
theorem blank_before_port_is_not_denied :
    Literal (normalizeHost plainLibraries "example.com :443".toList) ∧
    AllCompiled plainLibraries [.ok (stateWith none [], (stateWith none [] : ProxyState Unit Unit))] ∧
    ∃ after : ProxyState Unit Unit,
      updateDomainList quietHost plainLibraries "example.com :443".toList .deny
        [.ok (stateWith none [], stateWith none [])] = some (.ok (stateWith none [], after)) ∧
      after.denySet.isMatch (normalizeHost plainLibraries "example.com :443".toList) = false ∧
      (stateWith none [] : ProxyState Unit Unit).denySet.isMatch
        (normalizeHost plainLibraries "example.com".toList) = false ∧
      after.denySet.isMatch (normalizeHost plainLibraries "example.com".toList) = true := by
  exact ⟨by decide, allCompiled_singleton ⟨rfl, rfl⟩, _, rfl, rfl, rfl, rfl⟩

end DomainUpdate
