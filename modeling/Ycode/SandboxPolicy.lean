import Ycode.DeepestRule
import Ycode.RustStr

/-!
# The file system sandbox policy

A policy is a list of entries that give a path read, write or no access. A write to a path is checked in two ways:
directly against the entries, and by the list of writable roots that is handed to the sandbox, each with the
subpaths and the metadata names that stay read-only below it.
-/
namespace SandboxPolicy

open RustStr DeepestRule

/-- The components of an absolute path without `.` and `..`. -/
abbrev Path := List Str

/-- The process environment and the file system as the policy asks for them. -/
structure Host where
  home : Option Path
  currentDir : Option Path
  tmpdir : Option Str
  present : Path → Bool
  isSymlink : Path → Bool
  canonicalize : Path → Option Path
  isFile : Path → Bool
  isDir : Path → Bool
  readToString : Path → Option Str

/-- A file system with nothing on it. -/
def emptyHost : Host where
  home := none
  currentDir := none
  tmpdir := none
  present _ := false
  isSymlink _ := false
  canonicalize _ := none
  isFile _ := false
  isDir _ := false
  readToString _ := none

variable (host : Host)

def components (text : Str) : List Str := (text.splitOn '/').filter (· ≠ [])

def normalizePath (base : Path) (names : List Str) : Path :=
  names.foldl (fun path name =>
    if name = ".".toList then path else if name = "..".toList then path.dropLast else path ++ [name]) base

/-- The home directory stands for `~` alone and in front of a slash. -/
def maybeExpandHomeDirectory (text : Str) : Option Path :=
  match host.home, text with
  | some home, ['~'] => some home
  | some home, '~' :: '/' :: rest => some (normalizePath home (components rest))
  | _, _ => none

def resolvePathAgainstBase (text : Str) (base : Path) : Path :=
  match maybeExpandHomeDirectory host text with
  | some path => path
  | none => normalizePath (if startsWith text "/".toList then [] else base) (components text)

def fromAbsolutePath (text : Str) : Option Path :=
  match maybeExpandHomeDirectory host text with
  | some path => some path
  | none =>
    if startsWith text "/".toList then some (normalizePath [] (components text))
    else host.currentDir.map (resolvePathAgainstBase host text)

/-- The place that the text of a path names. Resolving an absolute path never fails. -/
def resolveCandidatePath (text : Str) (cwd : Path) : Path :=
  if startsWith text "/".toList then normalizePath [] (components text) else resolvePathAgainstBase host text cwd

/-- From the path itself up to the root. -/
def ancestors (path : Path) : List Path := path.inits.reverse

def shouldPreserveLogicalPath (logical : Path) : Bool :=
  (ancestors logical).any fun ancestor => host.isSymlink ancestor && 2 ≤ ancestor.length

def canonicalizePreservingSymlinks (logical : Path) : Path :=
  match host.canonicalize logical with
  | some canonical => if shouldPreserveLogicalPath host logical && canonical ≠ logical then logical else canonical
  | none => logical

def normalizeEffectiveAbsolutePath (path : Path) : Path :=
  match (ancestors path).find? host.present with
  | some ancestor => canonicalizePreservingSymlinks host ancestor ++ path.drop ancestor.length
  | none => path

/-- The first occurrence of each path, followed through the file system if asked for. -/
def dedupAbsolutePaths (paths : List Path) (normalizeEffectivePaths : Bool) : List Path :=
  (paths.map fun path => if normalizeEffectivePaths then normalizeEffectiveAbsolutePath host path else path).eraseDups

inductive FileSystemAccessMode where
  | read
  | write
  | deny
  deriving DecidableEq

/-- Of two entries for one path the later mode wins. -/
def FileSystemAccessMode.rank : FileSystemAccessMode → Nat
  | .read => 0
  | .write => 1
  | .deny => 2

theorem FileSystemAccessMode.rank_injective : Function.Injective FileSystemAccessMode.rank := by
  intro a b h
  cases a <;> cases b <;> simp_all [FileSystemAccessMode.rank]

def FileSystemAccessMode.canRead (access : FileSystemAccessMode) : Bool := access ≠ .deny

def FileSystemAccessMode.canWrite (access : FileSystemAccessMode) : Bool := access = .write

inductive FileSystemSpecialPath where
  | root
  | minimal
  | projectRoots (subpath : Option Str)
  | tmpdir
  | slashTmp
  | unknown (path : Str) (subpath : Option Str)
  deriving DecidableEq

inductive FileSystemPath where
  | path (path : Path)
  | globPattern (pattern : Str)
  | special (value : FileSystemSpecialPath)
  deriving DecidableEq

structure FileSystemSandboxEntry where
  path : FileSystemPath
  access : FileSystemAccessMode
  deriving DecidableEq

inductive FileSystemSandboxKind where
  | restricted
  | unrestricted
  | externalSandbox
  deriving DecidableEq

structure FileSystemSandboxPolicy where
  kind : FileSystemSandboxKind
  entries : List FileSystemSandboxEntry

structure ResolvedFileSystemEntry where
  path : Path
  access : FileSystemAccessMode
  deriving DecidableEq

def specialPathsShareTarget : FileSystemSpecialPath → FileSystemSpecialPath → Bool
  | .root, .root => true
  | .minimal, .minimal => true
  | .tmpdir, .tmpdir => true
  | .slashTmp, .slashTmp => true
  | .projectRoots left, .projectRoots right => left = right
  | .unknown left leftSubpath, .unknown right rightSubpath => left = right && leftSubpath = rightSubpath
  | _, _ => false

def specialPathMatchesAbsolutePath (value : FileSystemSpecialPath) (path : Path) : Bool :=
  match value with
  | .root => path = []
  | .slashTmp => path = ["tmp".toList]
  | _ => false

def fileSystemPathsShareTarget : FileSystemPath → FileSystemPath → Bool
  | .path left, .path right => left = right
  | .special left, .special right => specialPathsShareTarget left right
  | .path path, .special value => specialPathMatchesAbsolutePath value path
  | .special value, .path path => specialPathMatchesAbsolutePath value path
  | .globPattern left, .globPattern right => left = right
  | _, _ => false

namespace FileSystemSandboxPolicy

variable (policy : FileSystemSandboxPolicy)

def hasRootAccess (predicate : FileSystemAccessMode → Bool) : Bool :=
  policy.kind = .restricted &&
    policy.entries.any fun entry => entry.path = .special .root && predicate entry.access

def hasSameTargetWriteOverride (entry : FileSystemSandboxEntry) : Bool :=
  policy.entries.any fun candidate => candidate.access.canWrite && entry.access.rank < candidate.access.rank &&
    fileSystemPathsShareTarget candidate.path entry.path

def hasWriteNarrowingEntries : Bool :=
  policy.kind = .restricted && policy.entries.any fun entry =>
    if entry.access.canWrite then false
    else match entry.path with
      | .path _ => !policy.hasSameTargetWriteOverride entry
      | .globPattern _ => true
      | .special .root => entry.access = .deny
      | .special .minimal => false
      | .special (.unknown _ _) => false
      | .special _ => !policy.hasSameTargetWriteOverride entry

def hasFullDiskWriteAccess : Bool :=
  match policy.kind with
  | .restricted => policy.hasRootAccess FileSystemAccessMode.canWrite && !policy.hasWriteNarrowingEntries
  | _ => true

def hasDeniedReadRestrictions : Bool :=
  policy.kind = .restricted && policy.entries.any fun entry => entry.access = .deny

def hasFullDiskReadAccess : Bool :=
  match policy.kind with
  | .restricted => policy.hasRootAccess FileSystemAccessMode.canRead && !policy.hasDeniedReadRestrictions
  | _ => true

end FileSystemSandboxPolicy

def resolveFileSystemSpecialPath (value : FileSystemSpecialPath) (cwd : Path) : Option Path :=
  match value with
  | .root => none
  | .minimal => none
  | .unknown _ _ => none
  | .projectRoots (some subpath) => some (resolvePathAgainstBase host subpath cwd)
  | .projectRoots none => some cwd
  | .tmpdir =>
    match host.tmpdir with
    | some tmpdir => if tmpdir = [] then none else fromAbsolutePath host tmpdir
    | none => none
  | .slashTmp => if host.isDir ["tmp".toList] then some ["tmp".toList] else none

def resolveEntryPath (path : FileSystemPath) (cwd : Path) : Option Path :=
  match path with
  | .special .root => some []
  | .path path => some path
  | .globPattern _ => none
  | .special value => resolveFileSystemSpecialPath host value cwd

def FileSystemSandboxPolicy.resolvedEntriesWithCwd (policy : FileSystemSandboxPolicy) (cwd : Path) :
    List ResolvedFileSystemEntry :=
  policy.entries.filterMap fun entry =>
    (resolveEntryPath host entry.path cwd).map fun path => { path, access := entry.access }

/-- The text of an absolute path. -/
def pathText (path : Path) : Str := if path = [] then "/".toList else path.flatMap fun name => '/' :: name

def projectRootsGlobPatternPrefix : Str := "codex-project-roots://".toList

def parseProjectRootsGlobPattern (pattern : Str) : Option Str :=
  stripPrefix pattern projectRootsGlobPatternPrefix

def resolveProjectRootsGlobPattern (subpath : Str) (root : Path) : Str :=
  pathText (resolvePathAgainstBase host subpath root)

def resolveFileSystemPath (path : FileSystemPath) (cwd : Path) : Option Path :=
  match path with
  | .path path => some path
  | .globPattern _ => none
  | .special value => resolveFileSystemSpecialPath host value cwd

/-- The path of an entry with the working directory in place of the project roots. -/
def materializeWithCwd (cwd : Path) (path : FileSystemPath) : FileSystemPath :=
  match path with
  | .special (.projectRoots _) =>
    match resolveFileSystemPath host path cwd with
    | some resolved => .path resolved
    | none => path
  | .globPattern pattern =>
    match parseProjectRootsGlobPattern pattern with
    | some subpath => .globPattern (resolveProjectRootsGlobPattern host subpath cwd)
    | none => path
  | .special _ => path
  | .path _ => path

def FileSystemSandboxPolicy.materializeProjectRootsWithCwd (policy : FileSystemSandboxPolicy) (cwd : Path) :
    FileSystemSandboxPolicy :=
  { policy with entries := policy.entries.map fun entry =>
      { entry with path := materializeWithCwd host cwd entry.path } }

/-- The paths of an entry with each workspace root in place of the project roots. -/
def materializeWithWorkspaceRoots (workspaceRoots : List Path) (path : FileSystemPath) : List FileSystemPath :=
  match path with
  | .special (.projectRoots subpath) =>
    workspaceRoots.map fun root =>
      .path (match subpath with
        | some subpath => resolvePathAgainstBase host subpath root
        | none => root)
  | .globPattern pattern =>
    match parseProjectRootsGlobPattern pattern with
    | some subpath => workspaceRoots.map fun root => .globPattern (resolveProjectRootsGlobPattern host subpath root)
    | none => [.globPattern pattern]
  | .path path => [.path path]
  | .special value => [.special value]

def FileSystemSandboxPolicy.materializeProjectRootsWithWorkspaceRoots (policy : FileSystemSandboxPolicy)
    (workspaceRoots : List Path) : FileSystemSandboxPolicy :=
  { policy with entries := policy.entries.flatMap fun entry =>
      (materializeWithWorkspaceRoots host workspaceRoots entry.path).map fun path => { entry with path } }

def protectedMetadataPathNames : List Str := [".git".toList, ".agents".toList, ".codex".toList]

def metadataPathName (name : Str) : Option Str := protectedMetadataPathNames.find? (name = ·)

/-- Of the entries on the way to the path the most specific one decides, and of several there the strongest mode. -/
def resolveAccess (entries : List ResolvedFileSystemEntry) (path : Path) : FileSystemAccessMode :=
  match winner (fun entry : ResolvedFileSystemEntry => entry.path) (fun entry => entry.access.rank) entries path with
  | some entry => entry.access
  | none => .deny

/-- The metadata directory of the root that the target lies in. -/
def metadataChild (root target : Path) : Option (Path × Str) :=
  match target.dropPrefix? root with
  | some (firstComponent :: _) => (metadataPathName firstComponent).map fun name => (root ++ [name], name)
  | _ => none

def metadataChildOfWritableRoot (entries : List ResolvedFileSystemEntry) (target : Path) : Option (Path × Str) :=
  (entries.filter fun entry => entry.access.canWrite).findSome? fun entry => metadataChild entry.path target

def hasExplicitWriteEntryForMetadataPath (entries : List ResolvedFileSystemEntry)
    (protectedMetadataPath target : Path) : Bool :=
  entries.any fun entry => entry.access.canWrite && entry.path.isPrefixOf target &&
    protectedMetadataPath.isPrefixOf entry.path

def isMetadataWriteDenied (entries : List ResolvedFileSystemEntry) (path : Path) : Bool :=
  match metadataChildOfWritableRoot entries path with
  | some (protectedMetadataPath, _) => !hasExplicitWriteEntryForMetadataPath entries protectedMetadataPath path
  | none => false

namespace FileSystemSandboxPolicy

variable (policy : FileSystemSandboxPolicy) (cwd : Path)

def resolveAccessWithCwd (path : Path) : FileSystemAccessMode :=
  match policy.kind with
  | .restricted => resolveAccess (policy.resolvedEntriesWithCwd host cwd) path
  | _ => .write

def canReadPathWithCwd (path : Path) : Bool := (policy.resolveAccessWithCwd host cwd path).canRead

def canWritePathWithCwd (path : Path) : Bool :=
  if !(policy.resolveAccessWithCwd host cwd path).canWrite then false
  else if policy.hasFullDiskWriteAccess then true
  else !(policy.kind = .restricted && isMetadataWriteDenied (policy.resolvedEntriesWithCwd host cwd) path)

/-- The metadata name for which a write of the agent is refused before it runs. -/
def forbiddenAgentMetadataWrite (target : Path) : Option Str :=
  if policy.kind ≠ .restricted then none
  else match metadataChildOfWritableRoot (policy.resolvedEntriesWithCwd host cwd) target with
    | none => none
    | some (protectedMetadataPath, metadataName) =>
      if hasExplicitWriteEntryForMetadataPath (policy.resolvedEntriesWithCwd host cwd) protectedMetadataPath target
      then none
      else if !policy.canWritePathWithCwd host cwd target then some metadataName
      else none

end FileSystemSandboxPolicy

structure WritableRoot where
  root : Path
  readOnlySubpaths : List Path
  protectedMetadataNames : List Str

def WritableRoot.pathContainsProtectedMetadataName (writable : WritableRoot) (path : Path) : Bool :=
  match path.dropPrefix? writable.root with
  | some (firstComponent :: _) => writable.protectedMetadataNames.any (firstComponent = ·)
  | _ => false

def WritableRoot.isPathWritable (writable : WritableRoot) (path : Path) : Bool :=
  if !writable.root.isPrefixOf path then false
  else if writable.readOnlySubpaths.any fun subpath => subpath.isPrefixOf path then false
  else !writable.pathContainsProtectedMetadataName path

/-- Where a `.git` file points to: `gitdir: <path>`. -/
def resolveGitdirFromFile (dotGit : Path) : Option Path :=
  match host.readToString dotGit with
  | none => none
  | some contents =>
    match splitOnce ":".toList (trim contents) with
    | none => none
    | some (label, gitdirRaw) =>
      if trim label ≠ "gitdir".toList then none
      else if trim gitdirRaw = [] then none
      else
        let gitdirPath := resolvePathAgainstBase host (trim gitdirRaw) dotGit.dropLast
        if host.present gitdirPath then some gitdirPath else none

def defaultReadOnlySubpathsForWritableRoot (writableRoot : Path) (protectMissingDotCodex : Bool) : List Path :=
  let topLevelGit := writableRoot ++ [".git".toList]
  let topLevelAgents := writableRoot ++ [".agents".toList]
  let topLevelCodex := writableRoot ++ [".codex".toList]
  let pointed := if host.isFile topLevelGit then (resolveGitdirFromFile host topLevelGit).toList else []
  let git := if host.isDir topLevelGit || host.isFile topLevelGit then pointed ++ [topLevelGit] else []
  let agents := if host.isDir topLevelAgents then [topLevelAgents] else []
  let codex := if protectMissingDotCodex || host.isDir topLevelCodex then [topLevelCodex] else []
  dedupAbsolutePaths host (git ++ agents ++ codex) false

def hasExplicitResolvedPathEntry (entries : List ResolvedFileSystemEntry) (path : Path) : Bool :=
  entries.any fun entry => entry.path = path

namespace FileSystemSandboxPolicy

variable (policy : FileSystemSandboxPolicy) (cwd : Path)

def protectedMetadataNamesForWritableRoot (root : Path) (rawWritableRoots : List Path) : List Str :=
  protectedMetadataPathNames.filter fun metadataName =>
    ((root ++ [metadataName]) :: rawWritableRoots.map (· ++ [metadataName])).all fun metadataPath =>
      !policy.canWritePathWithCwd host cwd metadataPath

/-- A path below the raw root, moved below the root. -/
def rebase (root entryPath rawRoot : Path) : Option Path :=
  match entryPath.dropPrefix? rawRoot with
  | some (first :: rest) => some (root ++ first :: rest)
  | _ => none

/-- The place below the root that an entry without write access keeps read-only: the literal path, also below a
root that is reached through a symbolic link, and otherwise the path the entry leads to. -/
def carveout (root : Path) (rawWritableRoots : List Path) (entryPath : Path) : Option Path :=
  let effectivePath := normalizeEffectiveAbsolutePath host entryPath
  let rawCarveoutPath :=
    if root = [] then none
    else if entryPath = root then none
    else if root.isPrefixOf entryPath then some entryPath
    else rawWritableRoots.findSome? (rebase root entryPath)
  match rawCarveoutPath with
  | some path => some path
  | none => if effectivePath = root || !root.isPrefixOf effectivePath then none else some effectivePath

def writableRoot (resolvedEntries : List ResolvedFileSystemEntry) (writableEntries : List Path) (root : Path) :
    WritableRoot :=
  let rawWritableRoots := writableEntries.filter fun path => normalizeEffectiveAbsolutePath host path = root
  let protectMissingDotCodex : Bool := normalizeEffectiveAbsolutePath host cwd = root
  let defaults := (defaultReadOnlySubpathsForWritableRoot host root protectMissingDotCodex).filter fun path =>
    !hasExplicitResolvedPathEntry resolvedEntries path
  let carveouts := ((resolvedEntries.filter fun entry => !entry.access.canWrite).filter fun entry =>
    !policy.canWritePathWithCwd host cwd entry.path).filterMap fun entry =>
      carveout host root rawWritableRoots entry.path
  { root
    readOnlySubpaths := dedupAbsolutePaths host (defaults ++ carveouts) false
    protectedMetadataNames := policy.protectedMetadataNamesForWritableRoot host cwd root rawWritableRoots }

def getWritableRootsWithCwd : List WritableRoot :=
  if policy.hasFullDiskWriteAccess then []
  else
    let resolvedEntries := policy.resolvedEntriesWithCwd host cwd
    let writableEntries := ((resolvedEntries.filter fun entry => entry.access.canWrite).filter fun entry =>
      policy.canWritePathWithCwd host cwd entry.path).map (·.path)
    (dedupAbsolutePaths host writableEntries true).map fun root =>
      policy.writableRoot host cwd resolvedEntries writableEntries root

end FileSystemSandboxPolicy

end SandboxPolicy
