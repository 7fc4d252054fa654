import Ycode.ApplyHunks

/-!
# The turn diff tracker

The tracker keeps, for the files that the patches of one turn have changed, the
content before the turn and the content now, and where a moved file came from.
From these it renders the net diff of the turn, path by path or rename by rename,
with a cache of the diffs whose contents have not changed since. The iteration
order of the hash maps is the environment's choice at every call.
-/
namespace TurnDiff

open RustStr
open ApplyHunks (AppliedPatchChange AppliedPatchDelta)

structure TrackedContent where
  content : Str
  revision : Nat
  deriving DecidableEq, Repr

structure TrackedPath (U : Type) where
  environmentId : Str
  path : U
  deriving DecidableEq, Repr

structure DiffCacheKey (U : Type) where
  leftPath : TrackedPath U
  leftRevision : Option Nat
  rightPath : TrackedPath U
  rightRevision : Option Nat
  deriving DecidableEq, Repr

/-- A hash map whose iteration order is not used. -/
abbrev HashMap (K V : Type) := AList fun _ : K => V

structure TurnDiffTracker (U : Type) where
  valid : Bool
  displayRootsByEnvironment : HashMap Str U
  baselineByPath : HashMap (TrackedPath U) TrackedContent
  currentByPath : HashMap (TrackedPath U) TrackedContent
  originByCurrentPath : HashMap (TrackedPath U) (TrackedPath U)
  nextRevision : Nat
  renderedDiffs : DiffCacheKey U → Option (Option Str)
  unifiedDiff : Option Str

def withEnvironmentDisplayRoots {U : Type} (displayRoots : HashMap Str U) : TurnDiffTracker U :=
  ⟨true, displayRoots, ∅, ∅, ∅, 0, fun _ => none, none⟩

/-- The orders in which one call iterates over the three maps. -/
structure Iteration (U : Type) where
  baseline : List (TrackedPath U) → List (TrackedPath U)
  current : List (TrackedPath U) → List (TrackedPath U)
  origins : List (TrackedPath U × TrackedPath U) → List (TrackedPath U × TrackedPath U)
  baseline_perm : ∀ l, (baseline l).Perm l
  current_perm : ∀ l, (current l).Perm l
  origins_perm : ∀ l, (origins l).Perm l

/-- What the texts of a diff are made of: path texts, object ids, and the unified diff of two
texts under two headers. -/
structure DiffRenderer (U : Type) where
  relativePathFrom : U → U → Option Str
  inferredNativePathString : U → Str
  gitBlobOid : Str → Str
  unifiedText : Str → Str → Str → Str → Str

/-! ## Tracking -/

variable {U : Type} [DecidableEq U]

def insertBaseline (t : TurnDiffTracker U) (path : TrackedPath U) (content : Str) : TurnDiffTracker U :=
  { t with
    baselineByPath := t.baselineByPath.insert path ⟨content, t.nextRevision⟩
    nextRevision := t.nextRevision + 1 }

def insertCurrent (t : TurnDiffTracker U) (path : TrackedPath U) (content : Str) : TurnDiffTracker U :=
  { t with
    currentByPath := t.currentByPath.insert path ⟨content, t.nextRevision⟩
    nextRevision := t.nextRevision + 1 }

def removeCurrent (t : TurnDiffTracker U) (path : TrackedPath U) : TurnDiffTracker U :=
  { t with currentByPath := t.currentByPath.erase path }

def removeOrigin (t : TurnDiffTracker U) (path : TrackedPath U) : TurnDiffTracker U :=
  { t with originByCurrentPath := t.originByCurrentPath.erase path }

def insertOrigin (t : TurnDiffTracker U) (path origin : TrackedPath U) : TurnDiffTracker U :=
  { t with originByCurrentPath := t.originByCurrentPath.insert path origin }

/-- The content a path had before it was first touched becomes its baseline. -/
def noteBaseline (t : TurnDiffTracker U) (path : TrackedPath U) (content : Option Str) :
    TurnDiffTracker U :=
  if path ∉ t.currentByPath ∧ path ∉ t.baselineByPath then
    match content with
    | some content => insertBaseline t path content
    | none => t
  else t

def applyAdd (t : TurnDiffTracker U) (path : TrackedPath U) (content : Str)
    (overwrittenContent : Option Str) : TurnDiffTracker U :=
  insertCurrent (noteBaseline (removeOrigin t path) path overwrittenContent) path content

def applyDelete (t : TurnDiffTracker U) (path : TrackedPath U) (content : Str) : TurnDiffTracker U :=
  let removed := removeCurrent t path
  let noted :=
    if path ∉ t.currentByPath ∧ path ∉ removed.baselineByPath then insertBaseline removed path content
    else removed
  removeOrigin noted path

def applyUpdate (t : TurnDiffTracker U) (sourcePath : TrackedPath U) (movePath : Option (TrackedPath U))
    (oldContent : Str) (overwrittenMoveContent : Option Str) (newContent : Str) : TurnDiffTracker U :=
  let t := noteBaseline t sourcePath (some oldContent)
  match movePath with
  | some destPath =>
    let t := noteBaseline t destPath overwrittenMoveContent
    let origin := (t.originByCurrentPath.lookup sourcePath).getD sourcePath
    let t := removeCurrent (removeOrigin t sourcePath) sourcePath
    let t := removeOrigin (insertCurrent t destPath newContent) destPath
    if destPath ≠ origin then insertOrigin t destPath origin else t
  | none => insertCurrent t sourcePath newContent

def applyChange (environmentId : Str) (t : TurnDiffTracker U) (change : AppliedPatchChange U) :
    TurnDiffTracker U :=
  let sourcePath : TrackedPath U := ⟨environmentId, change.path⟩
  match change.change with
  | .add content overwrittenContent => applyAdd t sourcePath content overwrittenContent
  | .delete content => applyDelete t sourcePath content
  | .update movePath oldContent overwrittenMoveContent newContent =>
    applyUpdate t sourcePath (movePath.map (⟨environmentId, ·⟩)) oldContent overwrittenMoveContent newContent

def invalidate (t : TurnDiffTracker U) : TurnDiffTracker U :=
  { t with valid := false, renderedDiffs := fun _ => none, unifiedDiff := none }

/-! ## Pairs -/

def collect (entries : List (TrackedPath U × TrackedPath U)) : HashMap (TrackedPath U) (TrackedPath U) :=
  entries.foldl (fun map entry => map.insert entry.1 entry.2) ∅

/-- The renames, as a map from origins to destinations. -/
def renamePairs (it : Iteration U) (t : TurnDiffTracker U) : HashMap (TrackedPath U) (TrackedPath U) :=
  collect ((it.origins (t.originByCurrentPath.entries.map fun entry => (entry.1, entry.2))).filterMap
    fun (destPath, originPath) =>
      if destPath = originPath ∨ originPath ∈ t.currentByPath ∨ destPath ∉ t.currentByPath ∨
          originPath ∉ t.baselineByPath ∨ destPath ∈ t.baselineByPath then none
      else some (originPath, destPath))

/-- The loop over the paths, as far as it chooses the pairs that are compared. -/
def pairLoop (renames : HashMap (TrackedPath U) (TrackedPath U)) (destinations : List (TrackedPath U)) :
    List (TrackedPath U) → List (TrackedPath U) → List (TrackedPath U × TrackedPath U)
  | _, [] => []
  | handled, path :: rest =>
    if path ∈ handled then pairLoop renames destinations handled rest
    else if path ∈ destinations then pairLoop renames destinations (path :: handled) rest
    else
      match renames.lookup path with
      | some dest => (path, dest) :: pairLoop renames destinations (dest :: path :: handled) rest
      | none => (path, path) :: pairLoop renames destinations (path :: handled) rest

/-- `Vec::dedup` -/
def dedupVec {α : Type} [DecidableEq α] : List α → List α
  | [] => []
  | [a] => [a]
  | a :: b :: rest => if a = b then dedupVec (b :: rest) else a :: dedupVec (b :: rest)

variable (R : DiffRenderer U)

def displayPath (roots : HashMap Str U) (path : TrackedPath U) : Str :=
  let display := ((roots.lookup path.environmentId).bind (R.relativePathFrom path.path)).getD
    (R.inferredNativePathString path.path)
  if 1 < roots.keys.length ∧ path.environmentId ≠ [] then
    path.environmentId ++ "/".toList ++ display
  else display

def refreshPaths (it : Iteration U) (t : TurnDiffTracker U) : List (TrackedPath U) :=
  let display := displayPath R t.displayRootsByEnvironment
  dedupVec ((it.baseline t.baselineByPath.keys ++ it.current t.currentByPath.keys).insertionSort
    fun a b => display a ≤ display b)

/-- The pairs of an old and a new path that are compared. -/
def refreshPairs (it : Iteration U) (t : TurnDiffTracker U) : List (TrackedPath U × TrackedPath U) :=
  let renames := renamePairs it t
  pairLoop renames (renames.entries.map fun entry => entry.2) [] (refreshPaths R it t)

/-! ## Rendering -/

def zeroOid : Str := List.replicate 40 '0'
def devNull : Str := "/dev/null".toList
def regularFileMode : Str := "100644".toList

/-- Git diff paths always use `/`. -/
def slashed (path : Str) : Str := path.map fun c => if c = '\\' then '/' else c

def renderDiff (roots : HashMap Str U) (leftPath : TrackedPath U) (leftContent : Option Str)
    (rightPath : TrackedPath U) (rightContent : Option Str) : Option Str :=
  if leftContent = rightContent then none
  else
    let leftDisplay := slashed (displayPath R roots leftPath)
    let rightDisplay := slashed (displayPath R roots rightPath)
    let leftOid := (leftContent.map R.gitBlobOid).getD zeroOid
    let rightOid := (rightContent.map R.gitBlobOid).getD zeroOid
    let mode := match leftContent, rightContent with
      | none, some _ => some ("new file mode ".toList ++ regularFileMode ++ ['\n'])
      | some _, none => some ("deleted file mode ".toList ++ regularFileMode ++ ['\n'])
      | some _, some _ => some []
      | none, none => none
    mode.map fun mode =>
      let oldHeader := if leftContent.isSome then "a/".toList ++ leftDisplay else devNull
      let newHeader := if rightContent.isSome then "b/".toList ++ rightDisplay else devNull
      "diff --git a/".toList ++ leftDisplay ++ " b/".toList ++ rightDisplay ++ ['\n'] ++ mode ++
        "index ".toList ++ leftOid ++ "..".toList ++ rightOid ++ ['\n'] ++
        R.unifiedText (leftContent.getD []) (rightContent.getD []) oldHeader newHeader

structure Rendering (U : Type) where
  previousDiffs : DiffCacheKey U → Option (Option Str)
  renderedDiffs : DiffCacheKey U → Option (Option Str)
  aggregated : Str

def appendDiff (aggregated : Str) : Option Str → Str
  | none => aggregated
  | some diff =>
    let text := aggregated ++ diff
    if endsWith text ['\n'] then text else text ++ ['\n']

def cacheKey (t : TurnDiffTracker U) (pair : TrackedPath U × TrackedPath U) : DiffCacheKey U :=
  ⟨pair.1, (t.baselineByPath.lookup pair.1).map (·.revision), pair.2,
    (t.currentByPath.lookup pair.2).map (·.revision)⟩

/-- The diff of a pair from the tracked contents. -/
def freshDiff (t : TurnDiffTracker U) (pair : TrackedPath U × TrackedPath U) : Option Str :=
  renderDiff R t.displayRootsByEnvironment pair.1 ((t.baselineByPath.lookup pair.1).map (·.content)) pair.2
    ((t.currentByPath.lookup pair.2).map (·.content))

/-- The rest of the loop body: a diff of the same contents is taken from the cache. -/
def renderPair (t : TurnDiffTracker U) (st : Rendering U) (pair : TrackedPath U × TrackedPath U) :
    Rendering U :=
  let key := cacheKey t pair
  let rendered := (st.previousDiffs key).getD (freshDiff R t pair)
  ⟨Function.update st.previousDiffs key none, Function.update st.renderedDiffs key (some rendered),
    appendDiff st.aggregated rendered⟩

def refreshUnifiedDiff (it : Iteration U) (t : TurnDiffTracker U) : TurnDiffTracker U :=
  let st := (refreshPairs R it t).foldl (renderPair R t) ⟨t.renderedDiffs, fun _ => none, []⟩
  { t with
    renderedDiffs := st.renderedDiffs
    unifiedDiff := if st.aggregated.isEmpty then none else some st.aggregated }

def trackDelta (it : Iteration U) (t : TurnDiffTracker U) (environmentId : Str)
    (delta : AppliedPatchDelta U) : TurnDiffTracker U :=
  if !t.valid then t
  else if !delta.exact then invalidate t
  else refreshUnifiedDiff R it (delta.changes.foldl (applyChange environmentId) t)

end TurnDiff
