import Ycode.LinkedTree
import Ycode.PatchHunk

/-!
# The file system below patch application

The calls that patch application makes on an executor's file system, on a tree
with symbolic links. Reading and writing follow a link, `remove` takes the link
itself. The environment may let any call fail with any error; a call that fails
so leaves the entries as they are.
-/
namespace FileSystem

open RustStr PatchHunk LinkedTree

/-- The contents are `none` for a file that is not valid UTF-8. -/
abbrev Entries := Tree Str (Option Str)

structure FileMetadata where
  isDirectory : Bool
  isFile : Bool
  isSymlink : Bool
  deriving DecidableEq, Repr

/-- Path URIs: resolution of a path text, the parent, and the absolute path, innermost
name first; and how many links the system follows in one lookup. -/
structure PathOps (U : Type) where
  join : U → Str → Except PathUriParseError U
  parent : U → Option U
  toAbsPath : U → List Str
  inferredNativePathString : U → Str
  maxLinks : Nat

/-- The entries, the environment's decision on each call, and the number of calls made. -/
structure World where
  entries : Entries
  faults : Nat → Option IoErrorKind
  clock : Nat

abbrev Io (α : Type) := World → World × Except IoErrorKind α

/-- One call. -/
def call (f : Entries → Entries × Except IoErrorKind α) : Io α := fun w =>
  match w.faults w.clock with
  | some e => ({ w with clock := w.clock + 1 }, .error e)
  | none => ({ w with entries := (f w.entries).1, clock := w.clock + 1 }, (f w.entries).2)

/-- A call that only looks. -/
def look (f : Entries → Except IoErrorKind α) : Io α := call fun es => (es, f es)

def ioErrorKind : LookupError → IoErrorKind
  | .notFound => .notFound
  | .notADirectory => .notADirectory
  | .tooManyLinks => .other

section

variable {U : Type} (P : PathOps U)

/-- Where a path leads, through a link at its end or to the link itself. -/
def lookup (follow : Bool) (path : List Str) (es : Entries) : Except LookupError (List Str) :=
  walk es follow P.maxLinks [] path.reverse

def entryAt (follow : Bool) (u : U) (es : Entries) : Except IoErrorKind (Entry Str (Option Str)) :=
  (entryOf es (lookup P follow (P.toAbsPath u) es)).mapError ioErrorKind

def textAt (u : U) (es : Entries) : Except IoErrorKind Str :=
  match entryAt P true u es with
  | .error e => .error e
  | .ok (.file none) => .error .invalidData
  | .ok (.file (some text)) => .ok text
  | .ok _ => .error .invalidInput

def readFileText (u : U) : Io Str := look (textAt P u)

/-- The metadata of what a link leads to, marked as a link's. -/
def metadataAt (u : U) (es : Entries) : Except IoErrorKind FileMetadata :=
  match entryAt P false u es with
  | .error e => .error e
  | .ok (.symlink _) =>
    match entryAt P true u es with
    | .error e => .error e
    | .ok entry => .ok ⟨entry matches .directory, entry matches .file _, true⟩
  | .ok entry => .ok ⟨entry matches .directory, entry matches .file _, false⟩

def getMetadata (u : U) : Io FileMetadata := look (metadataAt P u)

def putText (u : U) (contents : Str) (es : Entries) : Entries × Except IoErrorKind Unit :=
  match lookup P true (P.toAbsPath u) es with
  | .error e => (es, .error (ioErrorKind e))
  | .ok place =>
    match es place with
    | some .directory => (es, .error .isADirectory)
    -- not reached: the lookup has followed the links
    | some (.symlink _) => (es, .error .other)
    | _ => (Function.update es place (some (.file (some contents))), .ok ())

def writeFile (u : U) (contents : Str) : Io Unit := call (putText P u contents)

def mkdir (path : List Str) (es : Entries) : Except IoErrorKind Entries :=
  match lookup P false path es with
  | .error e => .error (ioErrorKind e)
  | .ok place =>
    match es place with
    | some _ => .error .other
    | none => .ok (Function.update es place (some .directory))

/-- A directory that cannot be made may be there already. -/
def unlessDirectory (path : List Str) (es : Entries) (e : IoErrorKind) : Except IoErrorKind Unit :=
  match entryOf es (lookup P true path es) with
  | .ok .directory => .ok ()
  | _ => .error e

/-- `create_dir_all`: the missing parents first. -/
def createDirAll : List Str → Entries → Entries × Except IoErrorKind Unit
  | [], es => (es, .ok ())
  | name :: parent, es =>
    match mkdir P (name :: parent) es with
    | .ok made => (made, .ok ())
    | .error .notFound =>
      match createDirAll parent es with
      | (es', .error e) => (es', .error e)
      | (es', .ok ()) =>
        match mkdir P (name :: parent) es' with
        | .ok made => (made, .ok ())
        | .error e => (es', unlessDirectory P (name :: parent) es' e)
    | .error e => (es, unlessDirectory P (name :: parent) es e)

/-- `create_directory` with `recursive: true`. -/
def createDirectory (u : U) : Io Unit := call (createDirAll P (P.toAbsPath u))

/-- `remove` with `recursive: false` and `force: false`. It is only called on a path
that has just been seen not to be a directory. -/
def dropEntry (u : U) (es : Entries) : Entries × Except IoErrorKind Unit :=
  match lookup P false (P.toAbsPath u) es with
  | .error e => (es, .error (ioErrorKind e))
  | .ok place =>
    match es place with
    | none => (es, .error .notFound)
    | some .directory => (es, .error .other)
    | some _ => (Function.update es place none, .ok ())

def remove (u : U) : Io Unit := call (dropEntry P u)

end

/-! ## What a call leaves -/

theorem call_ok (h : call f w = (w', .ok a)) : f w.entries = (w'.entries, .ok a) := by
  unfold call at h
  split at h
  · cases h
  · obtain ⟨rfl, hr⟩ := Prod.mk.inj h
    exact Prod.ext rfl hr

/-- A call whose result does not matter. -/
theorem call_entries : (call f w).1.entries = w.entries ∨ (call f w).1.entries = (f w.entries).1 := by
  unfold call
  split
  · exact .inl rfl
  · exact .inr rfl

@[simp] theorem look_entries (f : Entries → Except IoErrorKind α) (w : World) :
    (look f w).1.entries = w.entries := by
  obtain h | h := call_entries <;> exact h

theorem look_ok (h : look f w = (w', .ok a)) : f w.entries = .ok a ∧ w'.entries = w.entries := by
  obtain ⟨he, ha⟩ := Prod.mk.inj (call_ok h)
  exact ⟨ha, he.symm⟩

section

variable {U : Type} {P : PathOps U}

theorem textAt_ok (h : textAt P u es = .ok text) :
    ∃ place, lookup P true (P.toAbsPath u) es = .ok place ∧ es place = some (.file (some text)) := by
  unfold textAt entryAt entryOf at h
  cases hplace : lookup P true (P.toAbsPath u) es with
  | error e => simp [hplace, Except.mapError] at h
  | ok place =>
    refine ⟨place, rfl, ?_⟩
    cases hentry : es place with
    | none => simp [hplace, hentry, Except.mapError] at h
    | some entry =>
      simp only [hplace, hentry, Except.mapError] at h
      split at h <;> simp_all

theorem textAt_of_lookup (hplace : lookup P true (P.toAbsPath u) es = .ok place)
    (hfile : es place = some (.file (some text))) : textAt P u es = .ok text := by
  simp [textAt, entryAt, hplace, entryOf, hfile, Except.mapError]

/-- A successful write puts the file where the path leads. -/
theorem putText_ok (h : putText P u contents es = (es', .ok ())) :
    ∃ place, lookup P true (P.toAbsPath u) es = .ok place ∧ es place ≠ some .directory ∧
      (∀ target, es place ≠ some (.symlink target)) ∧
      es' = Function.update es place (some (.file (some contents))) := by
  unfold putText at h
  split at h
  · cases h
  · rename_i place hplace
    split at h
    · cases h
    · cases h
    · rename_i hdir hlink
      exact ⟨place, hplace, hdir, hlink, (Prod.mk.inj h).1.symm⟩

/-- A failed write changes nothing. -/
theorem putText_error (h : putText P u contents es = (es', .error e)) : es' = es := by
  unfold putText at h
  split at h
  · exact (Prod.mk.inj h).1.symm
  · split at h
    · exact (Prod.mk.inj h).1.symm
    · exact (Prod.mk.inj h).1.symm
    · cases h

theorem mkdir_grown (h : mkdir P path es = .ok es') : Grown es es' := by
  unfold mkdir at h
  split at h
  · cases h
  · rename_i place _
    split at h
    · cases h
    · rename_i hnone
      cases h
      intro p
      by_cases hp : p = place
      · subst hp
        exact .inr ⟨hnone, Function.update_self ..⟩
      · exact .inl (Function.update_of_ne hp ..)

theorem createDirAll_grown (path : List Str) (es : Entries) : Grown es (createDirAll P path es).1 := by
  induction path with
  | nil => exact Grown.refl es
  | cons name parent ih =>
    unfold createDirAll
    split
    · rename_i hmade
      exact mkdir_grown hmade
    · split
      · rename_i hparent
        rwa [hparent] at ih
      · rename_i hparent
        rw [hparent] at ih
        split
        · rename_i hmade
          exact ih.trans (mkdir_grown hmade)
        · exact ih
    · exact Grown.refl es

theorem dropEntry_ok (h : dropEntry P u es = (es', .ok ())) :
    ∃ place, lookup P false (P.toAbsPath u) es = .ok place ∧ es place ≠ some .directory ∧
      es' = Function.update es place none := by
  unfold dropEntry at h
  split at h
  · cases h
  · rename_i place hplace
    split at h
    · cases h
    · cases h
    · rename_i entry hdir hentry
      refine ⟨place, hplace, ?_, (Prod.mk.inj h).1.symm⟩
      rw [hentry, Ne, Option.some.injEq]
      exact hdir

end

end FileSystem
