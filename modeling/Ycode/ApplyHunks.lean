import Ycode.FileSystem
import Ycode.Replacements

/-!
# Applying hunks to files

`applyHunksToFiles` carries the hunks out one after the other on the file system
and records the committed changes. A move writes the destination, through
whatever links lead there, and then takes the source's own entry away; it keeps
the file exactly if the way to the destination does not come by that entry.
-/
namespace ApplyHunks

open RustStr PatchHunk LinkedTree FileSystem Replacements

/-! ## New contents of an updated file -/

/-- The lines of a file, without the empty one behind a final newline. -/
def originalLines (contents : Str) : List Str :=
  let ls := contents.splitOn '\n'
  if ls.getLast? = some [] then ls.dropLast else ls

/-- The text of the new lines ends with a newline. -/
def finishLines (newLines : List Str) : Str :=
  joinLines (if newLines.getLast? = some [] then newLines else newLines ++ [[]])

def newContents (pathText : Str) (contents : Str) (chunks : List UpdateFileChunk) :
    Except ApplyPatchError Str :=
  (computeReplacements (originalLines contents) pathText chunks).map fun replacements =>
    finishLines (applyReplacements (originalLines contents) replacements)

structure AppliedPatch where
  originalContents : Str
  newContents : Str
  deriving DecidableEq, Repr

/-- An `anyhow::Error` as this code makes them: a message, an I/O error with a context
text, or one of the crate's own errors. -/
inductive AnyhowError where
  | message (text : Str)
  | context (text : Str) (source : IoErrorKind)
  | pathUri (error : PathUriParseError)
  | applyPatch (error : ApplyPatchError)
  deriving DecidableEq, Repr

inductive AppliedPatchFileChange (U : Type) where
  | add (content : Str) (overwrittenContent : Option Str)
  | delete (content : Str)
  | update (movePath : Option U) (oldContent : Str) (overwrittenMoveContent : Option Str)
      (newContent : Str)
  deriving DecidableEq, Repr

structure AppliedPatchChange (U : Type) where
  path : U
  change : AppliedPatchFileChange U
  deriving DecidableEq, Repr

structure AppliedPatchDelta (U : Type) where
  changes : List (AppliedPatchChange U)
  exact : Bool
  deriving DecidableEq, Repr

/-- Paths as the patch spells them, for the summary. -/
structure AffectedPaths where
  added : List PathBuf
  modified : List PathBuf
  deleted : List PathBuf
  deriving DecidableEq, Repr

structure ApplyState (U : Type) where
  world : World
  delta : AppliedPatchDelta U
  affected : AffectedPaths

section

variable {U : Type} (P : PathOps U)

def noteExistingPathDeltaSupport (u : U) (w : World) (exact : Bool) : World × Bool :=
  match getMetadata P u w with
  | (w', .ok metadata) => (w', if metadata.isFile && !metadata.isSymlink then exact else false)
  | (w', .error .notFound) => (w', exact)
  | (w', .error _) => (w', false)

def readOptionalFileTextForDelta (u : U) (w : World) (exact : Bool) :
    World × Bool × Option Str :=
  let noted := noteExistingPathDeltaSupport P u w exact
  match readFileText P u noted.1 with
  | (w', .ok content) => (w', noted.2, some content)
  | (w', .error .notFound) => (w', noted.2, none)
  | (w', .error _) => (w', false, none)

def failedToWrite (u : U) : Str := "Failed to write file ".toList ++ P.inferredNativePathString u

def createParent (u : U) (w : World) : World × Except IoErrorKind Unit :=
  match P.parent u with
  | some parent => createDirectory P parent w
  | none => (w, .ok ())

def writeFileWithMissingParentRetry (u : U) (contents : Str) (w : World) :
    World × Except AnyhowError Unit :=
  match writeFile P u contents w with
  | (w₁, .ok ()) => (w₁, .ok ())
  | (w₁, .error .notFound) =>
    match createParent P u w₁ with
    | (w₂, .error e) =>
      (w₂, .error (.context
        ("Failed to create parent directories for ".toList ++ P.inferredNativePathString u) e))
    | (w₂, .ok ()) =>
      match writeFile P u contents w₂ with
      | (w₃, .ok ()) => (w₃, .ok ())
      | (w₃, .error e) => (w₃, .error (.context (failedToWrite P u) e))
  | (w₁, .error e) => (w₁, .error (.context (failedToWrite P u) e))

def ensureNotDirectory (u : U) (w : World) : World × Except IoErrorKind Unit :=
  match getMetadata P u w with
  | (w', .error e) => (w', .error e)
  | (w', .ok metadata) => (w', if metadata.isDirectory then .error .invalidInput else .ok ())

def removeFailureWasSideEffectFree (u : U) (expectedContent : Option Str) (w : World) :
    World × Bool :=
  match expectedContent with
  | none => (w, false)
  | some expected =>
    match readFileText P u w with
    | (w', .ok content) => (w', content == expected)
    | (w', .error _) => (w', false)

/-- The removal that ends a deletion and a move, with its context text. -/
def removeFile (text : Str) (u : U) (expectedContent : Option Str) (w : World) (exact : Bool) :
    World × Bool × Except AnyhowError Unit :=
  match ensureNotDirectory P u w with
  | (w₁, .error e) => (w₁, exact, .error (.context text e))
  | (w₁, .ok ()) =>
    match remove P u w₁ with
    | (w₂, .ok ()) => (w₂, exact, .ok ())
    | (w₂, .error e) =>
      let free := removeFailureWasSideEffectFree P u expectedContent w₂
      (free.1, exact && free.2, .error (.context text e))

def deriveNewContentsFromChunks (u : U) (chunks : List UpdateFileChunk) (w : World) :
    World × Except ApplyPatchError AppliedPatch :=
  match readFileText P u w with
  | (w', .error e) =>
    (w', .error (.ioError
      ("Failed to read file to update ".toList ++ P.inferredNativePathString u) e))
  | (w', .ok original) =>
    (w', (newContents (P.inferredNativePathString u) original chunks).map fun new => ⟨original, new⟩)

def resolvePath (cwd : U) (hunk : Hunk) : Except PathUriParseError U := P.join cwd hunk.sourcePath

def applyAdd (st : ApplyState U) (affectedPath : PathBuf) (u : U) (contents : Str) :
    ApplyState U × Except AnyhowError Unit :=
  let read := readOptionalFileTextForDelta P u st.world st.delta.exact
  match writeFileWithMissingParentRetry P u contents read.1 with
  | (w, .error e) => ({ st with world := w, delta := ⟨st.delta.changes, false⟩ }, .error e)
  | (w, .ok ()) =>
    (⟨w, ⟨st.delta.changes ++ [⟨u, .add contents read.2.2⟩], read.2.1⟩,
      { st.affected with added := st.affected.added ++ [affectedPath] }⟩, .ok ())

def applyDelete (st : ApplyState U) (affectedPath : PathBuf) (u : U) :
    ApplyState U × Except AnyhowError Unit :=
  let noted := noteExistingPathDeltaSupport P u st.world st.delta.exact
  let read := readFileText P u noted.1
  let deletedContent := read.2.toOption
  let exact := noted.2 && deletedContent.isSome
  match removeFile P ("Failed to delete file ".toList ++ P.inferredNativePathString u) u deletedContent
      read.1 exact with
  | (w, exact', .error e) => ({ st with world := w, delta := ⟨st.delta.changes, exact'⟩ }, .error e)
  | (w, exact', .ok ()) =>
    let change := match deletedContent with
      | some content => [⟨u, .delete content⟩]
      | none => []
    (⟨w, ⟨st.delta.changes ++ change, exact'⟩,
      { st.affected with deleted := st.affected.deleted ++ [affectedPath] }⟩, .ok ())

/-- A move: the destination is written first, and recorded as an addition until the
original is gone. -/
def applyMove (st : ApplyState U) (affectedPath : PathBuf) (u dest : U) (patched : AppliedPatch) :
    ApplyState U × Except AnyhowError Unit :=
  let read := readOptionalFileTextForDelta P dest st.world st.delta.exact
  match writeFileWithMissingParentRetry P dest patched.newContents read.1 with
  | (w, .error e) => ({ st with world := w, delta := ⟨st.delta.changes, false⟩ }, .error e)
  | (w, .ok ()) =>
    match removeFile P ("Failed to remove original ".toList ++ P.inferredNativePathString u) u
        (some patched.originalContents) w read.2.1 with
    | (w', exact, .error e) =>
      ({ st with world := w', delta :=
          ⟨st.delta.changes ++ [⟨dest, .add patched.newContents read.2.2⟩], exact⟩ }, .error e)
    | (w', exact, .ok ()) =>
      (⟨w', ⟨st.delta.changes ++
          [⟨u, .update (some dest) patched.originalContents read.2.2 patched.newContents⟩], exact⟩,
        { st.affected with modified := st.affected.modified ++ [affectedPath] }⟩, .ok ())

def applyRewrite (st : ApplyState U) (affectedPath : PathBuf) (u : U) (patched : AppliedPatch) :
    ApplyState U × Except AnyhowError Unit :=
  match writeFile P u patched.newContents st.world with
  | (w, .error e) =>
    ({ st with world := w, delta := ⟨st.delta.changes, false⟩ }, .error (.context (failedToWrite P u) e))
  | (w, .ok ()) =>
    (⟨w, ⟨st.delta.changes ++ [⟨u, .update none patched.originalContents none patched.newContents⟩],
        st.delta.exact⟩,
      { st.affected with modified := st.affected.modified ++ [affectedPath] }⟩, .ok ())

def applyUpdate (cwd : U) (st : ApplyState U) (affectedPath : PathBuf) (u : U)
    (movePath : Option PathBuf) (chunks : List UpdateFileChunk) :
    ApplyState U × Except AnyhowError Unit :=
  let noted := noteExistingPathDeltaSupport P u st.world st.delta.exact
  match deriveNewContentsFromChunks P u chunks noted.1 with
  | (w, .error e) => ({ st with world := w, delta := ⟨st.delta.changes, noted.2⟩ }, .error (.applyPatch e))
  | (w, .ok patched) =>
    let st' := { st with world := w, delta := ⟨st.delta.changes, noted.2⟩ }
    match movePath with
    | none => applyRewrite P st' affectedPath u patched
    | some dest =>
      match P.join cwd dest with
      | .error e => (st', .error (.pathUri e))
      | .ok destUri => applyMove P st' affectedPath u destUri patched

def applyHunk (cwd : U) (st : ApplyState U) (hunk : Hunk) : ApplyState U × Except AnyhowError Unit :=
  match resolvePath P cwd hunk with
  | .error e => (st, .error (.pathUri e))
  | .ok u =>
    match hunk with
    | .addFile _ contents => applyAdd P st hunk.path u contents
    | .deleteFile _ => applyDelete P st hunk.path u
    | .updateFile _ movePath chunks => applyUpdate P cwd st hunk.path u movePath chunks

/-- The loop over the hunks. -/
def applyEach (cwd : U) : ApplyState U → List Hunk → ApplyState U × Except AnyhowError Unit
  | st, [] => (st, .ok ())
  | st, hunk :: rest =>
    match applyHunk P cwd st hunk with
    | (st', .ok ()) => applyEach cwd st' rest
    | (st', .error e) => (st', .error e)

/-- The world and the delta survive an error; the affected paths are only returned
on success. -/
def applyHunksToFiles (hunks : List Hunk) (cwd : U) (w : World) (delta : AppliedPatchDelta U) :
    World × AppliedPatchDelta U × Except AnyhowError AffectedPaths :=
  if hunks.isEmpty then (w, delta, .error (.message "No files were modified.".toList))
  else
    match applyEach P cwd ⟨w, delta, ⟨[], [], []⟩⟩ hunks with
    | (st, .ok ()) => (st.world, st.delta, .ok st.affected)
    | (st, .error e) => (st.world, st.delta, .error e)

end

/-! ## Calls that only look -/

section

variable {U : Type} {P : PathOps U}

@[simp] theorem note_entries : (noteExistingPathDeltaSupport P u w exact).1.entries = w.entries := by
  have h := look_entries (metadataAt P u) w
  unfold noteExistingPathDeltaSupport
  split <;> · rename_i he; rw [getMetadata] at he; rw [← h, he]

@[simp] theorem readOptional_entries : (readOptionalFileTextForDelta P u w exact).1.entries = w.entries := by
  have h := look_entries (textAt P u) (noteExistingPathDeltaSupport P u w exact).1
  rw [note_entries] at h
  unfold readOptionalFileTextForDelta
  simp only
  split <;> · rename_i he; rw [readFileText] at he; rw [← h, he]

theorem ensureNotDirectory_entries (u : U) (w : World) : (ensureNotDirectory P u w).1.entries = w.entries := by
  have h := look_entries (metadataAt P u) w
  unfold ensureNotDirectory
  split <;> · rename_i he; rw [getMetadata] at he; rw [← h, he]

theorem derive_ok (h : deriveNewContentsFromChunks P u chunks w = (w', .ok patched)) :
    w'.entries = w.entries ∧ textAt P u w.entries = .ok patched.originalContents ∧
      newContents (P.inferredNativePathString u) patched.originalContents chunks = .ok patched.newContents := by
  unfold deriveNewContentsFromChunks at h
  split at h
  · cases h
  · rename_i w₁ orig hr
    obtain ⟨ht, he⟩ := look_ok hr
    obtain ⟨hw, hm⟩ := Prod.mk.inj h
    obtain ⟨new, hn, rfl⟩ := map_eq_ok hm
    subst hw
    exact ⟨he, ht, hn⟩

/-! ## Writing and removing -/

/-- The text stands where the path leads once the missing directories are made. -/
structure Written (P : PathOps U) (u : U) (contents : Str) (es made es' : Entries) (place : List Str) : Prop where
  grown : Grown es made
  leads : lookup P true (P.toAbsPath u) made = .ok place
  not_directory : made place ≠ some .directory
  not_link : ∀ target, made place ≠ some (.symlink target)
  written : es' = Function.update made place (some (.file (some contents)))

theorem writeFile_ok (hgrown : Grown es w.entries) (h : writeFile P u contents w = (w', .ok ())) :
    ∃ place, Written P u contents es w.entries w'.entries place := by
  obtain ⟨place, hleads, hdir, hlink, hes⟩ := putText_ok (call_ok h)
  exact ⟨place, hgrown, hleads, hdir, hlink, hes⟩

theorem writeFile_error (h : writeFile P u contents w = (w', .error e)) : w'.entries = w.entries := by
  unfold writeFile call at h
  split at h
  · cases h; rfl
  · obtain ⟨rfl, he⟩ := Prod.mk.inj h
    exact putText_error (Prod.ext rfl he)

theorem createParent_grown (u : U) (w : World) : Grown w.entries (createParent P u w).1.entries := by
  unfold createParent
  split
  · obtain h | h := call_entries
    · rw [createDirectory, h]
      exact Grown.refl _
    · rw [createDirectory, h]
      exact createDirAll_grown _ _
  · exact Grown.refl _

theorem writeRetry_ok (h : writeFileWithMissingParentRetry P u contents w = (w', .ok ())) :
    ∃ made place, Written P u contents w.entries made w'.entries place := by
  unfold writeFileWithMissingParentRetry at h
  split at h
  · rename_i w₁ hw
    cases h
    exact ⟨w.entries, writeFile_ok (Grown.refl _) hw⟩
  · rename_i w₁ hw
    have h₁ := writeFile_error hw
    split at h
    · cases h
    · rename_i w₂ hc
      have h₂ := createParent_grown (P := P) u w₁
      rw [hc, h₁] at h₂
      split at h
      · rename_i w₃ hw₃
        cases h
        exact ⟨w₂.entries, writeFile_ok h₂ hw₃⟩
      · cases h
  · cases h

theorem removeFile_ok (h : removeFile P text u expected w exact = (w', exact', .ok ())) :
    ∃ place, lookup P false (P.toAbsPath u) w.entries = .ok place ∧ w.entries place ≠ some .directory ∧
      w'.entries = Function.update w.entries place none := by
  unfold removeFile at h
  split at h
  · cases h
  · rename_i w₁ hw
    have he := ensureNotDirectory_entries (P := P) u w
    rw [hw] at he
    split at h
    · rename_i w₂ hw₂
      cases h
      rw [← he]
      exact dropEntry_ok (call_ok hw₂)
    · cases h

/-! ## Moves -/

/-- What a move from `src` to `dest` is to do: the new contents are at the destination,
the source is gone unless it is the destination, and no other entry has changed but for
directories that were made. -/
structure MoveKept (P : PathOps U) (es es' : Entries) (src dest : U) (chunks : List UpdateFileChunk) : Prop where
  written : ∃ original new, textAt P src es = .ok original ∧
    newContents (P.inferredNativePathString src) original chunks = .ok new ∧ textAt P dest es' = .ok new
  gone : src ≠ dest → entryAt P false src es' = .error .notFound
  others : ∀ place, lookup P false (P.toAbsPath src) es ≠ .ok place →
    lookup P true (P.toAbsPath dest) es' ≠ .ok place →
      es' place = es place ∨ (es place = none ∧ es' place = some .directory)

/-- The source's own entry is where the destination leads, or a link on the way there. -/
def ComesBy (P : PathOps U) (es : Entries) (src dest : U) : Prop :=
  ∃ entry ∈ (lookup P false (P.toAbsPath src) es).toOption,
    entry ∈ trail es P.maxLinks [] (P.toAbsPath dest).reverse

instance (P : PathOps U) (es : Entries) (src dest : U) : Decidable (ComesBy P es src dest) := by
  unfold ComesBy
  infer_instance

/-- The steps of a move that succeeds. -/
structure Moved (P : PathOps U) (es es' : Entries) (src dest : U) (chunks : List UpdateFileChunk)
    (original new : Str) (made written : Entries) (place entry : List Str) : Prop where
  read : textAt P src es = .ok original
  derived : newContents (P.inferredNativePathString src) original chunks = .ok new
  write : Written P dest new es made written place
  leads : lookup P false (P.toAbsPath src) written = .ok entry
  not_directory : written entry ≠ some .directory
  removed : es' = Function.update written entry none

theorem applyUpdate_move (hdest : P.join cwd dest = .ok destUri)
    (h : applyUpdate P cwd st path src (some dest) chunks = (st', .ok ())) :
    ∃ original new made written place entry,
      Moved P st.world.entries st'.world.entries src destUri chunks original new made written place entry := by
  simp only [applyUpdate] at h
  split at h
  · cases h
  · rename_i w patched hd
    obtain ⟨he, hread, hnew⟩ := derive_ok hd
    rw [note_entries] at he hread
    simp only [hdest, applyMove] at h
    split at h
    · cases h
    · rename_i w₁ hw
      split at h
      · cases h
      · rename_i w₂ exact hw₂
        cases h
        obtain ⟨made, place, hwritten⟩ := writeRetry_ok hw
        rw [readOptional_entries, he] at hwritten
        obtain ⟨entry, hleads, hdir, hremoved⟩ := removeFile_ok hw₂
        exact ⟨_, _, made, _, place, entry, hread, hnew, hwritten, hleads, hdir, hremoved⟩

section

variable {src dest : U} {es es' made written : Entries} {place entry : List Str}
variable (h : Moved P es es' src dest chunks original new made written place entry)
include h

/-- Making directories and writing the destination does not move the source's entry. -/
theorem Moved.entry_before : lookup P false (P.toAbsPath src) es = .ok entry := by
  obtain ⟨target, htarget, hfile⟩ := textAt_ok h.read
  obtain ⟨before, hbefore, hthere⟩ := (leads_of_walk htarget).exists_entry (by simp [hfile])
  have hkept : lookup P false (P.toAbsPath src) written = .ok before := by
    refine (leads_of_walk hbefore).kept hthere fun name dir hsome => ?_
    have hgrown := (h.write.grown (name :: dir)).resolve_right fun hnew => hsome hnew.1
    rw [h.write.written]
    by_cases hp : name :: dir = place
    · -- the destination is a file, or it was not there
      subst hp
      have hdir := h.write.not_directory
      have hlink := h.write.not_link
      rw [hgrown] at hdir hlink
      cases hentry : es (name :: dir) with
      | none => exact absurd hentry hsome
      | some e =>
        cases e with
        | file c => exact .inr ⟨c, some new, rfl, Function.update_self ..⟩
        | directory => exact absurd hentry hdir
        | symlink target => exact absurd hentry (hlink target)
    · exact .inl (by rw [Function.update_of_ne hp, hgrown])
  rw [h.leads] at hkept
  exact (Except.ok.inj hkept) ▸ hbefore

theorem Moved.entry_not_directory : made entry ≠ some .directory := by
  by_cases he : entry = place
  · exact he ▸ h.write.not_directory
  · have hdir := h.not_directory
    rwa [h.write.written, Function.update_of_ne he] at hdir

theorem Moved.same (p : List Str) (hentry : p ≠ entry) (hplace : p ≠ place) : es' p = made p := by
  rw [h.removed, Function.update_of_ne hentry, h.write.written, Function.update_of_ne hplace]

theorem Moved.comesBy_iff : ComesBy P es src dest ↔ entry ∈ trail made P.maxLinks [] (P.toAbsPath dest).reverse := by
  rw [trail_grown h.write.grown]
  simp [ComesBy, h.entry_before, Except.toOption]

/-- The source's entry is gone afterwards. -/
theorem Moved.source_gone : entryAt P false src es' = .error .notFound := by
  have hsame : ∀ p, p ≠ entry → es' p = written p := fun p hp => by rw [h.removed, Function.update_of_ne hp]
  have hgone := (leads_of_walk h.leads).end_gone h.not_directory hsame (by rw [h.removed, Function.update_self])
  rw [entryAt, lookup, hgone]
  rfl

/-- The way to the destination does not come by the source's entry: it leads to
the new contents. -/
theorem Moved.dest_of_not_comesBy (hoff : ¬ ComesBy P es src dest) :
    lookup P true (P.toAbsPath dest) es' = .ok place ∧ es' place = some (.file (some new)) := by
  rw [h.comesBy_iff] at hoff
  have hleads := leads_of_walk h.write.leads
  have hne : place ≠ entry := fun he => hoff (he ▸ hleads.mem_trail)
  have hfile : es' place = some (.file (some new)) := by
    rw [h.removed, Function.update_of_ne hne, h.write.written, Function.update_self]
  exact ⟨hleads.off_trail h.write.not_directory h.write.not_link h.entry_not_directory hoff h.same hfile, hfile⟩

/-- The way to the destination comes by the source's entry: it leads nowhere. -/
theorem Moved.lost_of_comesBy (hon : ComesBy P es src dest) : textAt P dest es' = .error .notFound := by
  rw [h.comesBy_iff] at hon
  have hlost := (leads_of_walk h.write.leads).trail_broken h.write.not_directory h.write.not_link
    h.entry_not_directory hon h.same (by rw [h.removed, Function.update_self])
  rw [textAt, entryAt, lookup, hlost]
  rfl

end

/-- A move that succeeds does what it is to do exactly if the way to the destination does
not come by the source's entry: an entry on that way is written through and then removed. -/
theorem move_kept_iff (P : PathOps U) {cwd src destUri : U} {w w' : World} {delta delta' : AppliedPatchDelta U}
    {path dest : PathBuf} {chunks : List UpdateFileChunk} {affected : AffectedPaths}
    (hsrc : P.join cwd path = .ok src) (hdest : P.join cwd dest = .ok destUri)
    (h : applyHunksToFiles P [.updateFile path (some dest) chunks] cwd w delta = (w', delta', .ok affected)) :
    MoveKept P w.entries w'.entries src destUri chunks ↔ ¬ ComesBy P w.entries src destUri := by
  have hmoved : ∃ original new made written place entry,
      Moved P w.entries w'.entries src destUri chunks original new made written place entry := by
    simp only [applyHunksToFiles, List.isEmpty_cons, Bool.false_eq_true, ↓reduceIte, applyEach, applyHunk,
      resolvePath, Hunk.sourcePath, hsrc] at h
    split at h
    · rename_i st hst
      cases h
      split at hst
      · rename_i st' hst'
        cases hst
        exact applyUpdate_move hdest hst'
      · cases hst
    · cases h
  obtain ⟨original, new, made, written, place, entry, hmoved⟩ := hmoved
  constructor
  · intro hkept hon
    obtain ⟨_, _, _, _, htext⟩ := hkept.written
    rw [hmoved.lost_of_comesBy hon] at htext
    cases htext
  · intro hoff
    obtain ⟨hleads, hfile⟩ := hmoved.dest_of_not_comesBy hoff
    refine ⟨⟨original, new, hmoved.read, hmoved.derived, textAt_of_lookup hleads hfile⟩,
      fun _ => hmoved.source_gone, fun p hentry hplace => ?_⟩
    rw [hmoved.entry_before] at hentry
    rw [hleads] at hplace
    rw [hmoved.same p (fun he => hentry (he ▸ rfl)) fun he => hplace (he ▸ rfl)]
    exact hmoved.write.grown p

end

/-- Paths with slashes between their names. -/
def slashPaths : PathOps Str where
  join _ path := .ok path
  parent path :=
    match (path.splitOn '/').dropLast with
    | [] => none
    | names => some (['/'].intercalate names)
  toAbsPath path := (path.splitOn '/').reverse
  inferredNativePathString u := u
  maxLinks := 40

/-- A file `a` with a link `b` to it, a directory `e` with a link `d` to it, and no faults. -/
def linked : World where
  entries place := List.lookup place
    [([], .directory), (["a".toList], .file (some "x\n".toList)), (["b".toList], .symlink ["a".toList]),
      (["e".toList], .directory), (["d".toList], .symlink ["e".toList])]
  faults _ := none
  clock := 0

/-- Replaces the line `x` by `y`. -/
def changeX : UpdateFileChunk := ⟨none, ["x".toList], ["y".toList], false⟩

def moved (dest : PathBuf) : World × AppliedPatchDelta Str × Except AnyhowError AffectedPaths :=
  applyHunksToFiles slashPaths [.updateFile "a".toList (some dest) [changeX]] [] linked ⟨[], true⟩

/-- The move reports success and leaves no text at the destination. -/
def Lost (dest : PathBuf) : Prop :=
  (moved dest).2.2 = .ok ⟨[], [dest], []⟩ ∧
    textAt slashPaths dest (moved dest).1.entries = .error .notFound ∧
    ¬ MoveKept slashPaths linked.entries (moved dest).1.entries "a".toList dest [changeX]

/-- Moved onto itself, or onto a link to it, the file is lost. -/
theorem move_onto_itself : Lost "a".toList ∧ Lost "b".toList := by
  have hlost : ∀ dest, (moved dest).2.2 = .ok ⟨[], [dest], []⟩ ∧
      textAt slashPaths dest (moved dest).1.entries = .error .notFound → Lost dest := by
    intro dest ⟨hok, htext⟩
    refine ⟨hok, htext, fun hkept => ?_⟩
    obtain ⟨_, _, _, _, hwritten⟩ := hkept.written
    rw [htext] at hwritten
    cases hwritten
  exact ⟨hlost _ (by decide +kernel), hlost _ (by decide +kernel)⟩

theorem move_to_another :
    MoveKept slashPaths linked.entries (moved "d/c".toList).1.entries "a".toList "d/c".toList [changeX] ∧
      textAt slashPaths "e/c".toList (moved "d/c".toList).1.entries = .ok "y\n".toList := by
  have hjoin : ∀ path, slashPaths.join [] path = .ok path := fun _ => rfl
  have hok : (moved "d/c".toList).2.2 = .ok ⟨[], ["d/c".toList], []⟩ := by decide +kernel
  have hrun : moved "d/c".toList = ((moved "d/c".toList).1, (moved "d/c".toList).2.1, .ok ⟨[], ["d/c".toList], []⟩) :=
    Prod.ext rfl (Prod.ext rfl hok)
  exact ⟨(move_kept_iff slashPaths (hjoin _) (hjoin _) hrun).mpr (by decide +kernel), by decide +kernel⟩

end ApplyHunks
