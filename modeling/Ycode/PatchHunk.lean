import Ycode.RustStr

/-!
# Patch hunks

The data that patch parsing produces and patch application consumes, with the
marker lines of the patch format.
-/
namespace PatchHunk

open RustStr

/-- A path as it is spelled in the patch. -/
abbrev PathBuf := Str

structure UpdateFileChunk where
  /-- A single line of context used to narrow down the position of the chunk. -/
  changeContext : Option Str
  oldLines : List Str
  newLines : List Str
  isEndOfFile : Bool
  deriving DecidableEq, Repr

inductive Hunk where
  | addFile (path : PathBuf) (contents : Str)
  | deleteFile (path : PathBuf)
  | updateFile (path : PathBuf) (movePath : Option PathBuf) (chunks : List UpdateFileChunk)
  deriving DecidableEq, Repr

inductive ParseError where
  | invalidPatchError (message : Str)
  | invalidHunkError (message : Str) (lineNumber : Nat)
  deriving DecidableEq, Repr

/-- The kinds of I/O failure that patch application tells apart or produces. -/
inductive IoErrorKind where
  | notFound | permissionDenied | isADirectory | notADirectory | invalidInput | invalidData | other
  deriving DecidableEq, Repr

structure PathUriParseError where
  path : Str
  deriving DecidableEq, Repr

inductive ApplyPatchError where
  | parseError (error : ParseError)
  | ioError (context : Str) (source : IoErrorKind)
  | computeReplacements (message : Str)
  | pathUri (error : PathUriParseError)
  | implicitInvocation
  deriving DecidableEq, Repr

def beginPatchMarker : Str := "*** Begin Patch".toList
def endPatchMarker : Str := "*** End Patch".toList
def addFileMarker : Str := "*** Add File: ".toList
def deleteFileMarker : Str := "*** Delete File: ".toList
def updateFileMarker : Str := "*** Update File: ".toList
def moveToMarker : Str := "*** Move to: ".toList
def eofMarker : Str := "*** End of File".toList
def changeContextMarker : Str := "@@ ".toList
def emptyChangeContextMarker : Str := "@@".toList
def environmentIdMarker : Str := "*** Environment ID:".toList

/-- A chunk with neither an old nor a new line yet. -/
def UpdateFileChunk.hasNoLines (c : UpdateFileChunk) : Bool := c.oldLines.isEmpty && c.newLines.isEmpty

/-- The path a hunk is reported under: the destination for a rename. -/
def Hunk.path : Hunk → PathBuf
  | .addFile path _ => path
  | .deleteFile path => path
  | .updateFile _ (some path) _ => path
  | .updateFile path none _ => path

/-- The path a hunk reads and writes: the source for a rename. -/
def Hunk.sourcePath : Hunk → PathBuf
  | .updateFile path _ _ => path
  | h => h.path

/-- A mapped computation succeeds only where the computation itself does. -/
theorem map_eq_ok {x : Except ε α} {b : β} (h : x.map f = .ok b) : ∃ a, x = .ok a ∧ f a = b := by
  cases x with
  | error e => cases h
  | ok a => exact ⟨a, rfl, Except.ok.inj h⟩

end PatchHunk
