import HttpReactor.Bytes
import HttpReactor.Refinement
import Mathlib.Logic.Function.Basic

/-!
# The file helpers and what the file system may answer

A file system maps the path a system call sees, that is the text up to the first
NUL, to its state. `exists` throws when `stat` fails with an error other than
not-found, `file_size` for all that is not a regular file, such as a directory, a FIFO
or a device, and `remove` when the system refuses; the helpers that call them are
`noexcept`, so such an exception terminates the process. The asserts of the helpers are
those of a release build and check nothing.
-/

namespace HttpReactor

inductive PathState
  | missing
  | regular (content : Bytes) (readable : Bool)
  | directory
  /-- A FIFO, a socket or a device. -/
  | special
  /-- `stat` fails with an error other than not-found. -/
  | refused
deriving DecidableEq, Repr

namespace PathState

def FileOrNothing : PathState → Prop
  | missing | regular _ _ => True
  | directory | special | refused => False

instance : DecidablePred FileOrNothing
  | missing | regular _ _ => inferInstanceAs (Decidable True)
  | directory | special | refused => inferInstanceAs (Decidable False)

def Sizeless : PathState → Prop
  | directory | special => True
  | missing | regular _ _ | refused => False

end PathState

abbrev FileSystem := Bytes → PathState

def FileSystem.at (fs : FileSystem) (path : Bytes) : PathState := fs (cstr path)

def FileSystem.set (fs : FileSystem) (path : Bytes) (state : PathState) : FileSystem :=
  Function.update fs (cstr path) state

@[simp] theorem FileSystem.at_set_self (fs : FileSystem) (path : Bytes) (state : PathState) :
    (fs.set path state).at path = state := by
  simp [FileSystem.set, FileSystem.at]

inductive NoexceptHelper
  | isFileExists
  | checkFileSize
  | deleteFile
deriving DecidableEq, Repr

/-- `std::terminate`, called because an exception left the named helper. -/
structure Terminate where
  helper : NoexceptHelper
deriving DecidableEq, Repr

def noexceptCall {α : Type} (helper : NoexceptHelper) : Option α → Except Terminate α
  | some a => .ok a
  | none => .error ⟨helper⟩

def stdExists : PathState → Option Bool
  | .missing => some false
  | .regular _ _ | .directory | .special => some true
  | .refused => none

def stdFileSize : PathState → Option ℕ
  | .regular content _ => some content.length
  | _ => none

/-- `removable` is whether the system lets what is there be removed. -/
def stdRemove (removable : Bool) : PathState → Option Bool
  | .missing => some false
  | .refused => none
  | _ => if removable then some true else none

def isFileExists (fs : FileSystem) (filePath : Bytes) : Except Terminate Bool :=
  noexceptCall .isFileExists (stdExists (fs.at filePath))

def deleteFile (fs : FileSystem) (removable : Bool) (filePath : Bytes) :
    Except Terminate (Bool × FileSystem) := do
  let removed ← noexceptCall .deleteFile (stdRemove removable (fs.at filePath))
  return (removed, if removed then fs.set filePath .missing else fs)

def checkFileSize (fs : FileSystem) (filePath : Bytes) : Except Terminate ℕ :=
  noexceptCall .checkFileSize (stdFileSize (fs.at filePath))

/-- What `read` leaves in the `fileSize` zero bytes appended by `resize`: the file's bytes,
or the zeros when the file could not be opened. -/
def readInto (state : PathState) (fileSize : ℕ) : Bytes :=
  match state with
  | .regular content true => content
  | _ => List.replicate fileSize 0

def loadFile (fs : FileSystem) (filePath : Bytes) (buffer : DynamicByteArray) :
    Except Terminate DynamicByteArray := do
  let fileSize ← checkFileSize fs filePath
  return buffer ++ readInto (fs.at filePath) fileSize

theorem isFileExists_regular {fs : FileSystem} {path content : Bytes} {readable : Bool}
    (h : fs.at path = .regular content readable) : isFileExists fs path = .ok true := by
  simp [isFileExists, noexceptCall, stdExists, h]

theorem isFileExists_missing {fs : FileSystem} {path : Bytes} (h : fs.at path = .missing) :
    isFileExists fs path = .ok false := by
  simp [isFileExists, noexceptCall, stdExists, h]

theorem isFileExists_sizeless {fs : FileSystem} {path : Bytes} (h : (fs.at path).Sizeless) :
    isFileExists fs path = .ok true := by
  cases hp : fs.at path with
  | directory | special => simp [isFileExists, noexceptCall, stdExists, hp]
  | missing | regular | refused =>
    rw [hp] at h
    exact h.elim

theorem isFileExists_refused {fs : FileSystem} {path : Bytes} (h : fs.at path = .refused) :
    isFileExists fs path = .error ⟨.isFileExists⟩ := by
  simp [isFileExists, noexceptCall, stdExists, h]

theorem checkFileSize_regular {fs : FileSystem} {path content : Bytes} {readable : Bool}
    (h : fs.at path = .regular content readable) : checkFileSize fs path = .ok content.length := by
  simp [checkFileSize, noexceptCall, stdFileSize, h]

theorem checkFileSize_of_not_regular {fs : FileSystem} {path : Bytes}
    (h : ∀ content readable, fs.at path ≠ .regular content readable) :
    checkFileSize fs path = .error ⟨.checkFileSize⟩ := by
  cases hp : fs.at path with
  | regular content readable => exact absurd hp (h content readable)
  | missing | directory | special | refused =>
    simp [checkFileSize, noexceptCall, stdFileSize, hp]

theorem checkFileSize_sizeless {fs : FileSystem} {path : Bytes} (h : (fs.at path).Sizeless) :
    checkFileSize fs path = .error ⟨.checkFileSize⟩ := by
  refine checkFileSize_of_not_regular fun content readable hp => ?_
  rw [hp] at h
  exact h

theorem readInto_length {content : Bytes} {readable : Bool} :
    (readInto (.regular content readable) content.length).length = content.length := by
  cases readable <;> simp [readInto]

theorem loadFile_regular {fs : FileSystem} {path content : Bytes} {readable : Bool}
    (h : fs.at path = .regular content readable) (buffer : DynamicByteArray) :
    loadFile fs path buffer =
      .ok (buffer ++ readInto (.regular content readable) content.length) := by
  rw [loadFile, checkFileSize_regular h, h]
  rfl

theorem loadFile_of_not_regular {fs : FileSystem} {path : Bytes}
    (h : ∀ content readable, fs.at path ≠ .regular content readable) (buffer : DynamicByteArray) :
    loadFile fs path buffer = .error ⟨.checkFileSize⟩ := by
  rw [loadFile, checkFileSize_of_not_regular h]
  rfl

theorem deleteFile_regular {fs : FileSystem} {path content : Bytes} {readable : Bool}
    (h : fs.at path = .regular content readable) :
    deleteFile fs true path = .ok (true, fs.set path .missing) := by
  simp [deleteFile, noexceptCall, stdRemove, h]

theorem deleteFile_refused {fs : FileSystem} {path content : Bytes} {readable : Bool}
    (h : fs.at path = .regular content readable) :
    deleteFile fs false path = .error ⟨.deleteFile⟩ := by
  simp [deleteFile, noexceptCall, stdRemove, h]

end HttpReactor
