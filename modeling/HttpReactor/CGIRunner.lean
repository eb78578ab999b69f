import HttpReactor.HttpUtils
import HttpReactor.FileSystem

/-!
# CGI programs

`Run` forks a child whose standard output is the shared file of the calling thread,
waits for it, loads the file and removes it. The answers of `open`, `fork` and `waitpid`
and what the child does are inputs; the shared file itself lives in the file system,
where the early returns leave it. The child may do more to it than append: it, or
another program, may remove it or put something else in its place, and the system may
refuse to let it be removed, as in a directory that may not be written to.
-/

namespace HttpReactor
open ListSearch

structure CGIRunner where
  cgiProgramPath : Bytes
  cgiArguments : List Bytes
  valid : Bool := true
deriving DecidableEq, Repr

structure CGIOutcome where
  threadId : Bytes
  openOk : Bool
  forkOk : Bool
  waitOk : Bool
  output : Bytes
  /-- What is at the path of the shared file afterwards, if not the file that was opened. -/
  replaced : Option PathState
  removable : Bool
deriving DecidableEq, Repr

def CGIOutcome.writes (threadId output : Bytes) : CGIOutcome :=
  { threadId := threadId
    openOk := true
    forkOk := true
    waitOk := true
    output := output
    replaced := none
    removable := true }

namespace CGIRunner

def makeInvalidCGIRunner : CGIRunner := { cgiProgramPath := [], cgiArguments := [], valid := false }

def parseCGIRunner (resourceUrl : Bytes) : CGIRunner :=
  if resourceUrl = [] ∨ isCGIRequest resourceUrl = false then makeInvalidCGIRunner
  else
    let cgiPos := (find kCGIFolderName resourceUrl).getD 0
    match findFrom resourceUrl kSeparator cgiPos with
    | some cgiSeparator =>
      { cgiProgramPath := substr resourceUrl 0 cgiSeparator
        cgiArguments := split (resourceUrl.drop (cgiSeparator + 1)) kSeparator }
    | none =>
      -- npos + 1 wraps around to 0
      { cgiProgramPath := resourceUrl, cgiArguments := split resourceUrl kSeparator }

theorem not_invalid_of_isCGIRequest {url : Bytes} (h : isCGIRequest url = true) :
    ¬ (url = [] ∨ isCGIRequest url = false) := by
  intro he
  rcases he with rfl | hf
  · cases h
  · rw [h] at hf
    cases hf

theorem parseCGIRunner_valid (url : Bytes) :
    (parseCGIRunner url).valid = isCGIRequest url := by
  unfold parseCGIRunner
  split_ifs with h
  · rcases h with rfl | h
    · rfl
    · rw [h]
      rfl
  · rw [not_or, Bool.not_eq_false] at h
    rw [h.2]
    dsimp only
    split <;> rfl

def sharedFileName (threadId : Bytes) : Bytes :=
  kCGIPrefix ++ kUnderscore ++ threadId ++ ascii ".txt"

/-- `open` with O_RDWR, O_APPEND and O_CREAT. -/
def openShared (fs : FileSystem) (name : Bytes) (ok : Bool) : Option FileSystem :=
  if ok then
    match fs.at name with
    | .missing => some (fs.set name (.regular [] true))
    | .regular _ true | .special => some fs
    | _ => none
  else none

def appendShared (fs : FileSystem) (name output : Bytes) : FileSystem :=
  match fs.at name with
  | .regular content readable => fs.set name (.regular (content ++ output) readable)
  | _ => fs

def leaveShared (fs : FileSystem) (os : CGIOutcome) : FileSystem :=
  match os.replaced with
  | none => appendShared fs (sharedFileName os.threadId) os.output
  | some state => fs.set (sharedFileName os.threadId) state

def run (fs : FileSystem) (os : CGIOutcome) : Except Terminate (FileSystem × DynamicByteArray) :=
  let name := sharedFileName os.threadId
  match openShared fs name os.openOk with
  | none => return (fs, ascii "fail to create/open the file " ++ name)
  | some opened => do
    if os.forkOk = false then
      return (opened, ascii "fail to fork()")
    let left := leaveShared opened os
    if os.waitOk = false then
      return (left, ascii "fail to harvest child by waitpid()")
    let cgiResult ← loadFile left name []
    let removed ← deleteFile left os.removable name
    return (removed.2, cgiResult)

def errorTexts (threadId : Bytes) : List Bytes :=
  [ascii "fail to create/open the file " ++ sharedFileName threadId, ascii "fail to fork()",
    ascii "fail to harvest child by waitpid()"]

/-- The files as `LoadFile` finds them, if `open`, `fork` and `waitpid` succeed. -/
def whenLoaded (fs : FileSystem) (os : CGIOutcome) : Option FileSystem :=
  match openShared fs (sharedFileName os.threadId) os.openOk with
  | none => none
  | some opened =>
    if os.forkOk = true ∧ os.waitOk = true then some (leaveShared opened os) else none

/-- If the run comes to load its shared file, that is a regular file and may be removed. -/
def Collects (fs : FileSystem) (os : CGIOutcome) : Prop :=
  ∀ left, whenLoaded fs os = some left →
    (∃ content readable, left.at (sharedFileName os.threadId) = .regular content readable) ∧
      os.removable = true

def LoadsNothing (fs : FileSystem) (os : CGIOutcome) : Prop :=
  ∃ left readable, whenLoaded fs os = some left ∧
    left.at (sharedFileName os.threadId) = .regular [] readable

/-- A run that returns leaves the files as it found them. -/
def KeepsFiles (fs : FileSystem) (os : CGIOutcome) : Prop :=
  ∀ fs' result, run fs os = .ok (fs', result) → fs' = fs

theorem appendShared_at {fs : FileSystem} {name content : Bytes} {readable : Bool}
    (h : fs.at name = .regular content readable) (output : Bytes) :
    appendShared fs name output = fs.set name (.regular (content ++ output) readable) := by
  rw [appendShared, h]

section Branches

variable {fs opened left : FileSystem} {os : CGIOutcome}

theorem whenLoaded_eq_some (h : whenLoaded fs os = some left) :
    ∃ opened, openShared fs (sharedFileName os.threadId) os.openOk = some opened ∧
      os.forkOk = true ∧ os.waitOk = true ∧ left = leaveShared opened os := by
  unfold whenLoaded at h
  split at h
  · cases h
  · next opened ho =>
    split_ifs at h with hok
    cases h
    exact ⟨opened, ho, hok.1, hok.2, rfl⟩

theorem run_openFails (ho : openShared fs (sharedFileName os.threadId) os.openOk = none) :
    run fs os =
      .ok (fs, ascii "fail to create/open the file " ++ sharedFileName os.threadId) := by
  simp [run, ho]

theorem run_forkFails (ho : openShared fs (sharedFileName os.threadId) os.openOk = some opened)
    (hf : os.forkOk = false) : run fs os = .ok (opened, ascii "fail to fork()") := by
  simp [run, ho, hf]

theorem run_waitFails (ho : openShared fs (sharedFileName os.threadId) os.openOk = some opened)
    (hf : os.forkOk = true) (hw : os.waitOk = false) :
    run fs os = .ok (leaveShared opened os, ascii "fail to harvest child by waitpid()") := by
  simp [run, ho, hf, hw]

theorem run_of_not_loaded (h : whenLoaded fs os = none) :
    ∃ fs', ∃ text ∈ errorTexts os.threadId, run fs os = .ok (fs', text) := by
  unfold whenLoaded at h
  split at h
  · next ho => exact ⟨_, _, by simp [errorTexts], run_openFails ho⟩
  · next opened ho =>
    split_ifs at h with hok
    cases hf : os.forkOk with
    | false => exact ⟨_, ascii "fail to fork()", by simp [errorTexts], run_forkFails ho hf⟩
    | true =>
      have hw : os.waitOk = false := by simpa [hf] using hok
      exact ⟨_, ascii "fail to harvest child by waitpid()", by simp [errorTexts],
        run_waitFails ho hf hw⟩

theorem run_of_loaded (h : whenLoaded fs os = some left) :
    run fs os = (loadFile left (sharedFileName os.threadId) [] >>= fun cgiResult =>
      deleteFile left os.removable (sharedFileName os.threadId) >>= fun removed =>
        .ok (removed.2, cgiResult)) := by
  obtain ⟨opened, ho, hf, hw, rfl⟩ := whenLoaded_eq_some h
  simp [run, ho, hf, hw]

theorem run_success {content : Bytes} {readable : Bool} (h : whenLoaded fs os = some left)
    (hc : left.at (sharedFileName os.threadId) = .regular content readable)
    (hr : os.removable = true) :
    run fs os = .ok (left.set (sharedFileName os.threadId) .missing,
      readInto (.regular content readable) content.length) := by
  rw [run_of_loaded h, loadFile_regular hc, hr, deleteFile_regular hc]
  rfl

end Branches

section Endings

variable {fs fs' : FileSystem} {os : CGIOutcome} {result : Bytes}

theorem not_collects (h : ¬ Collects fs os) : ∃ t, run fs os = .error t := by
  unfold Collects at h
  push Not at h
  obtain ⟨left, hl, hnot⟩ := h
  rw [run_of_loaded hl]
  by_cases hreg : ∃ content readable,
      left.at (sharedFileName os.threadId) = .regular content readable
  · obtain ⟨content, readable, hc⟩ := hreg
    have hr : os.removable = false := by simpa using hnot ⟨content, readable, hc⟩
    rw [loadFile_regular hc, hr, deleteFile_refused hc]
    exact ⟨_, rfl⟩
  · push Not at hreg
    rw [loadFile_of_not_regular hreg]
    exact ⟨_, rfl⟩

inductive Returned (fs : FileSystem) (os : CGIOutcome) : FileSystem → Bytes → Prop
  | failed (fs' : FileSystem) (text : Bytes) (h : whenLoaded fs os = none)
      (ht : text ∈ errorTexts os.threadId) : Returned fs os fs' text
  | loaded (left : FileSystem) (content : Bytes) (readable : Bool)
      (h : whenLoaded fs os = some left)
      (hc : left.at (sharedFileName os.threadId) = .regular content readable)
      (hr : os.removable = true) :
      Returned fs os (left.set (sharedFileName os.threadId) .missing)
        (readInto (.regular content readable) content.length)

theorem run_returns (h : Collects fs os) :
    ∃ fs' result, run fs os = .ok (fs', result) ∧ Returned fs os fs' result := by
  cases hl : whenLoaded fs os with
  | none =>
    obtain ⟨fs', text, ht, hrun⟩ := run_of_not_loaded hl
    exact ⟨fs', text, hrun, .failed fs' text hl ht⟩
  | some left =>
    obtain ⟨⟨content, readable, hc⟩, hr⟩ := h left hl
    exact ⟨_, _, run_success hl hc hr, .loaded left content readable hl hc hr⟩

theorem collects_of_run (h : run fs os = .ok (fs', result)) : Collects fs os := by
  by_contra hnot
  obtain ⟨t, ht⟩ := not_collects hnot
  rw [ht] at h
  cases h

theorem returned_of_run (h : run fs os = .ok (fs', result)) : Returned fs os fs' result := by
  obtain ⟨fs₁, result₁, hrun, hret⟩ := run_returns (collects_of_run h)
  rw [h] at hrun
  cases hrun
  exact hret

theorem run_eq_nil_iff (h : run fs os = .ok (fs', result)) :
    result = [] ↔ LoadsNothing fs os := by
  cases returned_of_run h with
  | failed fs' text hl ht =>
    refine iff_of_false ?_ ?_
    · rintro rfl
      simp [errorTexts, ascii] at ht
    · rintro ⟨left, readable, hl', -⟩
      rw [hl] at hl'
      cases hl'
  | loaded left content readable hl hc hr =>
    rw [← List.length_eq_zero_iff, readInto_length, List.length_eq_zero_iff]
    constructor
    · rintro rfl
      exact ⟨left, readable, hl, hc⟩
    · rintro ⟨left', readable', hl', hc'⟩
      rw [hl] at hl'
      cases hl'
      rw [hc] at hc'
      cases hc'
      rfl

end Endings

theorem run_writes {fs : FileSystem} {threadId : Bytes} (output : Bytes)
    (hm : fs.at (sharedFileName threadId) = .missing) :
    run fs (.writes threadId output) = .ok (fs, output) := by
  have hs : ∀ st st' : PathState, ((fs.set (sharedFileName threadId) st).set
      (sharedFileName threadId) st') = fs.set (sharedFileName threadId) st' :=
    fun st st' => Function.update_idem _ _ _
  have hback : fs.set (sharedFileName threadId) .missing = fs :=
    Function.update_eq_self_iff.mpr hm.symm
  have hl : whenLoaded fs (.writes threadId output) =
      some (fs.set (sharedFileName threadId) (.regular output true)) := by
    have happ := appendShared_at
      (FileSystem.at_set_self fs (sharedFileName threadId) (.regular [] true)) output
    simp [whenLoaded, openShared, CGIOutcome.writes, hm, leaveShared, happ, hs]
  have hrun := run_success hl (FileSystem.at_set_self _ _ _) rfl
  rw [hrun]
  simp [CGIOutcome.writes, hs, hback, readInto]

theorem keepsFiles_writes {fs : FileSystem} {threadId : Bytes} (output : Bytes)
    (hm : fs.at (sharedFileName threadId) = .missing) :
    KeepsFiles fs (.writes threadId output) := by
  intro fs' result h
  rw [run_writes output hm] at h
  cases h
  rfl

end CGIRunner

end HttpReactor
