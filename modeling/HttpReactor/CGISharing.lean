import HttpReactor.CGIRunner
import HttpReactor.Refinement
import Mathlib.Logic.Function.Basic

/-!
# CGI programs on several threads

`CGIRunner::Run` is cut at its system calls, and the writes of the children fall between
any of them. A shared file is named after the thread that runs the program; live threads
have distinct ids, so a thread stands for its name here, and `files` for the directory.
A child writes to the file it was given, whatever the name refers to later: the early
return after a failed `waitpid` leaves the file and perhaps a child that still runs.
`LoadFile` can open the file that the same process has created.
-/

namespace HttpReactor
open Refinement

structure Child where
  inode : ℕ
  running : Bool
  wrote : Bytes
deriving DecidableEq, Repr

/-- The next system call of a `Run`; `id` names the run from its `fork` on. -/
inductive RunPhase
  | idle
  | opened (inode : ℕ)
  | forked (id : ℕ)
  | harvested (id : ℕ)
  | sized (id size : ℕ)
  | loaded (id : ℕ) (cgiResult : Bytes)
deriving DecidableEq, Repr

structure CGIReturn where
  wrote : Bytes
  cgiResult : Bytes
deriving DecidableEq, Repr

structure CGIState (κ : Type) where
  files : κ → Option ℕ
  content : ℕ → Bytes
  freshInode : ℕ
  children : ℕ → Option Child
  freshRun : ℕ
  runs : κ → RunPhase
  returned : List CGIReturn

inductive CGIAction (κ : Type)
  | openShared (k : κ) (ok : Bool)
  | fork (k : κ) (ok : Bool)
  | write (id : ℕ) (bytes : Bytes)
  | exit (id : ℕ)
  | waitpid (k : κ) (ok : Bool)
  | checkFileSize (k : κ)
  | read (k : κ)
  | deleteFile (k : κ)
deriving DecidableEq, Repr

namespace CGIState

variable {κ : Type} [DecidableEq κ]

def start : CGIState κ where
  files := fun _ => none
  content := fun _ => []
  freshInode := 0
  children := fun _ => none
  freshRun := 0
  runs := fun _ => .idle
  returned := []

def setRun (s : CGIState κ) (k : κ) (phase : RunPhase) : CGIState κ :=
  { s with runs := Function.update s.runs k phase }

/-- With O_APPEND and O_CREAT and without O_TRUNC: what the file holds is kept. -/
def openShared (s : CGIState κ) (k : κ) : CGIState κ :=
  match s.files k with
  | some inode => s.setRun k (.opened inode)
  | none =>
    { s.setRun k (.opened s.freshInode) with
      files := Function.update s.files k (some s.freshInode)
      content := Function.update s.content s.freshInode []
      freshInode := s.freshInode + 1 }

def fork (s : CGIState κ) (k : κ) (inode : ℕ) : CGIState κ :=
  { s.setRun k (.forked s.freshRun) with
    children := Function.update s.children s.freshRun (some ⟨inode, true, []⟩)
    freshRun := s.freshRun + 1 }

def write (s : CGIState κ) (id : ℕ) (child : Child) (bytes : Bytes) : CGIState κ :=
  { s with
    content := Function.update s.content child.inode (s.content child.inode ++ bytes)
    children := Function.update s.children id (some { child with wrote := child.wrote ++ bytes }) }

def exit (s : CGIState κ) (id : ℕ) (child : Child) : CGIState κ :=
  { s with children := Function.update s.children id (some { child with running := false }) }

def readSized (content : Bytes) (size : ℕ) : Bytes :=
  content.take size ++ List.replicate (size - content.length) 0

def step (s : CGIState κ) : CGIAction κ → Option (CGIState κ)
  | .openShared k ok =>
    match s.runs k with
    | .idle => if ok then some (s.openShared k) else some s
    | _ => none
  | .fork k ok =>
    match s.runs k with
    | .opened inode => if ok then some (s.fork k inode) else some (s.setRun k .idle)
    | _ => none
  | .write id bytes =>
    match s.children id with
    | some child => if child.running then some (s.write id child bytes) else none
    | none => none
  | .exit id =>
    match s.children id with
    | some child => if child.running then some (s.exit id child) else none
    | none => none
  | .waitpid k ok =>
    match s.runs k with
    | .forked id =>
      match s.children id with
      | some child =>
        if ok then
          if child.running then none else some (s.setRun k (.harvested id))
        else some (s.setRun k .idle)
      | none => none
    | _ => none
  | .checkFileSize k =>
    match s.runs k, s.files k with
    | .harvested id, some inode => some (s.setRun k (.sized id (s.content inode).length))
    | _, _ => none
  | .read k =>
    match s.runs k, s.files k with
    | .sized id size, some inode =>
      some (s.setRun k (.loaded id (readSized (s.content inode) size)))
    | _, _ => none
  | .deleteFile k =>
    match s.runs k with
    | .loaded id cgiResult =>
      match s.children id with
      | some child =>
        some { s.setRun k .idle with
          files := Function.update s.files k none
          returned := s.returned ++ [⟨child.wrote, cgiResult⟩] }
      | none => none
    | _ => none

/-! ## A run on its own -/

variable {s : CGIState κ} {k : κ}

theorem readSized_of_prefix {wrote content : Bytes} (h : wrote <+: content) :
    readSized content wrote.length = wrote := by
  have hle := h.length_le
  rw [readSized, ← List.prefix_iff_eq_take.mp h, Nat.sub_eq_zero_of_le hle]
  simp

def fileState (s : CGIState κ) (k : κ) : PathState :=
  match s.files k with
  | some inode => .regular (s.content inode) true
  | none => .missing

def soloRun (k : κ) (id : ℕ) (os : CGIOutcome) : List (CGIAction κ) :=
  match os.openOk, os.forkOk, os.waitOk with
  | false, _, _ => [.openShared k false]
  | true, false, _ => [.openShared k true, .fork k false]
  | true, true, false =>
    [.openShared k true, .fork k true, .write id os.output, .waitpid k false]
  | true, true, true =>
    [.openShared k true, .fork k true, .write id os.output, .exit id, .waitpid k true,
      .checkFileSize k, .read k, .deleteFile k]

theorem openShared_spec (s : CGIState κ) (k : κ) :
    ∃ inode, (s.openShared k).runs k = .opened inode ∧ (s.openShared k).files k = some inode ∧
      (s.openShared k).freshRun = s.freshRun ∧ (s.openShared k).returned = s.returned := by
  unfold CGIState.openShared
  cases hfile : s.files k with
  | some inode => exact ⟨inode, by simp [setRun], hfile, rfl, rfl⟩
  | none => exact ⟨s.freshInode, by simp [setRun], by simp, rfl, rfl⟩

theorem openShared_agrees {fs : FileSystem} {name : Bytes} (hfile : fs.at name = s.fileState k) :
    ∃ opened, CGIRunner.openShared fs name true = some opened ∧
      opened.at name = (s.openShared k).fileState k := by
  unfold fileState CGIState.openShared at *
  cases hk : s.files k with
  | some inode =>
    simp only [hk] at hfile ⊢
    exact ⟨fs, by simp [CGIRunner.openShared, hfile], by simp [setRun, hk, hfile]⟩
  | none =>
    simp only [hk] at hfile ⊢
    refine ⟨fs.set name (.regular [] true), by simp [CGIRunner.openShared, hfile], ?_⟩
    simp [FileSystem.at_set_self]

/-- Taken alone, the steps of a run do what `CGIRunner::Run` does as a whole, when nobody else
touches its shared file. -/
theorem soloRun_agrees (hk : s.runs k = .idle) {fs : FileSystem} {os : CGIOutcome}
    (hkept : os.replaced = none) (hremovable : os.removable = true)
    (hfile : fs.at (CGIRunner.sharedFileName os.threadId) = s.fileState k) :
    ∃ fs' cgiResult s', CGIRunner.run fs os = .ok (fs', cgiResult) ∧
      runGuarded step s (soloRun k s.freshRun os) = some s' ∧
      fs'.at (CGIRunner.sharedFileName os.threadId) = s'.fileState k ∧
      (os.openOk = true → os.forkOk = true → os.waitOk = true →
        s'.returned = s.returned ++ [⟨os.output, cgiResult⟩]) := by
  cases ho : os.openOk with
  | false =>
    have hnone : CGIRunner.openShared fs (CGIRunner.sharedFileName os.threadId) os.openOk =
        none := by
      simp [CGIRunner.openShared, ho]
    exact ⟨_, _, s, CGIRunner.run_openFails hnone, by simp [soloRun, ho, runGuarded, step, hk],
      hfile, by simp⟩
  | true =>
    obtain ⟨inode, hopened, hinode, hfresh, hreturned⟩ := openShared_spec s k
    obtain ⟨opened, hopen, hat⟩ := openShared_agrees (k := k) hfile
    have hcontent : (s.openShared k).fileState k =
        .regular ((s.openShared k).content inode) true := by
      rw [fileState, hinode]
    rw [hcontent] at hat
    have hfirst : ∀ actions, runGuarded step s (.openShared k true :: actions) =
        runGuarded step (s.openShared k) actions := by
      intro actions
      simp [runGuarded, step, hk]
    rw [← ho] at hopen
    rw [← hfresh, ← hreturned]
    generalize s.openShared k = t at *
    cases hf : os.forkOk with
    | false =>
      refine ⟨_, _, t.setRun k .idle, CGIRunner.run_forkFails hopen hf, ?_, ?_, by simp⟩
      · simp [soloRun, ho, hf, hfirst, runGuarded, step, hopened]
      · rw [hat]
        simp [fileState, setRun, hinode]
    | true =>
      have hleft : CGIRunner.leaveShared opened os =
          opened.set (CGIRunner.sharedFileName os.threadId)
            (.regular (t.content inode ++ os.output) true) := by
        rw [CGIRunner.leaveShared, hkept]
        exact CGIRunner.appendShared_at hat os.output
      cases hw : os.waitOk with
      | false =>
        refine ⟨_, _, ((t.fork k inode).write t.freshRun ⟨inode, true, []⟩ os.output).setRun k
          .idle, CGIRunner.run_waitFails hopen hf hw, ?_, ?_, by simp⟩
        · simp [soloRun, ho, hf, hw, hfirst, runGuarded, step, hopened, fork, write, setRun]
        · rw [hleft, FileSystem.at_set_self]
          simp [fileState, setRun, write, fork, hinode]
      | true =>
        have hloaded : CGIRunner.whenLoaded fs os = some (CGIRunner.leaveShared opened os) := by
          simp [CGIRunner.whenLoaded, hopen, hf, hw]
        refine ⟨_, _, { t with
          files := Function.update t.files k none
          content := Function.update t.content inode (t.content inode ++ os.output)
          children := Function.update t.children t.freshRun (some ⟨inode, false, os.output⟩)
          freshRun := t.freshRun + 1
          runs := Function.update t.runs k .idle
          returned := t.returned ++ [⟨os.output, t.content inode ++ os.output⟩] },
          CGIRunner.run_success hloaded (hleft ▸ FileSystem.at_set_self _ _ _) hremovable, ?_, ?_,
          fun _ _ _ => rfl⟩
        · have hread := readSized_of_prefix (List.prefix_refl (t.content inode ++ os.output))
          rw [List.length_append] at hread
          simp [soloRun, ho, hf, hw, hfirst, runGuarded, step, hopened, fork, write, exit, setRun,
            hinode, hread]
        · rw [FileSystem.at_set_self]
          simp [fileState]

end CGIState
end HttpReactor
