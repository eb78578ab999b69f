import HttpReactor.Mutex
import HttpReactor.Refinement

/-!
# The asynchronous logger

`PushLog` appends a message to `queue_` under `mtx_`; the writer thread swaps the queue
with its own empty one and prints that batch without the lock. Both are cut at their
accesses to the shared state, and `cv_.wait` at the points where it evaluates its
predicate, releases the lock and takes it again, so that the steps of any number of
callers, of the writer and of the destructor interleave freely. A wake-up may be
spurious. The log file is open, and what was inserted into its stream counts as written.
-/

namespace HttpReactor
open Mutex Refinement

def kThreshold : ℕ := 1000

/-- In microseconds, as `last_flush_` is. -/
def kRefreshThresholdDuration : Int := 3000

inductive PushPhase (μ : Type)
  | idle
  | locked (log : μ)
  | appended
  | decided (shouldNotify : Bool)
  | released (shouldNotify : Bool)
deriving DecidableEq, Repr

inductive WriterPhase
  | locking
  | evaluating
  | blocking
  | waiting
  | waking
  | ready
  | swapped
  | printing (written : ℕ)
  | printed
  | stamped
  | checking (locked : Bool)
  | returned
deriving DecidableEq, Repr

inductive HarvestPhase
  | alive
  | stored
  | notified
deriving DecidableEq, Repr

inductive LogThread (κ : Type)
  | writer
  | caller (k : κ)
deriving DecidableEq, Repr

/-- `took` and `pushed` are histories: the messages in the order in which their `PushLog` calls
took `mtx_`, and those that have reached `queue_`. -/
structure Logger (κ μ : Type) where
  done : Bool
  mtx : Option (LogThread κ)
  queue : List μ
  lastFlush : Int
  writerQueue : List μ
  writer : WriterPhase
  callers : κ → PushPhase μ
  harvest : HarvestPhase
  file : List μ
  took : List μ
  pushed : List μ

inductive LogAction (κ μ : Type)
  | pushLog (k : κ) (log : μ)
  | caller (k : κ) (now : Int)
  | writer (now : Int)
  | spuriousWakeup
  | destructor

namespace Logger

variable {κ μ : Type} [DecidableEq κ]

def new (now : Int) : Logger κ μ where
  done := false
  mtx := none
  queue := []
  lastFlush := now * 1000
  writerQueue := []
  writer := .locking
  callers := fun _ => .idle
  harvest := .alive
  file := []
  took := []
  pushed := []

def flushDue (l : Logger κ μ) (now : Int) : Bool :=
  decide (now * 1000 - l.lastFlush > kRefreshThresholdDuration) ||
    decide (l.queue.length > kThreshold)

/-- Only the writer ever waits on `cv_`. -/
def notifyOne (l : Logger κ μ) : Logger κ μ :=
  if l.writer = .waiting then { l with writer := .waking } else l

def setCaller (l : Logger κ μ) (k : κ) (phase : PushPhase μ) : Logger κ μ :=
  { l with callers := Function.update l.callers k phase }

def pushLog (l : Logger κ μ) (k : κ) (log : μ) : Option (Logger κ μ) :=
  match l.callers k, l.mtx with
  | .idle, none =>
    some { l.setCaller k (.locked log) with mtx := some (.caller k), took := l.took ++ [log] }
  | _, _ => none

def callerStep (l : Logger κ μ) (k : κ) (now : Int) : Option (Logger κ μ) :=
  match l.callers k with
  | .idle => none
  | .locked log =>
    some { l.setCaller k .appended with queue := l.queue ++ [log], pushed := l.pushed ++ [log] }
  | .appended => some (l.setCaller k (.decided (l.flushDue now)))
  | .decided shouldNotify =>
    some { l.setCaller k (.released shouldNotify) with mtx := none }
  | .released shouldNotify =>
    some ((if shouldNotify then l.notifyOne else l).setCaller k .idle)

def lockForWait (l : Logger κ μ) : Option (Logger κ μ) :=
  match l.mtx with
  | none => some { l with mtx := some .writer, writer := .evaluating }
  | some _ => none

def writerStep (l : Logger κ μ) (now : Int) : Option (Logger κ μ) :=
  match l.writer with
  | .locking => l.lockForWait
  | .evaluating =>
    some { l with writer := if l.done || l.flushDue now then .ready else .blocking }
  | .blocking => some { l with mtx := none, writer := .waiting }
  | .waiting => none
  | .waking => l.lockForWait
  | .ready =>
    match l.queue with
    | [] => some { l with writer := .checking true }
    | log :: logs =>
      some { l with queue := l.writerQueue, writerQueue := log :: logs, writer := .swapped }
  | .swapped => some { l with mtx := none, writer := .printing 0 }
  | .printing written =>
    match l.writerQueue[written]? with
    | some log => some { l with file := l.file ++ [log], writer := .printing (written + 1) }
    | none => some { l with writer := .printed }
  | .printed => some { l with lastFlush := now * 1000, writer := .stamped }
  | .stamped => some { l with writerQueue := [], writer := .checking false }
  | .checking locked =>
    some { l with
      mtx := if locked then none else l.mtx
      writer := if l.done then .returned else .locking }
  | .returned => none

def destructorStep (l : Logger κ μ) : Option (Logger κ μ) :=
  match l.harvest with
  | .alive => some { l with done := true, harvest := .stored }
  | .stored => some { l.notifyOne with harvest := .notified }
  | .notified => none

def step (l : Logger κ μ) : LogAction κ μ → Option (Logger κ μ)
  | .pushLog k log => l.pushLog k log
  | .caller k now => l.callerStep k now
  | .writer now => l.writerStep now
  | .spuriousWakeup => if l.writer = .waiting then some l.notifyOne else none
  | .destructor => l.destructorStep

end Logger

/-! ## What a step can do -/

namespace Logger

variable {κ μ : Type} {l l' : Logger κ μ}

inductive WriterStepped (l : Logger κ μ) : Logger κ μ → Prop
  | locks : l.writer = .locking ∨ l.writer = .waking → l.mtx = none →
      WriterStepped l { l with mtx := some .writer, writer := .evaluating }
  | passes : l.writer = .evaluating → WriterStepped l { l with writer := .ready }
  | fails : l.writer = .evaluating → l.done = false → WriterStepped l { l with writer := .blocking }
  | waits : l.writer = .blocking → WriterStepped l { l with mtx := none, writer := .waiting }
  | findsNone : l.writer = .ready → l.queue = [] →
      WriterStepped l { l with writer := .checking true }
  | swaps : l.writer = .ready → l.queue ≠ [] →
      WriterStepped l { l with queue := l.writerQueue, writerQueue := l.queue, writer := .swapped }
  | unlocks : l.writer = .swapped → WriterStepped l { l with mtx := none, writer := .printing 0 }
  | prints (written : ℕ) (log : μ) : l.writer = .printing written →
      l.writerQueue[written]? = some log →
      WriterStepped l { l with file := l.file ++ [log], writer := .printing (written + 1) }
  | finishes (written : ℕ) : l.writer = .printing written → l.writerQueue[written]? = none →
      WriterStepped l { l with writer := .printed }
  | stamps (now : Int) : l.writer = .printed →
      WriterStepped l { l with lastFlush := now, writer := .stamped }
  | clears : l.writer = .stamped →
      WriterStepped l { l with writerQueue := [], writer := .checking false }
  | returns (locked : Bool) : l.writer = .checking locked → l.done = true →
      WriterStepped l { l with mtx := if locked then none else l.mtx, writer := .returned }
  | continues (locked : Bool) : l.writer = .checking locked → l.done = false →
      WriterStepped l { l with mtx := if locked then none else l.mtx, writer := .locking }

theorem writerStepped_of_lock (hw : l.writer = .locking ∨ l.writer = .waking)
    (hstep : l.lockForWait = some l') : WriterStepped l l' := by
  rw [lockForWait] at hstep
  split at hstep
  · next hfree =>
    cases hstep
    exact .locks hw hfree
  · cases hstep

theorem writerStepped {now : Int} (hstep : l.writerStep now = some l') : WriterStepped l l' := by
  unfold writerStep at hstep
  cases hw : l.writer with
  | locking =>
    simp only [hw] at hstep
    exact writerStepped_of_lock (.inl hw) hstep
  | waking =>
    simp only [hw] at hstep
    exact writerStepped_of_lock (.inr hw) hstep
  | evaluating =>
    simp only [hw, Option.some.injEq] at hstep
    subst hstep
    split
    · exact .passes hw
    · next hpred =>
      rw [Bool.or_eq_true, not_or] at hpred
      exact .fails hw (Bool.eq_false_iff.mpr hpred.1)
  | blocking =>
    simp only [hw, Option.some.injEq] at hstep
    subst hstep
    exact .waits hw
  | ready =>
    simp only [hw] at hstep
    split at hstep
    · next hqueue =>
      cases hstep
      exact .findsNone hw hqueue
    · next log logs hqueue =>
      cases hstep
      have hswap := WriterStepped.swaps hw (by rw [hqueue]; exact List.cons_ne_nil log logs)
      rwa [hqueue] at hswap
  | swapped =>
    simp only [hw, Option.some.injEq] at hstep
    subst hstep
    exact .unlocks hw
  | printing written =>
    simp only [hw] at hstep
    split at hstep
    · next log hlog =>
      cases hstep
      exact .prints written log hw hlog
    · next hnone =>
      cases hstep
      exact .finishes written hw hnone
  | printed =>
    simp only [hw, Option.some.injEq] at hstep
    subst hstep
    exact .stamps _ hw
  | stamped =>
    simp only [hw, Option.some.injEq] at hstep
    subst hstep
    exact .clears hw
  | checking locked =>
    simp only [hw, Option.some.injEq] at hstep
    subst hstep
    by_cases hdone : l.done = true
    · rw [if_pos hdone]
      exact .returns locked hw hdone
    · rw [if_neg hdone]
      exact .continues locked hw (Bool.eq_false_iff.mpr hdone)
  | waiting | returned =>
    simp [hw] at hstep

theorem destructorStep_cases (hstep : l.destructorStep = some l') :
    l.harvest = .alive ∧ l' = { l with done := true, harvest := .stored } ∨
      l.harvest = .stored ∧ l' = { l.notifyOne with harvest := .notified } := by
  unfold destructorStep at hstep
  split at hstep
  · next halive =>
    cases hstep
    exact .inl ⟨halive, rfl⟩
  · next hstored =>
    cases hstep
    exact .inr ⟨hstored, rfl⟩
  · cases hstep

variable [DecidableEq κ] {k : κ}

theorem spuriousWakeup_eq_some (hstep : l.step .spuriousWakeup = some l') : l' = l.notifyOne := by
  simp only [step] at hstep
  split at hstep
  · cases hstep
    rfl
  · cases hstep

inductive CallerStepped (l : Logger κ μ) (k : κ) : Logger κ μ → Prop
  | appends (log : μ) : l.callers k = .locked log →
      CallerStepped l k { l.setCaller k .appended with
        queue := l.queue ++ [log], pushed := l.pushed ++ [log] }
  | decides (shouldNotify : Bool) : l.callers k = .appended →
      CallerStepped l k (l.setCaller k (.decided shouldNotify))
  | unlocks (shouldNotify : Bool) : l.callers k = .decided shouldNotify →
      CallerStepped l k { l.setCaller k (.released shouldNotify) with mtx := none }
  | notifies : l.callers k = .released true → CallerStepped l k (l.notifyOne.setCaller k .idle)
  | leaves : l.callers k = .released false → CallerStepped l k (l.setCaller k .idle)

theorem callerStepped {now : Int} (hstep : l.callerStep k now = some l') :
    CallerStepped l k l' := by
  unfold callerStep at hstep
  cases hk : l.callers k with
  | idle => simp [hk] at hstep
  | locked log =>
    simp only [hk, Option.some.injEq] at hstep
    subst hstep
    exact .appends log hk
  | appended =>
    simp only [hk, Option.some.injEq] at hstep
    subst hstep
    exact .decides _ hk
  | decided shouldNotify =>
    simp only [hk, Option.some.injEq] at hstep
    subst hstep
    exact .unlocks shouldNotify hk
  | released shouldNotify =>
    simp only [hk, Option.some.injEq] at hstep
    subst hstep
    cases shouldNotify with
    | true => exact .notifies hk
    | false => exact .leaves hk

theorem pushLog_eq_some {log : μ} (hstep : l.pushLog k log = some l') :
    l.callers k = .idle ∧ l.mtx = none ∧ l' =
      { l.setCaller k (.locked log) with mtx := some (.caller k), took := l.took ++ [log] } := by
  unfold pushLog at hstep
  split at hstep
  · next hidle hfree =>
    cases hstep
    exact ⟨hidle, hfree, rfl⟩
  · cases hstep

end Logger

/-! ## What is kept -/

def PushPhase.Holds {μ : Type} : PushPhase μ → Prop
  | .locked _ | .appended | .decided _ => True
  | .idle | .released _ => False

def PushPhase.pending {μ : Type} : PushPhase μ → List μ
  | .locked log => [log]
  | _ => []

def WriterPhase.Holds : WriterPhase → Prop
  | .evaluating | .blocking | .ready | .swapped | .checking true => True
  | _ => False

def WriterPhase.Batched : WriterPhase → Prop
  | .swapped | .printing _ | .printed | .stamped => True
  | _ => False

def WriterPhase.unprinted {μ : Type} : WriterPhase → List μ → List μ
  | .printing written, batch => batch.drop written
  | .printed, _ | .stamped, _ => []
  | _, batch => batch

def Inside {κ μ : Type} (writer : WriterPhase) (callers : κ → PushPhase μ) : LogThread κ → Prop
  | .writer => writer.Holds
  | .caller k => (callers k).Holds

namespace Logger

variable {κ μ : Type}

def awaiting (l : Logger κ μ) : List μ :=
  match l.mtx with
  | some (.caller k) => (l.callers k).pending
  | _ => []

def unwritten (l : Logger κ μ) : List μ := l.writer.unprinted l.writerQueue

structure Kept (l : Logger κ μ) : Prop where
  guarded : Guarded l.mtx (Inside l.writer l.callers)
  took : l.took = l.pushed ++ l.awaiting
  pushed : l.pushed = l.file ++ l.unwritten ++ l.queue
  batch : ¬ l.writer.Batched → l.writerQueue = []

theorem Kept.new (now : Int) : Kept (new now : Logger κ μ) where
  guarded := by
    intro t
    cases t <;> simp [Logger.new, Inside, WriterPhase.Holds, PushPhase.Holds]
  took := rfl
  pushed := rfl
  batch := fun _ => rfl

variable {l l' : Logger κ μ} {k : κ}

theorem inside_caller_iff {writer writer' : WriterPhase} {callers : κ → PushPhase μ}
    {t : LogThread κ} (ht : t ≠ .writer) : Inside writer callers t ↔ Inside writer' callers t := by
  cases t with
  | writer => exact absurd rfl ht
  | caller j => rfl

theorem Kept.guarded_writer (h : Kept l) {phase : WriterPhase}
    (hholds : phase.Holds ↔ l.writer.Holds) : Guarded l.mtx (Inside phase l.callers) := by
  apply h.guarded.keep
  intro t
  cases t with
  | writer => exact hholds
  | caller j => rfl

theorem Kept.setWriter (h : Kept l) {phase : WriterPhase} (hholds : phase.Holds ↔ l.writer.Holds)
    (hunprinted : phase.unprinted l.writerQueue = l.unwritten)
    (hbatch : ¬ phase.Batched → l.writerQueue = []) : Kept { l with writer := phase } where
  guarded := h.guarded_writer hholds
  took := h.took
  pushed := by
    have hpushed := h.pushed
    rw [← hunprinted] at hpushed
    exact hpushed
  batch := hbatch

theorem Kept.notifyOne (h : Kept l) : Kept l.notifyOne := by
  rw [Logger.notifyOne]
  split
  · next hw =>
    have hbatch := h.batch
    rw [hw] at hbatch
    apply h.setWriter
    · rw [hw]
      rfl
    · rw [unwritten, hw]
      rfl
    · exact hbatch
  · exact h

theorem notifyOne_callers : l.notifyOne.callers = l.callers := by
  rw [notifyOne]
  split <;> rfl

theorem Kept.lockWriter (h : Kept l) (hfree : l.mtx = none) (hbatch : l.writerQueue = [])
    (hunwritten : l.unwritten = l.writerQueue) :
    Kept { l with mtx := some .writer, writer := .evaluating } := by
  -- The lock is free whenever the writer takes it, so no `PushLog` call is half done.
  have hguarded := h.guarded
  rw [hfree] at hguarded
  have htook := h.took
  rw [awaiting, hfree] at htook
  have hpushed := h.pushed
  rw [hunwritten] at hpushed
  refine ⟨hguarded.acquire trivial ?_, htook, hpushed, fun _ => hbatch⟩
  intro t ht
  exact inside_caller_iff ht

theorem Kept.awaiting_eq_nil (h : Kept l) (hw : l.writer.Holds) : l.awaiting = [] := by
  have hmtx : l.mtx = some .writer := (h.guarded .writer).mp hw
  rw [awaiting, hmtx]

theorem Kept.unlockWriter (h : Kept l) (hw : l.writer.Holds) {phase : WriterPhase}
    (hphase : ¬ phase.Holds) (hunprinted : phase.unprinted l.writerQueue = l.unwritten)
    (hbatch : ¬ phase.Batched → l.writerQueue = []) :
    Kept { l with mtx := none, writer := phase } where
  guarded := by
    have hinside : Inside l.writer l.callers .writer := hw
    apply h.guarded.release hinside hphase
    intro t ht
    exact inside_caller_iff ht
  took := by
    have htook := h.took
    rw [h.awaiting_eq_nil hw] at htook
    exact htook
  pushed := by
    have hpushed := h.pushed
    rw [← hunprinted] at hpushed
    exact hpushed
  batch := hbatch

theorem Kept.swap (h : Kept l) (hw : l.writer = .ready) :
    Kept { l with queue := l.writerQueue, writerQueue := l.queue, writer := .swapped } where
  guarded := h.guarded_writer (by rw [hw]; rfl)
  took := h.took
  pushed := by
    have hempty : l.writerQueue = [] := h.batch (by rw [hw]; exact id)
    have hpushed := h.pushed
    rw [unwritten, hw] at hpushed
    simpa [unwritten, WriterPhase.unprinted, hempty] using hpushed
  batch := fun hb => absurd trivial hb

theorem Kept.print (h : Kept l) {written : ℕ} {log : μ} (hw : l.writer = .printing written)
    (hlog : l.writerQueue[written]? = some log) :
    Kept { l with file := l.file ++ [log], writer := .printing (written + 1) } where
  guarded := h.guarded_writer (by rw [hw]; rfl)
  took := h.took
  pushed := by
    obtain ⟨hlt, hget⟩ := List.getElem?_eq_some_iff.mp hlog
    have hdrop : l.writerQueue.drop written = log :: l.writerQueue.drop (written + 1) := by
      rw [List.drop_eq_getElem_cons hlt, hget]
    have hpushed := h.pushed
    rw [unwritten, hw] at hpushed
    simpa [unwritten, WriterPhase.unprinted, hdrop] using hpushed
  batch := fun hb => absurd trivial hb

theorem Kept.writerStep (h : Kept l) {now : Int} (hstep : l.writerStep now = some l') :
    Kept l' := by
  have hbatch := h.batch
  cases writerStepped hstep with
  | locks hw hfree =>
    rcases hw with hw | hw
    · rw [hw] at hbatch
      exact h.lockWriter hfree (hbatch id) (by rw [unwritten, hw]; rfl)
    · rw [hw] at hbatch
      exact h.lockWriter hfree (hbatch id) (by rw [unwritten, hw]; rfl)
  | passes hw | fails hw | findsNone hw =>
    rw [hw] at hbatch
    exact h.setWriter (by rw [hw]; rfl) (by rw [unwritten, hw]; rfl) hbatch
  | waits hw =>
    rw [hw] at hbatch
    exact h.unlockWriter (by rw [hw]; trivial) id (by rw [unwritten, hw]; rfl) hbatch
  | swaps hw => exact h.swap hw
  | unlocks hw =>
    exact h.unlockWriter (by rw [hw]; trivial) id (by rw [unwritten, hw]; rfl)
      (fun hb => absurd trivial hb)
  | prints written log hw hlog => exact h.print hw hlog
  | finishes written hw hnone =>
    refine h.setWriter (by rw [hw]; rfl) ?_ (fun hb => absurd trivial hb)
    rw [unwritten, hw]
    exact (List.drop_eq_nil_of_le (List.getElem?_eq_none_iff.mp hnone)).symm
  | stamps _ hw =>
    have hset : Kept { l with writer := .stamped } :=
      h.setWriter (by rw [hw]; rfl) (by rw [unwritten, hw]; rfl) (fun hb => absurd trivial hb)
    exact ⟨hset.guarded, hset.took, hset.pushed, hset.batch⟩
  | clears hw =>
    have hpushed := h.pushed
    rw [unwritten, hw] at hpushed
    exact ⟨h.guarded_writer (by rw [hw]; rfl), h.took, hpushed, fun _ => rfl⟩
  | returns locked hw | continues locked hw =>
    rw [hw] at hbatch
    cases locked with
    | true => exact h.unlockWriter (by rw [hw]; trivial) id (by rw [unwritten, hw]; rfl) hbatch
    | false => exact h.setWriter (by rw [hw]; rfl) (by rw [unwritten, hw]; rfl) hbatch

variable [DecidableEq κ]

theorem inside_update_of_ne {writer : WriterPhase} {callers : κ → PushPhase μ}
    {phase : PushPhase μ} {t : LogThread κ} (ht : t ≠ .caller k) :
    Inside writer (Function.update callers k phase) t ↔ Inside writer callers t := by
  cases t with
  | writer => rfl
  | caller j =>
    have hj : j ≠ k := fun h => ht (h ▸ rfl)
    simp [Inside, hj]

theorem Kept.guarded_caller (h : Kept l) {phase : PushPhase μ}
    (hholds : phase.Holds ↔ (l.callers k).Holds) :
    Guarded l.mtx (Inside l.writer (Function.update l.callers k phase)) := by
  apply h.guarded.keep
  intro t
  by_cases ht : t = .caller k
  · subst ht
    simpa [Inside] using hholds
  · exact inside_update_of_ne ht

theorem awaiting_setCaller {phase : PushPhase μ}
    (hpending : phase.pending = (l.callers k).pending) :
    (l.setCaller k phase).awaiting = l.awaiting := by
  simp only [awaiting, setCaller]
  split
  · next j _ =>
    by_cases hj : j = k
    · subst hj
      simpa using hpending
    · simp [hj]
  · rfl

theorem Kept.setCaller (h : Kept l) {phase : PushPhase μ}
    (hholds : phase.Holds ↔ (l.callers k).Holds)
    (hpending : phase.pending = (l.callers k).pending) : Kept (l.setCaller k phase) where
  guarded := h.guarded_caller hholds
  took := by
    rw [awaiting_setCaller hpending]
    exact h.took
  pushed := h.pushed
  batch := h.batch

theorem Kept.pushLog (h : Kept l) {log : μ} (hstep : l.pushLog k log = some l') : Kept l' := by
  obtain ⟨-, hfree, rfl⟩ := pushLog_eq_some hstep
  have hguarded := h.guarded
  rw [hfree] at hguarded
  have htook := h.took
  rw [awaiting, hfree, List.append_nil] at htook
  refine ⟨hguarded.acquire ?_ (fun t ht => inside_update_of_ne ht), ?_, h.pushed, h.batch⟩
  · simp [Inside, Logger.setCaller, PushPhase.Holds]
  · simp [awaiting, Logger.setCaller, PushPhase.pending, htook]

theorem Kept.callerStep (h : Kept l) {now : Int} (hstep : l.callerStep k now = some l') :
    Kept l' := by
  have hmtx := h.guarded (.caller k)
  have htook := h.took
  have hpushed := h.pushed
  cases callerStepped hstep with
  | appends log hk =>
    have hholder : l.mtx = some (.caller k) := hmtx.mp (by simp [Inside, hk, PushPhase.Holds])
    refine ⟨h.guarded_caller (by rw [hk]; rfl), ?_, ?_, h.batch⟩
    · rw [awaiting, hholder] at htook
      simpa [awaiting, Logger.setCaller, hholder, hk, PushPhase.pending] using htook
    · simp only [Logger.setCaller, unwritten] at hpushed ⊢
      rw [hpushed, List.append_assoc _ l.queue]
  | decides _ hk => exact h.setCaller (by rw [hk]; rfl) (by rw [hk]; rfl)
  | unlocks _ hk =>
    have hinside : Inside l.writer l.callers (.caller k) := by simp [Inside, hk, PushPhase.Holds]
    refine ⟨h.guarded.release hinside ?_ (fun t ht => inside_update_of_ne ht), ?_, h.pushed,
      h.batch⟩
    · simp [Inside, Logger.setCaller, PushPhase.Holds]
    · rw [awaiting, hmtx.mp hinside] at htook
      simpa [awaiting, Logger.setCaller, hk, PushPhase.pending] using htook
  | notifies hk =>
    apply h.notifyOne.setCaller
    · rw [notifyOne_callers, hk]
      rfl
    · rw [notifyOne_callers, hk]
      rfl
  | leaves hk => exact h.setCaller (by rw [hk]; rfl) (by rw [hk]; rfl)

theorem Kept.step (h : Kept l) {action : LogAction κ μ} (hstep : l.step action = some l') :
    Kept l' := by
  cases action with
  | pushLog k log => exact h.pushLog hstep
  | caller k now => exact h.callerStep hstep
  | writer now => exact h.writerStep hstep
  | spuriousWakeup =>
    rw [spuriousWakeup_eq_some hstep]
    exact h.notifyOne
  | destructor =>
    rcases destructorStep_cases hstep with ⟨-, rfl⟩ | ⟨-, rfl⟩
    · exact ⟨h.guarded, h.took, h.pushed, h.batch⟩
    · have hnotified := h.notifyOne
      exact ⟨hnotified.guarded, hnotified.took, hnotified.pushed, hnotified.batch⟩

theorem kept_of_run {now : Int} {actions : List (LogAction κ μ)}
    (h : runGuarded step (new now) actions = some l) : Kept l :=
  runGuarded_invariant (fun _ _ _ _ hs hstep => hs.step hstep) (Kept.new now) h

/-- In every reachable state the messages pushed so far, in the order in which their `PushLog`
calls took `mtx_`, are those in the file, then those of the writer's batch that are not yet
printed, then those in `queue_`. Only the call that holds the lock may have taken it without
having pushed its message yet. -/
theorem pushed_eq_file_append (now : Int) (actions : List (LogAction κ μ)) (l : Logger κ μ)
    (h : runGuarded step (new now) actions = some l) :
    l.took = l.pushed ++ l.awaiting ∧ l.pushed = l.file ++ l.unwritten ++ l.queue ∧
      l.file <+: l.pushed := by
  have hkept := kept_of_run h
  refine ⟨hkept.took, hkept.pushed, ?_⟩
  rw [hkept.pushed, List.append_assoc]
  exact List.prefix_append _ _

def overlappingCalls : List (LogAction ℕ ℕ) :=
  [.pushLog 0 7, .caller 0 10, .caller 0 10, .caller 0 10, .caller 0 10, .pushLog 1 8,
    .caller 1 10, .caller 1 10, .caller 1 10, .writer 10, .writer 10, .writer 10, .writer 10,
    .pushLog 0 9, .writer 10, .caller 0 11]

theorem pushed_eq_file_append_overlap :
    ∃ l, runGuarded step (new 0) overlappingCalls = some l ∧ l.file = [7] ∧ l.unwritten = [8] ∧
      l.queue = [9] ∧ l.pushed = l.file ++ l.unwritten ++ l.queue :=
  ⟨_, rfl, rfl, rfl, rfl, (pushed_eq_file_append 0 overlappingCalls _ rfl).2.1⟩

end Logger
end HttpReactor
