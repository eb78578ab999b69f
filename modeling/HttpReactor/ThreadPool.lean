import HttpReactor.Mutex
import HttpReactor.Refinement
import Mathlib.Data.List.Pairwise
import Mathlib.Data.Fintype.Basic

/-!
# The thread pool

The worker loop, `SubmitTask` and the destructor are cut at their accesses to the shared
state. `condition_.wait` evaluates its predicate with `queue_mutex_` held, and when that is
false releases the mutex and blocks in one step; a blocked worker is woken by a notification
or spuriously. The store to `stop_` and the notifications take no lock, so they may fall
between any two steps of the other threads.

A `SubmitTask` call is named by its place in the order in which the calls entered the
critical section, and so is its task.
-/

namespace HttpReactor
open Mutex Refinement

def kMinThreadCount : ℕ := 2

/-- The next step of a worker; `undefined` follows `front()` on an empty queue. -/
inductive WorkerPhase
  | locking
  | evaluating
  | blocking
  | blocked
  | woken
  | ready
  | taking
  | running (task : ℕ)
  | returned
  | undefined
deriving DecidableEq, Repr

inductive SubmitPhase
  | idle
  | checking (call : ℕ)
  | admitted (call : ℕ)
  | enqueued
  | notifying
deriving DecidableEq, Repr

inductive ShutdownPhase
  | alive
  | stored
  | notified
  | joined
deriving DecidableEq, Repr

inductive PoolThread (κ : Type) (n : ℕ)
  | worker (w : Fin n)
  | caller (k : κ)
deriving DecidableEq, Repr

/-- The last five fields are histories: how many calls have entered the critical section, which
of them enqueued their task and which threw, and the tasks taken from the queue and run. -/
structure ThreadPool (κ : Type) (n : ℕ) where
  stop : Bool
  queueMutex : Option (PoolThread κ n)
  tasksQueue : List ℕ
  workers : Fin n → WorkerPhase
  callers : κ → SubmitPhase
  destructor : ShutdownPhase
  entered : ℕ
  accepted : List ℕ
  thrown : List ℕ
  taken : List ℕ
  ran : List ℕ

inductive PoolAction (κ : Type) (n : ℕ)
  | submitTask (k : κ)
  | caller (k : κ) (wakes : Option (Fin n))
  | worker (w : Fin n)
  | spuriousWakeup (w : Fin n)
  | destructor
deriving DecidableEq, Repr

namespace ThreadPool

variable {κ : Type} {n : ℕ}

def new (threadCount : ℕ) : ThreadPool κ (max threadCount kMinThreadCount) where
  stop := false
  queueMutex := none
  tasksQueue := []
  workers := fun _ => .locking
  callers := fun _ => .idle
  destructor := .alive
  entered := 0
  accepted := []
  thrown := []
  taken := []
  ran := []

def worker₀ : Fin (max 1 kMinThreadCount) := ⟨0, Nat.le_max_left 1 kMinThreadCount⟩

def worker₁ : Fin (max 1 kMinThreadCount) := ⟨1, Nat.le_max_right 1 kMinThreadCount⟩

def setWorker (p : ThreadPool κ n) (w : Fin n) (phase : WorkerPhase) : ThreadPool κ n :=
  { p with workers := Function.update p.workers w phase }

def lockForWait (p : ThreadPool κ n) (w : Fin n) : Option (ThreadPool κ n) :=
  match p.queueMutex with
  | none => some { p.setWorker w .evaluating with queueMutex := some (.worker w) }
  | some _ => none

def workerStep (p : ThreadPool κ n) (w : Fin n) : Option (ThreadPool κ n) :=
  match p.workers w with
  | .locking => p.lockForWait w
  | .evaluating =>
    some (p.setWorker w (if p.stop || !p.tasksQueue.isEmpty then .ready else .blocking))
  | .blocking => some { p.setWorker w .blocked with queueMutex := none }
  | .blocked => none
  | .woken => p.lockForWait w
  | .ready =>
    if p.stop && p.tasksQueue.isEmpty then
      some { p.setWorker w .returned with queueMutex := none }
    else
      some (p.setWorker w .taking)
  | .taking =>
    match p.tasksQueue with
    | [] => some (p.setWorker w .undefined)
    | task :: tasks =>
      some { p.setWorker w (.running task) with
        queueMutex := none, tasksQueue := tasks, taken := p.taken ++ [task] }
  | .running task => some { p.setWorker w .locking with ran := p.ran ++ [task] }
  | .returned => none
  | .undefined => none

def notifyOne (p : ThreadPool κ n) (wakes : Option (Fin n)) : Option (ThreadPool κ n) :=
  match wakes with
  | some w => if p.workers w = .blocked then some (p.setWorker w .woken) else none
  | none => if ∀ w, p.workers w ≠ .blocked then some p else none

def notifyAll (p : ThreadPool κ n) : ThreadPool κ n :=
  { p with workers := fun w => if p.workers w = .blocked then .woken else p.workers w }

def destructorStep (p : ThreadPool κ n) : Option (ThreadPool κ n) :=
  match p.destructor with
  | .alive => some { p with stop := true, destructor := .stored }
  | .stored => some { p.notifyAll with destructor := .notified }
  | .notified =>
    if ∀ w, p.workers w = .returned then some { p with destructor := .joined } else none
  | .joined => none

variable [DecidableEq κ]

def setCaller (p : ThreadPool κ n) (k : κ) (phase : SubmitPhase) : ThreadPool κ n :=
  { p with callers := Function.update p.callers k phase }

def submitTask (p : ThreadPool κ n) (k : κ) : Option (ThreadPool κ n) :=
  match p.callers k, p.queueMutex with
  | .idle, none =>
    some { p.setCaller k (.checking p.entered) with
      queueMutex := some (.caller k), entered := p.entered + 1 }
  | _, _ => none

def callerStep (p : ThreadPool κ n) (k : κ) (wakes : Option (Fin n)) : Option (ThreadPool κ n) :=
  match p.callers k with
  | .idle => none
  | .checking call =>
    if p.stop then
      some { p.setCaller k .idle with queueMutex := none, thrown := p.thrown ++ [call] }
    else
      some (p.setCaller k (.admitted call))
  | .admitted call =>
    some { p.setCaller k .enqueued with
      tasksQueue := p.tasksQueue ++ [call], accepted := p.accepted ++ [call] }
  | .enqueued => some { p.setCaller k .notifying with queueMutex := none }
  | .notifying => (p.notifyOne wakes).map (·.setCaller k .idle)

def step (p : ThreadPool κ n) : PoolAction κ n → Option (ThreadPool κ n)
  | .submitTask k => p.submitTask k
  | .caller k wakes => p.callerStep k wakes
  | .worker w => p.workerStep w
  | .spuriousWakeup w => if p.workers w = .blocked then some (p.setWorker w .woken) else none
  | .destructor => p.destructorStep

end ThreadPool

/-! ## What each thread's step can do -/

namespace ThreadPool

variable {κ : Type} {n : ℕ} {p p' : ThreadPool κ n} {w : Fin n}

inductive WorkerStepped (p : ThreadPool κ n) (w : Fin n) : ThreadPool κ n → Prop
  | locks : p.workers w = .locking ∨ p.workers w = .woken → p.queueMutex = none →
      WorkerStepped p w { p.setWorker w .evaluating with queueMutex := some (.worker w) }
  | passes : p.workers w = .evaluating → p.stop = true ∨ p.tasksQueue ≠ [] →
      WorkerStepped p w (p.setWorker w .ready)
  | fails : p.workers w = .evaluating → p.stop = false → p.tasksQueue = [] →
      WorkerStepped p w (p.setWorker w .blocking)
  | blocks : p.workers w = .blocking →
      WorkerStepped p w { p.setWorker w .blocked with queueMutex := none }
  | leaves : p.workers w = .ready → p.stop = true → p.tasksQueue = [] →
      WorkerStepped p w { p.setWorker w .returned with queueMutex := none }
  | stays : p.workers w = .ready → ¬ (p.stop = true ∧ p.tasksQueue = []) →
      WorkerStepped p w (p.setWorker w .taking)
  | underflows : p.workers w = .taking → p.tasksQueue = [] →
      WorkerStepped p w (p.setWorker w .undefined)
  | takes (task : ℕ) (tasks : List ℕ) : p.workers w = .taking → p.tasksQueue = task :: tasks →
      WorkerStepped p w { p.setWorker w (.running task) with
        queueMutex := none, tasksQueue := tasks, taken := p.taken ++ [task] }
  | finishes (task : ℕ) : p.workers w = .running task →
      WorkerStepped p w { p.setWorker w .locking with ran := p.ran ++ [task] }

theorem workerStepped_of_lock (hw : p.workers w = .locking ∨ p.workers w = .woken)
    (hstep : p.lockForWait w = some p') : WorkerStepped p w p' := by
  unfold lockForWait at hstep
  split at hstep
  · next hfree =>
    cases hstep
    exact .locks hw hfree
  · cases hstep

theorem workerStepped (hstep : p.workerStep w = some p') : WorkerStepped p w p' := by
  unfold workerStep at hstep
  cases hw : p.workers w with
  | locking =>
    simp only [hw] at hstep
    exact workerStepped_of_lock (.inl hw) hstep
  | woken =>
    simp only [hw] at hstep
    exact workerStepped_of_lock (.inr hw) hstep
  | evaluating =>
    simp only [hw, Option.some.injEq] at hstep
    subst hstep
    split
    · next hpred => exact .passes hw (by simpa using hpred)
    · next hpred =>
      simp only [Bool.or_eq_true, Bool.not_eq_true', List.isEmpty_eq_false_iff, not_or,
        Bool.not_eq_true, ne_eq, not_not] at hpred
      exact .fails hw hpred.1 hpred.2
  | blocking =>
    simp only [hw, Option.some.injEq] at hstep
    subst hstep
    exact .blocks hw
  | ready =>
    simp only [hw] at hstep
    split at hstep
    · next hleave =>
      cases hstep
      simp only [Bool.and_eq_true, List.isEmpty_iff] at hleave
      exact .leaves hw hleave.1 hleave.2
    · next hstay =>
      cases hstep
      exact .stays hw (by simpa using hstay)
  | taking =>
    simp only [hw] at hstep
    split at hstep
    · next hempty =>
      cases hstep
      exact .underflows hw hempty
    · next task tasks hcons =>
      cases hstep
      exact .takes task tasks hw hcons
  | running task =>
    simp only [hw, Option.some.injEq] at hstep
    subst hstep
    exact .finishes task hw
  | blocked | returned | undefined =>
    simp [hw] at hstep

theorem workerStep_frame (hstep : p.workerStep w = some p') :
    ∃ phase, p'.workers = Function.update p.workers w phase ∧ p'.callers = p.callers ∧
      p'.stop = p.stop ∧ p'.destructor = p.destructor ∧ p'.accepted = p.accepted ∧
      p'.thrown = p.thrown ∧ p.workers w ≠ .returned ∧
      (phase = .blocking → p.stop = false) ∧ (phase = .blocked → p.workers w = .blocking) := by
  cases workerStepped hstep with
  | locks hw =>
    refine ⟨_, rfl, rfl, rfl, rfl, rfl, rfl, ?_, by simp, by simp⟩
    rcases hw with hw | hw <;> simp [hw]
  | fails hw hstop =>
    exact ⟨_, rfl, rfl, rfl, rfl, rfl, rfl, by simp [hw], fun _ => hstop, by simp⟩
  | blocks hw => exact ⟨_, rfl, rfl, rfl, rfl, rfl, rfl, by simp [hw], by simp, fun _ => hw⟩
  | passes hw | leaves hw | stays hw | underflows hw | takes _ _ hw | finishes _ hw =>
    exact ⟨_, rfl, rfl, rfl, rfl, rfl, rfl, by simp [hw], by simp, by simp⟩

theorem notifyOne_cases {wakes : Option (Fin n)} (hstep : p.notifyOne wakes = some p') :
    (∃ w, p.workers w = .blocked ∧ p' = p.setWorker w .woken) ∨
      (∀ w, p.workers w ≠ .blocked) ∧ p' = p := by
  unfold notifyOne at hstep
  split at hstep <;> split at hstep
  · next w hw =>
    cases hstep
    exact .inl ⟨w, hw, rfl⟩
  · cases hstep
  · next hnone =>
    cases hstep
    exact .inr ⟨hnone, rfl⟩
  · cases hstep

inductive DestructorStepped (p : ThreadPool κ n) : ThreadPool κ n → Prop
  | stores : p.destructor = .alive →
      DestructorStepped p { p with stop := true, destructor := .stored }
  | notifies : p.destructor = .stored →
      DestructorStepped p { p.notifyAll with destructor := .notified }
  | joins : p.destructor = .notified → (∀ w, p.workers w = .returned) →
      DestructorStepped p { p with destructor := .joined }

theorem destructorStepped (hstep : p.destructorStep = some p') : DestructorStepped p p' := by
  unfold destructorStep at hstep
  split at hstep
  · next hd =>
    cases hstep
    exact .stores hd
  · next hd =>
    cases hstep
    exact .notifies hd
  · next hd =>
    split at hstep
    · next hall =>
      cases hstep
      exact .joins hd hall
    · cases hstep
  · cases hstep

variable [DecidableEq κ] {k : κ}

theorem submitTask_eq_some (hstep : p.submitTask k = some p') :
    p.callers k = .idle ∧ p.queueMutex = none ∧
      p' = { p.setCaller k (.checking p.entered) with
        queueMutex := some (.caller k), entered := p.entered + 1 } := by
  unfold submitTask at hstep
  split at hstep
  · next hidle hfree =>
    cases hstep
    exact ⟨hidle, hfree, rfl⟩
  · cases hstep

theorem spuriousWakeup_eq_some (hstep : p.step (.spuriousWakeup w) = some p') :
    p.workers w = .blocked ∧ p' = p.setWorker w .woken := by
  simp only [step] at hstep
  split at hstep
  · next hw =>
    cases hstep
    exact ⟨hw, rfl⟩
  · cases hstep

inductive CallerStepped (p : ThreadPool κ n) (k : κ) : ThreadPool κ n → Prop
  | throws (call : ℕ) : p.callers k = .checking call → p.stop = true →
      CallerStepped p k
        { p.setCaller k .idle with queueMutex := none, thrown := p.thrown ++ [call] }
  | admits (call : ℕ) : p.callers k = .checking call → p.stop = false →
      CallerStepped p k (p.setCaller k (.admitted call))
  | enqueues (call : ℕ) : p.callers k = .admitted call →
      CallerStepped p k { p.setCaller k .enqueued with
        tasksQueue := p.tasksQueue ++ [call], accepted := p.accepted ++ [call] }
  | unlocks : p.callers k = .enqueued →
      CallerStepped p k { p.setCaller k .notifying with queueMutex := none }
  | wakes (w : Fin n) : p.callers k = .notifying → p.workers w = .blocked →
      CallerStepped p k ((p.setWorker w .woken).setCaller k .idle)
  | wakesNone : p.callers k = .notifying → (∀ w, p.workers w ≠ .blocked) →
      CallerStepped p k (p.setCaller k .idle)

theorem callerStepped {wakes : Option (Fin n)} (hstep : p.callerStep k wakes = some p') :
    CallerStepped p k p' := by
  unfold callerStep at hstep
  cases hk : p.callers k with
  | idle =>
    simp [hk] at hstep
  | checking call =>
    simp only [hk] at hstep
    split at hstep
    · next hstop =>
      cases hstep
      exact .throws call hk hstop
    · next hstop =>
      cases hstep
      exact .admits call hk (Bool.eq_false_iff.mpr hstop)
  | admitted call =>
    simp only [hk, Option.some.injEq] at hstep
    subst hstep
    exact .enqueues call hk
  | enqueued =>
    simp only [hk, Option.some.injEq] at hstep
    subst hstep
    exact .unlocks hk
  | notifying =>
    simp only [hk, Option.map_eq_some_iff] at hstep
    obtain ⟨q, hq, rfl⟩ := hstep
    rcases notifyOne_cases hq with ⟨w, hw, rfl⟩ | ⟨hnone, rfl⟩
    · exact .wakes w hk hw
    · exact .wakesNone hk hnone

end ThreadPool

/-! ## Mutual exclusion -/

def WorkerPhase.Holds : WorkerPhase → Prop
  | .evaluating | .blocking | .ready | .taking | .undefined => True
  | _ => False

def SubmitPhase.Holds : SubmitPhase → Prop
  | .checking _ | .admitted _ | .enqueued => True
  | .idle | .notifying => False

namespace ThreadPool

variable {κ : Type} {n : ℕ}

def Inside (workers : Fin n → WorkerPhase) (callers : κ → SubmitPhase) : PoolThread κ n → Prop
  | .worker w => (workers w).Holds
  | .caller k => (callers k).Holds

def Exclusive (p : ThreadPool κ n) : Prop := Guarded p.queueMutex (Inside p.workers p.callers)

theorem Exclusive.new (threadCount : ℕ) : Exclusive (new threadCount : ThreadPool κ _) := by
  intro t
  cases t <;> simp [ThreadPool.new, Inside, WorkerPhase.Holds, SubmitPhase.Holds]

variable {p p' : ThreadPool κ n} {w : Fin n} {k : κ}

theorem Exclusive.alone_worker (h : Exclusive p) (hw : (p.workers w).Holds) :
    (∀ v, (p.workers v).Holds → v = w) ∧ ∀ k, ¬ (p.callers k).Holds := by
  have hinside : Inside p.workers p.callers (.worker w) := hw
  constructor
  · intro v hv
    have hinside' : Inside p.workers p.callers (.worker v) := hv
    cases h.unique hinside' hinside
    rfl
  · intro k hk
    have hinside' : Inside p.workers p.callers (.caller k) := hk
    cases h.unique hinside' hinside

theorem Exclusive.alone_caller (h : Exclusive p) (hk : (p.callers k).Holds) :
    (∀ v, ¬ (p.workers v).Holds) ∧ ∀ j, (p.callers j).Holds → j = k := by
  have hinside : Inside p.workers p.callers (.caller k) := hk
  constructor
  · intro v hv
    have hinside' : Inside p.workers p.callers (.worker v) := hv
    cases h.unique hinside' hinside
  · intro j hj
    have hinside' : Inside p.workers p.callers (.caller j) := hj
    cases h.unique hinside' hinside
    rfl

theorem Exclusive.free (h : Exclusive p) (hfree : p.queueMutex = none) :
    (∀ v, ¬ (p.workers v).Holds) ∧ ∀ k, ¬ (p.callers k).Holds := by
  constructor
  · intro v hv
    have hholder : p.queueMutex = some (.worker v) := (h (.worker v)).mp hv
    simp [hfree] at hholder
  · intro k hk
    have hholder : p.queueMutex = some (.caller k) := (h (.caller k)).mp hk
    simp [hfree] at hholder

theorem inside_update_worker_of_ne {workers : Fin n → WorkerPhase} {callers : κ → SubmitPhase}
    {phase : WorkerPhase} {t : PoolThread κ n} (ht : t ≠ .worker w) :
    Inside (Function.update workers w phase) callers t ↔ Inside workers callers t := by
  cases t with
  | worker v =>
    have hv : v ≠ w := fun h => ht (h ▸ rfl)
    simp [Inside, hv]
  | caller j => rfl

theorem Exclusive.keep_worker (h : Exclusive p) {phase : WorkerPhase}
    (hholds : phase.Holds ↔ (p.workers w).Holds) :
    Guarded p.queueMutex (Inside (Function.update p.workers w phase) p.callers) := by
  apply Guarded.keep h
  intro t
  by_cases ht : t = .worker w
  · subst ht
    simpa [Inside] using hholds
  · exact inside_update_worker_of_ne ht

theorem Exclusive.acquire_worker (h : Exclusive p) (hfree : p.queueMutex = none)
    {phase : WorkerPhase} (hphase : phase.Holds) :
    Guarded (some (.worker w)) (Inside (Function.update p.workers w phase) p.callers) := by
  have hguarded : Guarded none (Inside p.workers p.callers) := hfree ▸ h
  apply hguarded.acquire
  · simpa [Inside] using hphase
  · intro t ht
    exact inside_update_worker_of_ne ht

theorem Exclusive.release_worker (h : Exclusive p) (hw : (p.workers w).Holds)
    {phase : WorkerPhase} (hphase : ¬ phase.Holds) :
    Guarded none (Inside (Function.update p.workers w phase) p.callers) := by
  have hinside : Inside p.workers p.callers (.worker w) := hw
  apply Guarded.release h hinside
  · simpa [Inside] using hphase
  · intro t ht
    exact inside_update_worker_of_ne ht

theorem Exclusive.notifyAll (h : Exclusive p) : Exclusive p.notifyAll := by
  apply Guarded.keep h
  intro t
  cases t with
  | worker v =>
    by_cases hv : p.workers v = .blocked
    · simp [Inside, ThreadPool.notifyAll, hv, WorkerPhase.Holds]
    · simp [Inside, ThreadPool.notifyAll, hv]
  | caller j => rfl

theorem Exclusive.workerStep (h : Exclusive p) (hstep : p.workerStep w = some p') :
    Exclusive p' := by
  cases workerStepped hstep with
  | locks _ hfree => exact h.acquire_worker hfree trivial
  | blocks hw | leaves hw | takes _ _ hw => exact h.release_worker (by rw [hw]; trivial) id
  | passes hw | fails hw | stays hw | underflows hw | finishes _ hw =>
    exact h.keep_worker (by rw [hw]; rfl)

theorem Exclusive.wake (h : Exclusive p) (hw : p.workers w = .blocked) :
    Exclusive (p.setWorker w .woken) :=
  h.keep_worker (by rw [hw]; rfl)

theorem Exclusive.destructorStep (h : Exclusive p) (hstep : p.destructorStep = some p') :
    Exclusive p' := by
  cases destructorStepped hstep with
  | stores => exact h
  | notifies => exact h.notifyAll
  | joins => exact h

variable [DecidableEq κ]

theorem inside_update_caller_of_ne {workers : Fin n → WorkerPhase} {callers : κ → SubmitPhase}
    {phase : SubmitPhase} {t : PoolThread κ n} (ht : t ≠ .caller k) :
    Inside workers (Function.update callers k phase) t ↔ Inside workers callers t := by
  cases t with
  | worker v => rfl
  | caller j =>
    have hj : j ≠ k := fun h => ht (h ▸ rfl)
    simp [Inside, hj]

theorem Exclusive.keep_caller (h : Exclusive p) {phase : SubmitPhase}
    (hholds : phase.Holds ↔ (p.callers k).Holds) :
    Guarded p.queueMutex (Inside p.workers (Function.update p.callers k phase)) := by
  apply Guarded.keep h
  intro t
  by_cases ht : t = .caller k
  · subst ht
    simpa [Inside] using hholds
  · exact inside_update_caller_of_ne ht

theorem Exclusive.acquire_caller (h : Exclusive p) (hfree : p.queueMutex = none)
    {phase : SubmitPhase} (hphase : phase.Holds) :
    Guarded (some (.caller k)) (Inside p.workers (Function.update p.callers k phase)) := by
  have hguarded : Guarded none (Inside p.workers p.callers) := hfree ▸ h
  apply hguarded.acquire
  · simpa [Inside] using hphase
  · intro t ht
    exact inside_update_caller_of_ne ht

theorem Exclusive.release_caller (h : Exclusive p) (hk : (p.callers k).Holds)
    {phase : SubmitPhase} (hphase : ¬ phase.Holds) :
    Guarded none (Inside p.workers (Function.update p.callers k phase)) := by
  have hinside : Inside p.workers p.callers (.caller k) := hk
  apply Guarded.release h hinside
  · simpa [Inside] using hphase
  · intro t ht
    exact inside_update_caller_of_ne ht

theorem Exclusive.submitTask (h : Exclusive p) (hstep : p.submitTask k = some p') :
    Exclusive p' := by
  obtain ⟨-, hfree, rfl⟩ := submitTask_eq_some hstep
  exact h.acquire_caller hfree trivial

theorem Exclusive.callerStep (h : Exclusive p) {wakes : Option (Fin n)}
    (hstep : p.callerStep k wakes = some p') : Exclusive p' := by
  cases callerStepped hstep with
  | throws _ hk | unlocks hk => exact h.release_caller (by rw [hk]; trivial) id
  | admits _ hk | enqueues _ hk | wakesNone hk => exact h.keep_caller (by rw [hk]; rfl)
  | wakes w hk hw =>
    apply (h.wake hw).keep_caller
    change SubmitPhase.Holds .idle ↔ (p.callers k).Holds
    rw [hk]
    rfl

end ThreadPool
end HttpReactor
