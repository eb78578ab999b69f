import HttpReactor.ThreadPool
import Mathlib.Data.List.Nodup

/-!
# Every accepted task runs once, in order

Two ledgers follow the calls and the tasks of a `ThreadPool`: a call that has entered its
critical section is pending, accepted or thrown, and an accepted task is queued, running or
run. `WorkerFlow` says what a worker may rely on where it stands; its last part, that a
worker returns only when nothing can be enqueued any more, is why no accepted task is left.
-/

namespace HttpReactor
open Mutex Refinement

def SubmitPhase.pending : SubmitPhase → Option ℕ
  | .checking call | .admitted call => some call
  | _ => none

/-- Every call that has entered is pending, accepted or thrown, and only one of these. -/
structure CallLedger {κ : Type} (callers : κ → SubmitPhase) (entered : ℕ)
    (accepted thrown : List ℕ) : Prop where
  sorted : accepted.Pairwise (· < ·)
  accepted_lt : ∀ call ∈ accepted, call < entered
  thrown_lt : ∀ call ∈ thrown, call < entered
  disjoint : ∀ call ∈ thrown, call ∉ accepted
  newest : ∀ k call, (callers k).pending = some call →
    call + 1 = entered ∧ call ∉ accepted ∧ call ∉ thrown
  known : ∀ call < entered,
    call ∈ thrown ∨ call ∈ accepted ∨ ∃ k, (callers k).pending = some call

/-- Every accepted task is queued, running on one worker or run, and only one of these. -/
structure TaskLedger {n : ℕ} (workers : Fin n → WorkerPhase)
    (tasksQueue accepted taken ran : List ℕ) : Prop where
  order : taken ++ tasksQueue = accepted
  ran_taken : ∀ task ∈ ran, task ∈ taken
  running_taken : ∀ w task, workers w = .running task → task ∈ taken ∧ task ∉ ran
  running_once : ∀ w v task, workers w = .running task → workers v = .running task → w = v
  run_or_running : ∀ task ∈ taken, task ∈ ran ∨ ∃ w, workers w = .running task
  ran_once : ran.Nodup

structure WorkerFlow {κ : Type} {n : ℕ} (stop : Bool) (tasksQueue : List ℕ)
    (workers : Fin n → WorkerPhase) (callers : κ → SubmitPhase) : Prop where
  ready : ∀ w, workers w = .ready → stop ∨ tasksQueue ≠ []
  taking : ∀ w, workers w = .taking → tasksQueue ≠ []
  defined : ∀ w, workers w ≠ .undefined
  returned : ∀ w, workers w = .returned →
    stop ∧ tasksQueue = [] ∧ ∀ k call, callers k ≠ .admitted call

section Ledgers

variable {κ : Type} {n : ℕ} {workers workers' : Fin n → WorkerPhase}
  {tasksQueue accepted taken ran : List ℕ} {w : Fin n} {task : ℕ}

theorem TaskLedger.congr (h : TaskLedger workers tasksQueue accepted taken ran)
    (hsame : ∀ v task, workers' v = .running task ↔ workers v = .running task) :
    TaskLedger workers' tasksQueue accepted taken ran where
  order := h.order
  ran_taken := h.ran_taken
  running_taken := by
    simp only [hsame]
    exact h.running_taken
  running_once := by
    simp only [hsame]
    exact h.running_once
  run_or_running := by
    simp only [hsame]
    exact h.run_or_running
  ran_once := h.ran_once

theorem TaskLedger.move (h : TaskLedger workers tasksQueue accepted taken ran)
    {phase : WorkerPhase} (hold : ∀ task, workers w ≠ .running task)
    (hnew : ∀ task, phase ≠ .running task) :
    TaskLedger (Function.update workers w phase) tasksQueue accepted taken ran := by
  apply h.congr
  intro v task
  by_cases hv : v = w
  · subst hv
    simp [hold, hnew]
  · simp [hv]

theorem TaskLedger.take {tasks : List ℕ}
    (h : TaskLedger workers (task :: tasks) accepted taken ran)
    (hsorted : accepted.Pairwise (· < ·)) (hold : ∀ task, workers w ≠ .running task) :
    TaskLedger (Function.update workers w (.running task)) tasks accepted (taken ++ [task])
      ran := by
  have hnot : task ∉ taken := by
    intro hmem
    rw [← h.order, List.pairwise_append] at hsorted
    exact absurd (hsorted.2.2 task hmem task List.mem_cons_self) (lt_irrefl task)
  have hran : task ∉ ran := fun hmem => hnot (h.ran_taken task hmem)
  have hrunning : ∀ v, workers v ≠ .running task :=
    fun v hv => hnot (h.running_taken v task hv).1
  refine ⟨?_, ?_, ?_, ?_, ?_, h.ran_once⟩
  · simpa using h.order
  · intro u hu
    exact List.mem_append_left _ (h.ran_taken u hu)
  · intro v u hv
    have htaken := h.running_taken v u
    grind [Function.update_apply]
  · intro v v' u hv hv'
    have honce := h.running_once v v' u
    grind [Function.update_apply]
  · intro u hu
    rcases List.mem_append.mp hu with hu | hu
    · rcases h.run_or_running u hu with hrun | ⟨v, hv⟩
      · exact .inl hrun
      · have hvw : v ≠ w := fun heq => hold u (heq ▸ hv)
        exact .inr ⟨v, by simpa [hvw] using hv⟩
    · exact .inr ⟨w, by simp [List.mem_singleton.mp hu]⟩

theorem TaskLedger.finish (h : TaskLedger workers tasksQueue accepted taken ran)
    (hw : workers w = .running task) :
    TaskLedger (Function.update workers w .locking) tasksQueue accepted taken
      (ran ++ [task]) := by
  have htask := h.running_taken w task hw
  refine ⟨h.order, ?_, ?_, ?_, ?_, ?_⟩
  · intro u hu
    rcases List.mem_append.mp hu with hu | hu
    · exact h.ran_taken u hu
    · rw [List.mem_singleton.mp hu]
      exact htask.1
  · intro v u hv
    have htaken := h.running_taken v u
    have honce := h.running_once v w u
    grind [Function.update_apply]
  · intro v v' u hv hv'
    have honce := h.running_once v v' u
    grind [Function.update_apply]
  · intro u hu
    rcases h.run_or_running u hu with hrun | ⟨v, hv⟩
    · exact .inl (List.mem_append_left _ hrun)
    · by_cases hvw : v = w
      · rw [hvw, hw] at hv
        cases hv
        exact .inl (List.mem_append_right _ (List.mem_singleton.mpr rfl))
      · exact .inr ⟨v, by simpa [hvw] using hv⟩
  · exact List.nodup_append.mpr ⟨h.ran_once, List.nodup_singleton task, by grind⟩

theorem TaskLedger.enqueue (h : TaskLedger workers tasksQueue accepted taken ran) (call : ℕ) :
    TaskLedger workers (tasksQueue ++ [call]) (accepted ++ [call]) taken ran where
  order := by rw [← List.append_assoc, h.order]
  ran_taken := h.ran_taken
  running_taken := h.running_taken
  running_once := h.running_once
  run_or_running := h.run_or_running
  ran_once := h.ran_once

variable {callers : κ → SubmitPhase} {k : κ} {entered call : ℕ} {thrown : List ℕ}

theorem CallLedger.congr (h : CallLedger callers entered accepted thrown)
    {callers' : κ → SubmitPhase} (hsame : ∀ j, (callers' j).pending = (callers j).pending) :
    CallLedger callers' entered accepted thrown where
  sorted := h.sorted
  accepted_lt := h.accepted_lt
  thrown_lt := h.thrown_lt
  disjoint := h.disjoint
  newest := by
    simp only [hsame]
    exact h.newest
  known := by
    simp only [hsame]
    exact h.known

variable [DecidableEq κ]

theorem CallLedger.move (h : CallLedger callers entered accepted thrown) {phase : SubmitPhase}
    (hphase : phase.pending = (callers k).pending) :
    CallLedger (Function.update callers k phase) entered accepted thrown := by
  apply h.congr
  intro j
  by_cases hj : j = k
  · subst hj
    simpa using hphase
  · simp [hj]

theorem CallLedger.enter (h : CallLedger callers entered accepted thrown)
    (hfree : ∀ j, (callers j).pending = none) :
    CallLedger (Function.update callers k (.checking entered)) (entered + 1) accepted thrown := by
  refine ⟨h.sorted, ?_, ?_, h.disjoint, ?_, ?_⟩
  · intro c hc
    exact Nat.lt_succ_of_lt (h.accepted_lt c hc)
  · intro c hc
    exact Nat.lt_succ_of_lt (h.thrown_lt c hc)
  · intro j c hj
    by_cases hjk : j = k
    · subst hjk
      have hc : c = entered := by simpa [SubmitPhase.pending] using hj.symm
      subst hc
      exact ⟨rfl, fun hm => lt_irrefl _ (h.accepted_lt c hm),
        fun hm => lt_irrefl _ (h.thrown_lt c hm)⟩
    · simp [hjk, hfree j] at hj
  · intro c hc
    rcases Nat.lt_succ_iff_lt_or_eq.mp hc with hc | hc
    · rcases h.known c hc with hthrown | haccepted | ⟨j, hj⟩
      · exact .inl hthrown
      · exact .inr (.inl haccepted)
      · simp [hfree j] at hj
    · exact .inr (.inr ⟨k, by simp [hc, SubmitPhase.pending]⟩)

omit [DecidableEq κ] in
theorem CallLedger.known_append (h : CallLedger callers entered accepted thrown)
    (hk : (callers k).pending = some call) (hother : ∀ j, j ≠ k → (callers j).pending = none) :
    ∀ c < entered, c ∈ thrown ∨ c ∈ accepted ∨ c = call := by
  intro c hc
  rcases h.known c hc with hthrown | haccepted | ⟨j, hj⟩
  · exact .inl hthrown
  · exact .inr (.inl haccepted)
  · by_cases hjk : j = k
    · subst hjk
      rw [hk] at hj
      exact .inr (.inr (Option.some.inj hj).symm)
    · simp [hother j hjk] at hj

theorem pending_update_eq_none {phase : SubmitPhase} (hphase : phase.pending = none)
    (hother : ∀ j, j ≠ k → (callers j).pending = none) (j : κ) :
    (Function.update callers k phase j).pending = none := by
  by_cases hj : j = k
  · subst hj
    simpa using hphase
  · simpa [hj] using hother j hj

theorem CallLedger.throw (h : CallLedger callers entered accepted thrown)
    (hk : (callers k).pending = some call) (hother : ∀ j, j ≠ k → (callers j).pending = none) :
    CallLedger (Function.update callers k .idle) entered accepted (thrown ++ [call]) := by
  obtain ⟨hnew, haccepted, -⟩ := h.newest k call hk
  have hlt := h.thrown_lt
  have hdisjoint := h.disjoint
  have hknown := h.known_append hk hother
  refine ⟨h.sorted, h.accepted_lt, ?_, ?_, ?_, ?_⟩
  · grind
  · grind
  · intro j c hj
    rw [pending_update_eq_none rfl hother] at hj
    cases hj
  · grind

theorem CallLedger.accept (h : CallLedger callers entered accepted thrown)
    (hk : (callers k).pending = some call) (hother : ∀ j, j ≠ k → (callers j).pending = none) :
    CallLedger (Function.update callers k .enqueued) entered (accepted ++ [call]) thrown := by
  obtain ⟨hnew, haccepted, hthrown⟩ := h.newest k call hk
  have hlt := h.accepted_lt
  have hdisjoint := h.disjoint
  have hknown := h.known_append hk hother
  refine ⟨?_, ?_, h.thrown_lt, ?_, ?_, ?_⟩
  · apply List.pairwise_append.mpr
    refine ⟨h.sorted, List.pairwise_singleton _ _, ?_⟩
    -- the calls before it entered earlier, and it is not among them
    intro c hc d hd
    have hcd := hlt c hc
    grind
  · grind
  · grind
  · intro j c hj
    rw [pending_update_eq_none rfl hother] at hj
    cases hj
  · grind

variable {stop : Bool}

omit [DecidableEq κ] in
theorem WorkerFlow.move (h : WorkerFlow stop tasksQueue workers callers) {phase : WorkerPhase}
    (hready : phase = .ready → stop ∨ tasksQueue ≠ []) (htaking : phase = .taking → tasksQueue ≠ [])
    (hdefined : phase ≠ .undefined)
    (hreturned : phase = .returned →
      stop ∧ tasksQueue = [] ∧ ∀ k call, callers k ≠ .admitted call) :
    WorkerFlow stop tasksQueue (Function.update workers w phase) callers := by
  constructor <;> intro v <;> by_cases hv : v = w
  · subst hv
    simpa using hready
  · simpa [hv] using h.ready v
  · subst hv
    simpa using htaking
  · simpa [hv] using h.taking v
  · subst hv
    simpa using hdefined
  · simpa [hv] using h.defined v
  · subst hv
    simpa using hreturned
  · simpa [hv] using h.returned v

omit [DecidableEq κ] in
theorem WorkerFlow.take {tasks : List ℕ} (h : WorkerFlow stop (task :: tasks) workers callers)
    (halone : ∀ v, (workers v).Holds → v = w) :
    WorkerFlow stop tasks (Function.update workers w (.running task)) callers := by
  have hother : ∀ v, v ≠ w → ¬ (workers v).Holds := fun v hv hin => hv (halone v hin)
  constructor <;> intro v <;> by_cases hv : v = w
  · subst hv
    simp
  · intro hready
    rw [Function.update_of_ne hv] at hready
    exact absurd (by rw [hready]; trivial) (hother v hv)
  · subst hv
    simp
  · intro htaking
    rw [Function.update_of_ne hv] at htaking
    exact absurd (by rw [htaking]; trivial) (hother v hv)
  · subst hv
    simp
  · simpa [hv] using h.defined v
  · subst hv
    simp
  · intro hreturned
    rw [Function.update_of_ne hv] at hreturned
    exact absurd (h.returned v hreturned).2.1 (List.cons_ne_nil _ _)

omit [DecidableEq κ] in
theorem WorkerFlow.store (h : WorkerFlow stop tasksQueue workers callers) :
    WorkerFlow true tasksQueue workers callers where
  ready := fun _ _ => .inl rfl
  taking := h.taking
  defined := h.defined
  returned := fun v hv => ⟨rfl, (h.returned v hv).2⟩

theorem WorkerFlow.setCaller (h : WorkerFlow stop tasksQueue workers callers)
    {phase : SubmitPhase} (hphase : ∀ call, phase ≠ .admitted call) :
    WorkerFlow stop tasksQueue workers (Function.update callers k phase) where
  ready := h.ready
  taking := h.taking
  defined := h.defined
  returned := by
    intro v hv
    obtain ⟨hstop, hqueue, hnone⟩ := h.returned v hv
    refine ⟨hstop, hqueue, ?_⟩
    intro j call
    by_cases hj : j = k
    · subst hj
      simpa using hphase call
    · simpa [hj] using hnone j call

theorem WorkerFlow.admit (h : WorkerFlow stop tasksQueue workers callers) (hstop : stop = false) :
    WorkerFlow stop tasksQueue workers (Function.update callers k (.admitted call)) where
  ready := h.ready
  taking := h.taking
  defined := h.defined
  returned := by
  -- `stop_` is read before anything is enqueued, and no worker has returned without it.
    intro v hv
    have hset := (h.returned v hv).1
    rw [hstop] at hset
    cases hset

theorem WorkerFlow.enqueue (h : WorkerFlow stop tasksQueue workers callers)
    (hk : callers k = .admitted call) :
    WorkerFlow stop (tasksQueue ++ [call]) workers (Function.update callers k .enqueued) where
  ready := fun _ _ => .inr (by simp)
  taking := fun _ _ => by simp
  defined := h.defined
  returned := fun v hv => absurd hk ((h.returned v hv).2.2 k call)

end Ledgers

namespace ThreadPool

variable {κ : Type} {n : ℕ}

structure Accounted (p : ThreadPool κ n) : Prop where
  exclusive : Exclusive p
  calls : CallLedger p.callers p.entered p.accepted p.thrown
  tasks : TaskLedger p.workers p.tasksQueue p.accepted p.taken p.ran
  flow : WorkerFlow p.stop p.tasksQueue p.workers p.callers

theorem Accounted.new (threadCount : ℕ) : Accounted (new threadCount : ThreadPool κ _) where
  exclusive := Exclusive.new threadCount
  calls := by
    constructor <;> simp [ThreadPool.new, SubmitPhase.pending]
  tasks := by
    constructor <;> simp [ThreadPool.new]
  flow := by
    constructor <;> simp [ThreadPool.new]

variable {p p' : ThreadPool κ n} {w : Fin n} {k : κ}

theorem Accounted.moveWorker (h : Accounted p) {holder : Option (PoolThread κ n)}
    {phase : WorkerPhase}
    (hguarded : Guarded holder (Inside (Function.update p.workers w phase) p.callers))
    (hold : ∀ task, p.workers w ≠ .running task) (hnew : ∀ task, phase ≠ .running task)
    (hready : phase = .ready → p.stop ∨ p.tasksQueue ≠ [])
    (htaking : phase = .taking → p.tasksQueue ≠ []) (hdefined : phase ≠ .undefined)
    (hreturned : phase = .returned →
      p.stop ∧ p.tasksQueue = [] ∧ ∀ k call, p.callers k ≠ .admitted call) :
    Accounted { p.setWorker w phase with queueMutex := holder } where
  exclusive := hguarded
  calls := h.calls
  tasks := h.tasks.move hold hnew
  flow := h.flow.move hready htaking hdefined hreturned

theorem Accounted.wake (h : Accounted p) (hw : p.workers w = .blocked) :
    Accounted (p.setWorker w .woken) :=
  h.moveWorker (h.exclusive.wake hw) (by simp [hw]) (by simp) (by simp) (by simp) (by simp)
    (by simp)

theorem Accounted.workerStep (h : Accounted p) (hstep : p.workerStep w = some p') :
    Accounted p' := by
  have hexclusive := h.exclusive.workerStep hstep
  cases workerStepped hstep with
  | locks hw hfree =>
    apply h.moveWorker hexclusive ?_ (by simp) (by simp) (by simp) (by simp) (by simp)
    rcases hw with hw | hw <;> simp [hw]
  | passes hw hpred =>
    exact h.moveWorker hexclusive (by simp [hw]) (by simp) (fun _ => hpred) (by simp) (by simp)
      (by simp)
  | underflows hw hempty => exact absurd hempty (h.flow.taking w hw)
  | fails hw | blocks hw =>
    exact h.moveWorker hexclusive (by simp [hw]) (by simp) (by simp) (by simp) (by simp) (by simp)
  | leaves hw hstop hempty =>
    have halone := (h.exclusive.alone_worker (w := w) (by rw [hw]; trivial)).2
    apply h.moveWorker hexclusive (by simp [hw]) (by simp) (by simp) (by simp) (by simp)
    intro _
    refine ⟨hstop, hempty, ?_⟩
    -- the worker holds the mutex, so no call is past its test of `stop_`
    intro k call hk
    exact halone k (by rw [hk]; trivial)
  | stays hw hstay =>
    apply h.moveWorker hexclusive (by simp [hw]) (by simp) (by simp) ?_ (by simp) (by simp)
    intro _ hempty
    rcases h.flow.ready w hw with hstop | hqueue
    · exact hstay ⟨hstop, hempty⟩
    · exact hqueue hempty
  | takes task tasks hw hcons =>
    have halone := (h.exclusive.alone_worker (w := w) (by rw [hw]; trivial)).1
    have htasks := h.tasks
    have hflow := h.flow
    rw [hcons] at htasks hflow
    exact ⟨hexclusive, h.calls, htasks.take h.calls.sorted (by simp [hw]), hflow.take halone⟩
  | finishes task hw =>
    exact ⟨hexclusive, h.calls, h.tasks.finish hw,
      h.flow.move (by simp) (by simp) (by simp) (by simp)⟩

theorem Accounted.notifyAll (h : Accounted p) : Accounted p.notifyAll where
  exclusive := h.exclusive.notifyAll
  calls := h.calls
  tasks := by
    apply h.tasks.congr
    intro v task
    by_cases hv : p.workers v = .blocked <;> simp [ThreadPool.notifyAll, hv]
  flow := by
    have hflow := h.flow
    constructor <;> intro v <;> by_cases hv : p.workers v = .blocked <;>
      simp only [ThreadPool.notifyAll, hv, ↓reduceIte]
    · simp
    · exact hflow.ready v
    · simp
    · exact hflow.taking v
    · simp
    · exact hflow.defined v
    · simp
    · exact hflow.returned v

theorem Accounted.destructorStep (h : Accounted p) (hstep : p.destructorStep = some p') :
    Accounted p' := by
  cases destructorStepped hstep with
  | stores => exact ⟨h.exclusive, h.calls, h.tasks, h.flow.store⟩
  | notifies =>
    have hall := h.notifyAll
    exact ⟨hall.exclusive, hall.calls, hall.tasks, hall.flow⟩
  | joins => exact ⟨h.exclusive, h.calls, h.tasks, h.flow⟩

theorem pending_eq_none_of_not_holds {phase : SubmitPhase} (h : ¬ phase.Holds) :
    phase.pending = none := by
  cases phase <;> simp_all [SubmitPhase.pending, SubmitPhase.Holds]

theorem checking_of_pending {phase : SubmitPhase} {call : ℕ} (h : phase.pending = some call)
    (hadmitted : phase ≠ .admitted call) : phase = .checking call := by
  cases phase <;> simp_all [SubmitPhase.pending]

theorem Accounted.pending_eq_none (h : Accounted p) (hk : (p.callers k).Holds) (j : κ)
    (hj : j ≠ k) : (p.callers j).pending = none := by
  apply pending_eq_none_of_not_holds
  intro hin
  exact hj ((h.exclusive.alone_caller hk).2 j hin)

variable [DecidableEq κ]

theorem Accounted.submitTask (h : Accounted p) (hstep : p.submitTask k = some p') :
    Accounted p' := by
  have hexclusive := h.exclusive.submitTask hstep
  obtain ⟨-, hfree, rfl⟩ := submitTask_eq_some hstep
  refine ⟨hexclusive, h.calls.enter ?_, h.tasks, h.flow.setCaller (by simp)⟩
  intro j
  exact pending_eq_none_of_not_holds ((h.exclusive.free hfree).2 j)

theorem Accounted.callerStep (h : Accounted p) {wakes : Option (Fin n)}
    (hstep : p.callerStep k wakes = some p') : Accounted p' := by
  have hexclusive := h.exclusive.callerStep hstep
  cases callerStepped hstep with
  | throws call hk =>
    have hpending : (p.callers k).pending = some call := by
      rw [hk]
      rfl
    have hother := h.pending_eq_none (by rw [hk]; trivial)
    exact ⟨hexclusive, h.calls.throw hpending hother, h.tasks, h.flow.setCaller (by simp)⟩
  | admits call hk hstop =>
    exact ⟨hexclusive, h.calls.move (by rw [hk]; rfl), h.tasks, h.flow.admit hstop⟩
  | enqueues call hk =>
    have hpending : (p.callers k).pending = some call := by
      rw [hk]
      rfl
    have hother := h.pending_eq_none (by rw [hk]; trivial)
    exact ⟨hexclusive, h.calls.accept hpending hother, h.tasks.enqueue call, h.flow.enqueue hk⟩
  | unlocks hk =>
    exact ⟨hexclusive, h.calls.move (by rw [hk]; rfl), h.tasks, h.flow.setCaller (by simp)⟩
  | wakes w hk hw =>
    have hwake := h.wake hw
    exact ⟨hexclusive, h.calls.move (by rw [hk]; rfl), hwake.tasks,
      hwake.flow.setCaller (by simp)⟩
  | wakesNone hk =>
    exact ⟨hexclusive, h.calls.move (by rw [hk]; rfl), h.tasks, h.flow.setCaller (by simp)⟩

theorem Accounted.step (h : Accounted p) {action : PoolAction κ n}
    (hstep : p.step action = some p') : Accounted p' := by
  cases action with
  | submitTask k => exact h.submitTask hstep
  | caller k wakes => exact h.callerStep hstep
  | worker w => exact h.workerStep hstep
  | spuriousWakeup w =>
    obtain ⟨hw, rfl⟩ := spuriousWakeup_eq_some hstep
    exact h.wake hw
  | destructor => exact h.destructorStep hstep

theorem accounted_of_run {threadCount : ℕ} {actions : List (PoolAction κ _)}
    {p : ThreadPool κ (max threadCount kMinThreadCount)}
    (h : runGuarded step (new threadCount) actions = some p) : Accounted p :=
  runGuarded_invariant (fun _ _ _ _ hs hstep => hs.step hstep) (Accounted.new threadCount) h

/-! ## After the first worker has returned -/

theorem Accounted.step_returned (h : Accounted p) (hw : p.workers w = .returned)
    {action : PoolAction κ n} (hstep : p.step action = some p') :
    p'.workers w = .returned ∧ p'.accepted = p.accepted := by
  have hother : ∀ v, p.workers v ≠ .returned → w ≠ v := by
    intro v hv heq
    exact hv (heq ▸ hw)
  cases action with
  | submitTask k =>
    obtain ⟨-, -, rfl⟩ := submitTask_eq_some hstep
    exact ⟨hw, rfl⟩
  | caller k wakes =>
    cases callerStepped hstep with
    | enqueues call hk => exact absurd hk ((h.flow.returned w hw).2.2 k call)
    | wakes v _ hv =>
      have hne := hother v (by simp [hv])
      exact ⟨by simpa [ThreadPool.setCaller, setWorker, hne] using hw, rfl⟩
    | throws | admits | unlocks | wakesNone => exact ⟨hw, rfl⟩
  | worker v =>
    obtain ⟨phase, hworkers, -, -, -, haccepted, -, hv, -⟩ := workerStep_frame hstep
    rw [hworkers, Function.update_of_ne (hother v hv)]
    exact ⟨hw, haccepted⟩
  | spuriousWakeup v =>
    obtain ⟨hv, rfl⟩ := spuriousWakeup_eq_some hstep
    have hne := hother v (by simp [hv])
    exact ⟨by simpa [setWorker, hne] using hw, rfl⟩
  | destructor =>
    cases destructorStepped hstep with
    | notifies => exact ⟨by simp [ThreadPool.notifyAll, hw], rfl⟩
    | stores | joins => exact ⟨hw, rfl⟩

theorem step_thrown {action : PoolAction κ n} (hstep : p.step action = some p')
    (hthrown : p'.thrown ≠ p.thrown) : p'.tasksQueue = p.tasksQueue := by
  cases action with
  | submitTask k =>
    obtain ⟨-, -, rfl⟩ := submitTask_eq_some hstep
    rfl
  | caller k wakes =>
    cases callerStepped hstep with
    | enqueues => exact absurd rfl hthrown
    | throws | admits | unlocks | wakes | wakesNone => rfl
  | worker v =>
    obtain ⟨-, -, -, -, -, -, hsame, -⟩ := workerStep_frame hstep
    exact absurd hsame hthrown
  | spuriousWakeup v =>
    obtain ⟨-, rfl⟩ := spuriousWakeup_eq_some hstep
    rfl
  | destructor =>
    cases destructorStepped hstep with
    | stores | notifies | joins => rfl

theorem run_returned (h : Accounted p) (hw : p.workers w = .returned)
    {actions : List (PoolAction κ n)} (hrun : runGuarded step p actions = some p') :
    p'.accepted = p.accepted ∧ ∀ call, p.entered ≤ call → call < p'.entered →
      call ∈ p'.thrown ∨ ∃ k, p'.callers k = .checking call := by
  have hend : Accounted p' ∧ p'.workers w = .returned ∧ p'.accepted = p.accepted := by
    apply runGuarded_invariant ?_ ⟨h, hw, rfl⟩ hrun
    intro q action _ q' hq hstep
    have hnext := hq.1.step_returned hq.2.1 hstep
    exact ⟨hq.1.step hstep, hnext.1, hnext.2.trans hq.2.2⟩
  obtain ⟨hend, hw', haccepted⟩ := hend
  refine ⟨haccepted, ?_⟩
  intro call hge hlt
  rcases hend.calls.known call hlt with hthrown | hmem | ⟨k, hk⟩
  · exact .inl hthrown
  · rw [haccepted] at hmem
    exact absurd (h.calls.accepted_lt call hmem) (Nat.not_lt.mpr hge)
  · exact .inr ⟨k, checking_of_pending hk ((hend.flow.returned w hw').2.2 k call)⟩

/-- In every reachable state the tasks taken so far followed by the queue are the accepted ones
in the order in which their calls entered, and no task is run twice. A call that throws leaves
the queue as it is and its task is not among them. When all workers have returned, the queue is
empty and every call has run its task, has thrown, or is about to throw; and a call that enters
after some worker has returned throws. -/
theorem accepted_tasks_run_once (threadCount : ℕ) (actions : List (PoolAction κ _))
    (p : ThreadPool κ (max threadCount kMinThreadCount))
    (h : runGuarded step (new threadCount) actions = some p) :
    p.taken ++ p.tasksQueue = p.accepted ∧ p.accepted.Pairwise (· < ·) ∧
      p.ran.Nodup ∧ (∀ task ∈ p.ran, task ∈ p.taken) ∧
      (∀ call ∈ p.thrown, call ∉ p.accepted) ∧
      (∀ action p', p.step action = some p' → p'.thrown ≠ p.thrown →
        p'.tasksQueue = p.tasksQueue) ∧
      ((∀ w, p.workers w = .returned) → p.tasksQueue = [] ∧ ∀ call < p.entered,
        call ∈ p.ran ∨ call ∈ p.thrown ∨ ∃ k, p.callers k = .checking call) ∧
      ((∃ w, p.workers w = .returned) →
        (∀ k call wakes, p.callers k = .checking call → ∃ p', p.step (.caller k wakes) = some p' ∧
          p'.thrown = p.thrown ++ [call] ∧ p'.tasksQueue = p.tasksQueue) ∧
        ∀ actions' p', runGuarded step p actions' = some p' → p'.accepted = p.accepted ∧
          ∀ call, p.entered ≤ call → call < p'.entered →
            call ∈ p'.thrown ∨ ∃ k, p'.callers k = .checking call) := by
  have hacc := accounted_of_run h
  refine ⟨hacc.tasks.order, hacc.calls.sorted, hacc.tasks.ran_once, hacc.tasks.ran_taken,
    hacc.calls.disjoint, ?_, ?_, ?_⟩
  · intro action p' hstep hthrown
    exact step_thrown hstep hthrown
  · intro hall
    have hpos : 0 < max threadCount kMinThreadCount := lt_max_of_lt_right (by decide)
    have hflow := hacc.flow.returned ⟨0, hpos⟩ (hall _)
    refine ⟨hflow.2.1, ?_⟩
    intro call hlt
    rcases hacc.calls.known call hlt with hthrown | haccepted | ⟨k, hk⟩
    · exact .inr (.inl hthrown)
    · -- an accepted task has been taken, and no worker is running it any more
      rw [← hacc.tasks.order, hflow.2.1, List.append_nil] at haccepted
      rcases hacc.tasks.run_or_running call haccepted with hrun | ⟨w, hw⟩
      · exact .inl hrun
      · simp [hall w] at hw
    · exact .inr (.inr ⟨k, checking_of_pending hk (hflow.2.2 k call)⟩)
  · intro hsome
    obtain ⟨w, hw⟩ := hsome
    refine ⟨?_, fun actions' p' hrun => run_returned hacc hw hrun⟩
    intro k call wakes hk
    have hstop := (hacc.flow.returned w hw).1
    exact ⟨{ p.setCaller k .idle with queueMutex := none, thrown := p.thrown ++ [call] },
      by simp [step, callerStep, hk, hstop], rfl, rfl⟩

def stoppedWhileRunning : List (PoolAction ℕ (max 1 kMinThreadCount)) :=
  [.submitTask 0, .caller 0 none, .caller 0 none, .caller 0 none, .caller 0 none,
    .worker worker₀, .worker worker₀, .worker worker₀, .worker worker₀, .destructor,
    .worker worker₀, .worker worker₀, .worker worker₀, .worker worker₀, .worker worker₁,
    .worker worker₁, .worker worker₁, .submitTask 0, .caller 0 none]

theorem accepted_tasks_run_once_stopped :
    ∃ p, runGuarded step (new 1) stoppedWhileRunning = some p ∧
      (∀ w, p.workers w = .returned) ∧ p.ran = [0] ∧ p.thrown = [1] ∧ p.tasksQueue = [] := by
  refine ⟨_, rfl, by decide, rfl, rfl, ?_⟩
  exact ((accepted_tasks_run_once 1 stoppedWhileRunning _ rfl).2.2.2.2.2.2.1 (by decide)).1

end ThreadPool
end HttpReactor
