import HttpReactor.Staffing
import HttpReactor.TaskAccounting
import HttpReactor.PoolShutdown

/-!
# No worker sleeps while tasks wait

`SubmitTask` notifies one worker after it has released `queue_mutex_`, and a worker that
finds the queue empty blocks. No wake-up is lost between the two: as long as some worker
waits, each queued task has a thread of its own that is coming to the queue, a worker that
is awake or a call that has yet to notify.
-/

namespace HttpReactor
open Mutex Refinement

def WorkerPhase.Active : WorkerPhase → Prop
  | .locking | .evaluating | .woken | .ready | .taking => True
  | _ => False

def SubmitPhase.Announcing : SubmitPhase → Prop
  | .enqueued | .notifying => True
  | _ => False

namespace ThreadPool

variable {κ : Type} {n : ℕ}

def Coming (workers : Fin n → WorkerPhase) (callers : κ → SubmitPhase) : PoolThread κ n → Prop
  | .worker w => (workers w).Active
  | .caller k => (callers k).Announcing

structure Attended (p : ThreadPool κ n) : Prop where
  accounted : Accounted p
  blocking : ∀ w, p.workers w = .blocking → p.tasksQueue = []
  staffed : (∃ w, p.workers w = .blocked) →
    Staffed (Coming p.workers p.callers) p.tasksQueue.length

theorem Attended.new (threadCount : ℕ) : Attended (new threadCount : ThreadPool κ _) where
  accounted := Accounted.new threadCount
  blocking := fun _ _ => rfl
  staffed := fun _ => Staffed.empty

variable {p p' : ThreadPool κ n} {w : Fin n} {k : κ}

theorem coming_setWorker {phase : WorkerPhase} (hphase : (p.workers w).Active → phase.Active)
    (t : PoolThread κ n) (h : Coming p.workers p.callers t) :
    Coming (Function.update p.workers w phase) p.callers t := by
  cases t with
  | worker v =>
    by_cases hv : v = w
    · subst hv
      simpa [Coming] using hphase h
    · simpa [Coming, hv] using h
  | caller j => exact h

theorem coming_other_worker {phase : WorkerPhase} {t : PoolThread κ n} (ht : t ≠ .worker w)
    (h : Coming p.workers p.callers t) :
    Coming (Function.update p.workers w phase) p.callers t := by
  cases t with
  | worker v =>
    have hv : v ≠ w := fun hv => ht (hv ▸ rfl)
    simpa [Coming, hv] using h
  | caller j => exact h

theorem Attended.moveWorker (h : Attended p) {holder : Option (PoolThread κ n)}
    {phase : WorkerPhase} (ran : List ℕ)
    (haccounted : Accounted { p.setWorker w phase with queueMutex := holder, ran := ran })
    (hblocking : phase = .blocking → p.tasksQueue = []) (hblocked : phase ≠ .blocked)
    (hactive : (p.workers w).Active → phase.Active ∨ p.tasksQueue = []) :
    Attended { p.setWorker w phase with queueMutex := holder, ran := ran } where
  accounted := haccounted
  blocking := fun v hv => by
    by_cases hvw : v = w
    · subst hvw
      exact hblocking (by simpa [setWorker] using hv)
    · exact h.blocking v (by simpa [setWorker, hvw] using hv)
  staffed := fun hsome => by
    obtain ⟨v, hv⟩ := hsome
    have hvw : v ≠ w := by
      intro hvw
      subst hvw
      exact hblocked (by simpa [setWorker] using hv)
    have hs := h.staffed ⟨v, by simpa [setWorker, hvw] using hv⟩
    by_cases hq : p.tasksQueue = []
    · change Staffed _ p.tasksQueue.length
      rw [hq]
      exact Staffed.empty
    · exact hs.mono (coming_setWorker fun ha => (hactive ha).resolve_right hq) (Nat.le_refl _)

theorem Attended.workerStep (h : Attended p) (hstep : p.workerStep w = some p') :
    Attended p' := by
  have ha := h.accounted.workerStep hstep
  cases workerStepped hstep with
  | locks hw =>
    exact h.moveWorker p.ran ha nofun nofun fun _ => Or.inl trivial
  | passes hw | stays hw => exact h.moveWorker p.ran ha nofun nofun fun _ => Or.inl trivial
  | fails hw hstop hq => exact h.moveWorker p.ran ha (fun _ => hq) nofun fun _ => Or.inr hq
  | leaves hw hstop hq => exact h.moveWorker p.ran ha nofun nofun fun _ => Or.inr hq
  | underflows hw hq => exact h.moveWorker p.ran ha nofun nofun fun _ => Or.inr hq
  | finishes task hw => exact h.moveWorker _ ha nofun nofun fun _ => Or.inl trivial
  | blocks hw =>
    have hq := h.blocking w hw
    refine ⟨ha, fun v hv => hq, fun _ => ?_⟩
    change Staffed _ p.tasksQueue.length
    rw [hq]
    exact Staffed.empty
  | takes task tasks hw hcons =>
    have halone := (h.accounted.exclusive.alone_worker (by rw [hw]; trivial)).1
    refine ⟨ha, fun v hv => ?_, fun hsome => ?_⟩
    · by_cases hvw : v = w
      · subst hvw
        simp [setWorker] at hv
      · have hv' : p.workers v = .blocking := by simpa [setWorker, hvw] using hv
        exact absurd (halone v (by rw [hv']; trivial)) hvw
    · obtain ⟨v, hv⟩ := hsome
      have hvw : v ≠ w := by
        intro hvw
        subst hvw
        simp [setWorker] at hv
      have hs := h.staffed ⟨v, by simpa [setWorker, hvw] using hv⟩
      rw [hcons, List.length_cons] at hs
      classical
      exact hs.leave (.worker w) fun u hu hc => coming_other_worker hu hc

theorem Attended.wake (h : Attended p) (hw : p.workers w = .blocked) :
    Attended (p.setWorker w .woken) :=
  h.moveWorker p.ran (h.accounted.wake hw) nofun nofun fun _ => Or.inl trivial

theorem Attended.destructorStep (h : Attended p) (hstep : p.destructorStep = some p') :
    Attended p' := by
  have ha := h.accounted.destructorStep hstep
  cases destructorStepped hstep with
  | stores hd => exact ⟨ha, h.blocking, h.staffed⟩
  | joins hd hall => exact ⟨ha, h.blocking, h.staffed⟩
  | notifies hd =>
    refine ⟨ha, fun v hv => ?_, fun hsome => ?_⟩
    · by_cases hb : p.workers v = .blocked
      · simp [ThreadPool.notifyAll, hb] at hv
      · exact h.blocking v (by simpa [ThreadPool.notifyAll, hb] using hv)
    · obtain ⟨v, hv⟩ := hsome
      by_cases hb : p.workers v = .blocked
      · simp [ThreadPool.notifyAll, hb] at hv
      · simp [ThreadPool.notifyAll, hb] at hv

theorem Attended.waiting (h : Attended p) (hw : (p.workers w).Waiting) :
    Staffed (Coming p.workers p.callers) p.tasksQueue.length := by
  rcases hw with hw | hw
  · rw [h.blocking w hw]
    exact Staffed.empty
  · exact h.staffed ⟨w, hw⟩

variable [DecidableEq κ]

theorem coming_setCaller {phase : SubmitPhase}
    (hphase : (p.callers k).Announcing → phase.Announcing)
    (t : PoolThread κ n) (h : Coming p.workers p.callers t) :
    Coming p.workers (Function.update p.callers k phase) t := by
  cases t with
  | worker v => exact h
  | caller j =>
    by_cases hj : j = k
    · subst hj
      simpa [Coming] using hphase h
    · simpa [Coming, hj] using h

theorem Attended.moveCaller (h : Attended p) {holder : Option (PoolThread κ n)}
    {phase : SubmitPhase} (entered : ℕ) (thrown : List ℕ)
    (haccounted : Accounted { p.setCaller k phase with
      queueMutex := holder, entered := entered, thrown := thrown })
    (hphase : (p.callers k).Announcing → phase.Announcing ∨ ∀ w, p.workers w ≠ .blocked) :
    Attended { p.setCaller k phase with
      queueMutex := holder, entered := entered, thrown := thrown } where
  accounted := haccounted
  blocking := h.blocking
  staffed := fun hsome => (h.staffed hsome).mono
    (coming_setCaller fun ha => (hphase ha).resolve_right fun hnone =>
      hsome.elim fun w hw => hnone w hw) (Nat.le_refl _)

theorem Attended.callerStep (h : Attended p) {wakes : Option (Fin n)}
    (hstep : p.callerStep k wakes = some p') : Attended p' := by
  have ha := h.accounted.callerStep hstep
  cases callerStepped hstep with
  | throws call hk hstop =>
    exact h.moveCaller p.entered _ ha fun hc => by rw [hk] at hc; exact hc.elim
  | admits call hk hstop =>
    exact h.moveCaller p.entered p.thrown ha fun hc => by rw [hk] at hc; exact hc.elim
  | unlocks hk => exact h.moveCaller p.entered p.thrown ha fun _ => Or.inl trivial
  | wakesNone hk hnone => exact h.moveCaller p.entered p.thrown ha fun _ => Or.inr hnone
  | enqueues call hk =>
    have halone := (h.accounted.exclusive.alone_caller (by rw [hk]; trivial)).1
    have hnone : ∀ v, p.workers v ≠ .blocking := fun v hv => halone v (by rw [hv]; trivial)
    refine ⟨ha, fun v hv => absurd hv (hnone v), fun hsome => ?_⟩
    change Staffed _ (p.tasksQueue ++ [call]).length
    rw [List.length_append]
    refine (h.staffed hsome).join (t := .caller k) ?_ ?_ (coming_setCaller fun _ => trivial)
    · simp [Coming, hk, SubmitPhase.Announcing]
    · simp [Coming, ThreadPool.setCaller, SubmitPhase.Announcing]
  | wakes w hk hw =>
    refine ⟨ha, fun v hv => ?_, fun hsome => ?_⟩
    · by_cases hvw : v = w
      · subst hvw
        simp [ThreadPool.setCaller, setWorker] at hv
      · exact h.blocking v (by simpa [ThreadPool.setCaller, setWorker, hvw] using hv)
    · -- the woken worker comes in the place of the call that has notified
      have hs := h.staffed ⟨w, hw⟩
      refine hs.replace (t := .caller k) (u := .worker w) ?_ ?_ fun v hv hc => ?_
      · simp [Coming, hw, WorkerPhase.Active]
      · simp [Coming, ThreadPool.setCaller, setWorker, WorkerPhase.Active]
      · cases v with
        | worker v =>
          by_cases hvw : v = w
          · subst hvw
            simp [Coming, ThreadPool.setCaller, setWorker, WorkerPhase.Active]
          · simpa [Coming, ThreadPool.setCaller, setWorker, hvw] using hc
        | caller j =>
          have hj : j ≠ k := fun hj => hv (hj ▸ rfl)
          simpa [Coming, ThreadPool.setCaller, setWorker, hj] using hc

theorem Attended.step (h : Attended p) {action : PoolAction κ n}
    (hstep : p.step action = some p') : Attended p' := by
  cases action with
  | submitTask k =>
    have ha := h.accounted.submitTask hstep
    obtain ⟨hidle, -, rfl⟩ := submitTask_eq_some hstep
    exact h.moveCaller _ p.thrown ha fun hc => by rw [hidle] at hc; exact hc.elim
  | caller k wakes => exact h.callerStep hstep
  | worker w => exact h.workerStep hstep
  | spuriousWakeup w =>
    obtain ⟨hw, rfl⟩ := spuriousWakeup_eq_some hstep
    exact h.wake hw
  | destructor => exact h.destructorStep hstep

theorem attended_of_run {threadCount : ℕ} {actions : List (PoolAction κ _)}
    {p : ThreadPool κ (max threadCount kMinThreadCount)}
    (h : runGuarded step (new threadCount) actions = some p) : Attended p :=
  runGuarded_invariant (fun _ _ _ _ hs hstep => hs.step hstep) (Attended.new threadCount) h

/-- While a worker waits, each queued task has a thread of its own that is coming for it. So
once no call has still to notify and the workers that are awake all run tasks, no task is
queued while a worker sleeps. -/
theorem no_worker_sleeps_on_tasks (threadCount : ℕ) (actions : List (PoolAction κ _))
    (p : ThreadPool κ (max threadCount kMinThreadCount))
    (h : runGuarded step (new threadCount) actions = some p) {w : Fin _}
    (hw : (p.workers w).Waiting) :
    Staffed (Coming p.workers p.callers) p.tasksQueue.length ∧
      ((∀ k, ¬ (p.callers k).Announcing) → (∀ v, ¬ (p.workers v).Active) →
        p.tasksQueue = []) := by
  have hs := (attended_of_run h).waiting hw
  refine ⟨hs, fun hcallers hworkers => List.length_eq_zero_iff.mp (hs.eq_zero fun t => ?_)⟩
  cases t with
  | worker v => exact hworkers v
  | caller k => exact hcallers k

def announcedTask : List (PoolAction ℕ (max 1 kMinThreadCount)) :=
  [.worker worker₀, .worker worker₀, .worker worker₀, .submitTask 0, .caller 0 none,
    .caller 0 none, .caller 0 none]

theorem no_worker_sleeps_on_tasks_announced :
    ∃ p, runGuarded step (new 1) announcedTask = some p ∧ p.tasksQueue = [0] ∧
      Staffed (Coming p.workers p.callers) p.tasksQueue.length :=
  ⟨_, rfl, rfl,
    (no_worker_sleeps_on_tasks 1 announcedTask _ rfl (w := worker₀) (Or.inr rfl)).1⟩

end ThreadPool

end HttpReactor
