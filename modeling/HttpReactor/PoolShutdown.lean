import HttpReactor.ThreadPool

/-!
# Shutting the thread pool down

The destructor stores `stop_` and calls `notify_all` without `queue_mutex_`. A worker that
has found the predicate false still has to block, and a notification sent in between is
lost on it. `Stranded` is the state in which such a worker is blocked for good; it is
avoided exactly when the last notification finds no worker between its test and its block.
-/

namespace HttpReactor
open Mutex Refinement

def SubmitPhase.WillNotify : SubmitPhase → Prop
  | .admitted _ | .enqueued | .notifying => True
  | .idle | .checking _ => False

instance : DecidablePred SubmitPhase.WillNotify
  | .admitted _ | .enqueued | .notifying => isTrue trivial
  | .idle | .checking _ => isFalse id

def ShutdownPhase.PastNotify : ShutdownPhase → Prop
  | .alive | .stored => False
  | .notified | .joined => True

instance : DecidablePred ShutdownPhase.PastNotify
  | .alive | .stored => isFalse id
  | .notified | .joined => isTrue trivial

def WorkerPhase.Waiting (phase : WorkerPhase) : Prop := phase = .blocking ∨ phase = .blocked

namespace ThreadPool

variable {κ : Type} {n : ℕ}

/-- The destructor is past `notify_all`, a worker is blocked, and no call will notify. -/
def Stranded (p : ThreadPool κ n) : Prop :=
  p.destructor.PastNotify ∧ (∃ w, p.workers w = .blocked) ∧ ∀ k, ¬ (p.callers k).WillNotify

/-- The last notification, be it the destructor's or that of a call that was admitted before
the store to `stop_`, is not sent while a worker is between its test and its block. -/
def Timely (p : ThreadPool κ n) : PoolAction κ n → Prop
  | .destructor => p.destructor = .stored → (∃ w, p.workers w = .blocking) →
      ∃ j, (p.callers j).WillNotify
  | .caller k _ => p.destructor.PastNotify → p.callers k = .notifying →
      (∃ w, p.workers w = .blocking) → ∃ j, j ≠ k ∧ (p.callers j).WillNotify
  | _ => True

instance [Fintype κ] [DecidableEq κ] (p : ThreadPool κ n) : DecidablePred p.Timely
  | .destructor => inferInstanceAs (Decidable (_ → _ → ∃ _, _))
  | .caller _ _ => inferInstanceAs (Decidable (_ → _ → _ → ∃ _, _ ∧ _))
  | .submitTask _ | .worker _ | .spuriousWakeup _ => isTrue trivial

structure Signalled (p : ThreadPool κ n) : Prop where
  exclusive : Exclusive p
  stopped : p.destructor ≠ .alive → p.stop = true
  atMostOne : p.destructor.PastNotify → ∀ w v, (p.workers w).Waiting → (p.workers v).Waiting →
    w = v
  notified : p.destructor.PastNotify → (∃ w, (p.workers w).Waiting) →
    ∃ k, (p.callers k).WillNotify

theorem Signalled.new (threadCount : ℕ) : Signalled (new threadCount : ThreadPool κ _) where
  exclusive := Exclusive.new threadCount
  stopped := fun h => absurd rfl h
  atMostOne := fun h => h.elim
  notified := fun h => h.elim

variable {p p' : ThreadPool κ n} {w : Fin n} {k : κ}

theorem Signalled.not_stranded (h : Signalled p) : ¬ p.Stranded := by
  intro hstranded
  obtain ⟨hpast, ⟨w, hw⟩, hnone⟩ := hstranded
  obtain ⟨k, hk⟩ := h.notified hpast ⟨w, .inr hw⟩
  exact hnone k hk

theorem Signalled.fewer (h : Signalled p) (hexclusive : Exclusive p')
    (hdestructor : p'.destructor = p.destructor) (hstop : p'.stop = p.stop)
    (hwaiting : p.destructor.PastNotify → ∀ w, (p'.workers w).Waiting → (p.workers w).Waiting)
    (hcallers : ∀ k, (p.callers k).WillNotify → (p'.callers k).WillNotify) : Signalled p' where
  exclusive := hexclusive
  stopped := by
    rw [hdestructor, hstop]
    exact h.stopped
  atMostOne := by
    rw [hdestructor]
    intro hpast w v hw hv
    exact h.atMostOne hpast w v (hwaiting hpast w hw) (hwaiting hpast v hv)
  notified := by
    rw [hdestructor]
    intro hpast hsome
    obtain ⟨w, hw⟩ := hsome
    obtain ⟨k, hk⟩ := h.notified hpast ⟨w, hwaiting hpast w hw⟩
    exact ⟨k, hcallers k hk⟩

theorem ne_alive_of_pastNotify {phase : ShutdownPhase} (h : phase.PastNotify) :
    phase ≠ .alive := by
  intro heq
  rw [heq] at h
  exact h

theorem Signalled.workerStep (h : Signalled p) (hstep : p.workerStep w = some p') :
    Signalled p' := by
  obtain ⟨phase, hworkers, hcallers, hstop, hdestructor, -, -, -, hblocking, hblocked⟩ :=
    workerStep_frame hstep
  apply h.fewer (h.exclusive.workerStep hstep) hdestructor hstop
  · intro hpast v hv
    rw [hworkers] at hv
    by_cases hvw : v = w
    · subst hvw
      rw [Function.update_self] at hv
      rcases hv with hv | hv
      · -- after the store the predicate is true
        have hset := h.stopped (ne_alive_of_pastNotify hpast)
        rw [hblocking hv] at hset
        cases hset
      · exact .inl (hblocked hv)
    · rwa [Function.update_of_ne hvw] at hv
  · intro k hk
    rwa [hcallers]

theorem waiting_of_wake {v : Fin n} (hv : ((p.setWorker w .woken).workers v).Waiting) :
    (p.workers v).Waiting ∧ v ≠ w := by
  by_cases hvw : v = w
  · subst hvw
    simp [setWorker, WorkerPhase.Waiting] at hv
  · exact ⟨by simpa [setWorker, hvw] using hv, hvw⟩

theorem waiting_notifyAll {v : Fin n} (hv : (p.notifyAll.workers v).Waiting) :
    p.workers v = .blocking := by
  by_cases hblocked : p.workers v = .blocked
  · simp [notifyAll, hblocked, WorkerPhase.Waiting] at hv
  · simpa [notifyAll, hblocked, WorkerPhase.Waiting] using hv

theorem Signalled.destructorStep (h : Signalled p) (htimely : p.destructor = .stored →
      (∃ w, p.workers w = .blocking) → ∃ k, (p.callers k).WillNotify)
    (hstep : p.destructorStep = some p') : Signalled p' := by
  have hexclusive := h.exclusive.destructorStep hstep
  cases destructorStepped hstep with
  | stores =>
    exact ⟨hexclusive, fun _ => rfl, fun hpast => hpast.elim, fun hpast => hpast.elim⟩
  | notifies hstored =>
    refine ⟨hexclusive, fun _ => h.stopped (by simp [hstored]), ?_, ?_⟩
    · intro _ w v hw hv
      have hwb := waiting_notifyAll hw
      have hvb := waiting_notifyAll hv
      exact (h.exclusive.alone_worker (by rw [hvb]; trivial)).1 w (by rw [hwb]; trivial)
    · intro _ hsome
      obtain ⟨w, hw⟩ := hsome
      exact htimely hstored ⟨w, waiting_notifyAll hw⟩
  | joins hnotified =>
    have hpast : p.destructor.PastNotify := by
      rw [hnotified]
      trivial
    exact ⟨hexclusive, fun _ => h.stopped (by simp [hnotified]), fun _ => h.atMostOne hpast,
      fun _ => h.notified hpast⟩

variable [DecidableEq κ]

theorem willNotify_setCaller {phase : SubmitPhase}
    (hphase : (p.callers k).WillNotify → phase.WillNotify) (j : κ)
    (hj : (p.callers j).WillNotify) : ((p.setCaller k phase).callers j).WillNotify := by
  by_cases hjk : j = k
  · subst hjk
    simpa [setCaller] using hphase hj
  · simpa [setCaller, hjk] using hj

theorem Signalled.callerStep (h : Signalled p) {wakes : Option (Fin n)}
    (htimely : p.destructor.PastNotify → p.callers k = .notifying →
      (∃ w, p.workers w = .blocking) → ∃ j, j ≠ k ∧ (p.callers j).WillNotify)
    (hstep : p.callerStep k wakes = some p') : Signalled p' := by
  have hexclusive := h.exclusive.callerStep hstep
  cases callerStepped hstep with
  | throws _ hk =>
    exact h.fewer hexclusive rfl rfl (fun _ _ hw => hw)
      (willNotify_setCaller (by rw [hk]; exact id))
  | admits | enqueues | unlocks =>
    exact h.fewer hexclusive rfl rfl (fun _ _ hw => hw) (willNotify_setCaller (fun _ => trivial))
  | wakes w _ hw =>
    -- at most one worker waits by then, and it is the one that is woken
    have hempty : p.destructor.PastNotify → ∀ v, ¬ ((p.setWorker w .woken).workers v).Waiting := by
      intro hpast v hv
      obtain ⟨hwaiting, hne⟩ := waiting_of_wake hv
      exact hne (h.atMostOne hpast v w hwaiting (.inr hw))
    exact ⟨hexclusive, h.stopped, fun hpast v _ hv => absurd hv (hempty hpast v),
      fun hpast hsome => absurd hsome.choose_spec (hempty hpast _)⟩
  | wakesNone hk hnone =>
    refine ⟨hexclusive, h.stopped, h.atMostOne, ?_⟩
    intro hpast hsome
    obtain ⟨w, hw⟩ := hsome
    obtain ⟨j, hj, hwill⟩ := htimely hpast hk ⟨w, hw.resolve_right (hnone w)⟩
    exact ⟨j, by simpa [setCaller, hj] using hwill⟩

theorem Signalled.step (h : Signalled p) {action : PoolAction κ n} (htimely : p.Timely action)
    (hstep : p.step action = some p') : Signalled p' := by
  cases action with
  | submitTask k =>
    have hexclusive := h.exclusive.submitTask hstep
    obtain ⟨hidle, -, rfl⟩ := submitTask_eq_some hstep
    exact h.fewer hexclusive rfl rfl (fun _ _ hw => hw)
      (willNotify_setCaller (by rw [hidle]; exact id))
  | caller k wakes => exact h.callerStep htimely hstep
  | worker w => exact h.workerStep hstep
  | spuriousWakeup w =>
    obtain ⟨hw, rfl⟩ := spuriousWakeup_eq_some hstep
    exact h.fewer (h.exclusive.wake hw) rfl rfl (fun _ _ hv => (waiting_of_wake hv).1)
      (fun _ hk => hk)
  | destructor => exact h.destructorStep htimely hstep

theorem stranded_of_missed (hpast : p.destructor.PastNotify) (hw : p.workers w = .blocking)
    (hnone : ∀ k, ¬ (p.callers k).WillNotify) :
    ∃ p', p.step (.worker w) = some p' ∧ p'.Stranded := by
  refine ⟨{ p.setWorker w .blocked with queueMutex := none }, ?_, hpast, ⟨w, ?_⟩, hnone⟩
  · simp [ThreadPool.step, workerStep, hw]
  · simp [setWorker]

theorem silent_setCaller {phase : SubmitPhase}
    (h : ∀ j, j ≠ k → ¬ (p.callers j).WillNotify) (hphase : ¬ phase.WillNotify) (j : κ) :
    ¬ ((p.setCaller k phase).callers j).WillNotify := by
  by_cases hj : j = k
  · subst hj
    simpa [setCaller] using hphase
  · simpa [setCaller, hj] using h j hj

theorem stranded_of_not_timely {action : PoolAction κ n} (htimely : ¬ p.Timely action)
    (hstep : p.step action = some p') :
    ∃ w p'', p'.step (.worker w) = some p'' ∧ p''.Stranded := by
  cases action with
  | submitTask k => exact absurd trivial htimely
  | worker w => exact absurd trivial htimely
  | spuriousWakeup w => exact absurd trivial htimely
  | caller k wakes =>
    simp only [Timely] at htimely
    push Not at htimely
    obtain ⟨hpast, hk, ⟨w, hw⟩, hnone⟩ := htimely
    cases callerStepped hstep with
    | throws _ hphase | admits _ hphase | enqueues _ hphase | unlocks hphase =>
      cases hk.symm.trans hphase
    | wakes v _ hv =>
      -- the notification goes to a worker that has already blocked, not to `w`
      have hne : w ≠ v := by
        intro heq
        rw [heq, hv] at hw
        cases hw
      refine ⟨w, stranded_of_missed hpast ?_ (silent_setCaller hnone id)⟩
      simpa [setCaller, setWorker, hne] using hw
    | wakesNone =>
      exact ⟨w, stranded_of_missed hpast hw (silent_setCaller hnone id)⟩
  | destructor =>
    simp only [Timely] at htimely
    push Not at htimely
    obtain ⟨hstored, ⟨w, hw⟩, hnone⟩ := htimely
    cases destructorStepped hstep with
    | stores hd | joins hd => cases hstored.symm.trans hd
    | notifies =>
      refine ⟨w, stranded_of_missed trivial ?_ hnone⟩
      simp [notifyAll, hw]

structure Abandoned (p : ThreadPool κ n) (w : Fin n) : Prop where
  stopped : p.stop = true
  past : p.destructor.PastNotify
  blocked : p.workers w = .blocked
  silent : ∀ k, ¬ (p.callers k).WillNotify

theorem Abandoned.callerStep {wakes : Option (Fin n)} (h : Abandoned p w)
    (hstep : p.callerStep k wakes = some p') :
    Abandoned p' w ∧ p'.destructor = p.destructor := by
  have hk := h.silent k
  cases callerStepped hstep with
  | throws call =>
    exact ⟨⟨h.stopped, h.past, h.blocked, silent_setCaller (fun j _ => h.silent j) id⟩, rfl⟩
  | admits _ _ hstop => cases h.stopped.symm.trans hstop
  | enqueues _ hphase | unlocks hphase | wakes _ hphase | wakesNone hphase =>
    rw [hphase] at hk
    exact absurd trivial hk

omit [DecidableEq κ] in
theorem Abandoned.destructorStep (h : Abandoned p w) (hstep : p.destructorStep = some p') :
    False := by
  have hpast := h.past
  cases destructorStepped hstep with
  | stores hd | notifies hd =>
    rw [hd] at hpast
    exact hpast
  | joins _ hall => cases h.blocked.symm.trans (hall w)

theorem Abandoned.step {action : PoolAction κ n} (h : Abandoned p w)
    (hspurious : action ≠ .spuriousWakeup w) (hstep : p.step action = some p') :
    Abandoned p' w ∧ p'.destructor = p.destructor := by
  cases action with
  | submitTask k =>
    obtain ⟨-, -, rfl⟩ := submitTask_eq_some hstep
    exact ⟨⟨h.stopped, h.past, h.blocked, silent_setCaller (fun j _ => h.silent j) id⟩, rfl⟩
  | caller k wakes => exact h.callerStep hstep
  | worker v =>
    obtain ⟨phase, hworkers, hcallers, hsame, hd, -⟩ := workerStep_frame hstep
    have hne : w ≠ v := by
      intro heq
      simp [ThreadPool.step, workerStep, ← heq, h.blocked] at hstep
    refine ⟨⟨?_, ?_, ?_, ?_⟩, hd⟩
    · rw [hsame]; exact h.stopped
    · rw [hd]; exact h.past
    · rw [hworkers, Function.update_of_ne hne]; exact h.blocked
    · rw [hcallers]; exact h.silent
  | spuriousWakeup v =>
    have hne : w ≠ v := fun heq => hspurious (heq ▸ rfl)
    obtain ⟨-, rfl⟩ := spuriousWakeup_eq_some hstep
    have hw := h.blocked
    exact ⟨⟨h.stopped, h.past, by simpa [setWorker, hne] using hw, h.silent⟩, rfl⟩
  | destructor => exact (h.destructorStep hstep).elim

theorem blocked_of_abandoned (h : Abandoned p w) {actions : List (PoolAction κ n)}
    (hspurious : .spuriousWakeup w ∉ actions)
    (hrun : runGuarded ThreadPool.step p actions = some p') :
    p'.workers w = .blocked ∧ p'.destructor = p.destructor := by
  -- Only a spurious wake-up frees the worker, so the destructor's `join` does not end.
  have hend : Abandoned p' w ∧ p'.destructor = p.destructor := by
    apply runGuarded_invariant ?_ ⟨h, rfl⟩ hrun
    intro q action haction q' hq hstep
    have hne : action ≠ .spuriousWakeup w := fun heq => hspurious (heq ▸ haction)
    obtain ⟨hq', hd⟩ := hq.1.step hne hstep
    exact ⟨hq', hd.trans hq.2⟩
  exact ⟨hend.1.blocked, hend.2⟩

def lostWakeup : List (PoolAction ℕ (max 1 kMinThreadCount)) :=
  [.worker worker₀, .worker worker₀, .destructor, .destructor, .worker worker₀]

theorem stranded_lostWakeup :
    ∃ p, runGuarded step (new 1) lostWakeup = some p ∧ p.Stranded :=
  ⟨_, rfl, trivial, ⟨worker₀, rfl⟩, fun _ => id⟩

/-- In a run whose last notification finds no worker between its test of the predicate and its
block, no worker is ever stranded. A step of any run that breaks the condition leaves one worker
step to a stranded worker. -/
theorem not_stranded_of_timely (threadCount : ℕ) (actions : List (PoolAction κ _))
    (p : ThreadPool κ (max threadCount kMinThreadCount))
    (h : runGuarded step (new threadCount) actions = some p) :
    (Along step Timely (new threadCount) actions → ¬ p.Stranded) ∧
      ∀ action p', p.step action = some p' → ¬ p.Timely action →
        ∃ w p'', p'.step (.worker w) = some p'' ∧ p''.Stranded := by
  constructor
  · intro halong
    have hsignalled : Signalled p :=
      runGuarded_invariant_of_along (fun _ _ _ hs htimely hstep => hs.step htimely hstep)
        (Signalled.new threadCount) halong h
    exact hsignalled.not_stranded
  · intro action p' hstep htimely
    exact stranded_of_not_timely htimely hstep

def wokenAtShutdown : List (PoolAction (Fin 1) (max 1 kMinThreadCount)) :=
  [.worker worker₀, .worker worker₀, .worker worker₀, .destructor, .destructor]

theorem not_stranded_of_timely_wokenAtShutdown :
    Along step Timely (new 1) wokenAtShutdown ∧
      ∃ p, runGuarded step (new 1) wokenAtShutdown = some p ∧ ¬ p.Stranded := by
  have halong : Along step Timely (new 1) wokenAtShutdown := by decide
  exact ⟨halong, _, rfl, (not_stranded_of_timely 1 wokenAtShutdown _ rfl).1 halong⟩

end ThreadPool
end HttpReactor
