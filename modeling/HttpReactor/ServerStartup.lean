import HttpReactor.PoolUtilisation
import Mathlib.Algebra.BigOperators.Group.Finset.Basic

/-!
# Starting a server

The constructor of `Server` makes a pool and, for each of its workers, a reactor, whose loop
it submits to the pool and which it gives to the distribution agent. A loop does not return
while the server runs. So there are as many endless tasks as workers, and each reactor gets a
worker of its own, however the workers come to the queue.
-/

namespace HttpReactor
open Refinement

structure DistributionAgent where
  candidates : List ℕ
deriving DecidableEq, Repr

namespace DistributionAgent

def addCandidate (a : DistributionAgent) (candidate : ℕ) : DistributionAgent :=
  ⟨a.candidates ++ [candidate]⟩

/-- `draw` is the random number generator, whose results do not exceed the bound it is given;
without candidates the bound wraps around. -/
def selectCandidate (a : DistributionAgent) (draw : ℕ → ℕ) : Option (ℕ × ℕ) :=
  let idx := draw (if a.candidates = [] then 2 ^ 64 - 1 else a.candidates.length - 1)
  a.candidates[idx]?.map fun candidate => (candidate, idx)

end DistributionAgent

/-- `pool` has the constructing thread as its only caller, and `reactors` is `reactors_`. -/
structure ServerStart (n : ℕ) where
  pool : ThreadPool Unit n
  reactors : List ℕ
  agent : DistributionAgent

inductive StartAction (n : ℕ)
  | emplaceBack
  | submitTask
  | caller (wakes : Option (Fin n))
  | addCandidate
  | worker (w : Fin n)
  | spuriousWakeup (w : Fin n)
deriving DecidableEq, Repr

namespace ServerStart

variable {n : ℕ}

def new (numThreads : ℕ) : ServerStart (max numThreads kMinThreadCount) :=
  ⟨ThreadPool.new numThreads, [], ⟨[]⟩⟩

def withPool (s : ServerStart n) (pool : Option (ThreadPool Unit n)) : Option (ServerStart n) :=
  pool.map fun pool => { s with pool := pool }

/-- A round of the constructor's loop emplaces a reactor, submits its loop, with the steps of
`SubmitTask` after it, and adds it to the candidates. -/
def step (s : ServerStart n) : StartAction n → Option (ServerStart n)
  | .emplaceBack =>
    if s.pool.callers () = .idle ∧ s.reactors.length = s.agent.candidates.length ∧
        s.reactors.length < n then
      some { s with reactors := s.reactors ++ [s.reactors.length] }
    else none
  | .submitTask =>
    if s.pool.entered < s.reactors.length then s.withPool (s.pool.step (.submitTask ())) else none
  | .caller wakes => s.withPool (s.pool.step (.caller () wakes))
  | .addCandidate =>
    if s.pool.callers () = .idle ∧ s.pool.entered = s.reactors.length then
      s.reactors[s.agent.candidates.length]?.map fun reactor =>
        { s with agent := s.agent.addCandidate reactor }
    else none
  | .worker w =>
    match s.pool.workers w with
    | .running _ => none
    | _ => s.withPool (s.pool.step (.worker w))
  | .spuriousWakeup w => s.withPool (s.pool.step (.spuriousWakeup w))

inductive Stepped (s : ServerStart n) : StartAction n → ServerStart n → Prop
  | emplaces : s.pool.callers () = .idle → s.reactors.length = s.agent.candidates.length →
      s.reactors.length < n →
      Stepped s .emplaceBack { s with reactors := s.reactors ++ [s.reactors.length] }
  | submits (pool : ThreadPool Unit n) : s.pool.entered < s.reactors.length →
      s.pool.step (.submitTask ()) = some pool → Stepped s .submitTask { s with pool := pool }
  | calls (wakes : Option (Fin n)) (pool : ThreadPool Unit n) :
      s.pool.step (.caller () wakes) = some pool → Stepped s (.caller wakes) { s with pool := pool }
  | adds (reactor : ℕ) : s.pool.callers () = .idle → s.pool.entered = s.reactors.length →
      s.reactors[s.agent.candidates.length]? = some reactor →
      Stepped s .addCandidate { s with agent := s.agent.addCandidate reactor }
  | works (w : Fin n) (pool : ThreadPool Unit n) : (∀ task, s.pool.workers w ≠ .running task) →
      s.pool.step (.worker w) = some pool → Stepped s (.worker w) { s with pool := pool }
  | wakes (w : Fin n) (pool : ThreadPool Unit n) :
      s.pool.step (.spuriousWakeup w) = some pool →
      Stepped s (.spuriousWakeup w) { s with pool := pool }

theorem stepped_of_step {s s' : ServerStart n} {a : StartAction n} (h : s.step a = some s') :
    Stepped s a s' := by
  cases a with
  | emplaceBack =>
    simp only [step] at h
    split_ifs at h with hc
    cases h
    exact .emplaces hc.1 hc.2.1 hc.2.2
  | submitTask =>
    simp only [step] at h
    split_ifs at h with hc
    obtain ⟨pool, hp, rfl⟩ := Option.map_eq_some_iff.mp h
    exact .submits pool hc hp
  | caller wakes =>
    obtain ⟨pool, hp, rfl⟩ := Option.map_eq_some_iff.mp h
    exact .calls wakes pool hp
  | addCandidate =>
    simp only [step] at h
    split_ifs at h with hc
    obtain ⟨reactor, hr, rfl⟩ := Option.map_eq_some_iff.mp h
    exact .adds reactor hc.1 hc.2 hr
  | worker w =>
    simp only [step] at h
    split at h
    · cases h
    · next hrun =>
      obtain ⟨pool, hp, rfl⟩ := Option.map_eq_some_iff.mp h
      exact .works w pool hrun hp
  | spuriousWakeup w =>
    obtain ⟨pool, hp, rfl⟩ := Option.map_eq_some_iff.mp h
    exact .wakes w pool hp

structure Undisturbed (p p' : ThreadPool Unit n) : Prop where
  stop : p'.stop = p.stop
  thrown : p'.thrown = p.thrown
  ran : p'.ran = p.ran
  entered : p'.entered = p.entered
  destructor : p'.destructor = p.destructor

theorem undisturbed_caller {p p' : ThreadPool Unit n} {wakes : Option (Fin n)}
    (hstop : p.stop = false) (h : p.step (.caller () wakes) = some p') : Undisturbed p p' := by
  cases ThreadPool.callerStepped h with
  | throws call hk hset =>
    rw [hstop] at hset
    cases hset
  | admits | enqueues | unlocks | wakes | wakesNone => exact ⟨rfl, rfl, rfl, rfl, rfl⟩

theorem undisturbed_worker {p p' : ThreadPool Unit n} {w : Fin n}
    (hrun : ∀ task, p.workers w ≠ .running task) (h : p.step (.worker w) = some p') :
    Undisturbed p p' := by
  cases ThreadPool.workerStepped h with
  | finishes task hw => exact absurd hw (hrun task)
  | locks | passes | fails | blocks | leaves | stays | underflows | takes =>
    exact ⟨rfl, rfl, rfl, rfl, rfl⟩

theorem undisturbed_wakeup {p p' : ThreadPool Unit n} {w : Fin n}
    (h : p.step (.spuriousWakeup w) = some p') : Undisturbed p p' := by
  obtain ⟨-, rfl⟩ := ThreadPool.spuriousWakeup_eq_some h
  exact ⟨rfl, rfl, rfl, rfl, rfl⟩

structure Begun (s : ServerStart n) : Prop where
  attended : s.pool.Attended
  stop : s.pool.stop = false
  thrown : s.pool.thrown = []
  ran : s.pool.ran = []
  destructor : s.pool.destructor = .alive
  reactors : s.reactors = List.range s.reactors.length
  candidates : s.agent.candidates = List.range s.agent.candidates.length
  added : s.agent.candidates.length ≤ s.pool.entered
  submitted : s.pool.entered ≤ s.reactors.length
  round : s.reactors.length ≤ s.agent.candidates.length + 1
  bounded : s.reactors.length ≤ n

theorem Begun.new (numThreads : ℕ) : (new numThreads).Begun :=
  ⟨ThreadPool.Attended.new numThreads, rfl, rfl, rfl, rfl, rfl, rfl, Nat.le_refl 0, Nat.le_refl 0,
    Nat.zero_le 1, Nat.zero_le _⟩

theorem Begun.inPool {s : ServerStart n} {pool : ThreadPool Unit n} {a : PoolAction Unit n}
    (h : s.Begun) (hstep : s.pool.step a = some pool) (hu : Undisturbed s.pool pool) :
    Begun { s with pool := pool } :=
  ⟨h.attended.step hstep, hu.stop.trans h.stop, hu.thrown.trans h.thrown, hu.ran.trans h.ran,
    hu.destructor.trans h.destructor, h.reactors, h.candidates, hu.entered ▸ h.added,
    hu.entered ▸ h.submitted, h.round, h.bounded⟩

theorem Begun.step {s s' : ServerStart n} {a : StartAction n} (h : s.Begun)
    (hstep : s.step a = some s') : s'.Begun := by
  cases stepped_of_step hstep with
  | emplaces hidle heq hlt =>
    refine ⟨h.attended, h.stop, h.thrown, h.ran, h.destructor, ?_, h.candidates, h.added, ?_, ?_,
      ?_⟩
    · simp only [List.length_append, List.length_singleton, List.range_succ]
      rw [← h.reactors]
    all_goals simp only [List.length_append, List.length_singleton]
    · exact Nat.le_succ_of_le h.submitted
    · omega
    · exact hlt
  | submits pool hlt hp =>
    have hpool := hp
    obtain ⟨-, -, rfl⟩ := ThreadPool.submitTask_eq_some hp
    exact ⟨h.attended.step hpool, h.stop, h.thrown, h.ran, h.destructor, h.reactors, h.candidates,
      Nat.le_succ_of_le h.added, hlt, h.round, h.bounded⟩
  | calls wakes pool hp => exact h.inPool hp (undisturbed_caller h.stop hp)
  | adds reactor hidle heq hr =>
    have hlt := (List.getElem?_eq_some_iff.mp hr).1
    have hreactor : reactor = s.agent.candidates.length := by
      rw [h.reactors, List.getElem?_range hlt] at hr
      exact (Option.some.inj hr).symm
    refine ⟨h.attended, h.stop, h.thrown, h.ran, h.destructor, h.reactors, ?_, ?_, h.submitted, ?_,
      h.bounded⟩
    all_goals simp only [DistributionAgent.addCandidate, List.length_append, List.length_singleton]
    · rw [List.range_succ, ← h.candidates, hreactor]
    · omega
    · exact Nat.le_succ_of_le h.round
  | works w pool hrun hp => exact h.inPool hp (undisturbed_worker hrun hp)
  | wakes w pool hp => exact h.inPool hp (undisturbed_wakeup hp)

/-- The constructor's loop is over and no worker has anything to do but run its task. -/
def Settled (s : ServerStart n) : Prop :=
  s.pool.callers () = .idle ∧ s.agent.candidates.length = n ∧
    ∀ w, s.pool.workers w = .blocked ∨ ∃ task, s.pool.workers w = .running task

theorem Begun.queue_empty {s : ServerStart n} (h : s.Begun) (hs : s.Settled) :
    s.pool.tasksQueue = [] := by
  -- Either a worker sleeps, and the queue is empty because it is attended, or all of them run
  -- tasks, and there are no more tasks than workers.
  obtain ⟨hidle, hc, hworkers⟩ := hs
  by_cases hsleep : ∃ w, s.pool.workers w = .blocked
  · have hstaffed := h.attended.staffed hsleep
    refine List.length_eq_zero_iff.mp (hstaffed.eq_zero fun t => ?_)
    cases t with
    | worker v =>
      intro ha
      rcases hworkers v with hv | ⟨task, hv⟩
      · simp [ThreadPool.Coming, hv, WorkerPhase.Active] at ha
      · simp [ThreadPool.Coming, hv, WorkerPhase.Active] at ha
    | caller k =>
      intro ha
      simp [ThreadPool.Coming, hidle, SubmitPhase.Announcing] at ha
  · have hrunning : ∀ w, ∃ task, s.pool.workers w = .running task := fun w =>
      (hworkers w).resolve_left fun hw => hsleep ⟨w, hw⟩
    choose task htask using hrunning
    have htasks := h.attended.accounted.tasks
    have hinj : Function.Injective task := fun w v hwv =>
      htasks.running_once w v (task w) (htask w) (hwv ▸ htask v)
    have htaken : (List.ofFn task).Subset s.pool.taken := by
      intro t ht
      obtain ⟨w, rfl⟩ := List.mem_ofFn.mp ht
      exact (htasks.running_taken w _ (htask w)).1
    have hle : n ≤ s.pool.taken.length := by
      have := (List.subperm_of_subset (List.nodup_ofFn.mpr hinj) htaken).length_le
      rwa [List.length_ofFn] at this
    have haccepted : s.pool.accepted.length ≤ n := by
      have hcalls := h.attended.accounted.calls
      have hnd : s.pool.accepted.Nodup := hcalls.sorted.imp fun hlt => Nat.ne_of_lt hlt
      have hsub : s.pool.accepted.Subset (List.range s.pool.entered) := fun call hm =>
        List.mem_range.mpr (hcalls.accepted_lt call hm)
      have := (List.subperm_of_subset hnd hsub).length_le
      rw [List.length_range] at this
      exact this.trans (h.submitted.trans h.bounded)
    rw [← htasks.order, List.length_append] at haccepted
    exact List.length_eq_zero_iff.mp (by omega)

theorem Begun.all_running {s : ServerStart n} (h : s.Begun) (hs : s.Settled) {r : ℕ}
    (hr : r < n) : ∃ w, s.pool.workers w = .running r := by
  have hq := h.queue_empty hs
  obtain ⟨hidle, hc, -⟩ := hs
  have hentered : r < s.pool.entered := by
    have := h.added
    omega
  have hacc := h.attended.accounted
  rcases hacc.calls.known r hentered with hm | hm | ⟨k, hk⟩
  · rw [h.thrown] at hm
    cases hm
  · rw [← hacc.tasks.order, hq, List.append_nil] at hm
    refine (hacc.tasks.run_or_running r hm).resolve_left fun hran => ?_
    rw [h.ran] at hran
    cases hran
  · cases k
    rw [hidle] at hk
    cases hk

section Progress

def workerRank : WorkerPhase → ℕ
  | .locking | .woken => 5
  | .evaluating => 4
  | .ready => 3
  | .taking => 2
  | .blocking => 1
  | .blocked | .running _ | .returned | .undefined => 0

def callerRank : SubmitPhase → ℕ
  | .checking _ => 10
  | .admitted _ => 9
  | .enqueued => 8
  | .notifying => 7
  | .idle => 0

def poolRank (p : ThreadPool Unit n) : ℕ :=
  callerRank (p.callers ()) + ∑ w, workerRank (p.workers w)

def rank (s : ServerStart n) : ℕ :=
  13 * (n - s.reactors.length) + 12 * (s.reactors.length - s.pool.entered) +
    (n - s.agent.candidates.length) + poolRank s.pool

theorem sum_of_agree {f g : Fin n → ℕ} (w : Fin n) (h : ∀ v ≠ w, f v = g v) :
    (∑ v, f v) + g w = (∑ v, g v) + f w := by
  have hrest : ∑ v ∈ Finset.univ.erase w, f v = ∑ v ∈ Finset.univ.erase w, g v :=
    Finset.sum_congr rfl fun v hv => h v (Finset.ne_of_mem_erase hv)
  rw [← Finset.add_sum_erase _ f (Finset.mem_univ w), hrest,
    ← Finset.add_sum_erase _ g (Finset.mem_univ w)]
  omega

theorem sum_workerRank_update (workers : Fin n → WorkerPhase) (w : Fin n) (phase : WorkerPhase) :
    (∑ v, workerRank (Function.update workers w phase v)) + workerRank (workers w) =
      (∑ v, workerRank (workers v)) + workerRank phase := by
  have hsum := sum_of_agree (f := fun v => workerRank (Function.update workers w phase v))
    (g := fun v => workerRank (workers v)) w fun v hv => by simp only [Function.update_of_ne hv]
  rwa [Function.update_self] at hsum

theorem poolRank_worker {p p' : ThreadPool Unit n} {w : Fin n}
    (hrun : ∀ task, p.workers w ≠ .running task) (h : p.step (.worker w) = some p') :
    poolRank p' < poolRank p := by
  have lower : ∀ phase, p'.workers = Function.update p.workers w phase →
      p'.callers = p.callers → workerRank phase < workerRank (p.workers w) →
      poolRank p' < poolRank p := by
    intro phase hworkers hcallers hlt
    have hsum := sum_workerRank_update p.workers w phase
    rw [poolRank, poolRank, hworkers, hcallers]
    omega
  cases ThreadPool.workerStepped h with
  | locks hw =>
    exact lower .evaluating rfl rfl (by rcases hw with hw | hw <;> simp [hw, workerRank])
  | passes hw => exact lower .ready rfl rfl (by simp [hw, workerRank])
  | fails hw => exact lower .blocking rfl rfl (by simp [hw, workerRank])
  | blocks hw => exact lower .blocked rfl rfl (by simp [hw, workerRank])
  | leaves hw => exact lower .returned rfl rfl (by simp [hw, workerRank])
  | stays hw => exact lower .taking rfl rfl (by simp [hw, workerRank])
  | underflows hw => exact lower .undefined rfl rfl (by simp [hw, workerRank])
  | takes task tasks hw => exact lower (.running task) rfl rfl (by simp [hw, workerRank])
  | finishes task hw => exact absurd hw (hrun task)

theorem poolRank_caller {p p' : ThreadPool Unit n} {wakes : Option (Fin n)}
    (h : p.step (.caller () wakes) = some p') : poolRank p' < poolRank p := by
  have lower : ∀ phase, p'.callers = Function.update p.callers () phase →
      p'.workers = p.workers → callerRank phase < callerRank (p.callers ()) →
      poolRank p' < poolRank p := by
    intro phase hcallers hworkers hlt
    rw [poolRank, poolRank, hcallers, hworkers, Function.update_self]
    omega
  cases ThreadPool.callerStepped h with
  | throws call hk => exact lower .idle rfl rfl (by simp [hk, callerRank])
  | admits call hk => exact lower (.admitted call) rfl rfl (by simp [hk, callerRank])
  | enqueues call hk => exact lower .enqueued rfl rfl (by simp [hk, callerRank])
  | unlocks hk => exact lower .notifying rfl rfl (by simp [hk, callerRank])
  | wakesNone hk => exact lower .idle rfl rfl (by simp [hk, callerRank])
  | wakes w hk hw =>
    have hsum := sum_workerRank_update p.workers w .woken
    have hcall : callerRank (p.callers ()) = 7 := by rw [hk]; rfl
    have hasleep : workerRank (p.workers w) = 0 := by rw [hw]; rfl
    have hwoken : workerRank .woken = 5 := rfl
    have hidle : callerRank (((p.setWorker w .woken).setCaller () .idle).callers ()) = 0 := by
      simp [ThreadPool.setCaller, callerRank]
    rw [poolRank, poolRank, hidle]
    change 0 + ∑ v, workerRank (Function.update p.workers w .woken v) < _
    omega

theorem Begun.rank_lt {s s' : ServerStart n} {a : StartAction n} (h : s.Begun)
    (ha : ∀ w, a ≠ .spuriousWakeup w) (hstep : s.step a = some s') : s'.rank < s.rank := by
  have hsubmitted := h.submitted
  have hbounded := h.bounded
  cases stepped_of_step hstep with
  | emplaces hidle heq hlt =>
    simp only [rank, List.length_append, List.length_singleton]
    omega
  | submits pool hlt hp =>
    obtain ⟨hidle, -, rfl⟩ := ThreadPool.submitTask_eq_some hp
    have hbefore : poolRank s.pool = ∑ w, workerRank (s.pool.workers w) := by
      rw [poolRank, hidle]
      exact Nat.zero_add _
    have hafter : poolRank { s.pool.setCaller () (.checking s.pool.entered) with
        queueMutex := some (.caller ()), entered := s.pool.entered + 1 } =
          10 + ∑ w, workerRank (s.pool.workers w) := rfl
    simp only [rank, hbefore, hafter]
    omega
  | calls wakes pool hp =>
    have hlt := poolRank_caller hp
    have hu := (undisturbed_caller h.stop hp).entered
    simp only [rank, hu]
    omega
  | adds reactor hidle heq hr =>
    have hlt := (List.getElem?_eq_some_iff.mp hr).1
    simp only [rank, DistributionAgent.addCandidate, List.length_append, List.length_singleton]
    omega
  | works w pool hrun hp =>
    have hlt := poolRank_worker hrun hp
    have hu := (undisturbed_worker hrun hp).entered
    simp only [rank, hu]
    omega
  | wakes w pool hp => exact absurd rfl (ha w)

theorem step_worker_of_some {s : ServerStart n} {w : Fin n} {pool : ThreadPool Unit n}
    (hrun : ∀ task, s.pool.workers w ≠ .running task)
    (hp : s.pool.workerStep w = some pool) :
    s.step (.worker w) = some { s with pool := pool } := by
  have hp' : s.pool.step (.worker w) = some pool := hp
  simp only [step, hp']
  rfl

theorem Begun.holder_goes_on {s : ServerStart n} (h : s.Begun) {w : Fin n}
    (hw : (s.pool.workers w).Holds) : ∃ s', s.step (.worker w) = some s' := by
  have hrun : ∀ task, s.pool.workers w ≠ .running task := fun task he => by
    rw [he] at hw
    exact hw
  have hsome : ∃ pool, s.pool.workerStep w = some pool := by
    cases hp : s.pool.workers w with
    | evaluating | blocking => exact ⟨_, by simp only [ThreadPool.workerStep, hp]; rfl⟩
    | ready =>
      simp only [ThreadPool.workerStep, hp]
      split_ifs <;> exact ⟨_, rfl⟩
    | taking =>
      simp only [ThreadPool.workerStep, hp]
      split <;> exact ⟨_, rfl⟩
    | undefined => exact absurd hp (h.attended.accounted.flow.defined w)
    | locking | blocked | woken | running _ | returned =>
      rw [hp] at hw
      exact hw.elim
  obtain ⟨pool, hpool⟩ := hsome
  exact ⟨_, step_worker_of_some hrun hpool⟩

theorem Begun.caller_goes_on {s : ServerStart n} (hk : s.pool.callers () ≠ .idle) :
    ∃ wakes s', s.step (.caller wakes) = some s' := by
  have hsome : ∃ wakes pool, s.pool.callerStep () wakes = some pool := by
    cases hp : s.pool.callers () with
    | idle => exact absurd hp hk
    | checking call =>
      refine ⟨none, ?_⟩
      simp only [ThreadPool.callerStep, hp]
      split_ifs <;> exact ⟨_, rfl⟩
    | admitted call | enqueued =>
      exact ⟨none, _, by simp only [ThreadPool.callerStep, hp]; rfl⟩
    | notifying =>
      by_cases hsleep : ∃ w, s.pool.workers w = .blocked
      · obtain ⟨w, hw⟩ := hsleep
        exact ⟨some w, _, by simp only [ThreadPool.callerStep, hp, ThreadPool.notifyOne, hw]; rfl⟩
      · exact ⟨none, _, by
          simp only [ThreadPool.callerStep, hp, ThreadPool.notifyOne,
            if_pos (not_exists.mp hsleep)]
          rfl⟩
  obtain ⟨wakes, pool, hpool⟩ := hsome
  have hpool' : s.pool.step (.caller () wakes) = some pool := hpool
  exact ⟨wakes, { s with pool := pool }, by simp only [ServerStart.step, hpool']; rfl⟩

theorem Begun.goes_on {s : ServerStart n} (h : s.Begun) (hs : ¬ s.Settled) :
    ∃ a s', (∀ w, a ≠ .spuriousWakeup w) ∧ s.step a = some s' := by
  have hexclusive := h.attended.accounted.exclusive
  by_cases hk : s.pool.callers () = .idle
  · cases hm : s.pool.queueMutex with
    | some t =>
      cases t with
      | worker w =>
        obtain ⟨s', hs'⟩ := h.holder_goes_on ((hexclusive (.worker w)).mpr hm)
        exact ⟨.worker w, s', by simp, hs'⟩
      | caller k =>
        have hin : (s.pool.callers k).Holds := (hexclusive (.caller k)).mpr hm
        cases k
        rw [hk] at hin
        exact hin.elim
    | none =>
      have hadded := h.added
      have hsubmitted := h.submitted
      have hbounded := h.bounded
      by_cases hsubmit : s.pool.entered < s.reactors.length
      · exact ⟨.submitTask, _, by simp, by
          simp only [ServerStart.step, if_pos hsubmit, ThreadPool.step, ThreadPool.submitTask,
            hk, hm]
          rfl⟩
      by_cases hadd : s.agent.candidates.length < s.reactors.length
      · exact ⟨.addCandidate, _, by simp, by
          simp only [ServerStart.step, hk, true_and,
            if_pos (Nat.le_antisymm hsubmitted (not_lt.mp hsubmit)), List.getElem?_eq_getElem hadd]
          rfl⟩
      by_cases hemplace : s.reactors.length < n
      · have heq : s.reactors.length = s.agent.candidates.length := by omega
        exact ⟨.emplaceBack, _, by simp, if_pos ⟨hk, heq, hemplace⟩⟩
      -- the constructor is done, and some worker is on its way to the queue
      have hworker : ∃ w, ¬ (s.pool.workers w = .blocked ∨
          ∃ task, s.pool.workers w = .running task) := by
        by_contra hall
        exact hs ⟨hk, by omega, fun w => not_not.mp fun hw => hall ⟨w, hw⟩⟩
      obtain ⟨w, hw⟩ := hworker
      have hout := (hexclusive.free hm).1 w
      have hrun : ∀ task, s.pool.workers w ≠ .running task := fun task he =>
        hw (Or.inr ⟨task, he⟩)
      have hlock : s.pool.workers w = .locking ∨ s.pool.workers w = .woken := by
        cases hp : s.pool.workers w with
        | locking => exact Or.inl rfl
        | woken => exact Or.inr rfl
        | blocked => exact absurd (Or.inl hp) hw
        | running task => exact absurd hp (hrun task)
        | returned =>
          have hset := (h.attended.accounted.flow.returned w hp).1
          rw [h.stop] at hset
          cases hset
        | evaluating | blocking | ready | taking | undefined =>
          rw [hp] at hout
          exact absurd trivial hout
      have hsome : ∃ pool, s.pool.workerStep w = some pool := by
        rcases hlock with hp | hp
        all_goals
          exact ⟨_, by simp only [ThreadPool.workerStep, hp, ThreadPool.lockForWait, hm]; rfl⟩
      obtain ⟨pool, hpool⟩ := hsome
      exact ⟨.worker w, _, by simp, step_worker_of_some hrun hpool⟩
  · obtain ⟨wakes, s', hs'⟩ := Begun.caller_goes_on hk
    exact ⟨.caller wakes, s', by simp, hs'⟩

end Progress

theorem Begun.selected_runs {s : ServerStart n} (h : s.Begun) (hs : s.Settled) (hn : 0 < n)
    {draw : ℕ → ℕ} (hdraw : ∀ bound, draw bound ≤ bound) :
    ∃ r idx w, s.agent.selectCandidate draw = some (r, idx) ∧
      s.pool.workers w = .running r := by
  have hlen := hs.2.1
  have hne : s.agent.candidates ≠ [] := List.ne_nil_of_length_pos (by omega)
  have hlt : draw (s.agent.candidates.length - 1) < s.agent.candidates.length := by
    have := hdraw (s.agent.candidates.length - 1)
    omega
  obtain ⟨w, hw⟩ := h.all_running (r := draw (s.agent.candidates.length - 1)) hs (by omega)
  refine ⟨_, draw (s.agent.candidates.length - 1), w, ?_, hw⟩
  have hget : s.agent.candidates[draw (s.agent.candidates.length - 1)]? =
      some (draw (s.agent.candidates.length - 1)) := by
    rw [h.candidates, List.length_range, List.getElem?_range hlt]
  simp only [DistributionAgent.selectCandidate, if_neg hne, hget]
  rfl

theorem agent_of_settled {numThreads : ℕ} {actions : List (StartAction _)}
    {s : ServerStart (max numThreads kMinThreadCount)}
    (h : runGuarded step (new numThreads) actions = some s) (hs : s.Settled) :
    s.agent = ⟨List.range (max numThreads kMinThreadCount)⟩ := by
  have hbegun : s.Begun :=
    runGuarded_invariant (fun _ _ _ _ hb hs => hb.step hs) (Begun.new numThreads) h
  have hc := hbegun.candidates
  rw [hs.2.1] at hc
  rw [← hc]

def Own (_ : ServerStart n) (a : StartAction n) : Prop := ∀ w, a ≠ .spuriousWakeup w

/-- Whatever the order in which the constructor and the workers come to the queue: no reactor's
loop is run twice; a server that has settled runs the loop of every reactor, so that whichever
the distribution agent draws for a client is served; and it settles within `rank` steps. -/
theorem server_start_runs_every_reactor (numThreads : ℕ) {actions : List (StartAction _)}
    {s : ServerStart (max numThreads kMinThreadCount)}
    (h : runGuarded step (new numThreads) actions = some s) :
    (∀ w v r, s.pool.workers w = .running r → s.pool.workers v = .running r → w = v) ∧
    (s.Settled → (∀ r < max numThreads kMinThreadCount, ∃ w, s.pool.workers w = .running r) ∧
      ∀ draw : ℕ → ℕ, (∀ bound, draw bound ≤ bound) →
        ∃ r idx w, s.agent.selectCandidate draw = some (r, idx) ∧
          s.pool.workers w = .running r) ∧
    (∀ actions' s', Along step Own s actions' → runGuarded step s actions' = some s' →
      actions'.length ≤ s.rank) ∧
    ∃ actions' s', Along step Own s actions' ∧ runGuarded step s actions' = some s' ∧
      s'.Settled := by
  have hbegun : s.Begun :=
    runGuarded_invariant (fun _ _ _ _ hb hs => hb.step hs) (Begun.new numThreads) h
  have hpos : 0 < max numThreads kMinThreadCount := lt_max_of_lt_right (by decide)
  have hstep : ∀ (t : ServerStart (max numThreads kMinThreadCount)) a t', t.Begun → Own t a →
      t.step a = some t' → t'.Begun ∧ t'.rank < t.rank :=
    fun _ _ _ hb ha hs => ⟨hb.step hs, hb.rank_lt ha hs⟩
  refine ⟨hbegun.attended.accounted.tasks.running_once,
    fun hs => ⟨fun r hr => hbegun.all_running hs hr,
      fun draw hd => hbegun.selected_runs hs hpos hd⟩,
    fun actions' s' halong hrun => ?_, ?_⟩
  · have := length_add_rank_le hstep hbegun halong hrun
    omega
  · have hgo : ∀ t : ServerStart (max numThreads kMinThreadCount), t.Begun → ¬ t.Settled →
        ∃ a t', Own t a ∧ t.step a = some t' := fun t hb ht => hb.goes_on ht
    obtain ⟨actions', s', halong, hrun, -, hsettled⟩ := exists_run_to_rest hstep hgo hbegun
    exact ⟨actions', s', halong, hrun, hsettled⟩

def sleptFirst : List (StartAction (max 1 kMinThreadCount)) :=
  [.worker ThreadPool.worker₀, .worker ThreadPool.worker₀, .worker ThreadPool.worker₀,
    .emplaceBack, .submitTask, .caller none, .caller none, .caller none]

theorem server_start_runs_every_reactor_sleptFirst :
    ∃ s, runGuarded step (new 1) sleptFirst = some s ∧
      ∃ actions' s', Along step Own s actions' ∧ runGuarded step s actions' = some s' ∧
        s'.Settled :=
  ⟨_, rfl, (@server_start_runs_every_reactor 1 sleptFirst _ rfl).2.2.2⟩

def bothStarted : List (StartAction (max 1 kMinThreadCount)) :=
  let round := [.emplaceBack, .submitTask, .caller none, .caller none, .caller none, .caller none,
    .addCandidate]
  round ++ round ++ List.replicate 4 (.worker ThreadPool.worker₀) ++
    List.replicate 4 (.worker ThreadPool.worker₁)

theorem bothStarted_settled :
    ∃ t, runGuarded step (new 1) bothStarted = some t ∧
      t.agent = ⟨[0, 1]⟩ ∧ t.Settled := by
  have hstarted : ((runGuarded step (new 1) bothStarted).map fun t =>
      decide (t.agent = ⟨[0, 1]⟩ ∧ t.pool.callers () = .idle ∧
        t.pool.workers ThreadPool.worker₀ = .running 0 ∧
        t.pool.workers ThreadPool.worker₁ = .running 1)) = some true := by
    decide +kernel
  obtain ⟨t, ht, hfacts⟩ := Option.map_eq_some_iff.mp hstarted
  obtain ⟨hagent, hidle, h₀, h₁⟩ := of_decide_eq_true hfacts
  refine ⟨t, ht, hagent, hidle, by rw [hagent]; rfl, fun w => Or.inr ?_⟩
  have hw : ∀ w, w = ThreadPool.worker₀ ∨ w = ThreadPool.worker₁ := by decide
  rcases hw w with rfl | rfl
  · exact ⟨0, h₀⟩
  · exact ⟨1, h₁⟩

end ServerStart

end HttpReactor
