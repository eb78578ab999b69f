import HttpReactor.ServerStartup

/-!
# Destroying a server

The members of a `Server` are destroyed in the reverse of the order of their declarations, so
that the pool is destroyed after the listener and before the reactors. Its destructor lets the
workers run the tasks that are left and joins them. But the tasks are the loops of the
reactors, and nothing sets their `exit_`: whenever the destructor begins, and however the
workers then come to the queue, it never returns.
-/

namespace HttpReactor
open Refinement

inductive LifeAction (n : ℕ)
  | start (a : StartAction n)
  | destructor
deriving DecidableEq, Repr

namespace ServerStart

variable {n : ℕ} {s s' : ServerStart n}

/-- The destructor runs once the constructor has returned; the workers go on. -/
def lifeStep (s : ServerStart n) : LifeAction n → Option (ServerStart n)
  | .start a => s.step a
  | .destructor =>
    if s.pool.callers () = .idle ∧ s.agent.candidates.length = n then
      s.withPool (s.pool.step .destructor)
    else none

structure Ending (s : ServerStart n) : Prop where
  accounted : s.pool.Accounted
  idle : s.pool.callers () = .idle
  accepted : ∀ r < n, r ∈ s.pool.accepted
  ran : s.pool.ran = []
  entered : s.pool.entered = n
  reactors : s.reactors.length = n
  candidates : s.agent.candidates.length = n
  joining : s.pool.destructor ≠ .joined

theorem Begun.ending (h : s.Begun) (hidle : s.pool.callers () = .idle)
    (hc : s.agent.candidates.length = n) : s.Ending := by
  have hadded := h.added
  have hsubmitted := h.submitted
  have hbounded := h.bounded
  have hentered : s.pool.entered = n := by omega
  have hacc := h.attended.accounted
  refine ⟨hacc, hidle, fun r hr => ?_, h.ran, hentered, by omega, hc, ?_⟩
  · rw [← hentered] at hr
    rcases hacc.calls.known r hr with hm | hm | ⟨k, hk⟩
    · rw [h.thrown] at hm
      cases hm
    · exact hm
    · cases k
      rw [hidle] at hk
      cases hk
  · rw [h.destructor]
    exact nofun

theorem Ending.unfinished (h : s.Ending) {r : ℕ} (hr : r < n) :
    r ∈ s.pool.tasksQueue ∨ ∃ w, s.pool.workers w = .running r := by
  have hm := h.accepted r hr
  have htasks := h.accounted.tasks
  rw [← htasks.order] at hm
  rcases List.mem_append.mp hm with hm | hm
  · refine Or.inr ((htasks.run_or_running r hm).resolve_left fun hran => ?_)
    rw [h.ran] at hran
    cases hran
  · exact Or.inl hm

theorem Ending.not_all_returned (h : s.Ending) (hn : 0 < n) :
    ¬ ∀ w, s.pool.workers w = .returned := by
  -- A worker returns only from an empty queue, and the loops that were in it are running.
  intro hall
  rcases h.unfinished hn with hm | ⟨w, hw⟩
  · have hempty := (h.accounted.flow.returned ⟨0, hn⟩ (hall _)).2.1
    rw [hempty] at hm
    cases hm
  · rw [hall w] at hw
    cases hw

theorem Ending.inPool {pool : ThreadPool Unit n} {a : PoolAction Unit n} (h : s.Ending)
    (hstep : s.pool.step a = some pool) (hcallers : pool.callers = s.pool.callers)
    (haccepted : pool.accepted = s.pool.accepted) (hran : pool.ran = s.pool.ran)
    (hentered : pool.entered = s.pool.entered) (hjoining : pool.destructor ≠ .joined) :
    Ending { s with pool := pool } where
  accounted := h.accounted.step hstep
  idle := (congrFun hcallers ()).trans h.idle
  accepted := fun r hr => haccepted ▸ h.accepted r hr
  ran := hran.trans h.ran
  entered := hentered.trans h.entered
  reactors := h.reactors
  candidates := h.candidates
  joining := hjoining

theorem Ending.start {a : StartAction n} (h : s.Ending) (hstep : s.step a = some s') :
    s'.Ending := by
  cases stepped_of_step hstep with
  | emplaces _ _ hlt => exact absurd h.reactors (Nat.ne_of_lt hlt)
  | submits pool hlt => exact absurd (h.entered.trans h.reactors.symm) (Nat.ne_of_lt hlt)
  | calls wakes pool hp =>
    have hidle : s.pool.callerStep () wakes = some pool := hp
    simp only [ThreadPool.callerStep, h.idle] at hidle
    cases hidle
  | adds reactor _ _ hr =>
    have hlt := (List.getElem?_eq_some_iff.mp hr).1
    rw [h.candidates, h.reactors] at hlt
    exact absurd hlt (Nat.lt_irrefl n)
  | works w pool hrun hp =>
    have hu := undisturbed_worker hrun hp
    have hkept : pool.callers = s.pool.callers ∧ pool.accepted = s.pool.accepted := by
      cases ThreadPool.workerStepped hp <;> exact ⟨rfl, rfl⟩
    exact h.inPool hp hkept.1 hkept.2 hu.ran hu.entered (hu.destructor ▸ h.joining)
  | wakes w pool hp =>
    have hpool := hp
    obtain ⟨-, rfl⟩ := ThreadPool.spuriousWakeup_eq_some hp
    exact h.inPool hpool rfl rfl rfl rfl h.joining

theorem Ending.destroy {pool : ThreadPool Unit n} (h : s.Ending) (hn : 0 < n)
    (hstep : s.pool.step .destructor = some pool) : Ending { s with pool := pool } := by
  cases ThreadPool.destructorStepped hstep with
  | stores => exact h.inPool hstep rfl rfl rfl rfl nofun
  | notifies => exact h.inPool hstep rfl rfl rfl rfl nofun
  | joins _ hall => exact absurd hall (h.not_all_returned hn)

theorem life_step {a : LifeAction n} (hn : 0 < n) (h : s.Begun ∨ s.Ending)
    (hstep : s.lifeStep a = some s') : s'.Begun ∨ s'.Ending := by
  cases a with
  | start a => exact h.imp (fun hb => hb.step hstep) fun he => he.start hstep
  | destructor =>
    simp only [lifeStep] at hstep
    split_ifs at hstep with hc
    obtain ⟨pool, hp, rfl⟩ := Option.map_eq_some_iff.mp hstep
    have hending : s.Ending := h.elim (fun hb => hb.ending hc.1 hc.2) id
    exact Or.inr (hending.destroy hn hp)

/-- Once the destructor of the pool has begun, each reactor's loop is still queued or running,
in every order of the steps, and the destructor does not get past its `join`. -/
theorem server_destructor_never_returns (numThreads : ℕ) {actions : List (LifeAction _)}
    {s : ServerStart (max numThreads kMinThreadCount)}
    (h : runGuarded lifeStep (new numThreads) actions = some s) :
    s.pool.destructor ≠ .joined ∧ (s.pool.destructor ≠ .alive →
      ∀ r < max numThreads kMinThreadCount,
        r ∈ s.pool.tasksQueue ∨ ∃ w, s.pool.workers w = .running r) := by
  have hpos : 0 < max numThreads kMinThreadCount := lt_max_of_lt_right (by decide)
  have hlife := runGuarded_invariant (fun _ _ _ _ hs hstep => life_step hpos hs hstep)
    (Or.inl (Begun.new numThreads)) h
  rcases hlife with hb | he
  · rw [hb.destructor]
    exact ⟨nofun, fun hne => absurd rfl hne⟩
  · exact ⟨he.joining, fun _ r hr => he.unfinished hr⟩

theorem server_destructor_never_returns_joining :
    ∃ s, runGuarded lifeStep (new 1) (bothStarted.map .start ++ [.destructor, .destructor]) =
        some s ∧ s.pool.destructor = .notified ∧
      ∀ r < 2, r ∈ s.pool.tasksQueue ∨ ∃ w, s.pool.workers w = .running r := by
  have hfacts : ((runGuarded lifeStep (new 1)
      (bothStarted.map .start ++ [.destructor, .destructor])).map fun s => s.pool.destructor) =
      some .notified := by
    decide +kernel
  obtain ⟨s, h, hs⟩ := Option.map_eq_some_iff.mp hfacts
  exact ⟨s, h, hs, (server_destructor_never_returns 1 h).2 (by rw [hs]; exact nofun)⟩

end ServerStart

end HttpReactor
