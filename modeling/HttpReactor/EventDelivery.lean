import HttpReactor.ConnectionRegistry

/-!
# Events of deleted connections

`DeleteConnection` relies on `close` to take the socket off the interest list. While a forked
child has a copy of the socket that does not happen, and a poll may still report the erased
connection. Where no looper polls in such a state, what a poll returns can be walked: every
pointer leads to a connection that has its owner, in the map or in an `AddConnection` that has
yet to insert it, whatever was deleted, accepted or given a used number meanwhile.
-/

namespace HttpReactor
open Refinement

variable {κ : Type} [DecidableEq κ]

namespace Loopers

variable {s s' : Loopers κ} {stage : Client κ → Stage}

/-- No looper polls while a forked child has a copy of the socket of a connection that has been
erased from the looper's map. -/
def Released (s : Loopers κ) : LoopEvent κ → Prop
  | .poll l _ => ∀ c ∈ s.erased, c.looper = l → ¬ s.Copied c
  | _ => True

instance decidableReleased : ∀ (s : Loopers κ) (e : LoopEvent κ), Decidable (s.Released e)
  | s, .poll l _ => inferInstanceAs (Decidable (∀ c ∈ s.erased, c.looper = l → ¬ s.Copied c))
  | _, .acceptClient _ _ | _, .lockAdd | _, .register | _, .insert | _, .start _
  | _, .finish _ | _, .callDelete _ | _, .lockDelete _ | _, .erase _ | _, .close _
  | _, .fork _ | _, .waitpid _ _ | _, .execve _ | _, .exit _ | _, .openOther _
  | _, .closeOther _ => inferInstanceAs (Decidable True)

namespace Described

theorem served_of_interest {l : κ} {c : Client κ} (h : Described s stage)
    (hw : s.looper l = .walking []) (hreleased : ∀ c ∈ s.erased, c.looper = l → ¬ s.Copied c)
    (hc : c ∈ s.interest l) : c.looper = l ∧ (stage c).IsServed := by
  obtain ⟨hl, hg⟩ := (h.interest l c).mp hc
  refine ⟨hl.symm, ?_⟩
  obtain (hg | hg | hg) | ⟨hg, hcopied⟩ := hg
  · exact Or.inl hg
  · exact Or.inr hg
  · have hclosing := (h.closes l l c).mpr ⟨rfl, hl, hg⟩
    rw [hw] at hclosing
    cases hclosing
  · exact absurd hcopied (hreleased c ((h.erased c).mpr (Or.inr hg)) hl.symm)

theorem poll {l : κ} {batch : List (Client κ)} (h : Described s stage)
    (hreleased : s.Released (.poll l batch)) (hstep : s.looperStep (.poll l batch) = some s') :
    Described s' stage := by
  simp only [looperStep] at hstep
  split at hstep
  · next hguard =>
    obtain ⟨hw, hnd, -, hmem⟩ := hguard
    cases hstep
    have hserved : ∀ c ∈ batch, c.looper = l ∧ (stage c).IsServed :=
      fun c hc => h.served_of_interest hw hreleased (hmem c hc)
    have h₁ : Described (s.setLooper l (.walking batch)) stage :=
      h.setLooper (by rw [hw]; rfl) (by rw [hw]; rfl)
        ⟨hnd, fun c hc => (hserved c hc).1, fun c hc => (hserved c hc).2⟩
    refine { h₁ with fresh := ?_ }
    simp only [h.fresh, Bool.false_or, List.any_eq_false, decide_eq_true_eq]
    intro c hc he
    have hg := (hserved c hc).2
    have hg' := (h.erased c).mp he
    unfold Stage.IsServed at hg
    unfold Stage.IsErased at hg'
    obtain hg | hg := hg <;> simp [hg] at hg'
  · cases hstep

theorem start {l : κ} (h : Described s stage) (hstep : s.looperStep (.start l) = some s') :
    Described s' stage := by
  simp only [looperStep] at hstep
  have hp := h.pointers l
  split at hstep
  · next c rest hl =>
    cases hstep
    rw [hl] at hp
    exact h.setLooper (by rw [hl]; rfl) (by rw [hl]; rfl) hp
  · cases hstep

theorem finish {l : κ} (h : Described s stage) (hstep : s.looperStep (.finish l) = some s') :
    Described s' stage := by
  simp only [looperStep] at hstep
  have hp := h.pointers l
  split at hstep
  · next c rest hl =>
    cases hstep
    rw [hl] at hp
    exact h.setLooper (by rw [hl]; rfl) (by rw [hl]; rfl) hp.tail
  · cases hstep

theorem callDelete {l : κ} (h : Described s stage)
    (hstep : s.looperStep (.callDelete l) = some s') : Described s' stage := by
  simp only [looperStep] at hstep
  have hp := h.pointers l
  split at hstep
  · next c rest hl =>
    cases hstep
    rw [hl] at hp
    exact h.setLooper (by rw [hl]; rfl) (by rw [hl]; rfl) hp
  · cases hstep

theorem waitpid {l : κ} {ok : Bool} (h : Described s stage)
    (hstep : s.looperStep (.waitpid l ok) = some s') : Described s' stage := by
  simp only [looperStep] at hstep
  have hp := h.pointers l
  split at hstep
  · next n c rest hl =>
    split at hstep
    · cases hstep
      rw [hl] at hp
      exact h.setLooper (by rw [hl]; rfl) (by rw [hl]; rfl) hp
    · cases hstep
  · cases hstep

theorem keep {e : LoopEvent κ} (h : Described s stage) (hreleased : s.Released e)
    (hstep : s.step e = some s') : ∃ stage', Described s' stage' := by
  simp only [step, h.fresh, Bool.false_eq_true, if_false] at hstep
  cases e with
  | acceptClient fd looper => exact h.acceptClient hstep
  | lockAdd => exact ⟨stage, h.lockAdd hstep⟩
  | register => exact h.register hstep
  | insert => exact h.insert hstep
  | poll l batch => exact ⟨stage, h.poll hreleased hstep⟩
  | start l => exact ⟨stage, h.start hstep⟩
  | finish l => exact ⟨stage, h.finish hstep⟩
  | callDelete l => exact ⟨stage, h.callDelete hstep⟩
  | lockDelete l => exact ⟨stage, h.lockDelete hstep⟩
  | erase l => exact h.erase hstep
  | close l => exact h.close hstep
  | fork l => exact ⟨stage, h.fork hstep⟩
  | waitpid l ok => exact ⟨stage, h.waitpid hstep⟩
  | execve n | exit n | openOther fd | closeOther fd => exact ⟨stage, h.kernelStep hstep⟩

end Described

theorem described_of_released {events : List (LoopEvent κ)}
    (h : runGuarded step Loopers.start events = some s)
    (halong : Along step Released Loopers.start events) : ∃ stage, Described s stage := by
  have hstep : ∀ (s : Loopers κ) e s', (∃ stage, Described s stage) → s.Released e →
      s.step e = some s' → ∃ stage, Described s' stage := by
    intro s e s' hs hreleased hstep
    obtain ⟨stage, hs⟩ := hs
    exact hs.keep hreleased hstep
  exact runGuarded_invariant_of_along hstep ⟨_, start_described⟩ halong h

/-! ## Without forked children -/

def Unshared (s : Loopers κ) (_ : LoopEvent κ) : Prop := ∀ c, ¬ s.Copied c

def Owned (s : Loopers κ) (c : Client κ) : Prop :=
  (c.fd, c) ∈ s.connections c.looper ∨ s.acceptor = .registered c

theorem Described.owned {c : Client κ} (h : Described s stage) (hg : (stage c).IsServed) :
    s.Owned c := by
  obtain hg | hg := hg
  · exact Or.inr (h.acceptor_of_registered hg)
  · exact Or.inl ((h.connections c.looper c.fd c).mpr ⟨rfl, rfl, hg⟩)

omit [DecidableEq κ] in
theorem released_of_unshared (s : Loopers κ) (e : LoopEvent κ) (h : s.Unshared e) :
    s.Released e := by
  cases e with
  | poll l batch => exact fun c _ _ => h c
  | _ => exact trivial

theorem children_eq_nil {e : LoopEvent κ} (hs : s.children = []) (he : ∀ l, e ≠ .fork l)
    (hstep : s.step e = some s') : s'.children = [] := by
  unfold step acceptorStep looperStep kernelStep at hstep
  split at hstep
  · cases hstep
  · cases e with
    | fork l => exact absurd rfl (he l)
    | _ =>
      simp only at hstep
      repeat' split at hstep
      all_goals
        cases hstep
        try simp [setLooper, setMtx, closeSocket, dropClosed, releaseCopies, hs]

theorem unshared_of_no_fork {events : List (LoopEvent κ)}
    (h : ∀ e ∈ events, ∀ l, e ≠ .fork l) : Along step Unshared Loopers.start events := by
  have hunshared : ∀ (s : Loopers κ) e, s.children = [] → s.Unshared e := by
    intro s e hs c hc
    obtain ⟨child, hchild, -⟩ := hc
    simp [hs] at hchild
  exact along_of_invariant hunshared
    (fun s e he s' hs hstep => children_eq_nil hs (h e he) hstep) rfl

/-- In every run without forked copies, each entry of `connections_` has the number of its own
connection as its key, no insertion finds its key taken, every `DeleteConnection` returns true,
and the connection on which `Start` is called next has an owner. -/
theorem registry_invariant (events : List (LoopEvent κ)) (s : Loopers κ)
    (h : runGuarded step Loopers.start events = some s)
    (halong : Along step Unshared Loopers.start events) :
    (∀ l fd c, (fd, c) ∈ s.connections l → fd = c.fd) ∧
      (∀ b ∈ s.inserted, b = true) ∧ (∀ b ∈ s.deleted, b = true) ∧
      ∀ l c rest, s.looper l = .walking (c :: rest) → c.looper = l ∧ s.Owned c := by
  obtain ⟨stage, hs⟩ := described_of_released h (halong.mono released_of_unshared)
  refine ⟨fun l fd c hc => ((hs.connections l fd c).mp hc).1, hs.inserted, hs.deleted, ?_⟩
  intro l c rest hl
  have hp := hs.pointers l
  rw [hl] at hp
  exact ⟨hp.looper c List.mem_cons_self, hs.owned (hp.served c List.mem_cons_self)⟩

def reusedNumbers : List (LoopEvent (Fin 1)) :=
  [.acceptClient 7 0, .lockAdd, .register, .poll 0 [⟨0, 7, 0⟩], .start 0, .callDelete 0,
    .insert, .lockDelete 0, .acceptClient 8 0, .erase 0, .close 0, .lockAdd, .register, .insert,
    .acceptClient 7 0, .lockAdd, .register, .insert, .poll 0 [⟨1, 8, 0⟩, ⟨2, 7, 0⟩], .start 0,
    .callDelete 0, .lockDelete 0, .erase 0, .close 0, .acceptClient 8 0, .lockAdd, .register,
    .insert]

theorem registry_invariant_reusedNumbers :
    Along step Unshared Loopers.start reusedNumbers ∧
      ∃ s, runGuarded step Loopers.start reusedNumbers = some s ∧ s.deleted = [true, true] ∧
        s.looper 0 = .walking [⟨2, 7, 0⟩] ∧ s.Owned ⟨2, 7, 0⟩ := by
  have halong : Along step Unshared Loopers.start reusedNumbers :=
    unshared_of_no_fork (by decide)
  exact ⟨halong, _, rfl, rfl, rfl,
    ((registry_invariant reusedNumbers _ rfl halong).2.2.2 0 ⟨2, 7, 0⟩ [] rfl).2⟩

/-! ## With forked children -/

theorem Described.poll_stale {l : κ} {batch : List (Client κ)} (h : Described s stage)
    (hstep : s.step (.poll l batch) = some s') (hshared : ¬ s.Released (.poll l batch)) :
    ∃ c t, s.step (.poll l [c]) = some t ∧ t.stale = true := by
  simp only [Released, not_forall, not_not] at hshared
  obtain ⟨c, hc, hcl, hcopied⟩ := hshared
  have hw : s.looper l = .walking [] := by
    simp only [step, h.fresh, Bool.false_eq_true, if_false, looperStep] at hstep
    split at hstep
    · next hguard => exact hguard.1
    · cases hstep
  have hg : stage c = .closed := by
    refine ((h.erased c).mp hc).resolve_left fun hg => ?_
    have hclosing := (h.closes l l c).mpr ⟨rfl, hcl.symm, hg⟩
    rw [hw] at hclosing
    cases hclosing
  have hmem : c ∈ s.interest l := (h.interest l c).mpr ⟨hcl.symm, Or.inr ⟨hg, hcopied⟩⟩
  refine ⟨c, { s.setLooper l (.walking [c]) with stale := true }, ?_, rfl⟩
  simp [step, looperStep, h.fresh, hw, hmem, hc, kDefaultListenedEvents]

/-- In every run in which no looper polls while a forked child has a copy of the socket of a
connection erased from that looper, no poll returns the pointer of an erased connection. The
first poll that breaks the condition may return one. -/
theorem no_stale_of_released (events : List (LoopEvent κ)) (s : Loopers κ)
    (h : runGuarded step Loopers.start events = some s)
    (halong : Along step Released Loopers.start events) :
    s.stale = false ∧
      ∀ e s', s.step e = some s' → ¬ s.Released e →
        ∃ l c t, s.step (.poll l [c]) = some t ∧ t.stale = true := by
  obtain ⟨stage, hs⟩ := described_of_released h halong
  refine ⟨hs.fresh, ?_⟩
  intro e s' hstep hshared
  cases e with
  | poll l batch => exact ⟨l, hs.poll_stale hstep hshared⟩
  | _ => exact absurd trivial hshared

def deletedDuringFork : List (LoopEvent Bool) :=
  [.acceptClient 7 false, .lockAdd, .register, .insert, .acceptClient 8 true, .lockAdd, .register,
    .insert, .poll true [⟨1, 8, true⟩], .start true, .fork true, .poll false [⟨0, 7, false⟩],
    .start false, .callDelete false, .lockDelete false, .erase false, .close false]

def polledBeforeExecve : List (LoopEvent Bool) :=
  deletedDuringFork ++ [.poll false [⟨0, 7, false⟩]]

theorem stale_polledBeforeExecve :
    ∃ s, runGuarded step Loopers.start polledBeforeExecve = some s ∧ s.deleted = [true] ∧
      s.stale = true :=
  ⟨_, rfl, rfl, rfl⟩

def polledAfterExecve : List (LoopEvent Bool) :=
  deletedDuringFork ++ [.execve 0, .poll false [], .exit 0, .waitpid true true]

theorem no_stale_of_released_polledAfterExecve :
    Along step Released Loopers.start polledAfterExecve ∧
      ∃ s, runGuarded step Loopers.start polledAfterExecve = some s ∧ s.interest false = [] ∧
        s.stale = false := by
  have halong : Along step Released Loopers.start polledAfterExecve := by decide
  exact ⟨halong, _, rfl, rfl, (no_stale_of_released polledAfterExecve _ rfl halong).1⟩

end Loopers

end HttpReactor
