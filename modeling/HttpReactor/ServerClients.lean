import HttpReactor.ClientIsolation
import HttpReactor.ReactorProgress
import HttpReactor.ServerThreads

/-!
# What a server does for its clients

Once nothing arrives any more, the listener and the reactors get through the clients that
have connected in as many steps as `work` counts, whichever of them takes its steps when, and
come to rest with every client registered and every complete request answered. Over files
that stay, if the kernel takes what is sent, a client has at any moment been sent a prefix of
the replies to its own requests, whichever reactor it was given to.
-/

namespace HttpReactor
open ListSearch Connection EdgeTriggered Refinement

variable {κ σ : Type} {n : ℕ}

def ListenerPhase.work (arrived : κ → Bytes) : ListenerPhase κ → ℕ
  | polling => 1
  | reported => 0
  | accepted c => (arrived c).length + 6

theorem Reactor.Isolated.own_alive [DecidableEq κ]
    {dispatch : σ → Bytes → Except Terminate (Handled × σ)} {I : σ → Prop}
    {asked : Bytes → Prop} {result : Bytes → Handled} {r r' : Reactor κ σ}
    {e : ReactorEvent κ σ} (hfix : Fixes dispatch I asked result)
    (h : r.Isolated dispatch I asked result) (hl : r.Live) (he : e.IsOwn)
    (hasked : ∀ t, r'.Asks t → asked t) (hstep : r.loopStep dispatch e = some r') :
    r'.phase ≠ .terminated := by
  have hloop := hstep
  cases e with
  | arrive _ _ | finish _ _ | register _ _ | disturb _ | callExit | pollFails | interrupt =>
    exact absurd he id
  | poll =>
    simp only [loopStep] at hstep
    split at hstep
    · split_ifs at hstep
      cases hstep
      simp
    · cases hstep
  | start =>
    simp only [loopStep] at hstep
    split at hstep
    · cases hstep
      simp
    · cases hstep
  | recv extra =>
    simp only [loopStep] at hstep
    split at hstep
    · cases hstep
      dsimp only
      split
      · simp
      · simp
    · cases hstep
  | handle =>
    simp only [loopStep] at hstep
    split at hstep
    · next c outs rest hp =>
      split at hstep
      · cases hstep
      · next x hx =>
        cases hstep
        have hne : r.phase ≠ .terminated := by simp [hp]
        have hiso := h.step hfix (fun _ => hl) (outside_of_isOwn he) hasked
          (step_of_loopStep hne hloop)
        generalize processHttpRequest dispatch { x with server := r.server } outs = y at hiso ⊢
        have halive := (hiso.clients c y (by simp [handled])).faithful.alive
        simp only [handled, if_neg halive]
        simp
    · cases hstep

theorem Reactor.register_work [DecidableEq κ] {r r' : Reactor κ σ} {c : κ}
    {sends : List SendOutcome} (h : r.otherStep (.register c sends) = some r') :
    r'.work ≤ r.work + (r.inbox c).unread.length + 4 := by
  obtain ⟨-, rfl⟩ := register_eq_some h
  simp only [work, unreadLengths, Readiness.watch, List.map_append, List.sum_append,
    List.map_singleton, List.sum_singleton]
  split_ifs
  · rw [List.length_append, List.length_singleton]
    omega
  · omega

namespace RunningServer

variable [DecidableEq κ] {dispatch : σ → Bytes → Except Terminate (Handled × σ)}
  {s s' : RunningServer κ σ n} {e : ServerEvent κ σ n}

def backlogWork (s : RunningServer κ σ n) : ℕ :=
  (s.backlog.map fun c => (s.arrived c).length + 7).sum

def work (s : RunningServer κ σ n) : ℕ :=
  s.backlogWork + s.listener.work s.arrived + ∑ i, (s.project i).work

/-- The steps that the threads take by themselves, calls that fail or are interrupted left out,
when there is something to do. -/
def AtWork (s : RunningServer κ σ n) : ServerEvent κ σ n → Prop
  | .pollListener => s.backlog ≠ []
  | .accept | .addConnection _ _ => True
  | .reactor i e => e.IsOwn ∧ ¬ (s.project i).Idle
  | _ => False

/-- What other programs and the kernel may do: leave the server in `I` and accept what is sent. -/
def Outside (I : σ → Prop) : ServerEvent κ σ n → Prop
  | .disturb server => I server
  | .addConnection _ sends => Delivers sends
  | .reactor _ e => Reactor.Outside I e
  | _ => True

omit [DecidableEq κ] in
theorem Seen.outside {I : σ → Prop} {i : Fin n} {e' : ReactorEvent κ σ} {server : σ}
    (h : Seen server i e e') (he : Outside I e) (hserver : I server) : Reactor.Outside I e' := by
  cases h with
  | arrive | finish | callExit => trivial
  | disturb | other => exact hserver
  | register => exact he
  | own => exact he

theorem Sound.allTaken_step (h : s.Sound) (htaken : ∀ i, (s.project i).AllTaken)
    (he : Outside (fun _ => True) e) (hstep : s.step dispatch e = some s') (i : Fin n) :
    (s'.project i).AllTaken := by
  have hlive := h.live (stepped_of_step hstep).1
  rcases project_step h.assigned hlive hstep i with ⟨-, heq⟩ | ⟨e', hseen, he'⟩
  · rw [heq]
    exact htaken i
  · exact (htaken i).step (hseen.outside he trivial) he'

theorem allTaken_run {server : σ} {agent : DistributionAgent} {events : List (ServerEvent κ σ n)}
    (hevents : ∀ e ∈ events, Outside (fun _ => True) e)
    (h : run dispatch (start server agent) events = some s) (i : Fin n) :
    (s.project i).AllTaken := by
  have hstep : ∀ (t : RunningServer κ σ n), ∀ e ∈ events, ∀ t',
      t.Sound ∧ (∀ i, (t.project i).AllTaken) → t.step dispatch e = some t' →
        t'.Sound ∧ ∀ i, (t'.project i).AllTaken :=
    fun t e he t' ht hs => ⟨ht.1.step hs, ht.1.allTaken_step ht.2 (hevents e he) hs⟩
  have hstart : ∀ i, ((start server agent : RunningServer κ σ n).project i).AllTaken := by
    intro i c x hx
    cases hx
  exact (runGuarded_invariant hstep ⟨start_sound server agent, hstart⟩ h).2 i

def Rest (s : RunningServer κ σ n) : Prop :=
  s.listener = .polling ∧ s.backlog = [] ∧ ∀ i, (s.project i).Idle

theorem Assigned.adds_work {r : Reactor κ σ} {c : κ} {sends : List SendOutcome} {i : Fin n}
    (h : s.Assigned) (hp : s.listener = .accepted c)
    (hr : (s.view i).otherStep (.register c sends) = some r) :
    ((s.put i r).project i).work ≤ (s.project i).work + (s.arrived c).length + 4 := by
  have hself := h.adds_self hp hr
  have hnone : (s.threads i).sessions c = none := (Reactor.register_eq_some hself).1
  have hunread : ((s.project i).inbox c).unread = s.arrived c := by
    simp [project, Reactor.alone, view, hnone]
  have hwork := Reactor.register_work hself
  rwa [hunread] at hwork

theorem Sound.work_lt (h : s.Sound) (he : s.AtWork e) (hstep : s.step dispatch e = some s') :
    s'.work < s.work := by
  obtain ⟨hended, hstepped⟩ := stepped_of_step hstep
  have hlive := h.live hended
  cases hstepped with
  | connects | arrives | finishes | disturbs | calls | skips | fails => exact absurd he id
  | polls hl =>
    have hb : s.backlog ≠ [] := he
    have hwork : s.work = s.backlogWork + 1 + ∑ i, (s.project i).work := by
      rw [work, hl]
      rfl
    rw [hwork]
    change s.backlogWork + (if s.backlog = [] then ListenerPhase.polling else .reported).work
      s.arrived + ∑ i, (s.project i).work < _
    rw [if_neg hb]
    simp only [ListenerPhase.work]
    omega
  | accepts c rest hl hb =>
    simp only [work, hl, backlogWork, hb, List.map_cons, List.sum_cons]
    simp only [ListenerPhase.work]
    change _ + _ + ∑ i, (s.project i).work < _
    omega
  | adds draw sends c i r hp hr =>
    have hle := h.assigned.adds_work hp hr
    have hsum := ServerStart.sum_of_agree (f := fun j => ((s.put i r).project j).work)
      (g := fun j => (s.project j).work) i fun j hji => by simp only [adds_other hr hji]
    have hwork : s.work =
        s.backlogWork + ((s.arrived c).length + 6) + ∑ j, (s.project j).work := by
      rw [work, hp]
      rfl
    change s.backlogWork + 1 + ∑ j, ((s.put i r).project j).work < _
    omega
  | reacts i e r hr =>
    have hne := alive hended i
    have hstep' := Reactor.step_of_loopStep hne (reacts_self (hlive i) hr)
    have hlt := (hlive i).own_work he.1 he.2 hstep'
    have hsum := ServerStart.sum_of_agree (f := fun j => ((s.put i r).project j).work)
      (g := fun j => (s.project j).work) i fun j hji => by
        simp only [h.assigned.reacts_other (hlive i) hr hji]
        rfl
    have hwork : s.work = s.backlogWork + s.listener.work s.arrived + ∑ j, (s.project j).work := rfl
    change s.backlogWork + s.listener.work s.arrived + ∑ j, ((s.put i r).project j).work < _
    omega

structure Kept (s s' : RunningServer κ σ n) : Prop where
  connected : s'.connected = s.connected
  arrived : s'.arrived = s.arrived
  agent : s'.agent = s.agent
  exit : ∀ i, (s'.threads i).exit = (s.threads i).exit

omit [DecidableEq κ] in
theorem Kept.refl (s : RunningServer κ σ n) : Kept s s := ⟨rfl, rfl, rfl, fun _ => rfl⟩

omit [DecidableEq κ] in
theorem Kept.trans {u : RunningServer κ σ n} (h : Kept s s') (h' : Kept s' u) : Kept s u :=
  ⟨h'.connected.trans h.connected, h'.arrived.trans h.arrived, h'.agent.trans h.agent,
    fun i => (h'.exit i).trans (h.exit i)⟩

theorem kept_of_step (he : s.AtWork e) (hstep : s.step dispatch e = some s') : Kept s s' := by
  have hput : ∀ (i : Fin n) (r : Reactor κ σ), r.exit = (s.threads i).exit →
      ∀ j, ((s.put i r).threads j).exit = (s.threads j).exit := by
    intro i r hr j
    by_cases hji : j = i
    · subst hji
      rw [put_threads_self]
      exact hr
    · rw [put_threads_of_ne hji]
  cases (stepped_of_step hstep).2 with
  | connects | arrives | finishes | disturbs | calls | skips | fails => exact absurd he id
  | polls | accepts => exact ⟨rfl, rfl, rfl, fun _ => rfl⟩
  | adds draw sends c i r hp hr =>
    obtain ⟨-, rfl⟩ := Reactor.register_eq_some hr
    exact ⟨rfl, rfl, rfl, hput i _ rfl⟩
  | reacts i e r hr =>
    exact ⟨rfl, rfl, rfl, hput i r (Reactor.loopFrame_of_loopStep hr).exit⟩

theorem Sound.goes_on (dispatch : σ → Bytes → Except Terminate (Handled × σ)) (h : s.Sound)
    (hended : s.ended = false) (hagent : s.agent = ⟨List.range n⟩) (hn : 0 < n)
    (hexit : ∀ i, (s.threads i).exit = false) (hrest : ¬ s.Rest) :
    ∃ e s', s.AtWork e ∧ (∀ I, Outside I e) ∧ s.step dispatch e = some s' := by
  -- Whichever reactor is drawn for the client in the hand of the listener has no session of it
  -- yet.
  have hnot : ¬ s.ended = true := by simp [hended]
  cases hl : s.listener with
  | polling =>
    by_cases hb : s.backlog = []
    · have hbusy : ∃ i, ¬ (s.project i).Idle := by
        by_contra hall
        exact hrest ⟨hl, hb, fun i => not_not.mp fun hi => hall ⟨i, hi⟩⟩
      obtain ⟨i, hi⟩ := hbusy
      have hlive := h.live hended i
      obtain ⟨e, r, he, hr⟩ := Reactor.own_enabled (s := s.view i) dispatch
        (fun c hc => hlive.registered (hlive.held c hc)) (alive hended i) (hexit i)
      refine ⟨.reactor i e, s.put i r, ⟨he, hi⟩, fun I => Reactor.outside_of_isOwn he, ?_⟩
      simp only [RunningServer.step, if_neg hnot, hr]
      rfl
    · exact ⟨.pollListener, _, hb, fun _ => trivial, by
        simp only [RunningServer.step, if_neg hnot, listenerStep, hl]
        rfl⟩
  | reported =>
    obtain ⟨c, rest, hb⟩ := List.exists_cons_of_ne_nil (h.assigned.reported hl)
    exact ⟨.accept, _, trivial, fun _ => trivial, by
      simp only [RunningServer.step, if_neg hnot, listenerStep, hl, hb]
      rfl⟩
  | accepted c =>
    have hselect : s.agent.selectCandidate (fun _ => 0) = some (0, 0) := by
      have hne : List.range n ≠ [] := by simp [Nat.ne_of_gt hn]
      rw [hagent, DistributionAgent.selectCandidate, List.getElem?_range hn]
      rfl
    have hnone : (s.view ⟨0, hn⟩).sessions c = none := by
      rw [← Option.not_isSome_iff_eq_none]
      intro hsome
      have hm := (h.assigned.sessions ⟨0, hn⟩ c).mp hsome
      exact h.assigned.not_registered hl (List.mem_map_of_mem (f := Prod.fst) hm)
    obtain ⟨r, hr⟩ : ∃ r, (s.view ⟨0, hn⟩).otherStep (.register c []) = some r :=
      ⟨_, by simp only [Reactor.otherStep, hnone]; rfl⟩
    exact ⟨.addConnection 0 [], _, trivial, fun _ => by simp [Outside, Delivers], by
      simp only [RunningServer.step, if_neg hnot, listenerStep, hl, hselect, dif_pos hn, hr]
      rfl⟩

theorem agent_run {server : σ} {agent : DistributionAgent} {events : List (ServerEvent κ σ n)}
    (h : run dispatch (start server agent) events = some s) : s.agent = agent := by
  have hstep : ∀ (t : RunningServer κ σ n), ∀ e ∈ events, ∀ t', t.agent = agent →
      t.step dispatch e = some t' → t'.agent = agent := by
    intro t e _ t' ht hs
    cases (stepped_of_step hs).2 <;> exact ht
  exact runGuarded_invariant hstep rfl h

omit [DecidableEq κ] in
theorem Assigned.registered_of_rest (h : s.Assigned) (hrest : s.Rest) {c : κ}
    (hc : c ∈ s.connected) :
    ∃ i x, (c, i) ∈ s.registered ∧ (s.threads i).sessions c = some x := by
  obtain ⟨hl, hb, -⟩ := hrest
  have hreg : c ∈ s.registered.map Prod.fst := by
    rw [h.order, hl, hb] at hc
    simpa [ListenerPhase.hand] using hc
  obtain ⟨⟨a, i⟩, hm, rfl⟩ := List.mem_map.mp hreg
  obtain ⟨x, hx⟩ := Option.isSome_iff_exists.mp ((h.sessions i a).mpr hm)
  exact ⟨i, x, hm, hx⟩

omit [DecidableEq κ] in
theorem project_inbox {i : Fin n} {c : κ} {x : Session σ}
    (hx : (s.threads i).sessions c = some x) : (s.project i).inbox c = s.inbox c := by
  have hsome : ((s.view i).sessions c).isSome = true := by
    rw [show (s.view i).sessions c = some x from hx]
    rfl
  exact Reactor.alone_inbox hsome

theorem Sound.answered (h : s.Sound) (hended : s.ended = false) (hrest : s.Rest) {c : κ}
    (hc : c ∈ s.connected) :
    ∃ i x, (c, i) ∈ s.registered ∧ (s.threads i).sessions c = some x ∧
      ((x.status = .connected ∧ Reactor.Answered x (s.arrived c)) ∨
        x.DeletedFor (s.inbox c)) := by
  obtain ⟨i, x, hm, hx⟩ := h.assigned.registered_of_rest hrest hc
  have hans := (h.live hended i).answered (hrest.2.2 i) hx
  rw [project_inbox hx] at hans
  exact ⟨i, x, hm, hx, hans.imp_left fun hc => ⟨hc.1, hc.2.2⟩⟩

/-- Once nothing arrives any more, a server whose constructor has settled takes at most `work`
steps, whichever threads take them, and from wherever they have led it comes to rest with every
client that has connected registered with a reactor, every complete request answered and every
response sent, unless the process ends. A failing `accept` or an interrupted call is no such step,
and the kernel accepts what is sent after finitely many tries and CGI programs end, so that
callbacks return. -/
theorem server_settles (dispatch : σ → Bytes → Except Terminate (Handled × σ)) {numThreads : ℕ}
    {actions : List (StartAction _)} {t : ServerStart (max numThreads kMinThreadCount)}
    (ht : runGuarded ServerStart.step (ServerStart.new numThreads) actions = some t)
    (hsettled : t.Settled) (server : σ) {events : List (ServerEvent κ σ _)}
    (hevents : ∀ e ∈ events, Outside (fun _ => True) e)
    {s : RunningServer κ σ (max numThreads kMinThreadCount)}
    (h : run dispatch (start server t.agent) events = some s)
    (hexit : ∀ i, (s.threads i).exit = false) :
    (∀ es s', Along (step dispatch) AtWork s es → run dispatch s es = some s' →
      es.length ≤ s.work) ∧
    ∀ es u, Along (step dispatch) AtWork s es → (∀ e ∈ es, Outside (fun _ => True) e) →
      run dispatch s es = some u →
      ∃ es' s', Along (step dispatch) AtWork u es' ∧ run dispatch u es' = some s' ∧
        (s'.ended = true ∨ s'.Rest ∧ ∀ c ∈ s.connected, ∃ i x, (c, i) ∈ s'.registered ∧
          (s'.threads i).sessions c = some x ∧
          ((x.status = .connected ∧ Reactor.Answered x (s.arrived c)) ∨
            x.DeletedFor (s'.inbox c)) ∧
          ∀ y ∈ exchanges x.events, y.accepted = y.handled.responseBuf) := by
  have hpos : 0 < max numThreads kMinThreadCount := lt_max_of_lt_right (by decide)
  have hagent : s.agent = ⟨List.range _⟩ :=
    (agent_run h).trans (ServerStart.agent_of_settled ht hsettled)
  have hstep : ∀ (u : RunningServer κ σ _) e u', u.Sound ∧ Kept s u → AtWork u e →
      u.step dispatch e = some u' → (u'.Sound ∧ Kept s u') ∧ u'.work < u.work := by
    intro u e u' hu he hs
    have hk := kept_of_step he hs
    exact ⟨⟨hu.1.step hs, hu.2.trans hk⟩, hu.1.work_lt he hs⟩
  have hsound : s.Sound ∧ Kept s s := ⟨sound_run h, Kept.refl s⟩
  refine ⟨fun es s' halong hrun => ?_, ?_⟩
  · exact le_of_add_le_left (length_add_rank_le hstep hsound halong hrun)
  · -- of these steps the run takes those whose sends are accepted
    let Going := fun u : RunningServer κ σ (max numThreads kMinThreadCount) =>
      (u.Sound ∧ Kept s u) ∧ ∀ i, (u.project i).AllTaken
    have hgoing : ∀ u e u', Going u → (AtWork u e ∧ Outside (fun _ => True) e) →
        u.step dispatch e = some u' → Going u' ∧ u'.work < u.work := by
      intro u e u' hu he hs
      obtain ⟨hkept, hlt⟩ := hstep u e u' hu.1 he.1 hs
      exact ⟨⟨hkept, hu.1.1.allTaken_step hu.2 he.2 hs⟩, hlt⟩
    have hgo : ∀ u, Going u → ¬ (u.ended = true ∨ u.Rest) → ∃ e u',
        (AtWork u e ∧ Outside (fun _ => True) e) ∧ u.step dispatch e = some u' := by
      intro u hu hnot
      obtain ⟨hended, hrest⟩ := not_or.mp hnot
      obtain ⟨⟨hu, hk⟩, -⟩ := hu
      obtain ⟨e, u', he, hout, hs⟩ := hu.goes_on dispatch (by simpa using hended)
        (hk.agent.trans hagent) hpos (fun i => (hk.exit i).trans (hexit i)) hrest
      exact ⟨e, u', ⟨he, hout _⟩, hs⟩
    intro es u halong hout hrun
    have hu : Going u := runGuarded_invariant_of_along
      (fun u e u' hu he hs => (hgoing u e u' hu he hs).1) ⟨hsound, allTaken_run hevents h⟩
      (halong.and_of_mem hout) hrun
    obtain ⟨es', s', halong', hrun', ⟨⟨hs', hk⟩, htaken⟩, hrest⟩ := exists_run_to_rest hgoing hgo hu
    refine ⟨es', s', halong'.mono fun _ _ he => he.1, hrun', ?_⟩
    by_cases hended : s'.ended = true
    · exact Or.inl hended
    · have hr := hrest.resolve_left hended
      refine Or.inr ⟨hr, fun c hc => ?_⟩
      rw [← hk.connected] at hc
      rw [← hk.arrived]
      obtain ⟨i, x, hm, hx, hans⟩ := hs'.answered (by simpa using hended) hr hc
      exact ⟨i, x, hm, hx, hans, (htaken i c x hx).whole⟩

theorem server_settles_connecting :
    let dispatch := serve (ascii "/srv")
      ⟨fun _ _ => ⟨1, 2, .writes (ascii "1") []⟩, fun _ world => world⟩
    let server : Service := ⟨0, ⟨fun _ => .missing, Store.new 0 100⟩⟩
    let events : List (ServerEvent ℕ Service (max 1 kMinThreadCount)) :=
      [.connect 5, .arrive 5 (ascii "GET /a HTTP/1.1" ++ kRequestEnd), .connect 6, .pollListener,
        .accept, .addConnection 1 [.failed .EINTR, .took 7], .reactor ThreadPool.worker₁ .poll]
    ∃ t s, runGuarded ServerStart.step (ServerStart.new 1) ServerStart.bothStarted = some t ∧
      run dispatch (start server t.agent) events = some s ∧
      ∃ es s', Along (step dispatch) AtWork s es ∧ run dispatch s es = some s' ∧
        (s'.ended = true ∨ s'.Rest ∧ ∀ c ∈ s.connected, ∃ i x, (c, i) ∈ s'.registered ∧
          (s'.threads i).sessions c = some x ∧
          ((x.status = .connected ∧ Reactor.Answered x (s.arrived c)) ∨
            x.DeletedFor (s'.inbox c)) ∧
          ∀ y ∈ exchanges x.events, y.accepted = y.handled.responseBuf) := by
  intro dispatch server events
  obtain ⟨t, ht, hagent, hsettled⟩ := ServerStart.bothStarted_settled
  have hevents : ∀ e ∈ events, Outside (fun _ => True) e := by
    simp [events, Outside, Reactor.Outside, Delivers, Errno.retried]
  have hran : ((run dispatch (start server ⟨[0, 1]⟩) events).map fun s =>
      decide (∀ i, (s.threads i).exit = false)) = some true := by
    decide +kernel
  rw [← hagent] at hran
  obtain ⟨s, h, hexit⟩ := Option.map_eq_some_iff.mp hran
  exact ⟨t, s, ht, h,
    (server_settles dispatch ht hsettled server hevents h (of_decide_eq_true hexit)).2 [] s trivial
      (List.forall_mem_nil _) rfl⟩

section Isolation

def Asks (s : RunningServer κ σ n) (requestStr : Bytes) : Prop :=
  ∃ c, requestStr ∈ (frames kRequestEnd (s.arrived c)).1

theorem asks_of_step (hstep : s.step dispatch e = some s') {requestStr : Bytes}
    (ha : s.Asks requestStr) : s'.Asks requestStr := by
  obtain ⟨c, hc⟩ := ha
  refine ⟨c, (frames_mono kRequestEnd_ne_nil ?_).subset hc⟩
  cases (stepped_of_step hstep).2 with
  | arrives a bytes ha hb =>
    by_cases hca : c = a
    · subst hca
      simp
    · simp [hca]
  | _ => exact List.prefix_rfl

omit [DecidableEq κ] in
theorem Kept.asks (h : Kept s s') : ∀ t, s'.Asks t → s.Asks t := by
  intro t ht
  rwa [Asks, h.arrived] at ht

def Known (s : RunningServer κ σ n) : Prop := ∀ c ∉ s.connected, s.arrived c = []

theorem Known.step (h : s.Known) (hstep : RunningServer.step dispatch s e = some s') :
    s'.Known := by
  cases (stepped_of_step hstep).2 with
  | connects a ha => exact fun c hc => h c fun hm => hc (List.mem_append_left _ hm)
  | arrives a bytes ha hb =>
    intro c hc
    have hca : c ≠ a := by
      rintro rfl
      exact hc ha
    simpa [hca] using h c hc
  | _ => exact h

omit [DecidableEq κ] in
theorem start_known (server : σ) (agent : DistributionAgent) :
    (start server agent : RunningServer κ σ n).Known := fun _ _ => rfl

theorem known_run {server : σ} {agent : DistributionAgent} {events : List (ServerEvent κ σ n)}
    (h : run dispatch (start server agent) events = some s) : s.Known :=
  runGuarded_invariant (fun _ _ _ _ hs hstep => hs.step hstep) (start_known server agent) h

omit [DecidableEq κ] in
theorem Known.asks (h : s.Known) {t : Bytes} (ht : s.Asks t) :
    t ∈ Reactor.askedTexts s.arrived s.connected := by
  obtain ⟨c, hc⟩ := ht
  exact Reactor.mem_askedTexts h hc

variable {I : σ → Prop} {asked : Bytes → Prop} {result : Bytes → Handled}

structure AllIsolated (dispatch : σ → Bytes → Except Terminate (Handled × σ)) (I : σ → Prop)
    (asked : Bytes → Prop) (result : Bytes → Handled) (s : RunningServer κ σ n) : Prop where
  sound : s.Sound
  server : I s.server
  reactors : ∀ i, (s.project i).Isolated dispatch I asked result

theorem start_isolated {server : σ} (hserver : I server) (agent : DistributionAgent) :
    (start server agent : RunningServer κ σ n).AllIsolated dispatch I asked result :=
  ⟨start_sound server agent, hserver, fun _ => ⟨hserver, nofun⟩⟩

theorem AllIsolated.step (hfix : Fixes dispatch I asked result)
    (h : s.AllIsolated dispatch I asked result) (he : Outside I e)
    (hasked : ∀ t, s'.Asks t → asked t) (hstep : RunningServer.step dispatch s e = some s') :
    s'.AllIsolated dispatch I asked result := by
  obtain ⟨hended, hstepped⟩ := stepped_of_step hstep
  have hlive := h.sound.live hended
  have hserver : I s'.server := by
    cases hstepped with
    | connects | arrives | finishes | calls | polls | accepts | skips | fails => exact h.server
    | disturbs server => exact he
    | adds draw sends c i r hp hr =>
      obtain ⟨-, rfl⟩ := Reactor.register_eq_some hr
      exact h.server
    | reacts i e r hr =>
      have hown := Reactor.step_of_loopStep (alive hended i) (reacts_self (hlive i) hr)
      have hown_asked : ∀ t, ((s.put i r).project i).Asks t → asked t := hasked
      exact ((h.reactors i).step hfix (fun _ => hlive i) he hown_asked hown).server
  refine ⟨h.sound.step hstep, hserver, fun i => ?_⟩
  rcases project_step h.sound.assigned hlive hstep i with ⟨-, heq⟩ | ⟨e', hseen, he'⟩
  · rw [heq]
    exact h.reactors i
  · exact (h.reactors i).step hfix (fun _ => hlive i) (hseen.outside he hserver) hasked he'

theorem AllIsolated.stays (hfix : Fixes dispatch I asked result)
    (h : s.AllIsolated dispatch I asked result) (he : s.AtWork e)
    (hasked : ∀ t, s'.Asks t → asked t) (hstep : RunningServer.step dispatch s e = some s') :
    s'.ended = false := by
  obtain ⟨hended, hstepped⟩ := stepped_of_step hstep
  have hlive := h.sound.live hended
  obtain ⟨hfailed, hphases⟩ := ended_eq_false_iff.mp hended
  have hput : ∀ (i : Fin n) (r : Reactor κ σ), r.phase ≠ .terminated →
      ∀ j, ((s.put i r).threads j).phase ≠ .terminated := by
    intro i r hr j
    by_cases hji : j = i
    · subst hji
      rw [put_threads_self]
      exact hr
    · rw [put_threads_of_ne hji]
      exact hphases j
  refine ended_eq_false_iff.mpr ?_
  cases hstepped with
  | connects | arrives | finishes | disturbs | calls | skips | fails => exact absurd he id
  | polls | accepts => exact ⟨hfailed, hphases⟩
  | adds draw sends c i r hp hr =>
    obtain ⟨-, rfl⟩ := Reactor.register_eq_some hr
    exact ⟨hfailed, hput i _ (hphases i)⟩
  | reacts i e r hr =>
    refine ⟨hfailed, hput i r ?_⟩
    have hown_asked : ∀ t, ((s.put i r).project i).Asks t → asked t := hasked
    have halive := (h.reactors i).own_alive hfix (hlive i) he.1 hown_asked
      (reacts_self (hlive i) hr)
    rwa [project_put_self (Reactor.loopFrame_of_loopStep hr).arrived] at halive

theorem AllIsolated.idle (h : s.AllIsolated dispatch I asked result) {i : Fin n}
    (hidle : (s.project i).Idle) {c : κ} {x : Session σ}
    (hx : (s.threads i).sessions c = some x) (hend : (s.inbox c).ending = none) :
    acceptedBytes x.events = replies result (s.arrived c) ∧ (x.status = .connected ↔
      ∀ p ∈ (frames kRequestEnd (s.arrived c)).1, (result p).shouldFinish = false) := by
  have hlive : (s.project i).Live := (h.sound.reactors i).resolve_left (by simp [hidle.1])
  rw [← project_inbox hx] at hend
  exact (h.reactors i).idle hlive hidle hx hend

theorem isolated_run (hfix : Fixes dispatch I asked result) {server : σ} (hserver : I server)
    (agent : DistributionAgent) {events : List (ServerEvent κ σ n)}
    (hevents : ∀ e ∈ events, Outside I e) (h : run dispatch (start server agent) events = some s)
    (hasked : ∀ t, s.Asks t → asked t) : s.AllIsolated dispatch I asked result :=
  runGuarded_invariant_of_final (Q := fun u : RunningServer κ σ n => ∀ t, u.Asks t → asked t)
    (fun _ _ _ hs hq t ht => hq t (asks_of_step hs ht))
    (fun _ e he _ ht hq hs => AllIsolated.step hfix ht (hevents e he) hq hs)
    (start_isolated hserver agent) h hasked

end Isolation

/-- Over files that stay and CGI programs that always print the same, if the kernel takes what is
sent and each text that a client sends has a result: whichever reactor a client is given to,
whatever the other clients send and in whatever order the threads take their steps. -/
theorem every_client_answered_alone {dir : Bytes} {fs : FileSystem} {cgi : Bytes → CGIOutcome}
    {result : Bytes → Handled} (clock : ℕ → Int × Int) {disturb : ℕ → World → World}
    (hdisturb : ∀ n store, Store.Coherent fs store →
      Service.Unchanged fs ⟨n, disturb n ⟨fs, store⟩⟩)
    {server : Service} (hserver : server.Unchanged fs) (agent : DistributionAgent)
    {events : List (ServerEvent κ Service n)}
    (hevents : ∀ e ∈ events, Outside (Service.Unchanged fs) e) {s : RunningServer κ Service n}
    (h : run (serve dir ⟨fun n t => ⟨(clock n).1, (clock n).2, cgi t⟩, disturb⟩)
      (start server agent) events = some s) (hsteady : Steady dir fs cgi s.Asks result)
    {i : Fin n} {c : κ} {x : Session Service} (hx : (s.threads i).sessions c = some x) :
    acceptedBytes x.events <+: replies result (s.arrived c) ∧
      ((s.project i).Idle → (s.inbox c).ending = none →
        acceptedBytes x.events = replies result (s.arrived c) ∧ (x.status = .connected ↔
          ∀ p ∈ (frames kRequestEnd (s.arrived c)).1, (result p).shouldFinish = false)) := by
  have hall := isolated_run (serve_fixes hsteady clock hdisturb) hserver agent hevents h
    fun _ ht => ht
  exact ⟨((hall.reactors i).clients c x hx).accepted, fun hidle hend => hall.idle hidle hx hend⟩

def oneFile : FileSystem := fun path =>
  if path = ascii "/srv" then .directory
  else if path = ascii "/srv/a" then .regular (ascii "xy") true else .missing

def oneProgram : CGIOutcome := .writes (ascii "1") (ascii "out")

def oneFileResult (requestStr : Bytes) : Handled :=
  Store.okOr (respondUncached (ascii "/srv") oneFile oneProgram requestStr) ⟨[], true⟩

def oneFileReturns (s : RunningServer κ σ n) : Bool :=
  (Reactor.askedTexts s.arrived s.connected).all fun t =>
    (respondUncached (ascii "/srv") oneFile oneProgram t).isOk

omit [DecidableEq κ] in
theorem Known.oneFile_steady (h : s.Known) (hok : s.oneFileReturns = true) :
    Steady (ascii "/srv") oneFile (fun _ => oneProgram) s.Asks oneFileResult :=
  steady_of_writes (ascii "out") (by decide) fun t ht => List.all_eq_true.mp hok t (h.asks ht)

theorem oneFile_new : Service.Unchanged oneFile ⟨0, ⟨oneFile, Store.new 0 100⟩⟩ :=
  ⟨rfl, by simp [Store.Coherent]⟩

def keepGet : Bytes :=
  ascii "GET /a HTTP/1.1" ++ kCRLF ++ ascii "Connection: Keep-Alive" ++ kRequestEnd

theorem replies_keepGet_twice : replies oneFileResult (keepGet ++ keepGet) =
    (oneFileResult keepGet).responseBuf ++ (oneFileResult keepGet).responseBuf := by
  have hframes : (frames kRequestEnd (keepGet ++ keepGet)).1 = [keepGet, keepGet] := by
    decide +kernel
  have hkeep : (oneFileResult keepGet).shouldFinish = false := by decide +kernel
  rw [replies, hframes]
  simp [answered, hkeep]

theorem every_client_answered_alone_two :
    let dispatch := serve (ascii "/srv")
      ⟨fun n _ => ⟨(n : Int), (n : Int), oneProgram⟩, fun _ world => world⟩
    let events : List (ServerEvent ℕ Service 2) :=
      [.connect 5, .connect 6, .pollListener, .accept, .addConnection 1 [.took 3], .pollListener,
        .accept, .arrive 5 keepGet, .arrive 6 (keepGet ++ keepGet), .addConnection 0 [],
        .reactor 1 .poll, .reactor 0 .poll, .reactor 1 .start, .reactor 0 .start,
        .reactor 0 (.recv 999), .reactor 1 (.recv 9), .reactor 0 (.recv 0), .reactor 0 .handle,
        .reactor 1 (.recv 999)]
    ∃ s x, run dispatch (start ⟨0, ⟨oneFile, Store.new 0 100⟩⟩ ⟨[0, 1]⟩) events = some s ∧
      s.arrived 6 = keepGet ++ keepGet ∧ (s.threads 0).sessions 6 = some x ∧
      acceptedBytes x.events =
        (oneFileResult keepGet).responseBuf ++ (oneFileResult keepGet).responseBuf := by
  intro dispatch events
  have hevents : ∀ e ∈ events, Outside (Service.Unchanged oneFile) e := by
    simp [events, Outside, Reactor.Outside, Delivers]
  have hfacts : ((run dispatch (start ⟨0, ⟨oneFile, Store.new 0 100⟩⟩ ⟨[0, 1]⟩) events).map
      fun s => decide ((s.project 0).Idle ∧ (s.inbox 6).ending = none ∧
        s.arrived 6 = keepGet ++ keepGet ∧ s.oneFileReturns = true) &&
        ((s.threads 0).sessions 6).isSome) = some true := by
    decide +kernel
  obtain ⟨s, h, hs⟩ := Option.map_eq_some_iff.mp hfacts
  rw [Bool.and_eq_true, decide_eq_true_iff, Option.isSome_iff_exists] at hs
  obtain ⟨⟨hidle, hend, harr, hok⟩, x, hx⟩ := hs
  refine ⟨s, x, h, harr, hx, ?_⟩
  have hsteady := (known_run h).oneFile_steady hok
  have hans := every_client_answered_alone (fun n => (n, n)) (fun _ _ hst => ⟨rfl, hst⟩)
    oneFile_new ⟨[0, 1]⟩ hevents h hsteady hx
  rw [(hans.2 hidle hend).1, harr, replies_keepGet_twice]

/-- Under the same conditions, once nothing arrives any more: from wherever its own steps have led,
a server whose constructor has settled comes to rest, and then every client that has connected and
not ended its side has been sent all its replies, and nothing else. -/
theorem server_serves_everyone {dir : Bytes} {fs : FileSystem} {cgi : Bytes → CGIOutcome}
    {result : Bytes → Handled} (clock : ℕ → Int × Int) {disturb : ℕ → World → World}
    (hdisturb : ∀ n store, Store.Coherent fs store →
      Service.Unchanged fs ⟨n, disturb n ⟨fs, store⟩⟩)
    {server : Service} (hserver : server.Unchanged fs) {numThreads : ℕ}
    {actions : List (StartAction _)} {t : ServerStart (max numThreads kMinThreadCount)}
    (ht : runGuarded ServerStart.step (ServerStart.new numThreads) actions = some t)
    (hsettled : t.Settled) {events : List (ServerEvent κ Service _)}
    (hevents : ∀ e ∈ events, Outside (Service.Unchanged fs) e)
    {s : RunningServer κ Service (max numThreads kMinThreadCount)}
    (h : run (serve dir ⟨fun n t => ⟨(clock n).1, (clock n).2, cgi t⟩, disturb⟩)
      (start server t.agent) events = some s) (hsteady : Steady dir fs cgi s.Asks result)
    (hended : s.ended = false) (hexit : ∀ i, (s.threads i).exit = false) :
    let dispatch := serve dir ⟨fun n t => ⟨(clock n).1, (clock n).2, cgi t⟩, disturb⟩
    ∀ es u, Along (step dispatch) AtWork s es → (∀ e ∈ es, Outside (Service.Unchanged fs) e) →
      run dispatch s es = some u →
      ∃ es' s', Along (step dispatch) AtWork u es' ∧ run dispatch u es' = some s' ∧ s'.Rest ∧
        ∀ c ∈ s.connected, ∃ i x, (c, i) ∈ s'.registered ∧
          (s'.threads i).sessions c = some x ∧ ((s'.inbox c).ending = none →
            acceptedBytes x.events = replies result (s.arrived c) ∧ (x.status = .connected ↔
              ∀ p ∈ (frames kRequestEnd (s.arrived c)).1, (result p).shouldFinish = false)) := by
  intro dispatch
  have hpos : 0 < max numThreads kMinThreadCount := lt_max_of_lt_right (by decide)
  have hagent : s.agent = ⟨List.range _⟩ :=
    (agent_run h).trans (ServerStart.agent_of_settled ht hsettled)
  have hfix : Fixes dispatch (Service.Unchanged fs) s.Asks result :=
    serve_fixes hsteady clock hdisturb
  let Going := fun u : RunningServer κ Service (max numThreads kMinThreadCount) =>
    u.AllIsolated dispatch (Service.Unchanged fs) s.Asks result ∧ u.ended = false ∧ Kept s u
  have hstep : ∀ u e u', Going u → (AtWork u e ∧ Outside (Service.Unchanged fs) e) →
      u.step dispatch e = some u' → Going u' ∧ u'.work < u.work := by
    intro u e u' hu he hs
    obtain ⟨hall, hgoing, hk⟩ := hu
    have hk' := hk.trans (kept_of_step he.1 hs)
    exact ⟨⟨hall.step hfix he.2 hk'.asks hs, hall.stays hfix he.1 hk'.asks hs, hk'⟩,
      hall.sound.work_lt he.1 hs⟩
  have hgo : ∀ u, Going u → ¬ u.Rest →
      ∃ e u', (AtWork u e ∧ Outside (Service.Unchanged fs) e) ∧ u.step dispatch e = some u' := by
    intro u hu hrest
    obtain ⟨hall, hgoing, hk⟩ := hu
    obtain ⟨e, u', he, hout, hs⟩ := hall.sound.goes_on dispatch hgoing (hk.agent.trans hagent) hpos
      (fun i => (hk.exit i).trans (hexit i)) hrest
    exact ⟨e, u', ⟨he, hout _⟩, hs⟩
  have hgoing : Going s :=
    ⟨isolated_run hfix hserver t.agent hevents h fun _ ht => ht, hended, Kept.refl s⟩
  intro es u halong hout hrun
  have hu : Going u := runGuarded_invariant_of_along
    (fun u e u' hu he hs => (hstep u e u' hu he hs).1) hgoing (halong.and_of_mem hout) hrun
  obtain ⟨es', s', halong', hrun', ⟨hall, -, hk⟩, hrest⟩ := exists_run_to_rest hstep hgo hu
  refine ⟨es', s', halong'.mono fun _ _ he => he.1, hrun', hrest, fun c hc => ?_⟩
  rw [← hk.connected] at hc
  obtain ⟨i, x, hm, hx⟩ := hall.sound.assigned.registered_of_rest hrest hc
  refine ⟨i, x, hm, hx, fun hend => ?_⟩
  rw [← hk.arrived]
  exact hall.idle (hrest.2.2 i) hx hend

theorem server_serves_everyone_connecting :
    let dispatch := serve (ascii "/srv")
      ⟨fun n _ => ⟨(n : Int), (n : Int), oneProgram⟩, fun _ world => world⟩
    let events : List (ServerEvent ℕ Service (max 1 kMinThreadCount)) :=
      [.connect 5, .connect 6, .pollListener, .acceptFails, .arrive 6 keepGet, .pollListener,
        .accept, .addConnection 1 [.took 3], .arrive 5 keepGet]
    ∃ t s, runGuarded ServerStart.step (ServerStart.new 1) ServerStart.bothStarted = some t ∧
      run dispatch (start ⟨0, ⟨oneFile, Store.new 0 100⟩⟩ t.agent) events = some s ∧
      ∃ es s', Along (step dispatch) AtWork s es ∧ run dispatch s es = some s' ∧ s'.Rest ∧
        ∀ c ∈ s.connected, ∃ i x, (c, i) ∈ s'.registered ∧
          (s'.threads i).sessions c = some x ∧ ((s'.inbox c).ending = none →
            acceptedBytes x.events = replies oneFileResult (s.arrived c) ∧
              (x.status = .connected ↔ ∀ p ∈ (frames kRequestEnd (s.arrived c)).1,
                (oneFileResult p).shouldFinish = false)) := by
  intro dispatch events
  obtain ⟨t, ht, hagent, hsettled⟩ := ServerStart.bothStarted_settled
  have hevents : ∀ e ∈ events, Outside (Service.Unchanged oneFile) e := by
    simp [events, Outside, Delivers]
  have hran : ((run dispatch (start ⟨0, ⟨oneFile, Store.new 0 100⟩⟩ ⟨[0, 1]⟩) events).map
      fun s => decide ((s.ended = false ∧ ∀ i, (s.threads i).exit = false) ∧
        s.oneFileReturns = true)) = some true := by
    decide +kernel
  rw [← hagent] at hran
  obtain ⟨s, h, hs⟩ := Option.map_eq_some_iff.mp hran
  obtain ⟨⟨hended, hexit⟩, hok⟩ := of_decide_eq_true hs
  have hsteady := (known_run h).oneFile_steady hok
  refine ⟨t, s, ht, h, ?_⟩
  exact server_serves_everyone (fun n => (n, n)) (fun _ _ hst => ⟨rfl, hst⟩) oneFile_new ht
    hsettled hevents h hsteady hended hexit [] s trivial (List.forall_mem_nil _) rfl

end RunningServer

end HttpReactor
