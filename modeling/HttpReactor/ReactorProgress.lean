import HttpReactor.ClientIsolation
import Mathlib.Algebra.Order.BigOperators.Group.List
import Mathlib.Algebra.Order.Group.Nat
import Mathlib.Algebra.Ring.Nat

/-!
# The loop of a reactor gets through its work

Every step of the loop that finds something to do takes bytes off a socket, a client off the
queue or the batch, or ends a callback. Once nothing arrives, and as long as callbacks return,
the loop thus comes to rest in as many steps as `work` counts. While clients keep sending, a
waiting client is reported after as many polls as it takes to report every registered
connection once.
-/

namespace HttpReactor
open ListSearch Connection EdgeTriggered Refinement

variable {κ σ : Type} [DecidableEq κ]

namespace ReactorPhase

def work : ReactorPhase κ → ℕ
  | walking batch => 3 * batch.length
  | receiving _ _ rest => 3 * rest.length + 2
  | handling _ _ rest => 3 * rest.length + 1
  | terminated => 0

end ReactorPhase

/-- The steps that the loop takes by itself, interrupted calls left out. -/
def ReactorEvent.IsOwn : ReactorEvent κ σ → Prop
  | .poll | .start | .recv _ | .handle => True
  | _ => False

namespace Reactor

variable {s s' : Reactor κ σ} {c : κ} {dispatch : σ → Bytes → Except Terminate (Handled × σ)}

def unreadLengths (s : Reactor κ σ) : List ℕ :=
  s.epoll.watched.map fun c => (s.inbox c).unread.length

def work (s : Reactor κ σ) : ℕ :=
  s.unreadLengths.sum + 4 * s.epoll.ready.length + s.phase.work

theorem poll_work (h : s.phase = .walking []) (hq : s.epoll.ready ≠ [])
    (hstep : s.loopStep dispatch .poll = some s') : s'.work < s.work := by
  simp only [loopStep, h] at hstep
  split_ifs at hstep
  cases hstep
  obtain ⟨hle, hlt⟩ := collect_shortens s.readable hq (show 0 < kDefaultListenedEvents by decide)
  simp only [work, unreadLengths, Readiness.report, ReactorPhase.work, h, List.length_nil]
  omega

theorem Live.recv_work {extra : ℕ} (h : s.Live)
    (hstep : s.loopStep dispatch (.recv extra) = some s') : s'.work < s.work := by
  simp only [loopStep] at hstep
  split at hstep
  · next c outs rest hp =>
    have hc : c ∈ s.epoll.watched := h.held c (by rw [hp]; exact List.mem_cons_self)
    have hr := (s.inbox c).received_recv extra
    generalize (s.inbox c).recv extra = answer at hr hstep
    cases hr with
    | data chunk left hu =>
      cases hstep
      have hlt : (s.epoll.watched.map fun a =>
          (Function.update s.inbox c { s.inbox c with unread := left } a).unread.length).sum <
          s.unreadLengths.sum := by
        refine List.sum_lt_sum _ _ (fun a _ => ?_) ⟨c, hc, ?_⟩
        · by_cases ha : a = c
          · subst ha
            simp [hu]
          · rw [Function.update_of_ne ha]
        · have := chunk.nonempty
          simp [hu, this]
      simp only [work, unreadLengths, hp, ReactorPhase.work] at hlt ⊢
      omega
    | blocked hu he =>
      cases hstep
      rw [Function.update_eq_self]
      simp only [work, unreadLengths, hp, ReactorPhase.work]
      omega
    | ended out hu he ho =>
      rcases ho with rfl | ⟨code, rfl⟩
      all_goals
        cases hstep
        rw [Function.update_eq_self]
        simp only [work, unreadLengths, hp, ReactorPhase.work]
        omega
  · cases hstep

theorem handle_work (hstep : s.loopStep dispatch .handle = some s') : s'.work < s.work := by
  simp only [loopStep] at hstep
  split at hstep
  · next c outs rest hp =>
    split at hstep
    · cases hstep
    · next x hx =>
      cases hstep
      generalize processHttpRequest dispatch { x with server := s.server } outs = y
      have hw : ((s.handled c rest y).unreadLengths).sum ≤ s.unreadLengths.sum := by
        simp only [unreadLengths, handled]
        split_ifs
        · exact le_rfl
        · exact ((List.filter_sublist).map _).sum_le_sum fun _ _ => Nat.zero_le _
      have hq : (s.handled c rest y).epoll.ready.length ≤ s.epoll.ready.length := by
        simp only [handled]
        split_ifs
        · exact le_rfl
        · exact List.length_filter_le _ _
      have hph : (s.handled c rest y).phase.work ≤ 3 * rest.length := by
        simp only [handled]
        split_ifs
        · exact Nat.zero_le _
        · exact le_rfl
      have hs : s.phase.work = 3 * rest.length + 1 := by rw [hp, ReactorPhase.work]
      simp only [work]
      omega
  · cases hstep

theorem Live.own_work {e : ReactorEvent κ σ} (h : s.Live) (he : e.IsOwn) (hbusy : ¬ s.Idle)
    (hstep : s.step dispatch e = some s') : s'.work < s.work := by
  unfold Reactor.step at hstep
  split at hstep
  · cases hstep
  · cases e with
    | arrive _ _ | finish _ _ | register _ _ | disturb _ | callExit | pollFails | interrupt =>
      exact absurd he id
    | poll =>
      have hp : s.phase = .walking [] := by
        simp only [loopStep] at hstep
        split at hstep
        · next hp => exact hp
        · cases hstep
      exact poll_work hp (fun hq => hbusy ⟨hp, hq⟩) hstep
    | start =>
      simp only [loopStep] at hstep
      split at hstep
      · next c rest hp =>
        cases hstep
        simp only [work, unreadLengths, hp, ReactorPhase.work, List.length_cons]
        omega
      · cases hstep
    | recv extra => exact h.recv_work hstep
    | handle => exact handle_work hstep

theorem own_enabled (dispatch : σ → Bytes → Except Terminate (Handled × σ))
    (hheld : ∀ c ∈ s.phase.held, (s.sessions c).isSome = true) (hp : s.phase ≠ .terminated)
    (hexit : s.exit = false) :
    ∃ (e : ReactorEvent κ σ) (s' : Reactor κ σ), e.IsOwn ∧ s.loopStep dispatch e = some s' := by
  cases hph : s.phase with
  | walking batch =>
    cases batch with
    | nil => exact ⟨.poll, _, trivial, by simp only [loopStep, hph, hexit]; rfl⟩
    | cons c rest => exact ⟨.start, _, trivial, by simp only [loopStep, hph]; rfl⟩
  | receiving c outs rest => exact ⟨.recv 0, _, trivial, by simp only [loopStep, hph]; rfl⟩
  | handling c outs rest =>
    have hc := hheld c (by rw [hph]; exact List.mem_cons_self)
    obtain ⟨x, hx⟩ := Option.isSome_iff_exists.mp hc
    exact ⟨.handle, _, trivial, by simp only [loopStep, hph, hx]; rfl⟩
  | terminated => exact absurd hph hp

theorem own_keeps {e : ReactorEvent κ σ} (he : e.IsOwn) (hstep : s.step dispatch e = some s') :
    s'.exit = s.exit ∧ s'.arrived = s.arrived := by
  unfold Reactor.step at hstep
  split at hstep
  · cases hstep
  · cases e with
    | arrive _ _ | finish _ _ | register _ _ | disturb _ | callExit | pollFails | interrupt =>
      exact absurd he id
    | poll =>
      simp only [loopStep] at hstep
      split at hstep
      · split_ifs at hstep
        cases hstep
        exact ⟨rfl, rfl⟩
      · cases hstep
    | start | recv _ =>
      simp only [loopStep] at hstep
      split at hstep
      · cases hstep
        exact ⟨rfl, rfl⟩
      · cases hstep
    | handle =>
      simp only [loopStep] at hstep
      split at hstep
      · split at hstep
        · cases hstep
        · cases hstep
          exact ⟨rfl, rfl⟩
      · cases hstep

omit [DecidableEq κ] in
theorem outside_of_isOwn {I : σ → Prop} {e : ReactorEvent κ σ} (he : e.IsOwn) :
    Outside I e := by
  cases e with
  | disturb _ | register _ _ => exact absurd he id
  | arrive _ _ | finish _ _ | callExit | poll | pollFails | start | recv _ | interrupt | handle =>
    trivial

structure Settling (s t : Reactor κ σ) : Prop where
  live : t.phase = .terminated ∨ t.Live
  exit : t.exit = false
  arrived : t.arrived = s.arrived
  taken : t.AllTaken

def AtWork (t : Reactor κ σ) (e : ReactorEvent κ σ) : Prop := e.IsOwn ∧ ¬ t.Idle

theorem settling_step {t t' : Reactor κ σ} {e : ReactorEvent κ σ} (h : Settling s t)
    (he : t.AtWork e) (hstep : t.step dispatch e = some t') :
    Settling s t' ∧ t'.work < t.work := by
  have hne : t.phase ≠ .terminated := by
    intro hp
    simp [Reactor.step, hp] at hstep
  have hlive := h.live.resolve_left hne
  obtain ⟨hexit, harrived⟩ := own_keeps he.1 hstep
  have htaken := h.taken.step (I := fun _ => True) (outside_of_isOwn he.1) hstep
  exact ⟨⟨live_step h.live hstep, hexit.trans h.exit, harrived.trans h.arrived, htaken⟩,
    hlive.own_work he.1 he.2 hstep⟩

/-- While nothing more arrives the loop takes at most `work` steps, whichever they are, and from
wherever they have led it comes to rest with everything answered and sent, unless a request
terminates the process. The step that handles a batch stands for a callback that returns: the
kernel accepts what is sent after finitely many tries, and a CGI program ends. -/
theorem loop_settles (dispatch : σ → Bytes → Except Terminate (Handled × σ)) (server : σ)
    {events : List (ReactorEvent κ σ)} (hevents : ∀ e ∈ events, Outside (fun _ => True) e)
    (h : run dispatch (start server) events = some s) (hexit : s.exit = false) :
    ∀ es u, Along (step dispatch) AtWork s es → run dispatch s es = some u →
      es.length ≤ s.work ∧
      ∃ es' s', Along (step dispatch) AtWork u es' ∧ run dispatch u es' = some s' ∧
        (s'.phase = .terminated ∨ s'.Idle ∧ ∀ c x, s'.sessions c = some x →
          ((x.status = .connected ∧ Answered x (s.arrived c)) ∨ x.DeletedFor (s'.inbox c)) ∧
            ∀ y ∈ exchanges x.events, y.accepted = y.handled.responseBuf) := by
  have hsettling : Settling s s := ⟨live_run h, hexit, rfl, allTaken_run hevents h⟩
  have hstep : ∀ t e t', Settling s t → AtWork t e → t.step dispatch e = some t' →
      Settling s t' ∧ t'.work < t.work := fun _ _ _ ht he hs => settling_step ht he hs
  have hgo : ∀ t, Settling s t → ¬ (t.phase = .terminated ∨ t.Idle) →
      ∃ e t', AtWork t e ∧ t.step dispatch e = some t' := by
    intro t ht hrest
    obtain ⟨hp, hbusy⟩ := not_or.mp hrest
    have hl := ht.live.resolve_left hp
    obtain ⟨e, t', he, hs⟩ :=
      own_enabled dispatch (fun c hc => hl.registered (hl.held c hc)) hp ht.exit
    exact ⟨e, t', ⟨he, hbusy⟩, step_of_loopStep hp hs⟩
  intro es u halong hrun
  refine ⟨le_of_add_le_left (length_add_rank_le hstep hsettling halong hrun), ?_⟩
  have hu : Settling s u := runGuarded_invariant_of_along
    (fun t e t' ht he hs => (hstep t e t' ht he hs).1) hsettling halong hrun
  obtain ⟨es', s', halong', hrun', hs', hrest⟩ := exists_run_to_rest hstep hgo hu
  refine ⟨es', s', halong', hrun', hrest.imp_right fun hidle => ⟨hidle, fun c x hx => ?_⟩⟩
  have hlive : s'.Live := hs'.live.resolve_left (by simp [hidle.1])
  refine ⟨(hlive.answered hidle hx).imp_left fun hc => ⟨hc.1, ?_⟩, (hs'.taken c x hx).whole⟩
  rw [← hs'.arrived]
  exact hc.2.2

theorem loop_settles_after_request :
    let fs : FileSystem := fun path =>
      if path = ascii "/srv" then .directory
      else if path = ascii "/srv/a" then .regular (ascii "xy") true else .missing
    let around : Surroundings :=
      ⟨fun _ _ => ⟨1, 2, .writes (ascii "1") []⟩, fun _ world => world⟩
    let dispatch := serve (ascii "/srv") around
    let events : List (ReactorEvent ℕ Service) :=
      [.register 5 [.took 3, .failed .EAGAIN], .arrive 5 (ascii "GET /a HTTP/1.1" ++ kRequestEnd)]
    ∃ s, run dispatch (start ⟨0, ⟨fs, Store.new 0 100⟩⟩) events = some s ∧
      ∃ es s', Along (step dispatch) AtWork s es ∧ run dispatch s es = some s' ∧
        (s'.phase = .terminated ∨ s'.Idle ∧ ∀ c x, s'.sessions c = some x →
          ((x.status = .connected ∧ Answered x (s.arrived c)) ∨ x.DeletedFor (s'.inbox c)) ∧
            ∀ y ∈ exchanges x.events, y.accepted = y.handled.responseBuf) := by
  intro fs around dispatch events
  have hevents : ∀ e ∈ events, Outside (fun _ => True) e := by
    simp [events, Outside, Delivers, Errno.retried]
  have hfacts : ((run dispatch (start ⟨0, ⟨fs, Store.new 0 100⟩⟩) events).map Reactor.exit) =
      some false := rfl
  obtain ⟨s, h, hexit⟩ := Option.map_eq_some_iff.mp hfacts
  exact ⟨s, h, (loop_settles dispatch _ hevents h hexit [] s trivial rfl).2⟩

section Waiting

def Waiting (s : Reactor κ σ) (c : κ) : Prop :=
  c ∈ s.epoll.ready ∧ s.readable c = true ∧ c ∉ s.phase.held

def isPoll : ReactorEvent κ σ → Bool
  | .poll => true
  | _ => false

def place (s : Reactor κ σ) (c : κ) : ℕ := s.epoll.ready.idxOf c

theorem Waiting.notify {inbox : κ → Inbox} {arrived : κ → Bytes} {a : κ} (h : s.Waiting c)
    (hreadable : (s.inbox c).readable = true → (inbox c).readable = true) :
    Waiting { s with inbox := inbox, arrived := arrived, epoll := s.epoll.notify a } c ∧
      place { s with inbox := inbox, arrived := arrived, epoll := s.epoll.notify a } c =
        s.place c := by
  obtain ⟨hq, hr, hheld⟩ := h
  simp only [Waiting, place, Readiness.notify]
  split_ifs
  · exact ⟨⟨List.mem_append_left _ hq, hreadable hr, hheld⟩, List.idxOf_append_of_mem hq⟩
  · exact ⟨⟨hq, hreadable hr, hheld⟩, rfl⟩

theorem Waiting.other {e : ReactorEvent κ σ} (h : s.Waiting c) (hstep : s.otherStep e = some s') :
    s'.Waiting c ∧ s'.place c = s.place c := by
  have hgrow : ∀ (a : κ) (b : Inbox), ((s.inbox a).readable = true → b.readable = true) →
      (s.inbox c).readable = true → (Function.update s.inbox a b c).readable = true := by
    intro a b hb hc
    by_cases hca : c = a
    · subst hca
      rw [Function.update_self]
      exact hb hc
    · rwa [Function.update_of_ne hca]
  cases e with
  | arrive a bytes =>
    simp only [otherStep] at hstep
    split_ifs at hstep
    cases hstep
    exact h.notify (hgrow a _ (by simp only [Inbox.readable]; simp; tauto))
  | finish a ending =>
    simp only [otherStep] at hstep
    split_ifs at hstep
    cases hstep
    exact h.notify (hgrow a _ (by simp [Inbox.readable]))
  | register a sends =>
    simp only [otherStep] at hstep
    split at hstep
    · cases hstep
    · cases hstep
      obtain ⟨hq, hr, hheld⟩ := h
      simp only [Waiting, place, Readiness.watch]
      split_ifs
      · exact ⟨⟨List.mem_append_left _ hq, hr, hheld⟩, List.idxOf_append_of_mem hq⟩
      · exact ⟨⟨hq, hr, hheld⟩, rfl⟩
  | disturb _ | callExit =>
    cases hstep
    exact ⟨h, rfl⟩
  | poll | pollFails | start | recv _ | interrupt | handle => cases hstep

theorem Waiting.loop {e : ReactorEvent κ σ} (h : s.Waiting c)
    (hstep : s.loopStep dispatch e = some s') :
    (isPoll e = true ∧ c ∈ s'.phase.held) ∨ (isPoll e = false ∧ s'.phase = .terminated) ∨
      s'.Waiting c ∧
        s'.place c + (if isPoll e then kDefaultListenedEvents else 0) ≤ s.place c := by
  obtain ⟨hq, hr, hheld⟩ := h
  cases e with
  | poll =>
    simp only [loopStep] at hstep
    split at hstep
    · split_ifs at hstep
      cases hstep
      by_cases hc : c ∈ (s.epoll.report s.readable kDefaultListenedEvents).1
      · exact Or.inl ⟨rfl, hc⟩
      · obtain ⟨hm, hle⟩ := (idxOf_collect s.readable hq hr kDefaultListenedEvents).resolve_left hc
        exact Or.inr (Or.inr ⟨⟨hm, hr, hc⟩, hle⟩)
    · cases hstep
  | pollFails =>
    simp only [loopStep] at hstep
    split at hstep
    · split_ifs at hstep
      cases hstep
      exact Or.inr (Or.inl ⟨rfl, rfl⟩)
    · cases hstep
  | start | interrupt =>
    simp only [loopStep] at hstep
    split at hstep
    · next hp =>
      cases hstep
      rw [hp] at hheld
      exact Or.inr (Or.inr ⟨⟨hq, hr, hheld⟩, Nat.le_refl _⟩)
    · cases hstep
  | recv extra =>
    simp only [loopStep] at hstep
    split at hstep
    · next a outs rest hp =>
      rw [hp] at hheld
      have hca : c ≠ a := fun hca => hheld (hca ▸ List.mem_cons_self)
      have hr' : (Function.update s.inbox a ((s.inbox a).recv extra).2 c).readable = true := by
        rwa [Function.update_of_ne hca]
      cases hstep
      refine Or.inr (Or.inr ⟨⟨hq, hr', ?_⟩, Nat.le_refl _⟩)
      generalize ((s.inbox a).recv extra).1 = out
      cases out with
      | data chunk => exact hheld
      | closed => exact hheld
      | failed errno => exact hheld
    · cases hstep
  | handle =>
    simp only [loopStep] at hstep
    split at hstep
    · next a outs rest hp =>
      rw [hp] at hheld
      have hca : c ≠ a := fun hca => hheld (hca ▸ List.mem_cons_self)
      have hrest : c ∉ rest := fun hm => hheld (List.mem_cons_of_mem a hm)
      split at hstep
      · cases hstep
      · next x hx =>
        cases hstep
        generalize processHttpRequest dispatch { x with server := s.server } outs = y
        by_cases hy : y.status = .terminated
        · exact Or.inr (Or.inl ⟨rfl, by simp [handled, hy]⟩)
        · refine Or.inr (Or.inr ?_)
          have hp' : (s.handled a rest y).phase = .walking rest := by simp [handled, hy]
          rw [Waiting, hp']
          by_cases hs : y.status = .connected
          · simp only [handled, place, if_pos hs]
            exact ⟨⟨hq, hr, hrest⟩, Nat.le_refl _⟩
          · simp only [handled, place, if_neg hs]
            refine ⟨⟨List.mem_filter.mpr ⟨hq, by simpa using hca⟩, hr, hrest⟩, ?_⟩
            exact idxOf_filter_le (by simpa using hca) s.epoll.ready
    · cases hstep
  | arrive _ _ | finish _ _ | register _ _ | disturb _ | callExit => cases hstep

theorem Waiting.step {e : ReactorEvent κ σ} (h : s.Waiting c)
    (hstep : s.step dispatch e = some s') :
    (isPoll e = true ∧ c ∈ s'.phase.held) ∨ (isPoll e = false ∧ s'.phase = .terminated) ∨
      s'.Waiting c ∧
        s'.place c + (if isPoll e then kDefaultListenedEvents else 0) ≤ s.place c := by
  unfold Reactor.step at hstep
  split at hstep
  · cases hstep
  · cases e with
    | arrive _ _ | finish _ _ | register _ _ | disturb _ | callExit =>
      obtain ⟨hw, he⟩ := h.other hstep
      exact Or.inr (Or.inr ⟨hw, Nat.le_of_eq he⟩)
    | poll | pollFails | start | recv _ | interrupt | handle => exact h.loop hstep

theorem Waiting.reported {es : List (ReactorEvent κ σ)} (h : s.Waiting c)
    (hrun : run dispatch s es = some s')
    (hn : s.place c < es.countP isPoll * kDefaultListenedEvents) :
    ∃ es₁ es₂ mid mid', es = es₁ ++ .poll :: es₂ ∧ run dispatch s es₁ = some mid ∧
      mid.step dispatch .poll = some mid' ∧ c ∈ mid'.phase.held := by
  induction es generalizing s with
  | nil => simp at hn
  | cons e es ih =>
    obtain ⟨s₁, h₁, hrest⟩ := runGuarded_cons_eq_some hrun
    rw [List.countP_cons] at hn
    rcases h.step h₁ with ⟨he, hc⟩ | ⟨he, hp⟩ | ⟨hw, hle⟩
    · cases e with
      | poll => exact ⟨[], es, s, s₁, rfl, rfl, h₁, hc⟩
      | arrive _ _ | finish _ _ | register _ _ | disturb _ | callExit | pollFails | start
      | recv _ | interrupt | handle => cases he
    · -- the process is gone, and no poll can follow
      cases es with
      | nil => simp [he] at hn
      | cons e' es =>
        obtain ⟨s₂, h₂, -⟩ := runGuarded_cons_eq_some hrest
        simp [Reactor.step, hp] at h₂
    · have hlt : s₁.place c < es.countP isPoll * kDefaultListenedEvents := by
        rw [Nat.add_mul] at hn
        split_ifs at hn hle <;> omega
      obtain ⟨es₁, es₂, mid, mid', he, hmid, hpoll, hc⟩ := ih hw hrest hlt
      exact ⟨e :: es₁, es₂, mid, mid', by rw [he]; rfl, by rw [run, runGuarded, h₁]; exact hmid,
        hpoll, hc⟩

/-- However much the other clients send, a client with something to read that is not in hand
is in the batch of a poll as soon as the polls could have reported every connection once. -/
theorem waiting_client_reported (dispatch : σ → Bytes → Except Terminate (Handled × σ))
    (server : σ) {events es : List (ReactorEvent κ σ)}
    (h : run dispatch (start server) events = some s) {x : Session σ}
    (hx : s.sessions c = some x) (hs : x.status = .connected)
    (hr : (s.inbox c).readable = true) (hheld : c ∉ s.phase.held)
    (hrun : run dispatch s es = some s')
    (hn : s.epoll.watched.length ≤ es.countP isPoll * kDefaultListenedEvents) :
    s.phase = .terminated ∨ ∃ es₁ es₂ mid mid', es = es₁ ++ .poll :: es₂ ∧
      run dispatch s es₁ = some mid ∧ mid.step dispatch .poll = some mid' ∧
      c ∈ mid'.phase.held := by
  refine (live_run h).imp_right fun hl => ?_
  have hc : c ∈ s.epoll.ready :=
    (hl.covered c ((hl.watched c).mpr ⟨x, hx, hs⟩) hr).resolve_right
      fun ho => hheld (s.phase.owed_sublist_held.subset ho)
  have hlen : s.epoll.ready.length ≤ s.epoll.watched.length :=
    (List.subperm_of_subset hl.queued.nodup hl.queued.watched).length_le
  have hplace : s.place c < s.epoll.ready.length := List.idxOf_lt_length_of_mem hc
  exact Waiting.reported ⟨hc, hr, hheld⟩ hrun (by omega)

theorem waiting_client_reported_next :
    let around : Surroundings :=
      ⟨fun _ _ => ⟨1, 2, .writes (ascii "1") []⟩, fun _ world => world⟩
    let dispatch := serve (ascii "/srv") around
    let next : List (ReactorEvent ℕ Service) :=
      [.start, .recv 0, .recv 0, .recv 0, .recv 0, .handle, .poll]
    ∃ s s', run dispatch (start ⟨0, ⟨fun _ => .missing, Store.new 0 100⟩⟩)
        [.register 5 [], .register 6 [], .arrive 5 (ascii "GET"), .poll, .arrive 6 (ascii "GET")] =
          some s ∧ run dispatch s next = some s' ∧
      (s.phase = .terminated ∨ ∃ es₁ es₂ mid mid', next = es₁ ++ .poll :: es₂ ∧
        run dispatch s es₁ = some mid ∧ mid.step dispatch .poll = some mid' ∧
        6 ∈ mid'.phase.held) := by
  intro around dispatch next
  have hfacts : ((run dispatch (start ⟨0, ⟨fun _ => .missing, Store.new 0 100⟩⟩)
      [.register 5 [], .register 6 [], .arrive 5 (ascii "GET"), .poll,
        .arrive 6 (ascii "GET")]).map fun s =>
      ((s.sessions 6).map Session.status, (s.inbox 6).readable, s.phase.held,
        s.epoll.watched.length, (run dispatch s next).isSome)) =
      some (some .connected, true, [5], 2, true) := by
    decide +kernel
  obtain ⟨s, h, hs⟩ := Option.map_eq_some_iff.mp hfacts
  simp only [Prod.mk.injEq, Option.map_eq_some_iff, Option.isSome_iff_exists] at hs
  obtain ⟨⟨x, hx, hc⟩, hr, hheld, hlen, s', hrun⟩ := hs
  exact ⟨s, s', h, hrun, waiting_client_reported dispatch _ h hx hc hr (by simp [hheld]) hrun
    (by rw [hlen]; decide)⟩

end Waiting

end Reactor

end HttpReactor
