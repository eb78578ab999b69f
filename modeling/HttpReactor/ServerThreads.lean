import HttpReactor.ReactorAttention
import HttpReactor.ServerStartup

/-!
# A running server

The listener's thread accepts the clients that have connected and hands each to the reactor
that the distribution agent draws; every reactor runs its loop in a thread of its own; all
share the files and the cache. The listening socket is watched level-triggered: every `Poll`
reports it as long as a client waits, so that the callback may accept one client a time.

Seen from one reactor, the rest of the server only registers clients with it and changes the
files and the cache (`project_step`).
-/

namespace HttpReactor
open Connection EdgeTriggered Refinement

inductive ListenerPhase (κ : Type)
  | polling
  | reported
  | accepted (c : κ)
deriving DecidableEq, Repr

def ListenerPhase.hand {κ : Type} : ListenerPhase κ → List κ
  | accepted c => [c]
  | _ => []

structure ReactorThread (κ σ : Type) where
  epoll : Readiness κ
  sessions : κ → Option (Session σ)
  phase : ReactorPhase κ
  exit : Bool

structure RunningServer (κ σ : Type) (n : ℕ) where
  inbox : κ → Inbox
  arrived : κ → Bytes
  connected : List κ
  backlog : List κ
  listener : ListenerPhase κ
  /-- The listener's thread has terminated the process. -/
  failed : Bool
  agent : DistributionAgent
  registered : List (κ × Fin n)
  threads : Fin n → ReactorThread κ σ
  server : σ

/-- `listenerFails` is a `Poll`, a `SetNonBlocking` or an `epoll_ctl` of the listener's thread
that does not return. `reactor i e` is the step `e` of the loop of reactor `i`; `disturb` is
what other programs do to the files. -/
inductive ServerEvent (κ σ : Type) (n : ℕ)
  | connect (c : κ)
  | arrive (c : κ) (bytes : Bytes)
  | finish (c : κ) (ending : Ending)
  | disturb (server : σ)
  | pollListener
  | accept
  | acceptFails
  | listenerFails
  | addConnection (draw : ℕ) (sends : List SendOutcome)
  | callExit (i : Fin n)
  | reactor (i : Fin n) (e : ReactorEvent κ σ)

def Reactor.alone {κ σ : Type} (r : Reactor κ σ) : Reactor κ σ :=
  { r with
    inbox := fun c =>
      if (r.sessions c).isSome then r.inbox c else ⟨r.arrived c, (r.inbox c).ending⟩ }

def ReactorPhase.isTerminated {κ : Type} : ReactorPhase κ → Bool
  | terminated => true
  | _ => false

namespace Reactor

variable {κ σ : Type} [DecidableEq κ] {r r' : Reactor κ σ}
  {dispatch : σ → Bytes → Except Terminate (Handled × σ)} {e : ReactorEvent κ σ}

structure LoopFrame (r r' : Reactor κ σ) : Prop where
  arrived : r'.arrived = r.arrived
  exit : r'.exit = r.exit
  ending : ∀ c, (r'.inbox c).ending = (r.inbox c).ending
  inbox : ∀ c ∉ r.phase.held, r'.inbox c = r.inbox c
  sessions : ∀ c ∉ r.phase.held, r'.sessions c = r.sessions c
  registered : ∀ c, (r'.sessions c).isSome = (r.sessions c).isSome

theorem recv_ending (b : Inbox) (extra : ℕ) : (b.recv extra).2.ending = b.ending := by
  have hr := b.received_recv extra
  generalize b.recv extra = answer at hr
  cases hr with
  | data => rfl
  | blocked => rfl
  | ended => rfl

theorem loopFrame_of_loopStep (h : r.loopStep dispatch e = some r') : LoopFrame r r' := by
  cases e with
  | poll | pollFails =>
    simp only [loopStep] at h
    split at h
    · split_ifs at h
      cases h
      exact ⟨rfl, rfl, fun _ => rfl, fun _ _ => rfl, fun _ _ => rfl, fun _ => rfl⟩
    · cases h
  | start | interrupt =>
    simp only [loopStep] at h
    split at h
    · cases h
      exact ⟨rfl, rfl, fun _ => rfl, fun _ _ => rfl, fun _ _ => rfl, fun _ => rfl⟩
    · cases h
  | recv extra =>
    simp only [loopStep] at h
    split at h
    · next a outs rest hp =>
      cases h
      refine ⟨rfl, rfl, fun c => ?_, fun c hc => ?_, fun _ _ => rfl, fun _ => rfl⟩
      · by_cases hca : c = a
        · subst hca
          simp only [Function.update_self, recv_ending]
        · simp only [Function.update_of_ne hca]
      · have hca : c ≠ a := by
          intro hca
          apply hc
          rw [hp, hca]
          exact List.mem_cons_self
        simp only [Function.update_of_ne hca]
    · cases h
  | handle =>
    simp only [loopStep] at h
    split at h
    · next a outs rest hp =>
      split at h
      · cases h
      · next x hx =>
        cases h
        refine ⟨rfl, rfl, fun _ => rfl, fun _ _ => rfl, fun c hc => ?_, fun c => ?_⟩
        · have hca : c ≠ a := by
            intro hca
            apply hc
            rw [hp, hca]
            exact List.mem_cons_self
          simp only [handled, Function.update_of_ne hca]
        · by_cases hca : c = a
          · subst hca
            simp [handled, hx]
          · simp only [handled, Function.update_of_ne hca]
    · cases h
  | arrive _ _ | finish _ _ | register _ _ | disturb _ | callExit => cases h

omit [DecidableEq κ] in
theorem alone_inbox {c : κ} (h : (r.sessions c).isSome = true) : r.alone.inbox c = r.inbox c :=
  if_pos h

theorem alone_loopStep (hl : r.alone.Live) (h : r.loopStep dispatch e = some r') :
    r.alone.loopStep dispatch e = some r'.alone := by
  cases e with
  | poll =>
    simp only [loopStep] at h
    split at h
    · next hp =>
      split_ifs at h with hexit
      cases h
      have hreport : r.alone.epoll.report r.alone.readable kDefaultListenedEvents =
          r.epoll.report r.readable kDefaultListenedEvents := by
        have hread : ∀ c ∈ r.epoll.ready, r.alone.readable c = r.readable c := by
          intro c hc
          have hsome : (r.sessions c).isSome = true := hl.registered (hl.queued.watched c hc)
          rw [readable, alone_inbox hsome, readable]
        change r.epoll.report r.alone.readable kDefaultListenedEvents = _
        simp only [Readiness.report, collect_congr hread]
      have hp' : r.alone.phase = .walking [] := hp
      have hexit' : ¬ r.alone.exit = true := hexit
      simp only [loopStep, hp', if_neg hexit', hreport]
      rfl
    · cases h
  | pollFails =>
    simp only [loopStep] at h
    split at h
    · next hp =>
      split_ifs at h with hexit
      cases h
      have hp' : r.alone.phase = .walking [] := hp
      have hexit' : ¬ r.alone.exit = true := hexit
      simp only [loopStep, hp', if_neg hexit']
      rfl
    · cases h
  | start | interrupt =>
    simp only [loopStep] at h
    split at h
    · next hp =>
      cases h
      have hp' := hp
      change r.alone.phase = _ at hp'
      simp only [loopStep, hp']
      rfl
    · cases h
  | recv extra =>
    simp only [loopStep] at h
    split at h
    · next a outs rest hp =>
      cases h
      have hp' : r.alone.phase = .receiving a outs rest := hp
      have ha : (r.sessions a).isSome = true := by
        refine hl.registered (hl.held a ?_)
        rw [hp']
        exact List.mem_cons_self
      simp only [loopStep, hp', alone_inbox ha]
      have hinbox : Function.update r.alone.inbox a ((r.inbox a).recv extra).2 = fun c =>
          if (r.sessions c).isSome then
            Function.update r.inbox a ((r.inbox a).recv extra).2 c
          else ⟨r.arrived c,
            (Function.update r.inbox a ((r.inbox a).recv extra).2 c).ending⟩ := by
        funext c
        by_cases hca : c = a
        · subst hca
          simp [ha]
        · simp [alone, hca]
      rw [hinbox]
      rfl
    · cases h
  | handle =>
    simp only [loopStep] at h
    split at h
    · next a outs rest hp =>
      split at h
      · cases h
      · next x hx =>
        cases h
        have hp' : r.alone.phase = .handling a outs rest := hp
        have hx' : r.alone.sessions a = some x := hx
        simp only [loopStep, hp', hx']
        generalize hy : processHttpRequest dispatch { x with server := r.server } outs = y
        have hy' : processHttpRequest dispatch { x with server := r.alone.server } outs = y := hy
        rw [hy']
        have hinbox : r.alone.inbox = fun c =>
            if (Function.update r.sessions a (some y) c).isSome then r.inbox c
            else ⟨r.arrived c, (r.inbox c).ending⟩ := by
          funext c
          by_cases hca : c = a
          · subst hca
            simp [alone, hx]
          · simp [alone, hca]
        simp only [handled, alone] at hinbox ⊢
        rw [hinbox]
        rfl
    · cases h
  | arrive _ _ | finish _ _ | register _ _ | disturb _ | callExit => cases h

omit [DecidableEq κ] in
theorem alone_ending (r : Reactor κ σ) (c : κ) :
    (r.alone.inbox c).ending = (r.inbox c).ending := by
  simp only [alone]
  split_ifs
  · rfl
  · rfl

theorem alone_update (r : Reactor κ σ) (c : κ) (grow : Bytes → Bytes) (ending : Option Ending) :
    Function.update r.alone.inbox c ⟨grow (r.alone.inbox c).unread, ending⟩ = fun a =>
      if (r.sessions a).isSome then
        Function.update r.inbox c ⟨grow (r.inbox c).unread, ending⟩ a
      else ⟨Function.update r.arrived c (grow (r.arrived c)) a,
        (Function.update r.inbox c ⟨grow (r.inbox c).unread, ending⟩ a).ending⟩ := by
  funext a
  by_cases hac : a = c
  · subst hac
    simp only [alone, Function.update_self]
    split_ifs
    · rfl
    · rfl
  · simp only [alone, Function.update_of_ne hac]

omit [DecidableEq κ] in
theorem alone_congr {inbox : κ → Inbox} {server : σ}
    (hinbox : ∀ c, (r.sessions c).isSome → inbox c = r.inbox c)
    (hending : ∀ c, (inbox c).ending = (r.inbox c).ending) :
    Reactor.alone { r with inbox := inbox, server := server } =
      { r.alone with server := server } := by
  have hbox : (Reactor.alone { r with inbox := inbox, server := server }).inbox =
      r.alone.inbox := by
    funext c
    by_cases hc : (r.sessions c).isSome = true
    · simp only [alone, if_pos hc, hinbox c hc]
    · simp only [alone, if_neg hc, hending c]
  simp only [alone] at hbox ⊢
  rw [hbox]

theorem alone_otherStep (h : r.otherStep e = some r')
    (hfresh : ∀ c sends, e = .register c sends → (r.inbox c).unread = r.arrived c) :
    r.alone.otherStep e = some r'.alone := by
  cases e with
  | arrive c bytes =>
    simp only [otherStep] at h
    split_ifs at h with hc
    cases h
    have hinbox := alone_update r c (fun unread => unread ++ bytes) (r.inbox c).ending
    simp only [otherStep, alone_ending, if_pos hc, hinbox]
    rfl
  | finish c ending =>
    simp only [otherStep] at h
    split_ifs at h with hc
    cases h
    have hinbox := alone_update r c (fun unread => unread) (some ending)
    simp only [Function.update_eq_self] at hinbox
    simp only [otherStep, alone_ending, if_pos hc, hinbox]
    rfl
  | register c sends =>
    have hu := hfresh c sends rfl
    simp only [otherStep] at h
    split at h
    · cases h
    · next hnone =>
      cases h
      have hsame : r.alone.inbox c = r.inbox c := by
        simp only [alone, hnone, Option.isSome_none, Bool.false_eq_true, if_false, ← hu]
      have hinbox : r.alone.inbox = fun a =>
          if (Function.update r.sessions c (some (Session.start r.server sends)) a).isSome then
            r.inbox a
          else ⟨r.arrived a, (r.inbox a).ending⟩ := by
        funext a
        by_cases hac : a = c
        · subst hac
          simp [hsame]
        · simp only [alone, Function.update_of_ne hac]
      have hnone' : r.alone.sessions c = none := hnone
      simp only [otherStep, hnone', readable, hsame]
      simp only [alone] at hinbox ⊢
      rw [hinbox]
  | disturb server =>
    cases h
    rfl
  | callExit =>
    cases h
    rfl
  | poll | pollFails | start | recv _ | interrupt | handle => cases h

theorem register_eq_some {c : κ} {sends : List SendOutcome}
    (h : r.otherStep (.register c sends) = some r') :
    r.sessions c = none ∧ r' = { r with
      sessions := Function.update r.sessions c (some (Session.start r.server sends))
      epoll := r.epoll.watch c (r.readable c) } := by
  simp only [otherStep] at h
  split at h
  · cases h
  · next hnone =>
    cases h
    exact ⟨hnone, rfl⟩

end Reactor

namespace RunningServer

variable {κ σ : Type} [DecidableEq κ] {n : ℕ}

def start (server : σ) (agent : DistributionAgent) : RunningServer κ σ n :=
  { inbox := fun _ => ⟨[], none⟩
    arrived := fun _ => []
    connected := []
    backlog := []
    listener := .polling
    failed := false
    agent := agent
    registered := []
    threads := fun _ => ⟨⟨[], []⟩, fun _ => none, .walking [], false⟩
    server := server }

def view (s : RunningServer κ σ n) (i : Fin n) : Reactor κ σ :=
  { inbox := s.inbox
    arrived := s.arrived
    epoll := (s.threads i).epoll
    sessions := (s.threads i).sessions
    server := s.server
    phase := (s.threads i).phase
    exit := (s.threads i).exit }

def put (s : RunningServer κ σ n) (i : Fin n) (r : Reactor κ σ) : RunningServer κ σ n :=
  { s with
    inbox := r.inbox
    server := r.server
    threads := Function.update s.threads i ⟨r.epoll, r.sessions, r.phase, r.exit⟩ }

/-- The kernel notifies every epoll instance that watches the socket. -/
def notifyAll (s : RunningServer κ σ n) (c : κ) (i : Fin n) : ReactorThread κ σ :=
  { s.threads i with epoll := (s.threads i).epoll.notify c }

def ended (s : RunningServer κ σ n) : Bool :=
  s.failed || (List.finRange n).any fun i => (s.threads i).phase.isTerminated

def listenerStep (s : RunningServer κ σ n) : ServerEvent κ σ n → Option (RunningServer κ σ n)
  | .pollListener =>
    match s.listener with
    | .polling => some { s with listener := if s.backlog = [] then .polling else .reported }
    | _ => none
  | .accept =>
    match s.listener, s.backlog with
    | .reported, c :: rest => some { s with listener := .accepted c, backlog := rest }
    | _, _ => none
  | .acceptFails =>
    match s.listener with
    | .reported => some { s with listener := .polling }
    | _ => none
  | .listenerFails => some { s with failed := true }
  | .addConnection draw sends =>
    match s.listener, s.agent.selectCandidate fun _ => draw with
    | .accepted c, some (candidate, _) =>
      if h : candidate < n then
        ((s.view ⟨candidate, h⟩).otherStep (.register c sends)).map fun r =>
          { s.put ⟨candidate, h⟩ r with
            listener := .polling
            registered := s.registered ++ [(c, ⟨candidate, h⟩)] }
      else none
    | _, _ => none
  | _ => none

def clientStep (s : RunningServer κ σ n) : ServerEvent κ σ n → Option (RunningServer κ σ n)
  | .connect c =>
    if c ∈ s.connected then none
    else some { s with connected := s.connected ++ [c], backlog := s.backlog ++ [c] }
  | .arrive c bytes =>
    if c ∈ s.connected ∧ bytes ≠ [] ∧ (s.inbox c).ending = none then
      some { s with
        inbox := Function.update s.inbox c { s.inbox c with unread := (s.inbox c).unread ++ bytes }
        arrived := Function.update s.arrived c (s.arrived c ++ bytes)
        threads := s.notifyAll c }
    else none
  | .finish c ending =>
    if c ∈ s.connected ∧ (s.inbox c).ending = none then
      some { s with
        inbox := Function.update s.inbox c { s.inbox c with ending := some ending }
        threads := s.notifyAll c }
    else none
  | _ => none

def step (dispatch : σ → Bytes → Except Terminate (Handled × σ)) (s : RunningServer κ σ n)
    (e : ServerEvent κ σ n) : Option (RunningServer κ σ n) :=
  if s.ended then none
  else match e with
    | .connect _ | .arrive _ _ | .finish _ _ => s.clientStep e
    | .disturb server => some { s with server := server }
    | .callExit i => some (s.put i { s.view i with exit := true })
    | .reactor i e => ((s.view i).loopStep dispatch e).map (s.put i)
    | _ => s.listenerStep e

def run (dispatch : σ → Bytes → Except Terminate (Handled × σ)) (s : RunningServer κ σ n)
    (events : List (ServerEvent κ σ n)) : Option (RunningServer κ σ n) :=
  runGuarded (step dispatch) s events

def project (s : RunningServer κ σ n) (i : Fin n) : Reactor κ σ := (s.view i).alone

/-- Each client that has connected is in one place: registered with one reactor, in the hand of
the listener or in the backlog, in the order in which they came. -/
structure Assigned (s : RunningServer κ σ n) : Prop where
  order : s.connected = s.registered.map Prod.fst ++ s.listener.hand ++ s.backlog
  nodup : s.connected.Nodup
  sessions : ∀ i c, ((s.threads i).sessions c).isSome ↔ (c, i) ∈ s.registered
  unread : ∀ c, c ∉ s.registered.map Prod.fst → (s.inbox c).unread = s.arrived c
  reported : s.listener = .reported → s.backlog ≠ []

omit [DecidableEq κ] in
@[simp] theorem put_threads_self (s : RunningServer κ σ n) (i : Fin n) (r : Reactor κ σ) :
    (s.put i r).threads i = ⟨r.epoll, r.sessions, r.phase, r.exit⟩ :=
  Function.update_self ..

omit [DecidableEq κ] in
theorem put_threads_of_ne {s : RunningServer κ σ n} {r : Reactor κ σ} {i j : Fin n} (h : j ≠ i) :
    (s.put i r).threads j = s.threads j :=
  Function.update_of_ne h ..

inductive Stepped (dispatch : σ → Bytes → Except Terminate (Handled × σ))
    (s : RunningServer κ σ n) : ServerEvent κ σ n → RunningServer κ σ n → Prop
  | connects (c : κ) (hc : c ∉ s.connected) :
      Stepped dispatch s (.connect c)
        { s with connected := s.connected ++ [c], backlog := s.backlog ++ [c] }
  | arrives (c : κ) (bytes : Bytes) (hc : c ∈ s.connected)
      (hb : bytes ≠ [] ∧ (s.inbox c).ending = none) :
      Stepped dispatch s (.arrive c bytes) { s with
        inbox := Function.update s.inbox c { s.inbox c with unread := (s.inbox c).unread ++ bytes }
        arrived := Function.update s.arrived c (s.arrived c ++ bytes)
        threads := s.notifyAll c }
  | finishes (c : κ) (ending : Ending) (hc : c ∈ s.connected) (he : (s.inbox c).ending = none) :
      Stepped dispatch s (.finish c ending) { s with
        inbox := Function.update s.inbox c { s.inbox c with ending := some ending }
        threads := s.notifyAll c }
  | disturbs (server : σ) : Stepped dispatch s (.disturb server) { s with server := server }
  | calls (i : Fin n) :
      Stepped dispatch s (.callExit i) (s.put i { s.view i with exit := true })
  | reacts (i : Fin n) (e : ReactorEvent κ σ) (r : Reactor κ σ)
      (hr : (s.view i).loopStep dispatch e = some r) :
      Stepped dispatch s (.reactor i e) (s.put i r)
  | polls (hl : s.listener = .polling) :
      Stepped dispatch s .pollListener
        { s with listener := if s.backlog = [] then .polling else .reported }
  | accepts (c : κ) (rest : List κ) (hl : s.listener = .reported) (hb : s.backlog = c :: rest) :
      Stepped dispatch s .accept { s with listener := .accepted c, backlog := rest }
  | skips (hl : s.listener = .reported) :
      Stepped dispatch s .acceptFails { s with listener := .polling }
  | fails : Stepped dispatch s .listenerFails { s with failed := true }
  | adds (draw : ℕ) (sends : List SendOutcome) (c : κ) (i : Fin n) (r : Reactor κ σ)
      (hl : s.listener = .accepted c)
      (hr : (s.view i).otherStep (.register c sends) = some r) :
      Stepped dispatch s (.addConnection draw sends)
        { s.put i r with listener := .polling, registered := s.registered ++ [(c, i)] }

variable {dispatch : σ → Bytes → Except Terminate (Handled × σ)} {s s' : RunningServer κ σ n}
  {e : ServerEvent κ σ n} {i j : Fin n}

theorem stepped_of_listenerStep (h : s.listenerStep e = some s') : Stepped dispatch s e s' := by
  cases e with
  | pollListener =>
    simp only [listenerStep] at h
    split at h
    · next hl =>
      cases h
      exact .polls hl
    · cases h
  | accept =>
    simp only [listenerStep] at h
    split at h
    · next c rest hl hb =>
      cases h
      exact .accepts c rest hl hb
    · cases h
  | acceptFails =>
    simp only [listenerStep] at h
    split at h
    · next hl =>
      cases h
      exact .skips hl
    · cases h
  | listenerFails =>
    cases h
    exact .fails
  | addConnection draw sends =>
    simp only [listenerStep] at h
    split at h
    · next c candidate idx hl ha =>
      split_ifs at h with hlt
      obtain ⟨r, hr, rfl⟩ := Option.map_eq_some_iff.mp h
      exact .adds draw sends c ⟨candidate, hlt⟩ r hl hr
    · cases h
  | connect _ | arrive _ _ | finish _ _ | disturb _ | callExit _ | reactor _ _ => cases h

theorem stepped_of_clientStep (h : s.clientStep e = some s') : Stepped dispatch s e s' := by
  cases e with
  | connect c =>
    simp only [clientStep] at h
    split_ifs at h with hc
    cases h
    exact .connects c hc
  | arrive c bytes =>
    simp only [clientStep] at h
    split_ifs at h with hc
    cases h
    exact .arrives c bytes hc.1 hc.2
  | finish c ending =>
    simp only [clientStep] at h
    split_ifs at h with hc
    cases h
    exact .finishes c ending hc.1 hc.2
  | disturb _ | pollListener | accept | acceptFails | listenerFails | addConnection _ _
  | callExit _ | reactor _ _ => cases h

theorem stepped_of_step (h : s.step dispatch e = some s') :
    s.ended = false ∧ Stepped dispatch s e s' := by
  unfold RunningServer.step at h
  split_ifs at h with hended
  refine ⟨by simpa using hended, ?_⟩
  cases e with
  | connect _ | arrive _ _ | finish _ _ => exact stepped_of_clientStep h
  | disturb server =>
    cases h
    exact .disturbs server
  | callExit i =>
    cases h
    exact .calls i
  | reactor i e =>
    obtain ⟨r, hr, rfl⟩ := Option.map_eq_some_iff.mp h
    exact .reacts i e r hr
  | pollListener | accept | acceptFails | listenerFails | addConnection _ _ =>
    exact stepped_of_listenerStep h

omit [DecidableEq κ] in
theorem ended_eq_false_iff :
    s.ended = false ↔ s.failed = false ∧ ∀ i, (s.threads i).phase ≠ .terminated := by
  have hphase : ∀ phase : ReactorPhase κ, phase.isTerminated = false ↔ phase ≠ .terminated := by
    intro phase
    cases phase <;> simp [ReactorPhase.isTerminated]
  simp [ended, hphase]

omit [DecidableEq κ] in
theorem alive (h : s.ended = false) (i : Fin n) : (s.project i).phase ≠ .terminated :=
  (ended_eq_false_iff.mp h).2 i

section Assigned

omit [DecidableEq κ] in
theorem start_assigned (server : σ) (agent : DistributionAgent) :
    (start server agent : RunningServer κ σ n).Assigned :=
  ⟨rfl, List.nodup_nil, by simp [start], fun _ _ => rfl, nofun⟩

omit [DecidableEq κ] in
theorem Assigned.unique (h : s.Assigned) {c : κ} (hi : (c, i) ∈ s.registered)
    (hj : (c, j) ∈ s.registered) : i = j := by
  have hnd := h.nodup
  rw [h.order, List.append_assoc] at hnd
  have hinj := List.inj_on_of_nodup_map (List.nodup_append.mp hnd).1
  exact congrArg Prod.snd (hinj hi hj rfl)

theorem Assigned.step (h : s.Assigned) (hl : ∀ i, (s.project i).Live)
    (hstep : Stepped dispatch s e s') : s'.Assigned := by
  cases hstep with
  | connects c hc =>
    refine ⟨?_, ?_, h.sessions, h.unread, ?_⟩
    · simp only [h.order, List.append_assoc]
    · exact List.nodup_append.mpr ⟨h.nodup, List.nodup_singleton c, fun a ha b hb hab => by
        rw [List.mem_singleton.mp hb] at hab
        exact hc (hab ▸ ha)⟩
    · intro _
      simp
  | arrives c bytes hc hb =>
    refine ⟨h.order, h.nodup, h.sessions, fun a ha => ?_, h.reported⟩
    have hu := h.unread a ha
    by_cases hac : a = c
    · subst hac
      simp only [Function.update_self, hu]
    · simp only [Function.update_of_ne hac, hu]
  | finishes c ending hc he =>
    refine ⟨h.order, h.nodup, h.sessions, fun a ha => ?_, h.reported⟩
    have hu := h.unread a ha
    by_cases hac : a = c
    · subst hac
      simpa only [Function.update_self] using hu
    · simpa only [Function.update_of_ne hac] using hu
  | disturbs server => exact ⟨h.order, h.nodup, h.sessions, h.unread, h.reported⟩
  | calls i =>
    refine ⟨h.order, h.nodup, fun j c => ?_, h.unread, h.reported⟩
    refine Iff.trans ?_ (h.sessions j c)
    by_cases hji : j = i
    · subst hji
      rw [put_threads_self]
      rfl
    · rw [put_threads_of_ne hji]
  | reacts i e r hr =>
    have hframe := Reactor.loopFrame_of_loopStep hr
    refine ⟨h.order, h.nodup, fun j c => ?_, fun c hc => ?_, h.reported⟩
    · refine Iff.trans ?_ (h.sessions j c)
      by_cases hji : j = i
      · subst hji
        rw [put_threads_self, hframe.registered c]
        rfl
      · rw [put_threads_of_ne hji]
    · have hheld : c ∉ (s.view i).phase.held := by
        intro hm
        have hsome := (hl i).registered ((hl i).held c hm)
        exact hc (List.mem_map_of_mem (f := Prod.fst) ((h.sessions i c).mp hsome))
      have hin : (s.put i r).inbox c = s.inbox c := hframe.inbox c hheld
      rw [hin]
      exact h.unread c hc
  | polls hp =>
    refine ⟨?_, h.nodup, h.sessions, h.unread, ?_⟩
    · rw [h.order, hp]
      split_ifs
      · rfl
      · rfl
    · intro hr
      split_ifs at hr with hb
      exact hb
  | accepts c rest hp hb =>
    refine ⟨?_, h.nodup, h.sessions, h.unread, nofun⟩
    rw [h.order, hp, hb]
    simp [ListenerPhase.hand]
  | skips hp =>
    refine ⟨?_, h.nodup, h.sessions, h.unread, nofun⟩
    rw [h.order, hp]
    rfl
  | fails => exact ⟨h.order, h.nodup, h.sessions, h.unread, h.reported⟩
  | adds draw sends c i r hp hr =>
    obtain ⟨hnone, rfl⟩ := Reactor.register_eq_some hr
    refine ⟨?_, h.nodup, fun j a => ?_, fun a ha => ?_, nofun⟩
    · refine h.order.trans ?_
      rw [hp]
      simp [ListenerPhase.hand, put]
    · refine Iff.trans ?_ (List.mem_append.trans (or_congr_left (h.sessions j a).symm)).symm
      by_cases hji : j = i
      · subst hji
        by_cases hac : a = c
        · subst hac
          simp [put]
        · simp [put, hac, view]
      · simp [put, hji]
    · refine h.unread a fun hm => ha ?_
      rw [List.map_append]
      exact List.mem_append_left _ hm

end Assigned

section Projection

omit [DecidableEq κ] in
theorem project_put_self {r : Reactor κ σ} (h : r.arrived = s.arrived) :
    (s.put i r).project i = r.alone := by
  have hview : (s.put i r).view i = r := by
    simp only [view, put_threads_self]
    change { r with arrived := s.arrived } = r
    rw [← h]
  rw [project, hview]

omit [DecidableEq κ] in
theorem project_put_of_ne {r : Reactor κ σ} (hji : j ≠ i)
    (hinbox : ∀ c, ((s.threads j).sessions c).isSome → r.inbox c = s.inbox c)
    (hending : ∀ c, (r.inbox c).ending = (s.inbox c).ending) :
    (s.put i r).project j = { s.project j with server := r.server } := by
  have hview : (s.put i r).view j = { s.view j with inbox := r.inbox, server := r.server } := by
    simp only [view, put_threads_of_ne hji]
    rfl
  rw [project, hview]
  exact Reactor.alone_congr hinbox hending

theorem reacts_self {r : Reactor κ σ} {e : ReactorEvent κ σ} (hl : (s.project i).Live)
    (hr : (s.view i).loopStep dispatch e = some r) :
    (s.project i).loopStep dispatch e = some ((s.put i r).project i) := by
  rw [project_put_self (Reactor.loopFrame_of_loopStep hr).arrived]
  exact Reactor.alone_loopStep hl hr

theorem Assigned.reacts_other {r : Reactor κ σ} {e : ReactorEvent κ σ} (h : s.Assigned)
    (hl : (s.project j).Live) (hr : (s.view j).loopStep dispatch e = some r) (hij : i ≠ j) :
    (s.put j r).project i = { s.project i with server := r.server } := by
  have hframe := Reactor.loopFrame_of_loopStep hr
  refine project_put_of_ne hij (fun c hc => hframe.inbox c fun hheld => hij ?_) hframe.ending
  have hsome := hl.registered (hl.held c hheld)
  exact h.unique ((h.sessions i c).mp hc) ((h.sessions j c).mp hsome)

omit [DecidableEq κ] in
theorem Assigned.not_registered {c : κ} (h : s.Assigned) (hp : s.listener = .accepted c) :
    c ∉ s.registered.map Prod.fst := by
  intro hm
  have hnd := h.nodup
  rw [h.order, hp, List.append_assoc] at hnd
  exact List.disjoint_of_nodup_append hnd hm (List.mem_append_left _ (List.mem_singleton_self c))

theorem Assigned.adds_self {r : Reactor κ σ} {c : κ} {sends : List SendOutcome} (h : s.Assigned)
    (hp : s.listener = .accepted c) (hr : (s.view i).otherStep (.register c sends) = some r) :
    (s.project i).otherStep (.register c sends) = some ((s.put i r).project i) := by
  have hproject := Reactor.alone_otherStep hr fun a _ ha => by
    cases ha
    exact h.unread c (h.not_registered hp)
  obtain ⟨-, rfl⟩ := Reactor.register_eq_some hr
  rw [project_put_self rfl]
  exact hproject

theorem adds_other {r : Reactor κ σ} {c : κ} {sends : List SendOutcome}
    (hr : (s.view j).otherStep (.register c sends) = some r) (hij : i ≠ j) :
    (s.put j r).project i = s.project i := by
  obtain ⟨-, rfl⟩ := Reactor.register_eq_some hr
  exact project_put_of_ne hij (fun _ _ => rfl) fun _ => rfl

/-- What a step of the server is to reactor `i`, whose server is `server` after it. -/
inductive Seen (server : σ) (i : Fin n) : ServerEvent κ σ n → ReactorEvent κ σ → Prop
  | arrive (c : κ) (bytes : Bytes) : Seen server i (.arrive c bytes) (.arrive c bytes)
  | finish (c : κ) (ending : Ending) : Seen server i (.finish c ending) (.finish c ending)
  | disturb : Seen server i (.disturb server) (.disturb server)
  | other (j : Fin n) (hij : i ≠ j) (e : ReactorEvent κ σ) :
      Seen server i (.reactor j e) (.disturb server)
  | register (c : κ) (draw : ℕ) (sends : List SendOutcome) :
      Seen server i (.addConnection draw sends) (.register c sends)
  | callExit : Seen server i (.callExit i) .callExit
  | own (e : ReactorEvent κ σ) : Seen server i (.reactor i e) e

/-- Steps of the server that may be nothing to reactor `i`. -/
inductive Unseen (i : Fin n) : ServerEvent κ σ n → Prop
  | connect (c : κ) : Unseen i (.connect c)
  | pollListener : Unseen i .pollListener
  | accept : Unseen i .accept
  | acceptFails : Unseen i .acceptFails
  | listenerFails : Unseen i .listenerFails
  | register (draw : ℕ) (sends : List SendOutcome) : Unseen i (.addConnection draw sends)
  | callExit (j : Fin n) (hij : i ≠ j) : Unseen i (.callExit j)

theorem project_step (h : s.Assigned) (hl : ∀ i, (s.project i).Live)
    (hstep : s.step dispatch e = some s') (i : Fin n) :
    Unseen i e ∧ s'.project i = s.project i ∨ ∃ e', Seen s'.server i e e' ∧
      (s.project i).step dispatch e' = some (s'.project i) := by
  obtain ⟨hended, hstepped⟩ := stepped_of_step hstep
  have halive := alive hended i
  cases hstepped with
  | connects c hc => exact Or.inl ⟨.connect c, rfl⟩
  | polls hp => exact Or.inl ⟨.pollListener, rfl⟩
  | accepts c rest hp hb => exact Or.inl ⟨.accept, rfl⟩
  | skips hp => exact Or.inl ⟨.acceptFails, rfl⟩
  | fails => exact Or.inl ⟨.listenerFails, rfl⟩
  | arrives c bytes hc hb =>
    refine Or.inr ⟨_, .arrive c bytes, Reactor.step_of_otherStep halive ?_⟩
    refine Reactor.alone_otherStep (if_pos hb) nofun
  | finishes c ending hc he =>
    refine Or.inr ⟨_, .finish c ending, Reactor.step_of_otherStep halive ?_⟩
    exact Reactor.alone_otherStep (if_pos he) nofun
  | disturbs server =>
    exact Or.inr ⟨_, .disturb, Reactor.step_of_otherStep halive rfl⟩
  | calls j =>
    by_cases hij : i = j
    · subst hij
      refine Or.inr ⟨_, .callExit, Reactor.step_of_otherStep halive ?_⟩
      rw [project_put_self rfl]
      rfl
    · exact Or.inl ⟨.callExit j hij, project_put_of_ne hij (fun _ _ => rfl) fun _ => rfl⟩
  | reacts j e r hr =>
    by_cases hij : i = j
    · subst hij
      exact Or.inr ⟨e, .own e, Reactor.step_of_loopStep halive (reacts_self (hl i) hr)⟩
    · refine Or.inr ⟨_, .other j hij e, Reactor.step_of_otherStep halive ?_⟩
      rw [h.reacts_other (hl j) hr hij]
      rfl
  | adds draw sends c j r hp hr =>
    by_cases hij : i = j
    · subst hij
      exact Or.inr ⟨_, .register c draw sends,
        Reactor.step_of_otherStep halive (h.adds_self hp hr)⟩
    · exact Or.inl ⟨.register draw sends, adds_other hr hij⟩

structure Sound (s : RunningServer κ σ n) : Prop where
  assigned : s.Assigned
  reactors : ∀ i, (s.project i).phase = .terminated ∨ (s.project i).Live

theorem start_sound (server : σ) (agent : DistributionAgent) :
    (start server agent : RunningServer κ σ n).Sound :=
  ⟨start_assigned server agent, fun _ => Or.inr (Reactor.start_live server)⟩

theorem Sound.live (h : s.Sound) (hended : s.ended = false) (i : Fin n) : (s.project i).Live :=
  (h.reactors i).resolve_left (alive hended i)

theorem Sound.step (h : s.Sound) (hstep : RunningServer.step dispatch s e = some s') :
    s'.Sound := by
  obtain ⟨hended, hstepped⟩ := stepped_of_step hstep
  refine ⟨h.assigned.step (h.live hended) hstepped, fun i => ?_⟩
  rcases project_step h.assigned (h.live hended) hstep i with ⟨-, heq⟩ | ⟨e', -, he'⟩
  · rw [heq]
    exact h.reactors i
  · exact Reactor.live_step (h.reactors i) he'

theorem sound_run {server : σ} {agent : DistributionAgent} {events : List (ServerEvent κ σ n)}
    (h : run dispatch (start server agent) events = some s) : s.Sound :=
  runGuarded_invariant (fun _ _ _ _ hs hstep => hs.step hstep) (start_sound server agent) h

theorem exists_reactor_run {server : σ} {agent : DistributionAgent}
    {events : List (ServerEvent κ σ n)} (h : run dispatch (start server agent) events = some s)
    (i : Fin n) :
    ∃ es, Traces (Unseen i) (fun e e' => ∃ server, Seen server i e e') events es ∧
      Reactor.run dispatch (Reactor.start server) es = some (s.project i) := by
  have hsim : ∀ (t : RunningServer κ σ n) e t', t.Sound → t.step dispatch e = some t' →
      t'.Sound ∧ (Unseen i e ∧ t'.project i = t.project i ∨
        ∃ e', (∃ server, Seen server i e e') ∧
          (t.project i).step dispatch e' = some (t'.project i)) := by
    intro t e t' ht hstep
    refine ⟨ht.step hstep, ?_⟩
    have hlive := ht.live (stepped_of_step hstep).1
    exact (project_step ht.assigned hlive hstep i).imp_right
      fun ⟨e', hseen, he'⟩ => ⟨e', ⟨_, hseen⟩, he'⟩
  exact exists_run_of_simulation hsim (start_sound server agent) h

/-- Whatever the order in which the threads take their steps, no client is lost, served by two
reactors or overtaken by a later one, and each reactor runs its loop by itself, on what it sees
of these steps. -/
theorem every_reactor_runs_alone (dispatch : σ → Bytes → Except Terminate (Handled × σ))
    (server : σ) (agent : DistributionAgent) {events : List (ServerEvent κ σ n)}
    (h : run dispatch (start server agent) events = some s) :
    s.Assigned ∧
      ∀ i, ∃ es, Traces (Unseen i) (fun e e' => ∃ server, Seen server i e e') events es ∧
        Reactor.run dispatch (Reactor.start server) es = some (s.project i) :=
  ⟨(sound_run h).assigned, exists_reactor_run h⟩

theorem every_reactor_runs_alone_two :
    let dispatch := serve (ascii "/srv")
      ⟨fun _ _ => ⟨1, 2, .writes (ascii "1") []⟩, fun _ world => world⟩
    let server : Service := ⟨0, ⟨fun _ => .missing, Store.new 0 100⟩⟩
    let get := ascii "GET /a HTTP/1.1" ++ kRequestEnd
    let events : List (ServerEvent ℕ Service 2) :=
      [.connect 5, .connect 6, .pollListener, .accept, .addConnection 1 [], .arrive 5 get,
        .reactor 1 .poll, .pollListener, .reactor 1 .start, .accept, .arrive 6 (ascii "GET"),
        .reactor 1 (.recv 99), .addConnection 0 [], .reactor 1 (.recv 0), .reactor 0 .poll,
        .reactor 0 .start, .reactor 1 .handle, .reactor 0 (.recv 0)]
    ∃ s, run dispatch (start server ⟨[0, 1]⟩) events = some s ∧ s.registered = [(5, 1), (6, 0)] ∧
      s.Assigned ∧
        ∀ i, ∃ es, Traces (Unseen i) (fun e e' => ∃ server, Seen server i e e') events es ∧
          Reactor.run dispatch (Reactor.start server) es = some (s.project i) := by
  intro dispatch server get events
  have hfacts : ((run dispatch (start server ⟨[0, 1]⟩) events).map fun s => s.registered) =
      some [(5, 1), (6, 0)] := by
    decide +kernel
  obtain ⟨s, h, hs⟩ := Option.map_eq_some_iff.mp hfacts
  exact ⟨s, h, hs, every_reactor_runs_alone dispatch server ⟨[0, 1]⟩ h⟩

end Projection

end RunningServer

end HttpReactor
