import HttpReactor.ReactorAttention
import HttpReactor.RequestDelivery

/-!
# What a client is sent depends on its own bytes

The clients of a reactor share its thread, the files and the cache, and other reactors use the
cache between any two steps. While the results of the texts that are sent stay fixed and the
kernel takes all responses, what a client has been sent is all the same a prefix of the replies
to the requests it has itself sent, and all of them once the loop has nothing left to do, if the
client has not ended its side.
-/

namespace HttpReactor
open ListSearch Connection EdgeTriggered Refinement

variable {κ σ : Type}

section Replies

/-- What a client that has sent `stream` is to be sent back. -/
def replies (result : Bytes → Handled) (stream : Bytes) : Bytes :=
  ((answered result (frames kRequestEnd stream).1).map Handled.responseBuf).flatten

variable {result : Bytes → Handled}

theorem answered_mono {ps qs : List Bytes} (h : ps <+: qs) :
    answered result ps <+: answered result qs := by
  obtain ⟨t, rfl⟩ := h
  induction ps with
  | nil => exact List.nil_prefix
  | cons p ps ih =>
    simp only [List.cons_append, answered]
    refine List.cons_prefix_cons.mpr ⟨rfl, ?_⟩
    split_ifs
    · exact List.prefix_rfl
    · exact ih

theorem flatten_mono {xs ys : List Handled} (h : xs <+: ys) :
    (xs.map Handled.responseBuf).flatten <+: (ys.map Handled.responseBuf).flatten := by
  obtain ⟨t, rfl⟩ := h
  rw [List.map_append, List.flatten_append]
  exact List.prefix_append _ _

end Replies

section Sessions

variable {dispatch : σ → Bytes → Except Terminate (Handled × σ)} {asked : Bytes → Prop}
  {result : Bytes → Handled}

structure OwnAnswers (dispatch : σ → Bytes → Except Terminate (Handled × σ))
    (asked : Bytes → Prop) (result : Bytes → Handled) (x : Session σ) (arrived : Bytes) :
    Prop where
  faithful : x.Faithful dispatch asked x.server result
  received : receivedBytes x.events <+: arrived
  served : ((exchanges x.events).map Exchange.requestStr).map result <+:
    answered result (frames kRequestEnd (receivedBytes x.events)).1

theorem Session.Faithful.rebase {s₀ : σ} {x : Session σ}
    (h : x.Faithful dispatch asked s₀ result) (server : σ) :
    ({ x with server := server } : Session σ).Faithful dispatch asked server result :=
  ⟨⟨h.taken.writeBuffer, h.taken.delivers, h.taken.whole⟩, .refl, h.alive, h.pending, h.results⟩

theorem OwnAnswers.of_arrived {x : Session σ} {arrived arrived' : Bytes}
    (h : OwnAnswers dispatch asked result x arrived) (ha : arrived <+: arrived') :
    OwnAnswers dispatch asked result x arrived' :=
  ⟨h.faithful, h.received.trans ha, h.served⟩

theorem OwnAnswers.accepted {x : Session σ} {arrived : Bytes}
    (h : OwnAnswers dispatch asked result x arrived) :
    acceptedBytes x.events <+: replies result arrived := by
  rw [h.faithful.acceptedBytes_eq]
  exact flatten_mono
    (h.served.trans (answered_mono (frames_mono kRequestEnd_ne_nil h.received)))

theorem start_ownAnswers (server : σ) {sends : List SendOutcome} (hsends : Delivers sends)
    (arrived : Bytes) : OwnAnswers dispatch asked result (.start server sends) arrived :=
  ⟨start_faithful dispatch asked server result hsends, List.nil_prefix, List.nil_prefix⟩

theorem OwnAnswers.process {x : Session σ} {arrived : Bytes} {server : σ}
    {outs : List RecvOutcome} (h : OwnAnswers dispatch asked result x arrived) (ho : x.Open)
    (hfix : FixedResults dispatch asked server result)
    (harrived : receivedBytes x.events ++ delivered outs <+: arrived)
    (hasked : ∀ p ∈ (frames kRequestEnd arrived).1, asked p) :
    let y := processHttpRequest dispatch { x with server := server } outs
    OwnAnswers dispatch asked result y arrived ∧ Reaches dispatch asked server y.server := by
  intro y
  have ho' : ({ x with server := server } : Session σ).Open :=
    ⟨ho.status, ho.writeBuffer, ho.asked, ho.kept, ho.present⟩
  have hy : y.Faithful dispatch asked server result :=
    (h.faithful.rebase server).process hfix ho' harrived hasked
  refine ⟨?_, hy.reaches⟩
  cases processHttpRequest_spec dispatch ho' outs with
  | stays he hopen hr =>
    have hrec : receivedBytes y.events = receivedBytes x.events ++ delivered outs := hr
    refine ⟨hy.rebase y.server, hrec ▸ harrived, ?_⟩
    rw [(hy.answered_open hopen).2]
  | exited he hs hev =>
    -- the exit leaves the record of answers as it was
    have hask : exchanges y.events = exchanges x.events := by simp [y, hev]
    have hrec : receivedBytes y.events = receivedBytes x.events ++ delivered outs := by
      simp [y, hev]
    refine ⟨hy.rebase y.server, hrec ▸ harrived, ?_⟩
    rw [hask, hrec]
    exact h.served.trans
      (answered_mono (frames_mono kRequestEnd_ne_nil (List.prefix_append _ _)))
  | finished evs ys z he hs hev hd hc hr =>
    have hrec : receivedBytes y.events = receivedBytes x.events ++ delivered outs := by
      simp [y, hev, hr]
    have hc' : ClosedBy y.events ys z := by
      refine ⟨?_, ?_, hc.kept, hc.closing⟩
      · simpa [y, hev] using hc.served
      · simpa [y, hev] using hc.asked
    refine ⟨hy.rebase y.server, hrec ▸ harrived, ?_⟩
    rw [(hy.answered_closed hc' List.prefix_rfl).2]
  | terminated he hs hd => exact absurd hs hy.alive

end Sessions

namespace Reactor

variable [DecidableEq κ] {dispatch : σ → Bytes → Except Terminate (Handled × σ)}
  {s s' : Reactor κ σ}

def bytesFor (c : κ) : ReactorEvent κ σ → Bytes
  | .arrive a bytes => if a = c then bytes else []
  | _ => []

inductive Changes (dispatch : σ → Bytes → Except Terminate (Handled × σ)) (s : Reactor κ σ) :
    ReactorEvent κ σ → Reactor κ σ → Prop
  | nothing (e : ReactorEvent κ σ) (s' : Reactor κ σ) (he : ∀ c, bytesFor c e = [])
      (hx : s'.sessions = s.sessions) (ha : s'.arrived = s.arrived)
      (hs : s'.server = s.server) : Changes dispatch s e s'
  | arrived (c : κ) (bytes : Bytes) (s' : Reactor κ σ) (hx : s'.sessions = s.sessions)
      (ha : s'.arrived = Function.update s.arrived c (s.arrived c ++ bytes))
      (hs : s'.server = s.server) : Changes dispatch s (.arrive c bytes) s'
  | registered (c : κ) (sends : List SendOutcome) (s' : Reactor κ σ)
      (hx : s'.sessions = Function.update s.sessions c (some (.start s.server sends)))
      (ha : s'.arrived = s.arrived) (hs : s'.server = s.server) :
      Changes dispatch s (.register c sends) s'
  | disturbed (server : σ) :
      Changes dispatch s (.disturb server) { s with server := server }
  | handled (c : κ) (outs : List RecvOutcome) (rest : List κ) (x : Session σ)
      (hp : s.phase = .handling c outs rest) (hx : s.sessions c = some x) :
      Changes dispatch s .handle
        (s.handled c rest (processHttpRequest dispatch { x with server := s.server } outs))

theorem changes_of_step {e : ReactorEvent κ σ} (h : s.step dispatch e = some s') :
    s.phase ≠ .terminated ∧ Changes dispatch s e s' := by
  unfold Reactor.step at h
  split at h
  · cases h
  · next hne =>
    refine ⟨hne, ?_⟩
    cases e with
    | arrive c bytes =>
      simp only [otherStep] at h
      split_ifs at h
      cases h
      exact .arrived c bytes _ rfl rfl rfl
    | finish c ending =>
      simp only [otherStep] at h
      split_ifs at h
      cases h
      exact .nothing _ _ (fun _ => rfl) rfl rfl rfl
    | register c sends =>
      simp only [otherStep] at h
      split at h
      · cases h
      · cases h
        exact .registered c sends _ rfl rfl rfl
    | disturb server =>
      cases h
      exact .disturbed server
    | callExit =>
      cases h
      exact .nothing _ _ (fun _ => rfl) rfl rfl rfl
    | handle =>
      simp only [loopStep] at h
      split at h
      · next c outs rest hp =>
        split at h
        · cases h
        · next x hx =>
          cases h
          exact .handled c outs rest x hp hx
      · cases h
    | poll | pollFails =>
      simp only [loopStep] at h
      split at h
      · split_ifs at h
        cases h
        exact .nothing _ _ (fun _ => rfl) rfl rfl rfl
      · cases h
    | start | recv extra | interrupt =>
      simp only [loopStep] at h
      split at h
      · cases h
        exact .nothing _ _ (fun _ => rfl) rfl rfl rfl
      · cases h

theorem arrived_step {e : ReactorEvent κ σ} (h : s.step dispatch e = some s') (c : κ) :
    s'.arrived c = s.arrived c ++ bytesFor c e := by
  obtain ⟨-, hchanges⟩ := changes_of_step h
  cases hchanges with
  | nothing _ _ he hx ha hs => rw [ha, he, List.append_nil]
  | arrived a bytes _ hx ha hs =>
    rw [ha, bytesFor]
    by_cases hac : a = c
    · subst hac
      simp
    · simp [hac, Function.update_of_ne (Ne.symm hac)]
  | registered _ _ _ hx ha hs =>
    rw [ha]
    exact (List.append_nil _).symm
  | disturbed server => exact (List.append_nil _).symm
  | handled a outs rest x hp hx => exact (List.append_nil _).symm

theorem arrived_run {events : List (ReactorEvent κ σ)} (h : run dispatch s events = some s')
    (c : κ) : s'.arrived c = s.arrived c ++ events.flatMap (bytesFor c) := by
  induction events generalizing s with
  | nil =>
    cases h
    simp
  | cons e es ih =>
    obtain ⟨s₁, h₁, hrest⟩ := runGuarded_cons_eq_some h
    rw [ih hrest, arrived_step h₁, List.flatMap_cons, List.append_assoc]

def Asks (s : Reactor κ σ) (requestStr : Bytes) : Prop :=
  ∃ c, requestStr ∈ (frames kRequestEnd (s.arrived c)).1

def askedTexts (arrived : κ → Bytes) (cs : List κ) : List Bytes :=
  cs.flatMap fun c => (frames kRequestEnd (arrived c)).1

omit [DecidableEq κ] in
theorem mem_askedTexts {arrived : κ → Bytes} {cs : List κ} (h : ∀ c ∉ cs, arrived c = []) {c : κ}
    {t : Bytes} (ht : t ∈ (frames kRequestEnd (arrived c)).1) : t ∈ askedTexts arrived cs := by
  refine List.mem_flatMap.mpr ⟨c, ?_, ht⟩
  by_contra hm
  rw [h c hm] at ht
  exact absurd ht List.not_mem_nil

def senders (events : List (ReactorEvent κ σ)) : List κ :=
  events.filterMap fun
    | .arrive c _ => some c
    | _ => none

theorem arrived_of_notMem {server : σ} {events : List (ReactorEvent κ σ)}
    (h : run dispatch (start server) events = some s) {c : κ} (hc : c ∉ senders events) :
    s.arrived c = [] := by
  rw [arrived_run h]
  refine List.flatMap_eq_nil_iff.mpr fun e he => ?_
  cases e with
  | arrive a bytes =>
    have ha : a ∈ senders events := List.mem_filterMap.mpr ⟨_, he, rfl⟩
    exact if_neg fun (hac : a = c) => hc (hac ▸ ha)
  | _ => rfl

theorem asks_of_run {server : σ} {events : List (ReactorEvent κ σ)}
    (h : run dispatch (start server) events = some s) {t : Bytes} (ht : s.Asks t) :
    t ∈ askedTexts s.arrived (senders events) := by
  obtain ⟨c, hc⟩ := ht
  exact mem_askedTexts (fun _ hm => arrived_of_notMem h hm) hc

theorem asks_of_step {e : ReactorEvent κ σ} (h : s.step dispatch e = some s') {requestStr : Bytes}
    (ha : s.Asks requestStr) : s'.Asks requestStr := by
  obtain ⟨c, hc⟩ := ha
  refine ⟨c, (frames_mono kRequestEnd_ne_nil ?_).subset hc⟩
  rw [arrived_step h]
  exact List.prefix_append _ _

variable {I : σ → Prop} {asked : Bytes → Prop} {result : Bytes → Handled}

/-- What the other reactors and the kernel may do: leave the server in `I` and accept what is
sent. -/
def Outside (I : σ → Prop) : ReactorEvent κ σ → Prop
  | .disturb server => I server
  | .register _ sends => Delivers sends
  | _ => True

def AllTaken (s : Reactor κ σ) : Prop := ∀ c x, s.sessions c = some x → x.TakenWhole

theorem AllTaken.step {e : ReactorEvent κ σ} (h : s.AllTaken) (he : Outside I e)
    (hstep : Reactor.step dispatch s e = some s') : s'.AllTaken := by
  obtain ⟨-, hchanges⟩ := changes_of_step hstep
  cases hchanges with
  | nothing _ _ _ hx | arrived _ _ _ hx => exact fun a x hax => h a x (hx ▸ hax)
  | disturbed server => exact h
  | registered c sends _ hx =>
    intro a x hax
    rw [hx] at hax
    by_cases hac : a = c
    · subst hac
      obtain rfl : Session.start s.server sends = x := by simpa using hax
      exact start_takenWhole s.server he
    · exact h a x (by simpa [hac] using hax)
  | handled c outs rest x hp hx =>
    intro a y hay
    by_cases hac : a = c
    · subst hac
      obtain rfl : _ = y := by simpa [Reactor.handled] using hay
      obtain ⟨hw, hsends, hwhole⟩ := h a x hx
      have hnow : ({ x with server := s.server } : Session σ).TakenWhole := ⟨hw, hsends, hwhole⟩
      exact (takenWhole_invariant dispatch).process hnow outs
    · exact h a y (by simpa [Reactor.handled, hac] using hay)

theorem allTaken_run {server : σ} {events : List (ReactorEvent κ σ)}
    (hevents : ∀ e ∈ events, Outside I e) (h : run dispatch (start server) events = some s) :
    s.AllTaken := by
  have hstart : (start server : Reactor κ σ).AllTaken := by
    intro c x hx
    cases hx
  exact runGuarded_invariant (fun _ e he _ ht hs => AllTaken.step ht (hevents e he) hs) hstart h

structure Isolated (dispatch : σ → Bytes → Except Terminate (Handled × σ)) (I : σ → Prop)
    (asked : Bytes → Prop) (result : Bytes → Handled) (s : Reactor κ σ) : Prop where
  server : I s.server
  clients : ∀ c x, s.sessions c = some x → OwnAnswers dispatch asked result x (s.arrived c)

theorem Live.open_of_handling (hl : s.Live) {c : κ} {outs : List RecvOutcome} {rest : List κ}
    {x : Session σ} (hp : s.phase = .handling c outs rest) (hx : s.sessions c = some x) :
    x.Open ∧ s.arrived c = receivedBytes x.events ++ delivered outs ++ (s.inbox c).unread := by
  have hm := hl.held c
  rw [hp] at hm
  obtain ⟨x', hx', hs⟩ := (hl.watched c).mp (hm List.mem_cons_self)
  rw [hx] at hx'
  cases hx'
  simpa [hp, ReactorPhase.inHand] using hl.opened c x hx hs

theorem Isolated.process (h : s.Isolated dispatch I asked result)
    (hfix : Fixes dispatch I asked result) (hasked : ∀ t, s.Asks t → asked t) (hl : s.Live)
    {c : κ} {outs : List RecvOutcome} {rest : List κ} {x : Session σ}
    (hp : s.phase = .handling c outs rest) (hx : s.sessions c = some x) :
    let y := processHttpRequest dispatch { x with server := s.server } outs
    OwnAnswers dispatch asked result y (s.arrived c) ∧
      Reaches dispatch asked s.server y.server := by
  obtain ⟨ho, harrived⟩ := hl.open_of_handling hp hx
  exact (h.clients c x hx).process ho (hfix.fixedResults h.server)
    (harrived ▸ List.prefix_append _ _) fun p hp => hasked p ⟨c, hp⟩

theorem Isolated.step {e : ReactorEvent κ σ} (hfix : Fixes dispatch I asked result)
    (h : s.Isolated dispatch I asked result) (hl : s.phase ≠ .terminated → s.Live)
    (he : Outside I e) (hasked : ∀ t, s'.Asks t → asked t)
    (hstep : Reactor.step dispatch s e = some s') : s'.Isolated dispatch I asked result := by
  obtain ⟨hne, hchanges⟩ := changes_of_step hstep
  cases hchanges with
  | nothing _ _ _ hx ha hs =>
    refine ⟨hs ▸ h.server, fun a x hax => ?_⟩
    rw [ha]
    exact h.clients a x (hx ▸ hax)
  | arrived c bytes _ hx ha hs =>
    refine ⟨hs ▸ h.server, fun a x hax => ?_⟩
    rw [hx] at hax
    refine (h.clients a x hax).of_arrived ?_
    rw [ha]
    by_cases hac : a = c
    · subst hac
      simp
    · simp [hac]
  | registered c sends _ hx ha hs =>
    refine ⟨hs ▸ h.server, fun a x hax => ?_⟩
    rw [hx] at hax
    by_cases hac : a = c
    · subst hac
      obtain rfl : Session.start s.server sends = x := by simpa using hax
      exact start_ownAnswers s.server he _
    · rw [ha]
      exact h.clients a x (by simpa [hac] using hax)
  | disturbed server => exact ⟨he, h.clients⟩
  | handled c outs rest x hp hx =>
    obtain ⟨hown, hreach⟩ :=
      h.process hfix (fun t ht => hasked t (asks_of_step hstep ht)) (hl hne) hp hx
    refine ⟨hfix.reaches h.server hreach, fun a y hay => ?_⟩
    by_cases hac : a = c
    · subst hac
      obtain rfl : _ = y := by simpa [Reactor.handled] using hay
      exact hown
    · exact h.clients a y (by simpa [Reactor.handled, hac] using hay)

theorem isolated_run (hfix : Fixes dispatch I asked result) {server : σ} (hserver : I server)
    {events : List (ReactorEvent κ σ)} (hevents : ∀ e ∈ events, Outside I e)
    (h : run dispatch (start server) events = some s) (hasked : ∀ t, s.Asks t → asked t) :
    s.Isolated dispatch I asked result := by
  have hstart : (start server : Reactor κ σ).Isolated dispatch I asked result := ⟨hserver, nofun⟩
  have hstep : ∀ t : Reactor κ σ, ∀ e ∈ events, ∀ t',
      (t.phase = .terminated ∨ t.Live) ∧ t.Isolated dispatch I asked result →
      (∀ p, t'.Asks p → asked p) → t.step dispatch e = some t' →
      (t'.phase = .terminated ∨ t'.Live) ∧ t'.Isolated dispatch I asked result := by
    intro t e he t' ht hp hs
    exact ⟨live_step ht.1 hs, ht.2.step hfix ht.1.resolve_left (hevents e he) hp hs⟩
  exact (runGuarded_invariant_of_final (Q := fun t : Reactor κ σ => ∀ p, t.Asks p → asked p)
    (fun _ _ _ hs hq p hp => hq p (asks_of_step hs hp)) hstep
    ⟨Or.inr (start_live server), hstart⟩ h hasked).2

theorem Isolated.idle (h : s.Isolated dispatch I asked result) (hl : s.Live) (hidle : s.Idle)
    {c : κ} {x : Session σ} (hx : s.sessions c = some x) (hend : (s.inbox c).ending = none) :
    acceptedBytes x.events = replies result (s.arrived c) ∧ (x.status = .connected ↔
      ∀ p ∈ (frames kRequestEnd (s.arrived c)).1, (result p).shouldFinish = false) := by
  have hown := h.clients c x hx
  rcases hl.answered hidle hx with ⟨hs, hbox, hans⟩ | ⟨hs, evs, hev, hwhy⟩
  · obtain ⟨hkept, heq⟩ := hown.faithful.answered_open (hl.opened c x hx hs).1
    rw [hans.received] at hkept heq
    refine ⟨?_, iff_of_true hs hkept⟩
    rw [hown.faithful.acceptedBytes_eq, replies, heq]
  · obtain ⟨ys, y, hc⟩ := hwhy.resolve_right (by simp [hend])
    have hc' : ClosedBy x.events ys y := by
      refine ⟨?_, ?_, hc.kept, hc.closing⟩
      · simpa [hev] using hc.served
      · simpa [hev] using hc.asked
    obtain ⟨⟨p, hp, hfin⟩, heq⟩ := hown.faithful.answered_closed hc' hown.received
    refine ⟨?_, iff_of_false (by simp [hs]) fun hall => ?_⟩
    · rw [hown.faithful.acceptedBytes_eq, replies, heq]
    · rw [hall p hp] at hfin
      cases hfin

end Reactor

/-- Over files that stay and CGI programs that always print the same, if the kernel takes what is
sent and each text that a client sends has a result: whatever the other clients send, however the
loop interleaves them and whatever other reactors load or evict meanwhile. -/
theorem Reactor.client_answered_alone [DecidableEq κ] {dir : Bytes} {fs : FileSystem}
    {cgi : Bytes → CGIOutcome} {result : Bytes → Handled} (clock : ℕ → Int × Int)
    {disturb : ℕ → World → World}
    (hdisturb : ∀ n store, Store.Coherent fs store →
      Service.Unchanged fs ⟨n, disturb n ⟨fs, store⟩⟩)
    {server : Service} (hserver : server.Unchanged fs) {events : List (ReactorEvent κ Service)}
    (hevents : ∀ e ∈ events, Outside (Service.Unchanged fs) e) {s : Reactor κ Service}
    (h : run (serve dir ⟨fun n t => ⟨(clock n).1, (clock n).2, cgi t⟩, disturb⟩) (start server)
      events = some s) (hsteady : Steady dir fs cgi s.Asks result) {c : κ} {x : Session Service}
    (hx : s.sessions c = some x) :
    acceptedBytes x.events <+: replies result (s.arrived c) ∧
      (s.Idle → (s.inbox c).ending = none →
        acceptedBytes x.events = replies result (s.arrived c) ∧ (x.status = .connected ↔
          ∀ p ∈ (frames kRequestEnd (s.arrived c)).1, (result p).shouldFinish = false)) := by
  have hiso := isolated_run (serve_fixes hsteady clock hdisturb) hserver hevents h fun _ ht => ht
  refine ⟨(hiso.clients c x hx).accepted, fun hidle hend => ?_⟩
  exact hiso.idle ((live_run h).resolve_left (by simp [hidle.1])) hidle hx hend

theorem Reactor.client_answered_alone_two :
    let fs : FileSystem := fun path =>
      if path = ascii "/srv" then .directory
      else if path = ascii "/srv/a" then .regular (ascii "xy") true else .missing
    let cgi : CGIOutcome := .writes (ascii "1") (ascii "out")
    let clock : ℕ → Int × Int := fun n => (n, n)
    let result := fun t => Store.okOr (respondUncached (ascii "/srv") fs cgi t) ⟨[], true⟩
    let get := ascii "GET /a HTTP/1.1" ++ kCRLF ++ ascii "Connection: Keep-Alive" ++ kRequestEnd
    let events : List (ReactorEvent ℕ Service) :=
      [.register 5 [.took 3], .register 6 [], .arrive 6 (ascii "HEAD /b"), .arrive 5 (get ++ get),
        .poll, .start, .recv 9, .recv 9, .handle, .disturb ⟨7, ⟨fs, Store.new 0 100⟩⟩,
        .arrive 6 (ascii " HTTP/1.1" ++ kRequestEnd), .start, .recv 400, .recv 0, .handle, .poll,
        .start, .recv 80, .recv 0, .handle, .poll]
    ∃ s x, run (serve (ascii "/srv")
        ⟨fun n _ => ⟨(clock n).1, (clock n).2, cgi⟩, fun _ world => world⟩)
        (start ⟨0, ⟨fs, Store.new 0 100⟩⟩) events = some s ∧
      s.arrived 5 = get ++ get ∧ s.sessions 5 = some x ∧
      acceptedBytes x.events = (result get).responseBuf ++ (result get).responseBuf := by
  intro fs cgi clock result get events
  have hnew : Store.Coherent fs (Store.new 0 100) := by simp [Store.Coherent]
  have hevents : ∀ e ∈ events, Outside (Service.Unchanged fs) e := by
    simp [events, Outside, Delivers, Service.Unchanged, hnew]
  have hfacts : ((run (serve (ascii "/srv")
      ⟨fun n _ => ⟨(clock n).1, (clock n).2, cgi⟩, fun _ world => world⟩)
      (start ⟨0, ⟨fs, Store.new 0 100⟩⟩) events).map fun s => decide (s.Idle ∧
        (s.inbox 5).ending = none ∧ s.arrived 5 = get ++ get ∧
        ((askedTexts s.arrived (senders events)).all fun t =>
          (respondUncached (ascii "/srv") fs cgi t).isOk) = true) && (s.sessions 5).isSome) =
      some true := by
    decide +kernel
  obtain ⟨s, h, hs⟩ := Option.map_eq_some_iff.mp hfacts
  rw [Bool.and_eq_true, decide_eq_true_iff, Option.isSome_iff_exists] at hs
  obtain ⟨⟨hidle, hend, harr, hok⟩, x, hx⟩ := hs
  refine ⟨s, x, h, harr, hx, ?_⟩
  have hsteady : Steady (ascii "/srv") fs (fun _ => cgi) s.Asks result :=
    steady_of_writes (ascii "out") (by decide) fun t ht =>
      List.all_eq_true.mp hok t (asks_of_run h ht)
  have hans := client_answered_alone clock (fun _ _ hst => ⟨rfl, hst⟩) ⟨rfl, hnew⟩ hevents h
    hsteady hx
  rw [(hans.2 hidle hend).1, harr, replies]
  have hframes : (frames kRequestEnd (get ++ get)).1 = [get, get] := by decide +kernel
  have hkeep : (result get).shouldFinish = false := by decide +kernel
  rw [hframes]
  simp [answered, hkeep]

end HttpReactor
