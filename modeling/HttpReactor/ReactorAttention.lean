import HttpReactor.ReactorLoop

/-!
# No client of a reactor is forgotten

The poller does not report a client again because its socket still has something to read.
The loop misses nothing all the same: a registered client with something to read is queued,
in the batch, or in the hands of a `Receive` that will get to it. When the loop has nothing
to do, every byte that arrived has been received and every complete request answered.
-/

namespace HttpReactor
open ListSearch Connection EdgeTriggered Refinement

section Scripts

variable {outs : List RecvOutcome}

theorem staysConnected_concat {out : RecvOutcome} (h : StaysConnected outs)
    (ho : (∃ chunk, out = .data chunk) ∨ out = .failed .EINTR) :
    StaysConnected (outs ++ [out]) := by
  intro o hm
  rcases List.mem_append.mp hm with hm | hm
  · exact h o hm
  · rwa [List.mem_singleton.mp hm]

theorem delivered_concat (h : StaysConnected outs) (out : RecvOutcome) :
    delivered (outs ++ [out]) = delivered outs ++ delivered [out] := by
  induction outs with
  | nil => rfl
  | cons o outs ih =>
    have ht := ih fun o ho => h o (List.mem_cons_of_mem _ ho)
    rcases h o List.mem_cons_self with ⟨chunk, rfl⟩ | rfl
    · simp [delivered, ht]
    · simp [delivered, ht]

theorem exits_concat (h : StaysConnected outs) (out : RecvOutcome) :
    exits (outs ++ [out]) = exits [out] := by
  induction outs with
  | nil => rfl
  | cons o outs ih =>
    have ht := ih fun o ho => h o (List.mem_cons_of_mem _ ho)
    rcases h o List.mem_cons_self with ⟨chunk, rfl⟩ | rfl
    · simpa [exits] using ht
    · simpa [exits] using ht

end Scripts

variable {κ σ : Type}

namespace ReactorPhase

def held : ReactorPhase κ → List κ
  | walking batch => batch
  | receiving c _ rest => c :: rest
  | handling c _ rest => c :: rest
  | terminated => []

/-- The clients that the loop will still look at before it polls again. A `Receive` that has
met EAGAIN does not look at its client again. -/
def owed : ReactorPhase κ → List κ
  | walking batch => batch
  | receiving c _ rest => c :: rest
  | handling c outs rest => if exits outs then c :: rest else rest
  | terminated => []

theorem owed_sublist_held (phase : ReactorPhase κ) : phase.owed.Sublist phase.held := by
  cases phase with
  | walking batch => exact List.Sublist.refl _
  | receiving c outs rest => exact List.Sublist.refl _
  | handling c outs rest =>
    simp only [owed, held]
    split_ifs
    · exact List.Sublist.refl _
    · exact List.sublist_cons_self c rest
  | terminated => exact List.Sublist.refl _

variable [DecidableEq κ]

def inHand (c : κ) : ReactorPhase κ → Bytes
  | receiving c' outs _ => if c' = c then delivered outs else []
  | handling c' outs _ => if c' = c then delivered outs else []
  | _ => []

def Receiving : ReactorPhase κ → Prop
  | receiving _ outs _ => StaysConnected outs
  | _ => True

def Exiting (c : κ) : ReactorPhase κ → Prop
  | handling c' outs _ => c' = c ∧ exits outs = true
  | _ => False

end ReactorPhase

/-- Why a session was deleted. -/
def Session.DeletedFor (x : Session σ) (b : Inbox) : Prop :=
  x.status = .deleted ∧ ∃ evs, x.events = evs ++ [.deleteConnection] ∧
    ((∃ ys y, ClosedBy evs ys y) ∨ b.ending ≠ none)

namespace Reactor

variable [DecidableEq κ]

structure Live (s : Reactor κ σ) : Prop where
  queued : s.epoll.WellQueued
  watched : ∀ c, c ∈ s.epoll.watched ↔ ∃ x, s.sessions c = some x ∧ x.status = .connected
  nodup : s.phase.held.Nodup
  held : ∀ c ∈ s.phase.held, c ∈ s.epoll.watched
  covered : s.epoll.Covers s.readable s.phase.owed
  receiving : s.phase.Receiving
  exiting : ∀ c, s.phase.Exiting c → (s.inbox c).ending ≠ none
  unregistered : ∀ c, s.sessions c = none → s.arrived c = (s.inbox c).unread
  opened : ∀ c x, s.sessions c = some x → x.status = .connected →
    x.Open ∧ s.arrived c = receivedBytes x.events ++ s.phase.inHand c ++ (s.inbox c).unread
  deleted : ∀ c x, s.sessions c = some x → x.status ≠ .connected → x.DeletedFor (s.inbox c)

variable {s s' : Reactor κ σ} {c : κ}

theorem start_live (server : σ) : (start server : Reactor κ σ).Live := by
  refine ⟨⟨List.nodup_nil, nofun⟩, ?_, List.nodup_nil, nofun, nofun, trivial, nofun, fun _ _ => rfl,
    nofun, nofun⟩
  intro c
  simp [start]

theorem Live.registered (h : s.Live) (hc : c ∈ s.epoll.watched) :
    (s.sessions c).isSome = true := by
  obtain ⟨x, hx, -⟩ := (h.watched c).mp hc
  rw [hx]
  rfl

theorem Live.deliver {inbox : κ → Inbox} {arrived d : κ → Bytes} (h : s.Live)
    (hother : ∀ a ≠ c, inbox a = s.inbox a) (harrived : ∀ a, arrived a = s.arrived a ++ d a)
    (hunread : ∀ a, (inbox a).unread = (s.inbox a).unread ++ d a)
    (hending : ∀ a, (s.inbox a).ending ≠ none → (inbox a).ending ≠ none) :
    Live { s with inbox := inbox, arrived := arrived, epoll := s.epoll.notify c } where
  queued := h.queued.notify c
  watched := h.watched
  nodup := h.nodup
  held := h.held
  covered := h.covered.notify fun a ha hr => by
    have hr : (inbox a).readable = true := hr
    rwa [hother a ha] at hr
  receiving := h.receiving
  exiting := fun a ha => hending a (h.exiting a ha)
  unregistered := fun a ha => by
    refine (harrived a).trans ?_
    rw [h.unregistered a ha]
    exact (hunread a).symm
  opened := fun a x hx hs => by
    obtain ⟨ho, he⟩ := h.opened a x hx hs
    refine ⟨ho, ?_⟩
    change arrived a = receivedBytes x.events ++ s.phase.inHand a ++ (inbox a).unread
    rw [harrived, hunread, he]
    simp only [List.append_assoc]
  deleted := fun a x hx hs => by
    obtain ⟨hd, evs, he, hwhy⟩ := h.deleted a x hx hs
    exact ⟨hd, evs, he, hwhy.imp_right (hending a)⟩

theorem Live.arrive {bytes : Bytes} (h : s.Live)
    (hstep : s.otherStep (.arrive c bytes) = some s') : s'.Live := by
  simp only [otherStep] at hstep
  split_ifs at hstep
  cases hstep
  refine h.deliver (d := fun a => if a = c then bytes else []) (fun a ha => ?_) (fun a => ?_)
    (fun a => ?_) (fun a => ?_)
  · rw [Function.update_of_ne ha]
  all_goals
    by_cases ha : a = c
    · subst ha
      simp
    · simp [ha]

theorem Live.finish {ending : Ending} (h : s.Live)
    (hstep : s.otherStep (.finish c ending) = some s') : s'.Live := by
  simp only [otherStep] at hstep
  split_ifs at hstep
  cases hstep
  refine h.deliver (d := fun _ => []) (fun a ha => ?_) (fun a => ?_) (fun a => ?_) (fun a => ?_)
  · rw [Function.update_of_ne ha]
  · simp
  all_goals
    by_cases ha : a = c
    · subst ha
      simp
    · simp [ha]

theorem Live.register {sends : List SendOutcome} (h : s.Live)
    (hstep : s.otherStep (.register c sends) = some s') : s'.Live := by
  simp only [otherStep] at hstep
  split at hstep
  · cases hstep
  · next hnone =>
    cases hstep
    have hc : c ∉ s.epoll.watched := by
      intro hm
      obtain ⟨x, hx, -⟩ := (h.watched c).mp hm
      rw [hnone] at hx
      cases hx
    have hidle : s.phase.inHand c = [] := by
      have hne : ∀ a ∈ s.phase.held, a ≠ c := fun a ha hac => hc (hac ▸ h.held a ha)
      cases hp : s.phase with
      | walking batch => rfl
      | receiving a outs rest =>
        rw [hp] at hne
        exact if_neg (hne a List.mem_cons_self)
      | handling a outs rest =>
        rw [hp] at hne
        exact if_neg (hne a List.mem_cons_self)
      | terminated => rfl
    refine ⟨h.queued.watch hc _, fun a => ?_, h.nodup,
      fun a ha => List.mem_append_left _ (h.held a ha), h.covered.watch c, h.receiving, h.exiting,
      fun a ha => ?_, fun a x hx hs => ?_, fun a x hx hs => ?_⟩
    · by_cases ha : a = c
      · subst ha
        simp [Readiness.watch, Session.start]
      · simp [Readiness.watch, ha, h.watched a]
    all_goals by_cases hac : a = c
    · subst hac
      simp at ha
    · exact h.unregistered a (by simpa [hac] using ha)
    · subst hac
      obtain rfl : Session.start s.server sends = x := by simpa using hx
      refine ⟨Session.start_open s.server sends, ?_⟩
      change s.arrived a = [] ++ s.phase.inHand a ++ (s.inbox a).unread
      rw [hidle, h.unregistered a hnone]
      rfl
    · exact h.opened a x (by simpa [hac] using hx) hs
    · subst hac
      obtain rfl : Session.start s.server sends = x := by simpa using hx
      exact absurd rfl hs
    · exact h.deleted a x (by simpa [hac] using hx) hs

variable {dispatch : σ → Bytes → Except Terminate (Handled × σ)}

theorem Live.poll (h : s.Live) (hstep : s.loopStep dispatch .poll = some s') : s'.Live := by
  simp only [loopStep] at hstep
  split at hstep
  · next hp =>
    split_ifs at hstep
    cases hstep
    obtain ⟨hnd, hm⟩ := h.queued.reported s.readable kDefaultListenedEvents
    have hcovered := h.covered.report kDefaultListenedEvents
    rw [hp] at hcovered
    refine ⟨h.queued.report _ _, h.watched, hnd, hm, ?_, trivial, nofun, h.unregistered,
      fun a x hx hs => ?_, h.deleted⟩
    · exact hcovered.mono fun a ha _ => Or.inr (by simpa [ReactorPhase.owed] using ha)
    · have ho := h.opened a x hx hs
      rw [hp] at ho
      exact ho
  · cases hstep

theorem Live.start (h : s.Live) (hstep : s.loopStep dispatch .start = some s') : s'.Live := by
  simp only [loopStep] at hstep
  split at hstep
  · next c rest hp =>
    cases hstep
    have hnd := h.nodup
    have hm := h.held
    have hcovered := h.covered
    rw [hp] at hnd hm hcovered
    refine ⟨h.queued, h.watched, hnd, hm, hcovered, nofun, nofun, h.unregistered,
      fun a x hx hs => ?_, h.deleted⟩
    have ho := h.opened a x hx hs
    rw [hp] at ho
    refine ⟨ho.1, ho.2.trans ?_⟩
    simp [ReactorPhase.inHand, delivered]
  · cases hstep

theorem Live.interrupt (h : s.Live) (hstep : s.loopStep dispatch .interrupt = some s') :
    s'.Live := by
  simp only [loopStep] at hstep
  split at hstep
  · next c outs rest hp =>
    cases hstep
    have hnd := h.nodup
    have hm := h.held
    have hcovered := h.covered
    have hstay : StaysConnected outs := by
      have hr := h.receiving
      rwa [hp] at hr
    rw [hp] at hnd hm hcovered
    refine ⟨h.queued, h.watched, hnd, hm, hcovered, staysConnected_concat hstay (Or.inr rfl), nofun,
      h.unregistered, fun a x hx hs => ?_, h.deleted⟩
    have ho := h.opened a x hx hs
    rw [hp] at ho
    refine ⟨ho.1, ho.2.trans ?_⟩
    simp [ReactorPhase.inHand, delivered_concat hstay, delivered]
  · cases hstep

theorem Live.recvData {chunk : Chunk} {left : Bytes} {outs : List RecvOutcome} {rest : List κ}
    (h : s.Live) (hp : s.phase = .receiving c outs rest)
    (hu : (s.inbox c).unread = chunk.bytes ++ left) :
    Live { s with
      inbox := Function.update s.inbox c { s.inbox c with unread := left }
      phase := .receiving c (outs ++ [.data chunk]) rest } := by
  have hnd := h.nodup
  have hm := h.held
  have hcovered := h.covered
  have hstay : StaysConnected outs := by
    have hr := h.receiving
    rwa [hp] at hr
  rw [hp] at hnd hm hcovered
  have hle : ∀ a, (Function.update s.inbox c { s.inbox c with unread := left } a).readable = true →
      s.readable a = true := by
    intro a ha
    by_cases hac : a = c
    · subst hac
      rw [readable, Inbox.readable, hu]
      have := chunk.nonempty
      simp [List.ne_nil_of_length_pos this]
    · rwa [Function.update_of_ne hac] at ha
  have hending : ∀ a, (Function.update s.inbox c { s.inbox c with unread := left } a).ending =
      (s.inbox a).ending := by
    intro a
    by_cases hac : a = c
    · subst hac
      simp
    · rw [Function.update_of_ne hac]
  have hc : ∃ x, s.sessions c = some x ∧ x.status = .connected :=
    (h.watched c).mp (hm c List.mem_cons_self)
  refine ⟨h.queued, h.watched, hnd, hm, hcovered.of_le hle,
    staysConnected_concat hstay (Or.inl ⟨chunk, rfl⟩), nofun, fun a ha => ?_,
    fun a x hx hs => ?_, fun a x hx hs => ?_⟩
  · have hac : a ≠ c := by
      intro hac
      obtain ⟨x, hx, -⟩ := hc
      rw [← hac, ha] at hx
      cases hx
    simp only [Function.update_of_ne hac]
    exact h.unregistered a ha
  · have ho := h.opened a x hx hs
    rw [hp] at ho
    refine ⟨ho.1, ho.2.trans ?_⟩
    by_cases hac : a = c
    · subst hac
      simp [ReactorPhase.inHand, delivered_concat hstay, delivered, hu]
    · simp [ReactorPhase.inHand, hac, Ne.symm hac]
  · obtain ⟨hd, evs, he, hwhy⟩ := h.deleted a x hx hs
    exact ⟨hd, evs, he, hwhy.imp_right fun hne => by rwa [hending a]⟩

theorem Live.recvLast {out : RecvOutcome} {outs : List RecvOutcome} {rest : List κ}
    (h : s.Live) (hp : s.phase = .receiving c outs rest) (hd : delivered [out] = [])
    (hout : if exits [out] = true then (s.inbox c).ending ≠ none else s.readable c = false) :
    Live { s with phase := .handling c (outs ++ [out]) rest } := by
  have hnd := h.nodup
  have hm := h.held
  have hcovered := h.covered
  have hstay : StaysConnected outs := by
    have hr := h.receiving
    rwa [hp] at hr
  rw [hp] at hnd hm hcovered
  refine ⟨h.queued, h.watched, hnd, hm, ?_, trivial, fun a ha => ?_, h.unregistered,
    fun a x hx hs => ?_, h.deleted⟩
  · simp only [ReactorPhase.owed, exits_concat hstay]
    split_ifs at hout ⊢
    · exact hcovered
    · exact hcovered.drained hout
  · obtain ⟨rfl, he⟩ := ha
    rw [exits_concat hstay] at he
    rwa [if_pos he] at hout
  · have ho := h.opened a x hx hs
    rw [hp] at ho
    refine ⟨ho.1, ho.2.trans ?_⟩
    simp [ReactorPhase.inHand, delivered_concat hstay, hd]

theorem Live.recv {extra : ℕ} (h : s.Live)
    (hstep : s.loopStep dispatch (.recv extra) = some s') : s'.Live := by
  simp only [loopStep] at hstep
  split at hstep
  · next c outs rest hp =>
    have hr := (s.inbox c).received_recv extra
    generalize (s.inbox c).recv extra = answer at hr hstep
    cases hr with
    | data chunk left hu =>
      cases hstep
      exact h.recvData hp hu
    | blocked hu he =>
      cases hstep
      rw [Function.update_eq_self]
      exact h.recvLast hp rfl (by simp [exits, readable, Inbox.readable, hu, he])
    | ended out hu he ho =>
      rcases ho with rfl | ⟨code, rfl⟩
      · cases hstep
        rw [Function.update_eq_self]
        exact h.recvLast hp rfl (by simp [exits, he])
      · cases hstep
        rw [Function.update_eq_self]
        exact h.recvLast hp rfl (by simp [exits, he])
  · cases hstep

theorem Live.handledStays {x y : Session σ} {outs : List RecvOutcome} {rest : List κ}
    (h : s.Live) (hp : s.phase = .handling c outs rest) (hx : s.sessions c = some x)
    (he : exits outs = false) (hy : y.Open)
    (hr : receivedBytes y.events = receivedBytes x.events ++ delivered outs) :
    (s.handled c rest y).Live := by
  have hnd := h.nodup
  have hm := h.held
  have hcovered := h.covered
  rw [hp] at hnd hm hcovered
  simp only [ReactorPhase.owed, he] at hcovered
  have hx' : x.status = .connected := by
    obtain ⟨x', hx', hs⟩ := (h.watched c).mp (hm c List.mem_cons_self)
    rw [hx] at hx'
    cases hx'
    exact hs
  have hs := hy.status
  have heq : s.handled c rest y = { s with
      sessions := Function.update s.sessions c (some y)
      server := y.server
      phase := .walking rest } := by
    simp [handled, hs]
  rw [heq]
  refine ⟨h.queued, fun a => ?_, (List.nodup_cons.mp hnd).2,
    fun a ha => hm a (List.mem_cons_of_mem c ha), hcovered, trivial, nofun, fun a ha => ?_,
    fun a z hz hzs => ?_, fun a z hz hzs => ?_⟩
  all_goals by_cases hac : a = c
  · subst hac
    simp [hs, hx', hx, h.watched a]
  · simp [hac, h.watched a]
  · subst hac
    simp at ha
  · exact h.unregistered a (by simpa [hac] using ha)
  · subst hac
    obtain rfl : y = z := by simpa using hz
    refine ⟨hy, (h.opened a x hx hx').2.trans ?_⟩
    rw [hp]
    simp [ReactorPhase.inHand, hr]
  · have ho := h.opened a z (by simpa [hac] using hz) hzs
    rw [hp] at ho
    refine ⟨ho.1, ho.2.trans ?_⟩
    simp [ReactorPhase.inHand, Ne.symm hac]
  · subst hac
    obtain rfl : y = z := by simpa using hz
    exact absurd hs hzs
  · exact h.deleted a z (by simpa [hac] using hz) hzs

theorem Live.handledDeleted {y : Session σ} {outs : List RecvOutcome} {rest : List κ}
    (h : s.Live) (hp : s.phase = .handling c outs rest) (hy : y.DeletedFor (s.inbox c)) :
    (s.handled c rest y).Live := by
  have hnd := h.nodup
  have hm := h.held
  have hcovered := h.covered
  rw [hp] at hnd hm hcovered
  obtain ⟨hcr, hnd⟩ := List.nodup_cons.mp hnd
  have hs := hy.1
  have heq : s.handled c rest y = { s with
      sessions := Function.update s.sessions c (some y)
      server := y.server
      epoll := s.epoll.unwatch c
      phase := .walking rest } := by
    simp [handled, hs]
  rw [heq]
  refine ⟨h.queued.unwatch c, fun a => ?_, hnd, fun a ha => ?_, ?_, trivial, nofun,
    fun a ha => ?_, fun a z hz hzs => ?_, fun a z hz hzs => ?_⟩
  · by_cases hac : a = c
    · subst hac
      simp [Readiness.unwatch, hs]
    · simp [Readiness.unwatch, hac, h.watched a]
  · have hac : a ≠ c := fun hac => hcr (hac ▸ ha)
    exact List.mem_filter.mpr ⟨hm a (List.mem_cons_of_mem c ha), by simpa using hac⟩
  · refine (hcovered.unwatch c).mono fun a ha _ => Or.inr ?_
    obtain ⟨ha, hac⟩ := List.mem_filter.mp ha
    have hac : a ≠ c := by simpa using hac
    simp only [ReactorPhase.owed] at ha
    split_ifs at ha
    · exact List.mem_of_ne_of_mem hac ha
    · exact ha
  all_goals by_cases hac : a = c
  · subst hac
    simp at ha
  · exact h.unregistered a (by simpa [hac] using ha)
  · subst hac
    obtain rfl : y = z := by simpa using hz
    rw [hs] at hzs
    cases hzs
  · have ho := h.opened a z (by simpa [hac] using hz) hzs
    rw [hp] at ho
    refine ⟨ho.1, ho.2.trans ?_⟩
    simp [ReactorPhase.inHand, Ne.symm hac]
  · subst hac
    obtain rfl : y = z := by simpa using hz
    exact hy
  · exact h.deleted a z (by simpa [hac] using hz) hzs

theorem Live.handle (h : s.Live) (hstep : s.loopStep dispatch .handle = some s') :
    s'.phase = .terminated ∨ s'.Live := by
  simp only [loopStep] at hstep
  split at hstep
  · next c outs rest hp =>
    split at hstep
    · cases hstep
    · next x hx =>
      cases hstep
      have hm := h.held c
      rw [hp] at hm
      have ho : x.Open := by
        obtain ⟨x', hx', hs⟩ := (h.watched c).mp (hm List.mem_cons_self)
        rw [hx] at hx'
        cases hx'
        exact (h.opened c x hx hs).1
      have ho' : ({ x with server := s.server } : Session σ).Open :=
        ⟨ho.status, ho.writeBuffer, ho.asked, ho.kept, ho.present⟩
      have hexit := h.exiting c
      rw [hp] at hexit
      cases processHttpRequest_spec dispatch ho' outs with
      | stays he hy hr => exact Or.inr (h.handledStays hp hx he hy hr)
      | exited he hs hev =>
        exact Or.inr (h.handledDeleted hp ⟨hs, _, hev, Or.inr (hexit ⟨rfl, he⟩)⟩)
      | finished evs ys y he hs hev hd hc hr =>
        exact Or.inr (h.handledDeleted hp ⟨hs, evs, hev, Or.inl ⟨ys, y, hc⟩⟩)
      | terminated he hs hd => exact Or.inl (by simp [handled, hs])
  · cases hstep

theorem step_of_otherStep {e : ReactorEvent κ σ} (hp : s.phase ≠ .terminated)
    (h : s.otherStep e = some s') : s.step dispatch e = some s' := by
  unfold Reactor.step
  split
  · next hterm => exact absurd hterm hp
  · cases e with
    | arrive _ _ | finish _ _ | register _ _ | disturb _ | callExit => exact h
    | poll | pollFails | start | recv _ | interrupt | handle => cases h

theorem step_of_loopStep {e : ReactorEvent κ σ} (hp : s.phase ≠ .terminated)
    (h : s.loopStep dispatch e = some s') : s.step dispatch e = some s' := by
  unfold Reactor.step
  split
  · next hterm => exact absurd hterm hp
  · cases e with
    | arrive _ _ | finish _ _ | register _ _ | disturb _ | callExit => cases h
    | poll | pollFails | start | recv _ | interrupt | handle => exact h

theorem live_step {e : ReactorEvent κ σ} (h : s.phase = .terminated ∨ s.Live)
    (hstep : s.step dispatch e = some s') : s'.phase = .terminated ∨ s'.Live := by
  have hne : s.phase ≠ .terminated := by
    intro hp
    simp [Reactor.step, hp] at hstep
  have hl : s.Live := h.resolve_left hne
  unfold Reactor.step at hstep
  split at hstep
  · cases hstep
  · cases e with
    | arrive c bytes => exact Or.inr (hl.arrive hstep)
    | finish c ending => exact Or.inr (hl.finish hstep)
    | register c sends => exact Or.inr (hl.register hstep)
    | disturb server =>
      cases hstep
      exact Or.inr ⟨hl.queued, hl.watched, hl.nodup, hl.held, hl.covered, hl.receiving,
        hl.exiting, hl.unregistered, hl.opened, hl.deleted⟩
    | callExit =>
      cases hstep
      exact Or.inr ⟨hl.queued, hl.watched, hl.nodup, hl.held, hl.covered, hl.receiving,
        hl.exiting, hl.unregistered, hl.opened, hl.deleted⟩
    | poll => exact Or.inr (hl.poll hstep)
    | pollFails =>
      simp only [loopStep] at hstep
      split at hstep
      · split_ifs at hstep
        cases hstep
        exact Or.inl rfl
      · cases hstep
    | start => exact Or.inr (hl.start hstep)
    | recv extra => exact Or.inr (hl.recv hstep)
    | interrupt => exact Or.inr (hl.interrupt hstep)
    | handle => exact hl.handle hstep

theorem live_run {server : σ} {events : List (ReactorEvent κ σ)}
    (h : run dispatch (start server) events = some s) : s.phase = .terminated ∨ s.Live :=
  runGuarded_invariant (fun _ _ _ _ hi hs => live_step hi hs) (Or.inr (start_live server)) h

/-- In every state of every run, a registered client with bytes or an end to read is queued at
the poller, or the loop has it in hand and will still read from it. -/
theorem no_client_forgotten (dispatch : σ → Bytes → Except Terminate (Handled × σ)) (server : σ)
    {events : List (ReactorEvent κ σ)} (h : run dispatch (start server) events = some s)
    (hp : s.phase ≠ .terminated) {x : Session σ} (hx : s.sessions c = some x)
    (hs : x.status = .connected) (hr : (s.inbox c).readable = true) :
    c ∈ s.epoll.ready ∨ c ∈ s.phase.owed := by
  have hl := (live_run h).resolve_left hp
  exact hl.covered c ((hl.watched c).mpr ⟨x, hx, hs⟩) hr

theorem no_client_forgotten_receiving :
    let around : Surroundings :=
      ⟨fun _ _ => ⟨1, 2, .writes (ascii "1") []⟩, fun _ world => world⟩
    ∃ s x, run (serve (ascii "/srv") around)
        (start (κ := ℕ) ⟨0, ⟨fun _ => .missing, Store.new 0 100⟩⟩)
        [.register 5 [], .arrive 5 (ascii "GET"), .poll, .start, .recv 1, .arrive 5 (ascii " ")] =
          some s ∧ s.sessions 5 = some x ∧ (5 ∈ s.epoll.ready ∨ 5 ∈ s.phase.owed) := by
  intro around
  have hfacts : ((run (serve (ascii "/srv") around)
      (start (κ := ℕ) ⟨0, ⟨fun _ => .missing, Store.new 0 100⟩⟩)
      [.register 5 [], .arrive 5 (ascii "GET"), .poll, .start, .recv 1, .arrive 5 (ascii " ")]).map
      fun s => s.phase.held ≠ [] ∧ (∃ x ∈ s.sessions 5, x.status = .connected) ∧
        (s.inbox 5).readable = true) = some True := by
    simp only [Option.map_eq_some_iff, eq_iff_iff, iff_true]
    exact ⟨_, rfl, nofun, ⟨_, rfl, rfl⟩, rfl⟩
  obtain ⟨s, h, hs⟩ := Option.map_eq_some_iff.mp hfacts
  obtain ⟨hheld, ⟨x, hx, hc⟩, hr⟩ : _ ∧ _ ∧ _ := of_eq_true hs
  have hp : s.phase ≠ .terminated := fun hp => hheld (by rw [hp]; rfl)
  exact ⟨s, x, h, hx, no_client_forgotten _ _ h hp hx hc hr⟩

/-- A connected session has received all that arrived and answered every complete request. -/
structure Answered (x : Session σ) (arrived : Bytes) : Prop where
  received : receivedBytes x.events = arrived
  asked : frames kRequestEnd arrived =
    ((exchanges x.events).map Exchange.requestStr, x.conn.readBuffer)
  kept : ∀ y ∈ exchanges x.events, y.handled.shouldFinish = false

def Idle (s : Reactor κ σ) : Prop := s.phase = .walking [] ∧ s.epoll.ready = []

instance decidableIdle (s : Reactor κ σ) : Decidable s.Idle :=
  match h : s.phase with
  | .walking [] => decidable_of_iff (s.epoll.ready = []) (by simp [Idle, h])
  | .walking (_ :: _) => isFalse (by simp [Idle, h])
  | .receiving _ _ _ => isFalse (by simp [Idle, h])
  | .handling _ _ _ => isFalse (by simp [Idle, h])
  | .terminated => isFalse (by simp [Idle, h])

theorem Live.answered (hl : s.Live) (hidle : s.Idle) {x : Session σ} (hx : s.sessions c = some x) :
    (x.status = .connected ∧ s.inbox c = ⟨[], none⟩ ∧ Answered x (s.arrived c)) ∨
      x.DeletedFor (s.inbox c) := by
  obtain ⟨hp, hq⟩ := hidle
  by_cases hs : x.status = .connected
  · left
    have hnot : s.readable c = false := by
      by_contra hr
      rw [Bool.not_eq_false] at hr
      have hc := hl.covered c ((hl.watched c).mpr ⟨x, hx, hs⟩) hr
      simp [hq, hp, ReactorPhase.owed] at hc
    have hempty : (s.inbox c).unread = [] ∧ (s.inbox c).ending = none := by
      simpa [readable, Inbox.readable] using hnot
    obtain ⟨ho, harrived⟩ := hl.opened c x hx hs
    rw [hp, hempty.1] at harrived
    have hrec : receivedBytes x.events = s.arrived c := by
      simpa [ReactorPhase.inHand] using harrived.symm
    refine ⟨hs, ?_, hrec, hrec ▸ ho.asked, ho.kept⟩
    rw [← hempty.1, ← hempty.2]
  · exact Or.inr (hl.deleted c x hx hs)

/-- A loop with nothing to do has nothing left to answer, whatever the clients sent, however
the kernel cut it up and in whatever order the steps came. -/
theorem idle_loop_has_answered (dispatch : σ → Bytes → Except Terminate (Handled × σ))
    (server : σ) {events : List (ReactorEvent κ σ)}
    (h : run dispatch (start server) events = some s) (hidle : s.Idle) {x : Session σ}
    (hx : s.sessions c = some x) :
    (x.status = .connected ∧ s.inbox c = ⟨[], none⟩ ∧ Answered x (s.arrived c)) ∨
      x.DeletedFor (s.inbox c) :=
  Live.answered ((live_run h).resolve_left (by simp [hidle.1])) hidle hx

theorem idle_loop_has_answered_get :
    let fs : FileSystem := fun path =>
      if path = ascii "/srv/a" then .regular (ascii "xy") true else .missing
    let around : Surroundings :=
      ⟨fun _ _ => ⟨1, 2, .writes (ascii "1") []⟩, fun _ world => world⟩
    let get := ascii "GET /a HTTP/1.1" ++ kCRLF ++ ascii "Connection: Keep-Alive" ++ kRequestEnd
    ∃ s x, run (serve (ascii "/srv") around) (start (κ := ℕ) ⟨0, ⟨fs, Store.new 0 100⟩⟩)
        [.register 5 [], .arrive 5 get, .poll, .start, .recv 4, .recv 100, .recv 0, .handle,
          .poll] = some s ∧ s.sessions 5 = some x ∧
      ((x.status = .connected ∧ s.inbox 5 = ⟨[], none⟩ ∧ Answered x (s.arrived 5)) ∨
        x.DeletedFor (s.inbox 5)) := by
  intro fs around get
  have hfacts : ((run (serve (ascii "/srv") around) (start (κ := ℕ) ⟨0, ⟨fs, Store.new 0 100⟩⟩)
      [.register 5 [], .arrive 5 get, .poll, .start, .recv 4, .recv 100, .recv 0, .handle,
        .poll]).map fun s => decide s.Idle && (s.sessions 5).isSome) = some true := by
    decide +kernel
  obtain ⟨s, h, hs⟩ := Option.map_eq_some_iff.mp hfacts
  rw [Bool.and_eq_true, decide_eq_true_iff, Option.isSome_iff_exists] at hs
  obtain ⟨hidle, x, hx⟩ := hs
  exact ⟨s, x, h, hx, idle_loop_has_answered _ _ h hidle hx⟩

end Reactor

end HttpReactor
