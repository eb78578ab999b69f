import HttpReactor.OverlappingServer
import Mathlib.Data.Prod.Lex

/-!
# Handlings that overlap come to an end

A thread that is about to insert waits for the loads in progress, and these do not wait for
anybody. So some thread can always go on, and as each step of a handling brings it nearer to its
end, the threads come to rest once nothing arrives any more, or else loads that overlapped have
spoiled the list of the cache and an insertion faults on it. What follows such a fault is left
open.
-/

namespace HttpReactor
open ListSearch Connection Refinement

theorem Reactor.busy_of_handle {κ σ : Type} [DecidableEq κ] {r r' : Reactor κ σ}
    {dispatch : σ → Bytes → Except Terminate (Handled × σ)}
    (h : r.loopStep dispatch .handle = some r') :
    ∃ c outs rest x, r.phase = .handling c outs rest ∧ r.sessions c = some x := by
  simp only [loopStep] at h
  split at h
  · next c outs rest hp =>
    split at h
    · cases h
    · next x hx => exact ⟨c, outs, rest, x, hp, hx⟩
  · cases h

theorem RunningServer.busy_of_handle {κ σ : Type} [DecidableEq κ] {n : ℕ}
    {s s' : RunningServer κ σ n} {dispatch : σ → Bytes → Except Terminate (Handled × σ)} {i : Fin n}
    (h : s.step dispatch (.reactor i .handle) = some s') :
    ∃ c outs rest x, (s.threads i).phase = .handling c outs rest ∧
      (s.threads i).sessions c = some x := by
  cases (stepped_of_step h).2 with
  | reacts i e r hr => exact Reactor.busy_of_handle hr

namespace OverlappingServer

open RunningServer (oneFile oneProgram oneFileResult keepGet)

variable {κ : Type} [DecidableEq κ] {n : ℕ} {dir : Bytes} {fs : FileSystem}
  {cgi : Bytes → CGIOutcome} {asked : Bytes → Prop} {result : Bytes → Handled}
  {s s' : OverlappingServer κ n} {e : OverlapEvent κ n}

/-- The steps that the threads take by themselves, as in `RunningServer`. -/
def AtWork (s : OverlappingServer κ n) : OverlapEvent κ n → Prop
  | .server e => s.server.AtWork e
  | _ => True

theorem atWork_of_shown {e' : ServerEvent κ Unit n} {server : RunningServer κ Unit n}
    (hshown : Shown e e') (he : s.AtWork e)
    (h : s.server.step (fixedDispatch result) e' = some server) : s.server.AtWork e' := by
  have hbusy : ∀ i, s.server.step (fixedDispatch result) (.reactor i .handle) = some server →
      s.server.AtWork (.reactor i .handle) := by
    intro i hi
    obtain ⟨a, outs, rest, x, hp, -⟩ := RunningServer.busy_of_handle hi
    refine ⟨trivial, fun hidle => ?_⟩
    have hwalking : (s.server.threads i).phase = .walking [] := hidle.1
    rw [hp] at hwalking
    cases hwalking
  cases hshown with
  | server => exact he
  | receive i => exact hbusy i h
  | advance i now => exact hbusy i h

def measure (s : OverlappingServer κ n) : Lex (ℕ × ℕ) := toLex (s.server.work, s.pending)

theorem Sound.measure_lt (hsteady : Steady dir fs cgi asked result)
    (hasked : ∀ t, s.server.Asks t → asked t) (h : s.Sound dir fs cgi asked result)
    (he : s.AtWork e) (hstep : s.step dir fs cgi e = some s') : s'.measure < s.measure := by
  refine Prod.Lex.toLex_lt_toLex.mpr ?_
  obtain ⟨-, ⟨-, heq, hlt⟩ | ⟨e', hshown, he'⟩⟩ := h.step hsteady hasked hstep
  · exact Or.inr ⟨congrArg RunningServer.work heq, hlt⟩
  · exact Or.inl (h.server.work_lt (atWork_of_shown hshown he he') he')

theorem Sound.kept (hsteady : Steady dir fs cgi asked result)
    (hasked : ∀ t, s.server.Asks t → asked t) (h : s.Sound dir fs cgi asked result)
    (he : s.AtWork e) (hstep : s.step dir fs cgi e = some s') : s.server.Kept s'.server := by
  obtain ⟨-, ⟨-, heq, -⟩ | ⟨e', hshown, he'⟩⟩ := h.step hsteady hasked hstep
  · rw [heq]
    exact RunningServer.Kept.refl s.server
  · exact RunningServer.kept_of_step (atWork_of_shown hshown he he') he'

theorem receive_enabled {i : Fin n} {a : κ} {outs : List RecvOutcome} {rest : List κ}
    {x : Session Unit} (hp : (s.server.threads i).phase = .handling a outs rest)
    (hh : s.handling i = none) (hx : (s.server.threads i).sessions a = some x) :
    ∃ s', s.receive i = some s' := by
  simp only [receive, hp, hh, hx]
  exact ⟨_, rfl⟩

theorem advance_enabled (dir : Bytes) (fs : FileSystem) (cgi : Bytes → CGIOutcome) {i : Fin n}
    {a : κ} {outs : List RecvOutcome} {rest : List κ} {g : Handling}
    (hp : (s.server.threads i).phase = .handling a outs rest)
    (hg : s.handling i = some g) (hfree : g.Loads ∨ ∀ j, ¬ s.Loads j) (now : Int) :
    ∃ s', s.advance dir fs cgi i now = some s' := by
  obtain ⟨y, phase⟩ := g
  cases phase with
  | popping =>
    simp only [advance, hp, hg]
    split <;> exact ⟨_, rfl⟩
  | responding p phase =>
    have hm : ¬ (phase.Inserting ∧ ∃ j, s.Loads j) := by
      rintro ⟨hi, j, hj⟩
      rcases hfree with hl | hnone
      · cases phase with
        | parsing | accessing => exact hl
        | loading => exact hi
      · exact hnone j hj
    simp only [advance, hp, hg, if_neg hm]
    split <;> exact ⟨_, rfl⟩
  | answering p handled =>
    simp only [advance, hp, hg]
    split_ifs <;> exact ⟨_, rfl⟩

theorem Sound.handling_enabled (h : s.Sound dir fs cgi asked result) (hfault : s.fault = none)
    (hended : s.server.ended = false) {i : Fin n} {a : κ} {outs : List RecvOutcome} {rest : List κ}
    {x : Session Unit} (hp : (s.server.threads i).phase = .handling a outs rest)
    (hx : (s.server.threads i).sessions a = some x) :
    ∃ e s', s.AtWork e ∧ Accepted e ∧ s.step dir fs cgi e = some s' := by
  have hgoing : ¬ (s.fault.isSome ∨ s.server.ended) := by simp [hfault, hended]
  have hadvance : ∀ j g, s.handling j = some g → (g.Loads ∨ ∀ k, ¬ s.Loads k) →
      ∃ e s', s.AtWork e ∧ Accepted e ∧ s.step dir fs cgi e = some s' := by
    intro j g hg hfree
    obtain ⟨b, outs', rest', y, hp', -, -⟩ := h.underway j g hg
    obtain ⟨s', hs'⟩ := advance_enabled dir fs cgi hp' hg hfree 0
    exact ⟨.advance j 0, s', trivial, trivial, by
      simp only [OverlappingServer.step, if_neg hgoing, hs']⟩
  by_cases hloads : ∃ j, s.Loads j
  · obtain ⟨j, g, hg, hl⟩ := hloads
    exact hadvance j g hg (Or.inl hl)
  · cases hg : s.handling i with
    | some g => exact hadvance i g hg (Or.inr fun j hj => hloads ⟨j, hj⟩)
    | none =>
      obtain ⟨s', hs'⟩ := receive_enabled hp hg hx
      exact ⟨.receive i, s', trivial, trivial, by
        simp only [OverlappingServer.step, if_neg hgoing, hs']⟩

theorem Sound.goes_on (h : s.Sound dir fs cgi asked result) (hfault : s.fault = none)
    (hended : s.server.ended = false) (hagent : s.server.agent = ⟨List.range n⟩) (hn : 0 < n)
    (hexit : ∀ i, (s.server.threads i).exit = false) (hrest : ¬ s.server.Rest) :
    ∃ e s', s.AtWork e ∧ Accepted e ∧ s.step dir fs cgi e = some s' := by
  obtain ⟨e, server, he, hout, hs⟩ := h.server.goes_on undispatched hended hagent hn hexit hrest
  have hgoing : ¬ (s.fault.isSome ∨ s.server.ended) := by simp [hfault, hended]
  cases hhandle : e.isHandle with
  | false =>
    refine ⟨.server e, { s with server := server }, he, hout _, ?_⟩
    simp only [OverlappingServer.step, if_neg hgoing, hhandle, hs]
    rfl
  | true =>
    obtain ⟨i, rfl⟩ : ∃ i, e = .reactor i .handle := by
      cases e with
      | reactor i e =>
        cases e with
        | handle => exact ⟨i, rfl⟩
        | arrive | finish | register | disturb | callExit | poll | pollFails | start | recv
        | interrupt => cases hhandle
      | connect | arrive | finish | disturb | pollListener | accept | acceptFails | listenerFails
      | addConnection | callExit => cases hhandle
    obtain ⟨a, outs, rest, x, hp, hx⟩ := RunningServer.busy_of_handle hs
    exact h.handling_enabled hfault hended hp hx

structure Going (dir : Bytes) (fs : FileSystem) (cgi : Bytes → CGIOutcome)
    (result : Bytes → Handled) (before : RunningServer κ Unit n) (s : OverlappingServer κ n) :
    Prop where
  sound : s.Sound dir fs cgi before.Asks result
  isolated : s.server.AllIsolated (fixedDispatch result) (fun _ => True) (fun _ => True) result
  alive : s.server.ended = false
  kept : before.Kept s.server

theorem Going.step {before : RunningServer κ Unit n}
    (hsteady : Steady dir fs cgi before.Asks result) (h : s.Going dir fs cgi result before)
    (he : s.AtWork e) (haccepted : Accepted e)
    (hstep : OverlappingServer.step dir fs cgi s e = some s') :
    s'.Going dir fs cgi result before ∧ s'.measure < s.measure := by
  have hasked := h.kept.asks
  have hall := h.sound.step_isolated hsteady hasked h.isolated haccepted hstep
  have hkept := h.kept.trans (h.sound.kept hsteady hasked he hstep)
  refine ⟨⟨(h.sound.step hsteady hasked hstep).1, hall, ?_, hkept⟩,
    h.sound.measure_lt hsteady hasked he hstep⟩
  obtain ⟨-, ⟨-, heq, -⟩ | ⟨e', hshown, he'⟩⟩ := h.sound.step hsteady hasked hstep
  · rw [heq]
    exact h.alive
  · exact h.isolated.stays (fixedDispatch_fixes result) (atWork_of_shown hshown he he')
      (fun _ _ => trivial) he'

theorem Going.comes_to_rest {before : RunningServer κ Unit n}
    (hsteady : Steady dir fs cgi before.Asks result) (h : s.Going dir fs cgi result before)
    (hagent : before.agent = ⟨List.range n⟩) (hn : 0 < n)
    (hexit : ∀ i, (before.threads i).exit = false) :
    ∃ es s', Along (OverlappingServer.step dir fs cgi) AtWork s es ∧
      run dir fs cgi s es = some s' ∧ s'.Going dir fs cgi result before ∧
        (s'.fault.isSome ∨ s'.server.Rest) := by
  have hstep : ∀ (u : OverlappingServer κ n) e u', u.Going dir fs cgi result before →
      (u.AtWork e ∧ Accepted e) → u.step dir fs cgi e = some u' →
        u'.Going dir fs cgi result before ∧ u'.measure < u.measure :=
    fun u e u' hu he hs => hu.step hsteady he.1 he.2 hs
  have hgo : ∀ u : OverlappingServer κ n, u.Going dir fs cgi result before →
      ¬ (u.fault.isSome ∨ u.server.Rest) →
        ∃ e u', (u.AtWork e ∧ Accepted e) ∧ u.step dir fs cgi e = some u' := by
    intro u hu hnot
    obtain ⟨hfault, hrest⟩ := not_or.mp hnot
    obtain ⟨e, u', he, haccepted, hs⟩ := hu.sound.goes_on (by simpa using hfault) hu.alive
      (hu.kept.agent.trans hagent) hn (fun i => (hu.kept.exit i).trans (hexit i)) hrest
    exact ⟨e, u', ⟨he, haccepted⟩, hs⟩
  obtain ⟨es, s', halong, hrun, hgoing, hrest⟩ :=
    exists_run_to_rest_of_wellFounded wellFounded_lt hstep hgo h
  exact ⟨es, s', halong.mono fun _ _ he => he.1, hrun, hgoing, hrest⟩

theorem Sound.not_forever (hsteady : Steady dir fs cgi s.server.Asks result)
    (h : s.Sound dir fs cgi s.server.Asks result) {states : ℕ → OverlappingServer κ n}
    {es : ℕ → OverlapEvent κ n} (hs : states 0 = s) : ¬ ∀ k, (states k).AtWork (es k) ∧
      (states k).step dir fs cgi (es k) = some (states (k + 1)) := by
  subst hs
  have hstep : ∀ (u : OverlappingServer κ n) e u',
      u.Sound dir fs cgi (states 0).server.Asks result ∧ (states 0).server.Kept u.server →
        u.AtWork e → u.step dir fs cgi e = some u' →
        (u'.Sound dir fs cgi (states 0).server.Asks result ∧ (states 0).server.Kept u'.server) ∧
          u'.measure < u.measure := by
    intro u e u' hu he hs
    obtain ⟨hsound, hkept⟩ := hu
    exact ⟨⟨(hsound.step hsteady hkept.asks hs).1,
      hkept.trans (hsound.kept hsteady hkept.asks he hs)⟩,
      hsound.measure_lt hsteady hkept.asks he hs⟩
  exact not_infinite_run wellFounded_lt hstep ⟨h, RunningServer.Kept.refl _⟩

theorem session_of_idle {i : Fin n} (hidle : (s.server.project i).Idle) (a : κ) :
    s.session i a = (s.server.threads i).sessions a := by
  have hwalking : (s.server.threads i).phase = .walking [] := hidle.1
  rw [session, hwalking]

/-- Over files that stay, if sends are accepted and each text that a client sends has a result, once
nothing arrives any more: the threads of a server whose constructor has settled do not go on for
ever before a fault of the cache, whichever take their steps, and from wherever these have led they
come to such a fault or to rest, with every client that has not ended its side sent all its
replies. -/
theorem overlapping_server_settles {numThreads : ℕ}
    {actions : List (StartAction _)} {t : ServerStart (max numThreads kMinThreadCount)}
    (ht : runGuarded ServerStart.step (ServerStart.new numThreads) actions = some t)
    (hsettled : t.Settled) {now : Int} {capacity : UInt64} {events : List (OverlapEvent κ _)}
    (hevents : ∀ e ∈ events, Accepted e)
    {s : OverlappingServer κ (max numThreads kMinThreadCount)}
    (h : run dir fs cgi (start now capacity t.agent) events = some s)
    (hsteady : Steady dir fs cgi s.server.Asks result) (hended : s.server.ended = false)
    (hexit : ∀ i, (s.server.threads i).exit = false) :
    (∀ (states : ℕ → OverlappingServer κ _) (es : ℕ → OverlapEvent κ _), states 0 = s →
      ¬ ∀ k, (states k).AtWork (es k) ∧
        (states k).step dir fs cgi (es k) = some (states (k + 1))) ∧
    ∀ es u, Along (step dir fs cgi) AtWork s es → (∀ e ∈ es, Accepted e) →
      run dir fs cgi s es = some u →
      ∃ es' s', Along (step dir fs cgi) AtWork u es' ∧ run dir fs cgi u es' = some s' ∧
        (s'.fault.isSome ∨ s'.server.Rest ∧ ∀ c ∈ s.server.connected, ∃ i x,
          (c, i) ∈ s'.server.registered ∧ s'.session i c = some x ∧
            ((s'.server.inbox c).ending = none →
              acceptedBytes x.events = replies result (s.server.arrived c) ∧
                (x.status = .connected ↔ ∀ p ∈ (frames kRequestEnd (s.server.arrived c)).1,
                  (result p).shouldFinish = false))) := by
  have hpos : 0 < max numThreads kMinThreadCount := lt_max_of_lt_right (by decide)
  obtain ⟨hsound, hall⟩ := isolated_run hsteady hevents h fun _ ht => ht
  have hagent : s.server.agent = ⟨List.range (max numThreads kMinThreadCount)⟩ := by
    obtain ⟨-, es, -, hes⟩ := exists_server_run hsteady h
    exact (RunningServer.agent_run hes).trans (ServerStart.agent_of_settled ht hsettled)
  refine ⟨fun states es hs => hsound.not_forever hsteady hs, fun es u halong hacc hrun => ?_⟩
  have hu : u.Going dir fs cgi result s.server := runGuarded_invariant_of_along
    (fun _ _ _ hu he hs => (hu.step hsteady he.1 he.2 hs).1)
    ⟨hsound, hall, hended, RunningServer.Kept.refl s.server⟩ (halong.and_of_mem hacc) hrun
  obtain ⟨es', s', halong', hrun', hgoing, hrest⟩ := hu.comes_to_rest hsteady hagent hpos hexit
  refine ⟨es', s', halong', hrun', hrest.imp_right fun hrest => ⟨hrest, fun c hc => ?_⟩⟩
  rw [← hgoing.kept.connected] at hc
  obtain ⟨i, x, hm, hx⟩ := hgoing.isolated.sound.assigned.registered_of_rest hrest hc
  refine ⟨i, x, hm, (session_of_idle (hrest.2.2 i) c).trans hx, fun hend => ?_⟩
  rw [← hgoing.kept.arrived]
  exact hgoing.isolated.idle (hrest.2.2 i) hx hend

theorem overlapping_server_settles_handling :
    let run := run (κ := ℕ) (n := max 1 kMinThreadCount) (ascii "/srv") oneFile fun _ => oneProgram
    let step := OverlappingServer.step (ascii "/srv") oneFile fun _ => oneProgram
    let events : List (OverlapEvent ℕ (max 1 kMinThreadCount)) :=
      ([.connect 5, .arrive 5 keepGet, .pollListener, .accept, .addConnection 1 [.took 3],
        .reactor ThreadPool.worker₁ .poll, .reactor ThreadPool.worker₁ .start,
        .reactor ThreadPool.worker₁ (.recv 999), .reactor ThreadPool.worker₁ (.recv 0)] :
          List (ServerEvent ℕ Unit _)).map .server ++
      [.receive ThreadPool.worker₁, .advance ThreadPool.worker₁ 0, .advance ThreadPool.worker₁ 0,
        .server (.connect 6)]
    ∃ t s, runGuarded ServerStart.step (ServerStart.new 1) ServerStart.bothStarted = some t ∧
      run (start 0 100 t.agent) events = some s ∧
      ∃ es s', Along step AtWork s es ∧ run s es = some s' ∧
        (s'.fault.isSome ∨ s'.server.Rest ∧ ∀ c ∈ s.server.connected, ∃ i x,
          (c, i) ∈ s'.server.registered ∧ s'.session i c = some x ∧
            ((s'.server.inbox c).ending = none →
              acceptedBytes x.events = replies oneFileResult (s.server.arrived c) ∧
                (x.status = .connected ↔ ∀ p ∈ (frames kRequestEnd (s.server.arrived c)).1,
                  (oneFileResult p).shouldFinish = false))) := by
  intro run step events
  obtain ⟨t, ht, hagent, hsettled⟩ := ServerStart.bothStarted_settled
  have hevents : ∀ e ∈ events, Accepted e := by
    simp [events, Accepted, RunningServer.Outside, Reactor.Outside, Delivers]
  have hran : ((run (start 0 100 ⟨[0, 1]⟩) events).map fun s =>
      decide ((s.server.ended = false ∧ ∀ i, (s.server.threads i).exit = false) ∧
        s.server.oneFileReturns = true)) = some true := by
    decide +kernel
  rw [← hagent] at hran
  obtain ⟨s, h, hs⟩ := Option.map_eq_some_iff.mp hran
  obtain ⟨⟨hended, hexit⟩, hok⟩ := of_decide_eq_true hs
  exact ⟨t, s, ht, h, (overlapping_server_settles ht hsettled hevents h
    ((known_run h).oneFile_steady hok) hended hexit).2 [] s trivial (List.forall_mem_nil _) rfl⟩

end OverlappingServer

end HttpReactor
