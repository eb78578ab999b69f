import HttpReactor.RequestSteps
import HttpReactor.ServerClients

/-!
# Reactors that handle requests at the same time

In `RunningServer` a reactor handles all that it has received in one step. Here the handling
takes its own steps, and those of several reactors interleave: loads of the cache overlap, an
insertion waits for them. The loads may spoil the list of the cache, and a later insertion may
then follow a freed or null pointer, or evict a victim that is not in the map. The process may
go on from there, but nothing is said of what it does, and runs stop at such a fault. Up to that
point, over files that stay and for requests that have results, every run is one of
`RunningServer` in which each handling takes place at its end.
-/

namespace HttpReactor
open ListSearch Connection Refinement

/-- Where a thread stands between the return of `Receive` and the end of the callback. -/
inductive HandlingPhase
  | popping
  | responding (requestStr : Bytes) (phase : RequestPhase)
  | answering (requestStr : Bytes) (handled : Handled)
deriving DecidableEq, Repr

structure Handling where
  session : Session Unit
  phase : HandlingPhase

def Handling.Loads : Handling → Prop
  | ⟨_, .responding _ phase⟩ => phase.Loads
  | _ => False

instance : DecidablePred Handling.Loads
  | ⟨_, .responding _ phase⟩ => inferInstanceAs (Decidable phase.Loads)
  | ⟨_, .popping⟩ => inferInstanceAs (Decidable False)
  | ⟨_, .answering _ _⟩ => inferInstanceAs (Decidable False)

def Handling.of (session : Session Unit) (requestStr : Bytes) : RequestProgress → Handling
  | .done handled => ⟨session, .answering requestStr handled⟩
  | .more phase => ⟨session, .responding requestStr phase⟩

/-- `server` has the handling of a batch still before it until the callback returns. -/
structure OverlappingServer (κ : Type) (n : ℕ) where
  server : RunningServer κ Unit n
  cache : Cache
  handling : Fin n → Option Handling
  fault : Option CacheFault

inductive OverlapEvent (κ : Type) (n : ℕ)
  | server (e : ServerEvent κ Unit n)
  | receive (i : Fin n)
  | advance (i : Fin n) (now : Int)

def OverlapEvent.Inner {κ : Type} {n : ℕ} : OverlapEvent κ n → Prop
  | .server _ => False
  | _ => True

def ServerEvent.isHandle {κ σ : Type} {n : ℕ} : ServerEvent κ σ n → Bool
  | .reactor _ .handle => true
  | _ => false

/-- Stands for the handling in one step, which is left out here. -/
def undispatched (_ : Unit) (_ : Bytes) : Except Terminate (Handled × Unit) :=
  .ok (⟨[], true⟩, ())

namespace OverlappingServer

variable {κ : Type} [DecidableEq κ] {n : ℕ}

def start (now : Int) (capacity : UInt64) (agent : DistributionAgent) : OverlappingServer κ n :=
  { server := .start () agent
    cache := .new now capacity
    handling := fun _ => none
    fault := none }

def finish (s : OverlappingServer κ n) (i : Fin n) (c : κ) (rest : List κ)
    (session : Session Unit) : OverlappingServer κ n :=
  { s with
    server := s.server.put i ((s.server.view i).handled c rest session)
    handling := Function.update s.handling i none }

def goOn (s : OverlappingServer κ n) (i : Fin n) (h : Handling) : OverlappingServer κ n :=
  { s with handling := Function.update s.handling i (some h) }

def terminate (s : OverlappingServer κ n) (i : Fin n) : OverlappingServer κ n :=
  { s with server := s.server.put i { s.server.view i with phase := .terminated } }

def Loads (s : OverlappingServer κ n) (i : Fin n) : Prop := ∃ h ∈ s.handling i, h.Loads

instance (s : OverlappingServer κ n) : DecidablePred s.Loads := fun i =>
  inferInstanceAs (Decidable (∃ h ∈ s.handling i, h.Loads))

def receive (s : OverlappingServer κ n) (i : Fin n) : Option (OverlappingServer κ n) :=
  match (s.server.threads i).phase, s.handling i with
  | .handling c outs rest, none =>
    ((s.server.threads i).sessions c).map fun session =>
      if (session.conn.receive outs).2.2 then
        s.finish i c rest (session.receive outs).deleteConnection
      else s.goOn i ⟨session.receive outs, .popping⟩
  | _, _ => none

def advance (dir : Bytes) (fs : FileSystem) (cgi : Bytes → CGIOutcome)
    (s : OverlappingServer κ n) (i : Fin n) (now : Int) : Option (OverlappingServer κ n) :=
  match (s.server.threads i).phase, s.handling i with
  | .handling c _ rest, some ⟨session, .popping⟩ =>
    match session.conn.findAndPopTill kRequestEnd with
    | (none, conn) => some (s.finish i c rest { session with conn := conn })
    | (some requestStr, conn) =>
      some (s.goOn i ⟨{ session with conn := conn }, .responding requestStr .parsing⟩)
  | .handling _ _ _, some ⟨session, .responding requestStr phase⟩ =>
    -- the mutex of the cache is free for an insertion when no thread is inside a load
    if phase.Inserting ∧ ∃ j, s.Loads j then none
    else match phase.proceed dir fs cgi now requestStr s.cache with
      | .error (.terminate _) => some (s.terminate i)
      | .error (.fault f) => some { s with fault := some f }
      | .ok (progress, cache) =>
        some { s.goOn i (.of session requestStr progress) with cache := cache }
  | .handling c _ rest, some ⟨session, .answering requestStr handled⟩ =>
    let answered := session.answer session.conn requestStr handled ()
    if handled.shouldFinish then some (s.finish i c rest answered.deleteConnection)
    else some (s.goOn i ⟨answered, .popping⟩)
  | _, _ => none

/-- Nothing is said of what the process does after a fault of the cache. -/
def step (dir : Bytes) (fs : FileSystem) (cgi : Bytes → CGIOutcome) (s : OverlappingServer κ n)
    (e : OverlapEvent κ n) : Option (OverlappingServer κ n) :=
  if s.fault.isSome ∨ s.server.ended then none
  else match e with
    | .server e =>
      if e.isHandle then none
      else (s.server.step undispatched e).map fun server => { s with server := server }
    | .receive i => s.receive i
    | .advance i now => s.advance dir fs cgi i now

def run (dir : Bytes) (fs : FileSystem) (cgi : Bytes → CGIOutcome) (s : OverlappingServer κ n)
    (events : List (OverlapEvent κ n)) : Option (OverlappingServer κ n) :=
  runGuarded (step dir fs cgi) s events

def session (s : OverlappingServer κ n) (i : Fin n) (c : κ) : Option (Session Unit) :=
  match (s.server.threads i).phase, s.handling i with
  | .handling a _ _, some h => if a = c then some h.session else (s.server.threads i).sessions c
  | _, _ => (s.server.threads i).sessions c

section Steps

variable {dir : Bytes} {fs : FileSystem} {cgi : Bytes → CGIOutcome} {s s' : OverlappingServer κ n}
  {e : OverlapEvent κ n}

inductive Stepped (dir : Bytes) (fs : FileSystem) (cgi : Bytes → CGIOutcome)
    (s : OverlappingServer κ n) : OverlapEvent κ n → OverlappingServer κ n → Prop
  | serves (e : ServerEvent κ Unit n) (server : RunningServer κ Unit n) (he : e.isHandle = false)
      (hs : s.server.step undispatched e = some server) :
      Stepped dir fs cgi s (.server e) { s with server := server }
  | exits (i : Fin n) (c : κ) (outs : List RecvOutcome) (rest : List κ) (x : Session Unit)
      (hp : (s.server.threads i).phase = .handling c outs rest) (hh : s.handling i = none)
      (hx : (s.server.threads i).sessions c = some x) (he : (x.conn.receive outs).2.2 = true) :
      Stepped dir fs cgi s (.receive i) (s.finish i c rest (x.receive outs).deleteConnection)
  | receives (i : Fin n) (c : κ) (outs : List RecvOutcome) (rest : List κ) (x : Session Unit)
      (hp : (s.server.threads i).phase = .handling c outs rest) (hh : s.handling i = none)
      (hx : (s.server.threads i).sessions c = some x) (he : (x.conn.receive outs).2.2 = false) :
      Stepped dir fs cgi s (.receive i) (s.goOn i ⟨x.receive outs, .popping⟩)
  | drained (i : Fin n) (now : Int) (c : κ) (outs : List RecvOutcome) (rest : List κ)
      (y : Session Unit) (hp : (s.server.threads i).phase = .handling c outs rest)
      (hh : s.handling i = some ⟨y, .popping⟩) (hc : cut kRequestEnd y.conn.readBuffer = none) :
      Stepped dir fs cgi s (.advance i now) (s.finish i c rest y)
  | popped (i : Fin n) (now : Int) (y : Session Unit) (p r : Bytes)
      (hh : s.handling i = some ⟨y, .popping⟩)
      (hc : cut kRequestEnd y.conn.readBuffer = some (p, r)) :
      Stepped dir fs cgi s (.advance i now)
        (s.goOn i ⟨{ y with conn := { y.conn with readBuffer := r } }, .responding p .parsing⟩)
  | responds (i : Fin n) (now : Int) (y : Session Unit) (p : Bytes) (phase : RequestPhase)
      (progress : RequestProgress) (cache : Cache)
      (hh : s.handling i = some ⟨y, .responding p phase⟩)
      (hm : phase.Inserting → ∀ j, ¬ s.Loads j)
      (hs : phase.proceed dir fs cgi now p s.cache = .ok (progress, cache)) :
      Stepped dir fs cgi s (.advance i now) { s.goOn i (.of y p progress) with cache := cache }
  | terminates (i : Fin n) (now : Int) (y : Session Unit) (p : Bytes) (phase : RequestPhase)
      (t : Terminate) (hh : s.handling i = some ⟨y, .responding p phase⟩)
      (hs : phase.proceed dir fs cgi now p s.cache = .error (.terminate t)) :
      Stepped dir fs cgi s (.advance i now) (s.terminate i)
  | faults (i : Fin n) (now : Int) (f : CacheFault) :
      Stepped dir fs cgi s (.advance i now) { s with fault := some f }
  | closes (i : Fin n) (now : Int) (c : κ) (outs : List RecvOutcome) (rest : List κ)
      (y : Session Unit) (p : Bytes) (handled : Handled)
      (hp : (s.server.threads i).phase = .handling c outs rest)
      (hh : s.handling i = some ⟨y, .answering p handled⟩) (hf : handled.shouldFinish = true) :
      Stepped dir fs cgi s (.advance i now)
        (s.finish i c rest (y.answer y.conn p handled ()).deleteConnection)
  | answers (i : Fin n) (now : Int) (y : Session Unit) (p : Bytes) (handled : Handled)
      (hh : s.handling i = some ⟨y, .answering p handled⟩) (hf : handled.shouldFinish = false) :
      Stepped dir fs cgi s (.advance i now) (s.goOn i ⟨y.answer y.conn p handled (), .popping⟩)

theorem stepped_of_receive {i : Fin n} (h : s.receive i = some s') :
    Stepped dir fs cgi s (.receive i) s' := by
  unfold receive at h
  split at h
  · next c outs rest hp hh =>
    obtain ⟨x, hx, rfl⟩ := Option.map_eq_some_iff.mp h
    split_ifs with he
    · exact .exits i c outs rest x hp hh hx he
    · exact .receives i c outs rest x hp hh hx (by simpa using he)
  · cases h

theorem stepped_of_advance {i : Fin n} {now : Int} (h : s.advance dir fs cgi i now = some s') :
    Stepped dir fs cgi s (.advance i now) s' := by
  unfold advance at h
  split at h
  · next c outs rest y hp hh =>
    cases hc : cut kRequestEnd y.conn.readBuffer with
    | none =>
      rw [findAndPopTill_of_cut_none hc] at h
      cases h
      exact .drained i now c outs rest y hp hh hc
    | some q =>
      obtain ⟨p, r⟩ := q
      rw [findAndPopTill_of_cut_some hc] at h
      cases h
      exact .popped i now y p r hh hc
  · next c outs rest y p phase hp hh =>
    split_ifs at h with hm
    split at h
    · next t hs =>
      cases h
      exact .terminates i now y p phase t hh hs
    · next f hs =>
      cases h
      exact .faults i now f
    · next progress cache hs =>
      cases h
      exact .responds i now y p phase progress cache hh (fun hi j hj => hm ⟨hi, j, hj⟩) hs
  · next c outs rest y p handled hp hh =>
    dsimp only at h
    split_ifs at h with hf
    · cases h
      exact .closes i now c outs rest y p handled hp hh hf
    · cases h
      exact .answers i now y p handled hh (by simpa using hf)
  · cases h

theorem stepped_of_step (h : s.step dir fs cgi e = some s') :
    s.fault = none ∧ s.server.ended = false ∧ Stepped dir fs cgi s e s' := by
  unfold step at h
  split_ifs at h with hended
  obtain ⟨hfault, hended⟩ := not_or.mp hended
  refine ⟨by simpa using hfault, by simpa using hended, ?_⟩
  cases e with
  | server e =>
    dsimp only at h
    split_ifs at h with he
    obtain ⟨server, hs, rfl⟩ := Option.map_eq_some_iff.mp h
    exact .serves e server (by simpa using he) hs
  | receive i => exact stepped_of_receive h
  | advance i now => exact stepped_of_advance h

end Steps

end OverlappingServer

namespace RunningServer

variable {κ σ : Type} [DecidableEq κ] {n : ℕ} {s s' : RunningServer κ σ n}
  {dispatch dispatch' : σ → Bytes → Except Terminate (Handled × σ)} {e : ServerEvent κ σ n}

theorem step_congr (he : e.isHandle = false) : s.step dispatch e = s.step dispatch' e := by
  cases e with
  | reactor i e =>
    cases e with
    | handle => cases he
    | arrive | finish | register | disturb | callExit | poll | pollFails | start | recv
    | interrupt => rfl
  | connect | arrive | finish | disturb | pollListener | accept | acceptFails | listenerFails
  | addConnection | callExit => rfl

theorem Stepped.keeps_handling (h : Stepped dispatch s e s') (he : e.isHandle = false) {i : Fin n}
    {c : κ} {outs : List RecvOutcome} {rest : List κ} {x : Session σ}
    (hp : (s.threads i).phase = .handling c outs rest) (hx : (s.threads i).sessions c = some x) :
    (s'.threads i).phase = .handling c outs rest ∧ (s'.threads i).sessions c = some x := by
  cases h with
  | connects | arrives | finishes | disturbs | polls | accepts | skips | fails => exact ⟨hp, hx⟩
  | calls j =>
    by_cases hij : i = j
    · subst hij
      rw [put_threads_self]
      exact ⟨hp, hx⟩
    · rw [put_threads_of_ne hij]
      exact ⟨hp, hx⟩
  | adds draw sends a j r hl hr =>
    obtain ⟨hnone, rfl⟩ := Reactor.register_eq_some hr
    by_cases hij : i = j
    · subst hij
      have hca : c ≠ a := by
        intro hca
        rw [← hca] at hnone
        exact absurd (hnone.symm.trans hx) (by simp)
      simp only [put_threads_self]
      refine ⟨hp, ?_⟩
      rw [Function.update_of_ne hca]
      exact hx
    · simp only [put_threads_of_ne hij]
      exact ⟨hp, hx⟩
  | reacts j e r hr =>
    by_cases hij : i = j
    · -- the loop of the thread itself has no other step to take
      subst hij
      have hp' : (s.view i).phase = .handling c outs rest := hp
      cases e with
      | handle => cases he
      | poll | pollFails | start | recv | interrupt =>
        simp only [Reactor.loopStep, hp'] at hr
        cases hr
      | arrive | finish | register | disturb | callExit => cases hr
    · simp only [put_threads_of_ne hij]
      exact ⟨hp, hx⟩

end RunningServer

section Simulation

def fixedDispatch (result : Bytes → Handled) (_ : Unit) (requestStr : Bytes) :
    Except Terminate (Handled × Unit) :=
  .ok (result requestStr, ())

theorem fixedDispatch_fixes (result : Bytes → Handled) :
    Fixes (fixedDispatch result) (fun _ => True) (fun _ => True) result :=
  fun s _ _ _ => ⟨s, rfl, trivial⟩

def Handling.outcome (result : Bytes → Handled) : Handling → Session Unit
  | ⟨s, .popping⟩ => s.drain (fixedDispatch result)
  | ⟨s, .responding p _⟩ => s.settle (fixedDispatch result) p (result p) ()
  | ⟨s, .answering p _⟩ => s.settle (fixedDispatch result) p (result p) ()

theorem Handling.events_outcome (result : Bytes → Handled) (h : Handling) :
    h.session.events <+: (h.outcome result).events := by
  obtain ⟨s, phase⟩ := h
  cases phase with
  | popping => exact events_drain _ s
  | responding p phase => exact events_settle _ s p _ ()
  | answering p handled => exact events_settle _ s p _ ()

def Handling.work : Handling → ℕ
  | ⟨s, .popping⟩ => 10 * s.conn.readBuffer.length + 1
  | ⟨s, .responding _ phase⟩ => 10 * s.conn.readBuffer.length + phase.work
  | ⟨s, .answering _ _⟩ => 10 * s.conn.readBuffer.length + 2

theorem Handling.work_of (s : Session Unit) (p : Bytes) (progress : RequestProgress) :
    (Handling.of s p progress).work = 10 * s.conn.readBuffer.length + progress.work := by
  cases progress <;> rfl

def Handling.Promises (dir : Bytes) (fs : FileSystem) (cgi : Bytes → CGIOutcome)
    (result : Bytes → Handled) (c : Cache) : Handling → Prop
  | ⟨_, .popping⟩ => True
  | ⟨_, .responding p phase⟩ => phase.Promises dir fs cgi p (result p) c
  | ⟨_, .answering p handled⟩ => handled = result p

variable {dir : Bytes} {fs : FileSystem} {cgi : Bytes → CGIOutcome} {result : Bytes → Handled}
  {c c' : Cache} {h : Handling}

theorem Handling.Promises.relink (hh : h.Promises dir fs cgi result c) (hr : c.Relinks c') :
    h.Promises dir fs cgi result c' := by
  obtain ⟨s, phase⟩ := h
  cases phase with
  | popping => trivial
  | responding p phase => exact RequestPhase.Promises.relink hh hr
  | answering p handled => exact hh

theorem Handling.Promises.of_not_loads (hh : h.Promises dir fs cgi result c) (hl : ¬ h.Loads)
    (c' : Cache) : h.Promises dir fs cgi result c' := by
  obtain ⟨s, phase⟩ := h
  cases phase with
  | popping => trivial
  | responding p phase => exact RequestPhase.Promises.of_not_loads hh hl c'
  | answering p handled => exact hh

theorem Handling.promises_of {s : Session Unit} {p : Bytes} {progress : RequestProgress}
    (hh : progress.Promises dir fs cgi p (result p) c) :
    (Handling.of s p progress).Promises dir fs cgi result c := by
  cases progress with
  | done handled => exact hh
  | more phase => exact hh

theorem Handling.outcome_of (s : Session Unit) (p : Bytes) (progress : RequestProgress) :
    (Handling.of s p progress).outcome result =
      s.settle (fixedDispatch result) p (result p) () := by
  cases progress <;> rfl

namespace OverlappingServer

open RunningServer (oneFile oneProgram oneFileResult keepGet replies_keepGet_twice)

variable {κ : Type} [DecidableEq κ] {n : ℕ} {s s' : OverlappingServer κ n} {e : OverlapEvent κ n}
  {asked : Bytes → Prop}

def Underway (result : Bytes → Handled) (s : OverlappingServer κ n) (i : Fin n) (h : Handling) :
    Prop :=
  ∃ c outs rest x, (s.server.threads i).phase = .handling c outs rest ∧
    (s.server.threads i).sessions c = some x ∧
    processHttpRequest (fixedDispatch result) x outs = h.outcome result

structure Sound (dir : Bytes) (fs : FileSystem) (cgi : Bytes → CGIOutcome)
    (asked : Bytes → Prop) (result : Bytes → Handled) (s : OverlappingServer κ n) : Prop where
  filed : s.cache.Filed
  holds : s.cache.HoldsFiles fs
  server : s.server.Sound
  promises : ∀ i h, s.handling i = some h → h.Promises dir fs cgi result s.cache
  underway : ∀ i h, s.handling i = some h → s.Underway result i h
  asks : ∀ i h, s.handling i = some h →
    ∀ p ∈ (frames kRequestEnd h.session.conn.readBuffer).1, asked p

theorem start_sound (now : Int) (capacity : UInt64) (agent : DistributionAgent) :
    (start now capacity agent : OverlappingServer κ n).Sound dir fs cgi asked result := by
  have hnone : ∀ i h, (start now capacity agent : OverlappingServer κ n).handling i ≠ some h :=
    fun i h => Option.some_ne_none h ∘ Eq.symm
  exact ⟨(Cache.new_wf now capacity).filed, Cache.new_holdsFiles fs now capacity,
    RunningServer.start_sound () agent, fun i h hh => absurd hh (hnone i h),
    fun i h hh => absurd hh (hnone i h), fun i h hh => absurd hh (hnone i h)⟩

theorem Sound.finish (h : s.Sound dir fs cgi asked result) {i : Fin n} {a : κ} {rest : List κ}
    {x : Session Unit} (hserver : (s.finish i a rest x).server.Sound) :
    (s.finish i a rest x).Sound dir fs cgi asked result := by
  have hother : ∀ j g, (s.finish i a rest x).handling j = some g →
      j ≠ i ∧ s.handling j = some g := by
    intro j g hg
    by_cases hji : j = i
    · subst hji
      simp [OverlappingServer.finish] at hg
    · exact ⟨hji, by simpa [OverlappingServer.finish, hji] using hg⟩
  refine ⟨h.filed, h.holds, hserver, fun j g hg => h.promises j g (hother j g hg).2,
    fun j g hg => ?_, fun j g hg => h.asks j g (hother j g hg).2⟩
  obtain ⟨hji, hg⟩ := hother j g hg
  obtain ⟨b, outs, rest', y, hp, hy, ho⟩ := h.underway j g hg
  refine ⟨b, outs, rest', y, ?_, ?_, ho⟩
  · rw [OverlappingServer.finish, RunningServer.put_threads_of_ne hji]
    exact hp
  · rw [OverlappingServer.finish, RunningServer.put_threads_of_ne hji]
    exact hy

theorem Sound.goOn (h : s.Sound dir fs cgi asked result) {i : Fin n} {g : Handling}
    (hp : g.Promises dir fs cgi result s.cache) (hu : s.Underway result i g)
    (ha : ∀ p ∈ (frames kRequestEnd g.session.conn.readBuffer).1, asked p) :
    (s.goOn i g).Sound dir fs cgi asked result := by
  have hcases : ∀ j g', (s.goOn i g).handling j = some g' →
      j = i ∧ g' = g ∨ s.handling j = some g' := by
    intro j g' hg'
    by_cases hji : j = i
    · subst hji
      exact Or.inl ⟨rfl, by simpa [OverlappingServer.goOn] using hg'.symm⟩
    · exact Or.inr (by simpa [OverlappingServer.goOn, hji] using hg')
  refine ⟨h.filed, h.holds, h.server, fun j g' hg' => ?_, fun j g' hg' => ?_, fun j g' hg' => ?_⟩
  · rcases hcases j g' hg' with ⟨rfl, rfl⟩ | hg'
    · exact hp
    · exact h.promises j g' hg'
  · rcases hcases j g' hg' with ⟨rfl, rfl⟩ | hg'
    · exact hu
    · exact h.underway j g' hg'
  · rcases hcases j g' hg' with ⟨rfl, rfl⟩ | hg'
    · exact ha
    · exact h.asks j g' hg'

omit [DecidableEq κ] in
theorem Underway.of_outcome {i : Fin n} {g g' : Handling} (hu : s.Underway result i g)
    (hg : g'.outcome result = g.outcome result) : s.Underway result i g' := by
  obtain ⟨a, outs, rest, x, hp, hx, ho⟩ := hu
  exact ⟨a, outs, rest, x, hp, hx, ho.trans hg.symm⟩

theorem handle_step {i : Fin n} {a : κ} {outs : List RecvOutcome} {rest : List κ}
    {x : Session Unit} (hended : s.server.ended = false)
    (hp : (s.server.threads i).phase = .handling a outs rest)
    (hx : (s.server.threads i).sessions a = some x) :
    s.server.step (fixedDispatch result) (.reactor i .handle) =
      some (s.finish i a rest (processHttpRequest (fixedDispatch result) x outs)).server := by
  have hp' : (s.server.view i).phase = .handling a outs rest := hp
  have hx' : (s.server.view i).sessions a = some x := hx
  have hnot : ¬ s.server.ended = true := by simp [hended]
  simp only [RunningServer.step, if_neg hnot, Reactor.loopStep, hp', hx']
  rfl

def handlingWork (s : OverlappingServer κ n) (i : Fin n) : ℕ :=
  match (s.server.threads i).phase, s.handling i with
  | _, some h => h.work
  | .handling c outs _, none =>
    match (s.server.threads i).sessions c with
    | some x => (Handling.mk (x.receive outs) .popping).work + 1
    | none => 0
  | _, none => 0

def pending (s : OverlappingServer κ n) : ℕ :=
  ∑ i, s.handlingWork i + if s.fault.isNone then 1 else 0

omit [DecidableEq κ] in
theorem handlingWork_of_some {i : Fin n} {h : Handling} (hh : s.handling i = some h) :
    s.handlingWork i = h.work := by
  unfold handlingWork
  rw [hh]

omit [DecidableEq κ] in
theorem pending_goOn {i : Fin n} {h : Handling} (hlt : h.work < s.handlingWork i) :
    (s.goOn i h).pending < s.pending := by
  have hsum := ServerStart.sum_of_agree (f := (s.goOn i h).handlingWork) (g := s.handlingWork) i
    fun j hji => by
      unfold handlingWork goOn
      simp only [Function.update_of_ne hji]
  have hself : (s.goOn i h).handlingWork i = h.work :=
    handlingWork_of_some (Function.update_self ..)
  have hfault : (s.goOn i h).fault = s.fault := rfl
  unfold pending
  rw [hfault]
  omega

inductive Shown : OverlapEvent κ n → ServerEvent κ Unit n → Prop
  | server (e : ServerEvent κ Unit n) : Shown (.server e) e
  | receive (i : Fin n) : Shown (.receive i) (.reactor i .handle)
  | advance (i : Fin n) (now : Int) : Shown (.advance i now) (.reactor i .handle)

theorem Sound.serves (h : s.Sound dir fs cgi asked result) {e : ServerEvent κ Unit n}
    {server : RunningServer κ Unit n} (he : e.isHandle = false)
    (hs : s.server.step undispatched e = some server) :
    Sound dir fs cgi asked result { s with server := server } := by
  refine ⟨h.filed, h.holds, h.server.step hs, h.promises, fun i g hg => ?_, h.asks⟩
  obtain ⟨a, outs, rest, x, hp, hx, ho⟩ := h.underway i g hg
  obtain ⟨hp', hx'⟩ := (RunningServer.stepped_of_step hs).2.keeps_handling he hp hx
  exact ⟨a, outs, rest, x, hp', hx', ho⟩

theorem Sound.responds (h : s.Sound dir fs cgi asked result) {i : Fin n} {now : Int}
    {y : Session Unit} {p : Bytes} {phase : RequestPhase} {progress : RequestProgress}
    {cache : Cache} (hh : s.handling i = some ⟨y, .responding p phase⟩)
    (hm : phase.Inserting → ∀ j, ¬ s.Loads j)
    (hs : phase.proceed dir fs cgi now p s.cache = .ok (progress, cache)) :
    Sound dir fs cgi asked result { s.goOn i (.of y p progress) with cache := cache } := by
  -- Either the step only relinks nodes, or it inserts and no thread is inside a load.
  have hpromise : phase.Promises dir fs cgi p (result p) s.cache := h.promises i _ hh
  obtain ⟨hf, hc, hnext, hrelinks⟩ := hpromise.proceed h.filed h.holds hs
  have hothers : ∀ j g, s.handling j = some g → g.Promises dir fs cgi result cache := by
    intro j g hg
    rcases hrelinks with hi | hr
    · exact (h.promises j g hg).of_not_loads (fun hl => hm hi j ⟨g, hg, hl⟩) cache
    · exact (h.promises j g hg).relink hr
  have hcached : Sound dir fs cgi asked result { s with cache := cache } :=
    ⟨hf, hc, h.server, hothers, h.underway, h.asks⟩
  have hsession : (Handling.of y p progress).session = y := by cases progress <;> rfl
  exact hcached.goOn (Handling.promises_of hnext)
    (Underway.of_outcome (h.underway i _ hh) (Handling.outcome_of y p progress))
    (hsession.symm ▸ h.asks i _ hh)

theorem Sound.step (hsteady : Steady dir fs cgi asked result)
    (hasked : ∀ t, s.server.Asks t → asked t) (h : s.Sound dir fs cgi asked result)
    (hstep : OverlappingServer.step dir fs cgi s e = some s') :
    s'.Sound dir fs cgi asked result ∧
      ((e.Inner ∧ s'.server = s.server ∧ s'.pending < s.pending) ∨ ∃ e', Shown e e' ∧
        s.server.step (fixedDispatch result) e' = some s'.server) := by
  obtain ⟨hfault, hended, hstepped⟩ := stepped_of_step hstep
  cases hstepped with
  | serves e server he hs =>
    exact ⟨h.serves he hs, Or.inr ⟨e, .server e, (RunningServer.step_congr he).trans hs⟩⟩
  | exits i a outs rest x hp hh hx he =>
    have hdone : s.server.step (fixedDispatch result) (.reactor i .handle) = _ :=
      handle_step hended hp hx
    rw [process_of_exits he] at hdone
    exact ⟨h.finish (h.server.step hdone), Or.inr ⟨_, .receive i, hdone⟩⟩
  | receives i a outs rest x hp hh hx he =>
    obtain ⟨ho, harrived⟩ := (h.server.live hended i).open_of_handling hp hx
    have hpending := @Session.Open.pending_subset _ _ ho outs _ (harrived ▸ List.prefix_append _ _)
    refine ⟨h.goOn trivial ⟨a, outs, rest, x, hp, hx, process_eq_drain he⟩
      fun p hp => hasked p ⟨a, hpending hp⟩, Or.inl ⟨trivial, rfl, pending_goOn ?_⟩⟩
    have hwork : s.handlingWork i = (Handling.mk (x.receive outs) .popping).work + 1 := by
      simp only [handlingWork, hp, hh, hx]
    rw [hwork]
    exact Nat.lt_succ_self _
  | drained i now a outs rest y hp hh hc =>
    obtain ⟨a', outs', rest', x, hp', hx, ho⟩ := h.underway i _ hh
    rw [hp] at hp'
    cases hp'
    have hdone : s.server.step (fixedDispatch result) (.reactor i .handle) = _ :=
      handle_step hended hp hx
    rw [ho, Handling.outcome, drain_of_cut_none hc] at hdone
    exact ⟨h.finish (h.server.step hdone), Or.inr ⟨_, .advance i now, hdone⟩⟩
  | popped i now y p r hh hc =>
    have hpending := h.asks i _ hh
    rw [frames_of_cut_some kRequestEnd_ne_nil hc] at hpending
    obtain ⟨hask, hmore⟩ := List.forall_mem_cons.mp hpending
    refine ⟨h.goOn (hsteady.returns p hask) ((h.underway i _ hh).of_outcome ?_) hmore,
      Or.inl ⟨trivial, rfl, pending_goOn ?_⟩⟩
    · exact (drain_of_cut_some hc rfl).symm
    · have hlt := cut_length_lt kRequestEnd_ne_nil hc
      rw [handlingWork_of_some hh]
      simp only [Handling.work, RequestPhase.work]
      omega
  | responds i now y p phase progress cache hh hm hs =>
    refine ⟨h.responds hh hm hs, Or.inl ⟨trivial, rfl, ?_⟩⟩
    have hwork := RequestPhase.work_proceed hs
    have hlt : (s.goOn i (.of y p progress)).pending < s.pending := by
      refine pending_goOn ?_
      rw [handlingWork_of_some hh, Handling.work_of]
      simp only [Handling.work]
      omega
    exact hlt
  | terminates i now y p phase t hh hs =>
    have hpromise : phase.Promises dir fs cgi p (result p) s.cache := h.promises i _ hh
    exact absurd hs (hpromise.not_terminated t)
  | faults i now f =>
    refine ⟨⟨h.filed, h.holds, h.server, h.promises, h.underway, h.asks⟩, Or.inl ⟨trivial, rfl, ?_⟩⟩
    change ∑ j, s.handlingWork j + 0 < s.pending
    unfold pending
    rw [hfault]
    exact Nat.lt_succ_self _
  | closes i now a outs rest y p handled hp hh hf =>
    obtain rfl : handled = result p := h.promises i _ hh
    obtain ⟨a', outs', rest', x, hp', hx, ho⟩ := h.underway i _ hh
    rw [hp] at hp'
    cases hp'
    have hsettle : Handling.outcome result ⟨y, .answering p (result p)⟩ =
        (y.answer y.conn p (result p) ()).deleteConnection := if_pos hf
    have hdone : s.server.step (fixedDispatch result) (.reactor i .handle) = _ :=
      handle_step hended hp hx
    rw [ho, hsettle] at hdone
    exact ⟨h.finish (h.server.step hdone), Or.inr ⟨_, .advance i now, hdone⟩⟩
  | answers i now y p handled hh hf =>
    obtain rfl : handled = result p := h.promises i _ hh
    have hpending := h.asks i _ hh
    refine ⟨h.goOn trivial ((h.underway i _ hh).of_outcome ?_) hpending,
      Or.inl ⟨trivial, rfl, pending_goOn ?_⟩⟩
    · exact (if_neg (by simp [hf])).symm
    · rw [handlingWork_of_some hh]
      exact Nat.lt_succ_self _

theorem asks_of_step (hstep : s.step dir fs cgi e = some s') {t : Bytes} (ht : s.server.Asks t) :
    s'.server.Asks t := by
  obtain ⟨-, -, hstepped⟩ := stepped_of_step hstep
  cases hstepped with
  | serves e server he hs => exact RunningServer.asks_of_step hs ht
  | _ => exact ht

theorem known_run {now : Int} {capacity : UInt64} {agent : DistributionAgent}
    {events : List (OverlapEvent κ n)}
    (h : run dir fs cgi (start now capacity agent) events = some s) : s.server.Known := by
  have hstep : ∀ t : OverlappingServer κ n, ∀ e ∈ events, ∀ t', t.server.Known →
      t.step dir fs cgi e = some t' → t'.server.Known := by
    intro t e _ t' ht hs
    obtain ⟨-, -, hstepped⟩ := stepped_of_step hs
    cases hstepped with
    | serves e server he hserver => exact ht.step hserver
    | _ => exact ht
  exact runGuarded_invariant hstep (RunningServer.start_known () agent) h

theorem exists_server_run {now : Int} {capacity : UInt64} {agent : DistributionAgent}
    {events : List (OverlapEvent κ n)} (hsteady : Steady dir fs cgi s.server.Asks result)
    (h : run dir fs cgi (start now capacity agent) events = some s) :
    s.Sound dir fs cgi s.server.Asks result ∧ ∃ es, Traces OverlapEvent.Inner Shown events es ∧
      RunningServer.run (fixedDispatch result) (.start () agent) es = some s.server := by
  let Earlier := fun t : OverlappingServer κ n => ∀ p, t.server.Asks p → s.server.Asks p
  obtain ⟨hasked, hrun⟩ := runGuarded_restrict (Q := Earlier)
    (fun _ _ _ hs hq p hp => hq p (asks_of_step hs hp)) h fun _ hp => hp
  let Inv := fun t : OverlappingServer κ n =>
    t.Sound dir fs cgi s.server.Asks result ∧ Earlier t
  have hstart : Inv (start now capacity agent) := ⟨start_sound now capacity agent, hasked⟩
  have hstep : ∀ t e t', Inv t → restrict Earlier (step dir fs cgi) t e = some t' → Inv t' ∧
      (e.Inner ∧ t'.server = t.server ∨
        ∃ e', Shown e e' ∧ t.server.step (fixedDispatch result) e' = some t'.server) := by
    intro t e t' ht hs
    obtain ⟨hs, hq⟩ := restrict_eq_some_iff.mp hs
    obtain ⟨ht', hcases⟩ := ht.1.step hsteady ht.2 hs
    exact ⟨⟨ht', hq⟩, hcases.imp_left fun hinner => ⟨hinner.1, hinner.2.1⟩⟩
  have hsound := runGuarded_invariant (fun t e _ t' ht hs => (hstep t e t' ht hs).1) hstart hrun
  exact ⟨hsound.1, exists_run_of_simulation hstep hstart hrun⟩

/-- Over files that stay, while each text that a client sends has a result, whatever the order in
which the threads take their steps, also once loads that overlap have spoiled the list of the
cache, until an insertion faults on it: the server is one that handles each batch in one step, and
a handling in progress has sent no more than that step would. -/
theorem overlapping_server_refines {now : Int} {capacity : UInt64} {agent : DistributionAgent}
    {events : List (OverlapEvent κ n)}
    (h : run dir fs cgi (start now capacity agent) events = some s)
    (hsteady : Steady dir fs cgi s.server.Asks result) :
    (∃ es, Traces OverlapEvent.Inner Shown events es ∧
        RunningServer.run (fixedDispatch result) (.start () agent) es = some s.server) ∧
      (s.server.ended = false → ∀ i g, s.handling i = some g → ∃ server c x,
        s.server.step (fixedDispatch result) (.reactor i .handle) = some server ∧
          (server.threads i).sessions c = some x ∧ g.session.events <+: x.events) := by
  obtain ⟨hsound, hexists⟩ := exists_server_run hsteady h
  refine ⟨hexists, fun hended i g hg => ?_⟩
  obtain ⟨a, outs, rest, x, hp, hx, ho⟩ := hsound.underway i g hg
  refine ⟨_, a, g.outcome result, handle_step hended hp hx, ?_, g.events_outcome result⟩
  rw [ho, finish, RunningServer.put_threads_self]
  simp [Reactor.handled]

def overlappingLoads (i j : Fin n) : List (OverlapEvent ℕ n) :=
  List.flatten
    [List.map .server
      [.connect 5, .connect 6, .pollListener, .accept, .addConnection 1 [.took 3], .pollListener,
        .accept, .addConnection 0 [], .arrive 5 (keepGet ++ keepGet), .arrive 6 keepGet,
        .reactor i .poll, .reactor j .poll, .reactor i .start, .reactor i (.recv 999),
        .reactor i (.recv 0), .reactor j .start, .reactor j (.recv 999), .reactor j (.recv 0)],
    [.receive i], List.replicate 9 (.advance i 1),
    [.receive j], List.replicate 3 (.advance j 2),
    List.flatten (List.replicate 4 [.advance i 3, .advance j 3]),
    List.replicate 2 (.advance j 4), List.replicate 2 (.advance i 4)]

theorem overlapping_server_refines_spoiled :
    ∃ s, run (ascii "/srv") oneFile (fun _ => oneProgram) (start 0 100 ⟨[0, 1]⟩)
        (overlappingLoads (1 : Fin 2) 0) = some s ∧ ¬ s.cache.Intact ∧
      ∃ es, Traces OverlapEvent.Inner Shown (overlappingLoads (1 : Fin 2) 0) es ∧
        RunningServer.run (fixedDispatch oneFileResult) (.start () ⟨[0, 1]⟩) es =
          some s.server := by
  have hfacts : ((run (ascii "/srv") oneFile (fun _ => oneProgram) (start 0 100 ⟨[0, 1]⟩)
      (overlappingLoads (1 : Fin 2) 0)).map fun s => decide ((2 ∈ s.cache.mapping.map Prod.snd ∧
        s.cache.prev 2 = some 2) ∧ s.server.oneFileReturns = true)) = some true := by
    decide +kernel
  obtain ⟨s, h, hs⟩ := Option.map_eq_some_iff.mp hfacts
  obtain ⟨⟨hmem, hprev⟩, hok⟩ := of_decide_eq_true hs
  exact ⟨s, h, Cache.not_intact_of_prev_self hmem hprev,
    (overlapping_server_refines h ((known_run h).oneFile_steady hok)).1⟩

theorem acceptedBytes_mono {events events' : List Event} (h : events <+: events') :
    acceptedBytes events <+: acceptedBytes events' := by
  obtain ⟨t, rfl⟩ := h
  rw [acceptedBytes, acceptedBytes, exchanges_append, List.map_append, List.flatten_append]
  exact List.prefix_append _ _

def Accepted : OverlapEvent κ n → Prop
  | .server e => RunningServer.Outside (fun _ => True) e
  | _ => True

omit [DecidableEq κ] in
theorem outside_of_shown {e' : ServerEvent κ Unit n} (hshown : Shown e e') (he : Accepted e) :
    RunningServer.Outside (fun _ => True) e' := by
  cases hshown with
  | server => exact he
  | receive => trivial
  | advance => trivial

theorem Sound.step_isolated (hsteady : Steady dir fs cgi asked result)
    (hasked : ∀ t, s.server.Asks t → asked t) (h : s.Sound dir fs cgi asked result)
    (hall : s.server.AllIsolated (fixedDispatch result) (fun _ => True) (fun _ => True) result)
    (he : Accepted e) (hstep : OverlappingServer.step dir fs cgi s e = some s') :
    s'.server.AllIsolated (fixedDispatch result) (fun _ => True) (fun _ => True) result := by
  obtain ⟨-, ⟨-, heq, -⟩ | ⟨e', hshown, he'⟩⟩ := h.step hsteady hasked hstep
  · rw [heq]
    exact hall
  · exact hall.step (fixedDispatch_fixes result) (outside_of_shown hshown he)
      (fun _ _ => trivial) he'

theorem isolated_run (hsteady : Steady dir fs cgi asked result) {now : Int} {capacity : UInt64}
    {agent : DistributionAgent} {events : List (OverlapEvent κ n)}
    (hevents : ∀ e ∈ events, Accepted e)
    (h : run dir fs cgi (start now capacity agent) events = some s)
    (hasked : ∀ t, s.server.Asks t → asked t) :
    s.Sound dir fs cgi asked result ∧
      s.server.AllIsolated (fixedDispatch result) (fun _ => True) (fun _ => True) result := by
  have hback : ∀ (t : OverlappingServer κ n) e t', t.step dir fs cgi e = some t' →
      (∀ p, t'.server.Asks p → asked p) → ∀ p, t.server.Asks p → asked p :=
    fun _ _ _ hs hq p hp => hq p (asks_of_step hs hp)
  have hstep : ∀ t : OverlappingServer κ n, ∀ e ∈ events, ∀ t',
      t.Sound dir fs cgi asked result ∧
        t.server.AllIsolated (fixedDispatch result) (fun _ => True) (fun _ => True) result →
      (∀ p, t'.server.Asks p → asked p) → t.step dir fs cgi e = some t' →
        t'.Sound dir fs cgi asked result ∧
          t'.server.AllIsolated (fixedDispatch result) (fun _ => True) (fun _ => True) result := by
    intro t e he t' ht hq hs
    have hq' := hback t e t' hs hq
    exact ⟨(ht.1.step hsteady hq' hs).1, ht.1.step_isolated hsteady hq' ht.2 (hevents e he) hs⟩
  exact runGuarded_invariant_of_final hback hstep ⟨start_sound now capacity agent,
    RunningServer.start_isolated trivial agent⟩ h hasked

theorem Sound.accepted (h : s.Sound dir fs cgi asked result)
    (hall : s.server.AllIsolated (fixedDispatch result) (fun _ => True) (fun _ => True) result)
    {i : Fin n} {a : κ} {x : Session Unit} (hx : s.session i a = some x) :
    acceptedBytes x.events <+: replies result (s.server.arrived a) := by
  have hown : ∀ {x}, (s.server.threads i).sessions a = some x →
      acceptedBytes x.events <+: replies result (s.server.arrived a) :=
    fun hx => ((hall.reactors i).clients a _ hx).accepted
  unfold session at hx
  split at hx
  · next b outs rest g hp hg =>
    split_ifs at hx with hba
    · subst hba
      obtain ⟨b', outs', rest', y, hp', hy, ho⟩ := h.underway i g hg
      rw [hp] at hp'
      cases hp'
      cases hx
      have hlive : (s.server.project i).Live :=
        (hall.sound.reactors i).resolve_left fun ht => by
          rw [show (s.server.project i).phase = _ from hp] at ht
          cases ht
      obtain ⟨hfinal, -⟩ := (hall.reactors i).process (fixedDispatch_fixes result)
        (fun _ _ => trivial) hlive (show (s.server.project i).phase = _ from hp) hy
      have hsent : acceptedBytes (g.outcome result).events <+:
          replies result (s.server.arrived b) := by
        rw [← ho]
        exact hfinal.accepted
      exact (acceptedBytes_mono (g.events_outcome result)).trans hsent
    · exact hown hx
  · exact hown hx

/-- Over files that stay and CGI programs that always print the same, if sends are accepted: while
the threads handle requests at the same time, also once loads that overlap have spoiled the list
of the cache, until an insertion faults on it. -/
theorem overlapping_clients_answered {now : Int} {capacity : UInt64}
    {agent : DistributionAgent} {events : List (OverlapEvent κ n)}
    (hevents : ∀ e ∈ events, Accepted e)
    (h : run dir fs cgi (start now capacity agent) events = some s)
    (hsteady : Steady dir fs cgi s.server.Asks result) {i : Fin n} {a : κ} {x : Session Unit}
    (hx : s.session i a = some x) :
    acceptedBytes x.events <+: replies result (s.server.arrived a) ∧
      ((s.server.project i).Idle → (s.server.inbox a).ending = none →
        acceptedBytes x.events = replies result (s.server.arrived a) ∧ (x.status = .connected ↔
          ∀ p ∈ (frames kRequestEnd (s.server.arrived a)).1, (result p).shouldFinish = false)) := by
  obtain ⟨hsound, hall⟩ := isolated_run hsteady hevents h fun _ ht => ht
  refine ⟨hsound.accepted hall hx, fun hidle hend => ?_⟩
  have hwalking : (s.server.threads i).phase = .walking [] := hidle.1
  have hx' : (s.server.threads i).sessions a = some x := by
    rw [session, hwalking] at hx
    exact hx
  exact hall.idle hidle hx' hend

theorem overlapping_clients_answered_spoiled :
    ∃ s x, run (ascii "/srv") oneFile (fun _ => oneProgram) (start 0 100 ⟨[0, 1]⟩)
        (overlappingLoads (1 : Fin 2) 0) = some s ∧ ¬ s.cache.Intact ∧
      s.server.arrived 5 = keepGet ++ keepGet ∧ s.session 1 5 = some x ∧
      acceptedBytes x.events =
        (oneFileResult keepGet).responseBuf ++ (oneFileResult keepGet).responseBuf := by
  have hevents : ∀ e ∈ overlappingLoads (1 : Fin 2) 0, Accepted e := by
    simp [overlappingLoads, Accepted, RunningServer.Outside, Reactor.Outside, Delivers]
  have hfacts : ((run (ascii "/srv") oneFile (fun _ => oneProgram) (start 0 100 ⟨[0, 1]⟩)
      (overlappingLoads (1 : Fin 2) 0)).map fun s => decide ((2 ∈ s.cache.mapping.map Prod.snd ∧
        s.cache.prev 2 = some 2) ∧ (s.server.project 1).Idle ∧ (s.server.inbox 5).ending = none ∧
        s.server.arrived 5 = keepGet ++ keepGet ∧ s.server.oneFileReturns = true) &&
        (s.session 1 5).isSome) = some true := by
    decide +kernel
  obtain ⟨s, h, hs⟩ := Option.map_eq_some_iff.mp hfacts
  rw [Bool.and_eq_true, decide_eq_true_iff, Option.isSome_iff_exists] at hs
  obtain ⟨⟨⟨hmem, hprev⟩, hidle, hend, harr, hok⟩, x, hx⟩ := hs
  refine ⟨s, x, h, Cache.not_intact_of_prev_self hmem hprev, harr, hx, ?_⟩
  have hans := overlapping_clients_answered hevents h ((known_run h).oneFile_steady hok) hx
  rw [(hans.2 hidle hend).1, harr, replies_keepGet_twice]

end OverlappingServer

end Simulation

end HttpReactor
