import HttpReactor.LooperMachine
import HttpReactor.Mutex

/-!
# The registry of connections

A connection is accepted, entered into the interest list of its looper, inserted into
`connections_`, erased from there and closed. `Described s stage` says that the stages
of all connections determine the descriptor table, the interest lists, the maps and what
the threads hold: a closed connection is on an interest list exactly as long as a forked
child has a copy of its socket. Each step moves one connection to its next stage or none.
-/

namespace HttpReactor
open Refinement Mutex

inductive Stage
  | unborn
  | accepted
  | registered
  | mapped
  | closing
  | closed
deriving DecidableEq, Repr

namespace Stage

def IsOpen (g : Stage) : Prop := g ≠ .unborn ∧ g ≠ .closed

def IsListed (g : Stage) : Prop := g = .registered ∨ g = .mapped ∨ g = .closing

def IsServed (g : Stage) : Prop := g = .registered ∨ g = .mapped

def IsErased (g : Stage) : Prop := g = .closing ∨ g = .closed

theorem IsListed.isOpen {g : Stage} (h : g.IsListed) : g.IsOpen := by
  obtain rfl | rfl | rfl := h <;> exact ⟨by decide, by decide⟩

end Stage

variable {κ : Type}

def AcceptorPhase.holds : AcceptorPhase κ → Option (Client κ × Stage)
  | .idle => none
  | .accepted c => some (c, .accepted)
  | .locked c => some (c, .accepted)
  | .registered c => some (c, .registered)

def AcceptorPhase.within : AcceptorPhase κ → Option κ
  | .locked c => some c.looper
  | .registered c => some c.looper
  | _ => none

def LooperPhase.within : LooperPhase κ → Option κ
  | .locked c _ => some c.looper
  | .closing looper _ _ => some looper
  | _ => none

/-- The pointers on which the looper has still to call `Start`, after the one whose callback
may still use it. -/
def LooperPhase.pointers : LooperPhase κ → List (Client κ)
  | .walking batch => batch
  | .serving c rest => c :: rest
  | .harvesting _ c rest => c :: rest
  | .deleting c rest => c :: rest
  | .locked c rest => c :: rest
  | .closing _ _ rest => rest

def LooperPhase.closes : LooperPhase κ → Option (κ × Client κ)
  | .closing looper c _ => some (looper, c)
  | _ => none

namespace Loopers

def within (s : Loopers κ) : LoopThread κ → Option κ
  | .acceptor => s.acceptor.within
  | .looper l => (s.looper l).within

/-- A batch that the thread of `l` can walk: no pointer twice, each to a connection of `l` that
still has its owner. -/
structure Walkable (stage : Client κ → Stage) (l : κ) (ps : List (Client κ)) : Prop where
  nodup : ps.Nodup
  looper : ∀ c ∈ ps, c.looper = l
  served : ∀ c ∈ ps, (stage c).IsServed

structure Described [DecidableEq κ] (s : Loopers κ) (stage : Client κ → Stage) : Prop where
  known : ∀ c, stage c ≠ .unborn → c.id < s.freshId
  copied : ∀ child ∈ s.children, ∀ c, child.copies c.fd = some (.client c) → stage c ≠ .unborn
  table : ∀ fd c, s.table fd = some (.client c) ↔ fd = c.fd ∧ (stage c).IsOpen
  acceptor : ∀ c g, s.acceptor.holds = some (c, g) ↔
    stage c = g ∧ (g = .accepted ∨ g = .registered)
  connections : ∀ l fd c, (fd, c) ∈ s.connections l ↔
    fd = c.fd ∧ l = c.looper ∧ stage c = .mapped
  closes : ∀ l looper c, (s.looper l).closes = some (looper, c) ↔
    l = looper ∧ looper = c.looper ∧ stage c = .closing
  erased : ∀ c, c ∈ s.erased ↔ (stage c).IsErased
  interest : ∀ l c, c ∈ s.interest l ↔
    l = c.looper ∧ ((stage c).IsListed ∨ stage c = .closed ∧ s.Copied c)
  pointers : ∀ l, Walkable stage l (s.looper l).pointers
  guarded : ∀ l, Guarded (s.mtx l) fun t => s.within t = some l
  inserted : ∀ b ∈ s.inserted, b = true
  deleted : ∀ b ∈ s.deleted, b = true
  fresh : s.stale = false

variable [DecidableEq κ] {s s' : Loopers κ} {stage : Client κ → Stage}

theorem start_described : Described (start : Loopers κ) fun _ => .unborn := by
  constructor
  case guarded =>
    intro l t
    cases t <;> simp [start, within, AcceptorPhase.within, LooperPhase.within]
  case pointers => exact fun l => ⟨List.nodup_nil, by simp [start, LooperPhase.pointers],
    by simp [start, LooperPhase.pointers]⟩
  all_goals simp [start, AcceptorPhase.holds, LooperPhase.closes, Stage.IsOpen, Stage.IsListed,
    Stage.IsErased]

theorem update_iff (Q : Stage → Prop) {c : Client κ} {g : Stage} (h : Q g ↔ Q (stage c))
    (d : Client κ) : Q (Function.update stage c g d) ↔ Q (stage d) := by
  by_cases hd : d = c
  · subst hd
    rw [Function.update_self, h]
  · rw [Function.update_of_ne hd]

theorem within_eq_acceptor (hl : s'.looper = s.looper) :
    s'.within = Function.update s.within .acceptor s'.acceptor.within := by
  funext t
  cases t with
  | acceptor => simp [within]
  | looper k => simp [within, hl]

theorem within_eq_looper {l : κ} {phase : LooperPhase κ} {o : Option κ}
    (ha : s'.acceptor = s.acceptor) (hl : s'.looper = Function.update s.looper l phase)
    (ho : phase.within = o) : s'.within = Function.update s.within (.looper l) o := by
  subst ho
  funext t
  cases t with
  | acceptor => simp [within, ha]
  | looper k =>
    by_cases hk : k = l
    · subst hk
      simp [within, hl]
    · simp [within, hk, hl]

section Locking

variable {t : LoopThread κ} {l : κ} (h : ∀ k, Guarded (s.mtx k) fun u => s.within u = some k)
include h

theorem guarded_lock (hfree : s.mtx l = none) (hout : s.within t = none)
    (hm : s'.mtx = Function.update s.mtx l (some t))
    (hw : s'.within = Function.update s.within t (some l)) (k : κ) :
    Guarded (s'.mtx k) fun u => s'.within u = some k := by
  rw [hm, hw]
  exact guarded_acquire h hfree hout k

theorem guarded_unlock (hin : s.within t = some l)
    (hm : s'.mtx = Function.update s.mtx l none)
    (hw : s'.within = Function.update s.within t none) (k : κ) :
    Guarded (s'.mtx k) fun u => s'.within u = some k := by
  rw [hm, hw]
  exact guarded_release h hin k

theorem guarded_stay {o : Option κ} (ht : s.within t = o) (hm : s'.mtx = s.mtx)
    (hw : s'.within = Function.update s.within t o) (k : κ) :
    Guarded (s'.mtx k) fun u => s'.within u = some k := by
  rw [hm, hw, ← ht, Function.update_eq_self]
  exact h k

end Locking

theorem closes_setLooper {l : κ} {phase : LooperPhase κ} (hc : phase.closes = (s.looper l).closes)
    (k : κ) : ((s.setLooper l phase).looper k).closes = (s.looper k).closes := by
  by_cases hk : k = l
  · subst hk
    simp [setLooper, hc]
  · simp [setLooper, hk]

namespace Walkable

variable {l : κ} {c : Client κ} {g : Stage} {ps : List (Client κ)}

omit [DecidableEq κ] in
theorem tail (h : Walkable stage l (c :: ps)) : Walkable stage l ps :=
  ⟨(List.nodup_cons.mp h.nodup).2, fun d hd => h.looper d (List.mem_cons_of_mem _ hd),
    fun d hd => h.served d (List.mem_cons_of_mem _ hd)⟩

theorem update (h : Walkable stage l ps) (hg : (stage c).IsServed → g.IsServed) :
    Walkable (Function.update stage c g) l ps := by
  refine ⟨h.nodup, h.looper, fun d hd => ?_⟩
  by_cases hdc : d = c
  · subst hdc
    rw [Function.update_self]
    exact hg (h.served d hd)
  · rw [Function.update_of_ne hdc]
    exact h.served d hd

theorem update_of_notMem (h : Walkable stage l ps) (hc : c ∉ ps) :
    Walkable (Function.update stage c g) l ps := by
  refine ⟨h.nodup, h.looper, fun d hd => ?_⟩
  have hdc : d ≠ c := fun he => hc (he ▸ hd)
  rw [Function.update_of_ne hdc]
  exact h.served d hd

theorem setLooper {phase : LooperPhase κ} (h : ∀ k, Walkable stage k (s.looper k).pointers)
    (hl : Walkable stage l phase.pointers) (k : κ) :
    Walkable stage k ((s.setLooper l phase).looper k).pointers := by
  by_cases hk : k = l
  · subst hk
    simpa [Loopers.setLooper] using hl
  · simpa [Loopers.setLooper, hk] using h k

end Walkable

namespace Described

theorem setLooper {l : κ} {phase : LooperPhase κ} (h : Described s stage)
    (hw : phase.within = (s.looper l).within) (hc : phase.closes = (s.looper l).closes)
    (hp : Walkable stage l phase.pointers) : Described (s.setLooper l phase) stage := by
  have hself : s.within (.looper l) = phase.within := hw.symm
  exact { h with
    closes := fun k looper c => by rw [closes_setLooper hc, h.closes]
    pointers := Walkable.setLooper h.pointers hp
    guarded := guarded_stay h.guarded hself rfl (within_eq_looper rfl rfl rfl) }

theorem unborn_of_fresh (h : Described s stage) {c : Client κ} (hc : c.id = s.freshId) :
    stage c = .unborn := by
  by_contra hne
  exact absurd (h.known c hne) (by omega)

theorem eq_of_fd (h : Described s stage) {c d : Client κ} (hc : (stage c).IsOpen)
    (hd : (stage d).IsOpen) (hfd : c.fd = d.fd) : c = d := by
  have h₁ := (h.table c.fd c).mpr ⟨rfl, hc⟩
  have h₂ := (h.table c.fd d).mpr ⟨hfd, hd⟩
  rw [h₁] at h₂
  cases h₂
  rfl

theorem lookup_iff (h : Described s stage) {l : κ} {fd : ℕ} {c : Client κ} :
    (s.connections l).lookup fd = some c ↔ fd = c.fd ∧ l = c.looper ∧ stage c = .mapped := by
  have hmem : ∀ {d : Client κ}, (s.connections l).lookup fd = some d →
      fd = d.fd ∧ l = d.looper ∧ stage d = .mapped := by
    intro d hd
    obtain ⟨pre, post, he, -⟩ := List.lookup_eq_some_iff.mp hd
    exact (h.connections l fd d).mp (by simp [he])
  refine ⟨hmem, fun hc => ?_⟩
  cases hl : (s.connections l).lookup fd with
  | none =>
    have hin := (h.connections l fd c).mpr hc
    simpa using List.lookup_eq_none_iff.mp hl _ hin
  | some d =>
    have hd := hmem hl
    have hcd : d = c := h.eq_of_fd (by simp [hd.2.2, Stage.IsOpen])
      (by simp [hc.2.2, Stage.IsOpen]) (hd.1.symm.trans hc.1)
    rw [hcd]

/-! ## Moving one connection to its next stage

Each field stays as it is when the stages before and after agree on what it depends on. -/

section Move

variable {c : Client κ} {g : Stage} (h : Described s stage)
include h

theorem known_update (hc : stage c ≠ .unborn) (d : Client κ)
    (hd : Function.update stage c g d ≠ .unborn) : d.id < s.freshId := by
  by_cases hdc : d = c
  · exact h.known d (hdc ▸ hc)
  · rw [Function.update_of_ne hdc] at hd
    exact h.known d hd

theorem copied_update (hg : g ≠ .unborn) (child : ForkedChild κ) (hchild : child ∈ s.children)
    (d : Client κ) (hd : child.copies d.fd = some (.client d)) :
    Function.update stage c g d ≠ .unborn := by
  by_cases hdc : d = c
  · rw [hdc, Function.update_self]
    exact hg
  · rw [Function.update_of_ne hdc]
    exact h.copied child hchild d hd

theorem table_update (hg : g.IsOpen ↔ (stage c).IsOpen) (fd : ℕ) (d : Client κ) :
    s.table fd = some (.client d) ↔ fd = d.fd ∧ (Function.update stage c g d).IsOpen := by
  rw [update_iff Stage.IsOpen hg]
  exact h.table fd d

theorem acceptor_update (hg : ∀ g', g' = .accepted ∨ g' = .registered → (g = g' ↔ stage c = g'))
    (d : Client κ) (g' : Stage) : s.acceptor.holds = some (d, g') ↔
      Function.update stage c g d = g' ∧ (g' = .accepted ∨ g' = .registered) := by
  rw [update_iff (fun x => x = g' ∧ (g' = .accepted ∨ g' = .registered))
    (and_congr_left (hg g'))]
  exact h.acceptor d g'

theorem connections_update (hg : g = .mapped ↔ stage c = .mapped) (l : κ) (fd : ℕ)
    (d : Client κ) : (fd, d) ∈ s.connections l ↔
      fd = d.fd ∧ l = d.looper ∧ Function.update stage c g d = .mapped := by
  rw [update_iff (· = .mapped) hg]
  exact h.connections l fd d

theorem closes_update (hg : g = .closing ↔ stage c = .closing) (l looper : κ) (d : Client κ) :
    (s.looper l).closes = some (looper, d) ↔
      l = looper ∧ looper = d.looper ∧ Function.update stage c g d = .closing := by
  rw [update_iff (· = .closing) hg]
  exact h.closes l looper d

theorem erased_update (hg : g.IsErased ↔ (stage c).IsErased) (d : Client κ) :
    d ∈ s.erased ↔ (Function.update stage c g d).IsErased := by
  rw [update_iff Stage.IsErased hg]
  exact h.erased d

theorem interest_update (hg : g.IsListed ↔ (stage c).IsListed)
    (hg' : g = .closed ↔ stage c = .closed) (l : κ) (d : Client κ) :
    d ∈ s.interest l ↔ l = d.looper ∧ ((Function.update stage c g d).IsListed ∨
      Function.update stage c g d = .closed ∧ s.Copied d) := by
  rw [update_iff Stage.IsListed hg, update_iff (· = .closed) hg']
  exact h.interest l d

theorem others_of_holds (hc : ∀ d g', s.acceptor.holds = some (d, g') → d = c) (d : Client κ)
    (hd : d ≠ c) : stage d ≠ .accepted ∧ stage d ≠ .registered := by
  constructor
  · intro hg
    exact hd (hc d .accepted ((h.acceptor d .accepted).mpr ⟨hg, Or.inl rfl⟩))
  · intro hg
    exact hd (hc d .registered ((h.acceptor d .registered).mpr ⟨hg, Or.inr rfl⟩))

theorem acceptor_take {phase : AcceptorPhase κ}
    (hc : ∀ d g', s.acceptor.holds = some (d, g') → d = c)
    (hg : g = .accepted ∨ g = .registered) (hp : phase.holds = some (c, g)) (d : Client κ)
    (g' : Stage) : phase.holds = some (d, g') ↔
      Function.update stage c g d = g' ∧ (g' = .accepted ∨ g' = .registered) := by
  rw [hp, Option.some.injEq, Prod.mk.injEq]
  by_cases hdc : d = c
  · subst hdc
    rw [Function.update_self, and_iff_right rfl]
    exact ⟨fun he => ⟨he, he ▸ hg⟩, fun he => he.1⟩
  · obtain ⟨ha, hr⟩ := h.others_of_holds hc d hdc
    rw [Function.update_of_ne hdc]
    constructor
    · intro he
      exact absurd he.1.symm hdc
    · intro he
      obtain ⟨rfl, he⟩ := he
      exact absurd he (by simp [ha, hr])

theorem acceptor_give {phase : AcceptorPhase κ}
    (hc : ∀ d g', s.acceptor.holds = some (d, g') → d = c)
    (hg : g ≠ .accepted ∧ g ≠ .registered) (hp : phase.holds = none) (d : Client κ)
    (g' : Stage) : phase.holds = some (d, g') ↔
      Function.update stage c g d = g' ∧ (g' = .accepted ∨ g' = .registered) := by
  have hno : ∀ d, Function.update stage c g d ≠ .accepted ∧
      Function.update stage c g d ≠ .registered := by
    intro d
    by_cases hdc : d = c
    · rw [hdc, Function.update_self]
      exact hg
    · rw [Function.update_of_ne hdc]
      exact h.others_of_holds hc d hdc
  rw [hp]
  constructor
  · intro he
    cases he
  · intro he
    obtain ⟨rfl, he⟩ := he
    exact absurd he (by simp [hno d])

end Move

theorem table_accept {c : Client κ} (h : Described s stage) (hun : stage c = .unborn)
    (hfree : s.table c.fd = none) (fd : ℕ) (d : Client κ) :
    Function.update s.table c.fd (some (.client c)) fd = some (.client d) ↔
      fd = d.fd ∧ (Function.update stage c .accepted d).IsOpen := by
  have hd := h.table fd d
  by_cases hdc : d = c
  · subst hdc
    by_cases hfd : fd = d.fd
    · simp [hfd, Stage.IsOpen]
    · simpa [hfd] using hd
  · by_cases hfd : fd = c.fd
    · subst hfd
      rw [hfree] at hd
      simpa [hdc, Ne.symm hdc] using hd
    · simpa [hdc, hfd] using hd

theorem acceptClient {fd : ℕ} {looper : κ} (h : Described s stage)
    (hstep : s.acceptorStep (.acceptClient fd looper) = some s') :
    ∃ stage', Described s' stage' := by
  simp only [acceptorStep] at hstep
  split at hstep
  · next hguard =>
    obtain ⟨hidle, hfree⟩ := hguard
    cases hstep
    have hun : stage ⟨s.freshId, fd, looper⟩ = .unborn := h.unborn_of_fresh rfl
    have hout : s.within .acceptor = none := by simp [within, hidle, AcceptorPhase.within]
    refine ⟨Function.update stage ⟨s.freshId, fd, looper⟩ .accepted, { h with
      known := ?_
      copied := h.copied_update (by decide)
      table := h.table_accept hun hfree
      acceptor := h.acceptor_take (by simp [hidle, AcceptorPhase.holds]) (Or.inl rfl) rfl
      connections := h.connections_update (by simp [hun])
      closes := h.closes_update (by simp [hun])
      erased := h.erased_update (by simp [hun, Stage.IsErased])
      interest := h.interest_update (by simp [hun, Stage.IsListed]) (by simp [hun])
      pointers := fun l => (h.pointers l).update (by simp [hun, Stage.IsServed])
      guarded := guarded_stay h.guarded hout rfl (within_eq_acceptor rfl) }⟩
    intro d hd
    by_cases hdc : d = ⟨s.freshId, fd, looper⟩
    · rw [hdc]
      exact Nat.lt_succ_self _
    · rw [Function.update_of_ne hdc] at hd
      exact Nat.lt_succ_of_lt (h.known d hd)
  · cases hstep

theorem lockAdd (h : Described s stage) (hstep : s.acceptorStep .lockAdd = some s') :
    Described s' stage := by
  simp only [acceptorStep] at hstep
  split at hstep
  · next c hc =>
    split at hstep
    · next hfree =>
      cases hstep
      refine { h with acceptor := ?_, guarded := ?_ }
      · intro d g
        have := h.acceptor d g
        rwa [hc] at this
      · have hout : s.within .acceptor = none := by simp [within, hc, AcceptorPhase.within]
        exact guarded_lock h.guarded hfree hout rfl (within_eq_acceptor rfl)
    · cases hstep
  · cases hstep

theorem interest_register {c : Client κ} (h : Described s stage) (l : κ) (d : Client κ) :
    d ∈ Function.update s.interest c.looper (s.interest c.looper ++ [c]) l ↔
      l = d.looper ∧ ((Function.update stage c .registered d).IsListed ∨
        Function.update stage c .registered d = .closed ∧ s.Copied d) := by
  have hd := h.interest l d
  by_cases hdc : d = c
  · subst hdc
    by_cases hl : l = d.looper
    · simp [hl, Stage.IsListed]
    · simpa [hl] using hd
  · by_cases hl : l = c.looper
    · subst hl
      simpa [hdc] using hd
    · simpa [hdc, hl] using hd

theorem register (h : Described s stage) (hstep : s.acceptorStep .register = some s') :
    ∃ stage', Described s' stage' := by
  simp only [acceptorStep] at hstep
  split at hstep
  · next c hc =>
    cases hstep
    have hg : stage c = .accepted := ((h.acceptor c .accepted).mp (by rw [hc]; rfl)).1
    have hin : s.within .acceptor = some c.looper := by
      simp [within, hc, AcceptorPhase.within]
    exact ⟨Function.update stage c .registered, { h with
      known := h.known_update (by simp [hg])
      copied := h.copied_update (by decide)
      table := h.table_update (by simp [hg, Stage.IsOpen])
      acceptor := h.acceptor_take (by simp +contextual [hc, AcceptorPhase.holds]) (Or.inr rfl) rfl
      connections := h.connections_update (by simp [hg])
      closes := h.closes_update (by simp [hg])
      erased := h.erased_update (by simp [hg, Stage.IsErased])
      interest := h.interest_register
      pointers := fun l => (h.pointers l).update (by simp [Stage.IsServed])
      guarded := guarded_stay h.guarded hin rfl (within_eq_acceptor rfl) }⟩
  · cases hstep

theorem lookup_eq_none {c : Client κ} (h : Described s stage) (hg : stage c = .registered) :
    (s.connections c.looper).lookup c.fd = none := by
  -- An entry under the number of the new connection would have a descriptor of that number.
  cases hl : (s.connections c.looper).lookup c.fd with
  | none => rfl
  | some d =>
    obtain ⟨hfd, -, hd⟩ := h.lookup_iff.mp hl
    have hcd : c = d := h.eq_of_fd (by simp [hg, Stage.IsOpen]) (by simp [hd, Stage.IsOpen]) hfd
    rw [← hcd, hg] at hd
    cases hd

theorem connections_insert {c : Client κ} (h : Described s stage) (hg : stage c = .registered)
    (l : κ) (fd : ℕ) (d : Client κ) :
    (fd, d) ∈ Function.update s.connections c.looper ((c.fd, c) :: s.connections c.looper) l ↔
      fd = d.fd ∧ l = d.looper ∧ Function.update stage c .mapped d = .mapped := by
  have hd := h.connections l fd d
  by_cases hdc : d = c
  · subst hdc
    by_cases hl : l = d.looper
    · subst hl
      simp [hd, hg]
    · simpa [hl] using hd
  · by_cases hl : l = c.looper
    · subst hl
      simpa [hdc] using hd
    · simpa [hdc, hl] using hd

theorem insert (h : Described s stage) (hstep : s.acceptorStep .insert = some s') :
    ∃ stage', Described s' stage' := by
  simp only [acceptorStep] at hstep
  split at hstep
  · next c hc =>
    have hg : stage c = .registered := ((h.acceptor c .registered).mp (by rw [hc]; rfl)).1
    have hin : s.within .acceptor = some c.looper := by
      simp [within, hc, AcceptorPhase.within]
    rw [if_pos (h.lookup_eq_none hg)] at hstep
    cases hstep
    exact ⟨Function.update stage c .mapped, { h with
      known := h.known_update (by simp [hg])
      copied := h.copied_update (by decide)
      table := h.table_update (by simp [hg, Stage.IsOpen])
      acceptor := h.acceptor_give (by simp +contextual [hc, AcceptorPhase.holds]) (by decide) rfl
      connections := h.connections_insert hg
      closes := h.closes_update (by simp [hg])
      erased := h.erased_update (by simp [hg, Stage.IsErased])
      interest := h.interest_update (by simp [hg, Stage.IsListed]) (by simp [hg])
      pointers := fun l => (h.pointers l).update (by simp [Stage.IsServed])
      guarded := guarded_unlock h.guarded hin rfl (within_eq_acceptor rfl)
      inserted := by simpa using h.inserted }⟩
  · cases hstep

theorem lockDelete {l : κ} (h : Described s stage)
    (hstep : s.looperStep (.lockDelete l) = some s') : Described s' stage := by
  simp only [looperStep] at hstep
  split at hstep
  · next c rest hl =>
    split at hstep
    · next hfree =>
      cases hstep
      refine { h with closes := ?_, pointers := ?_, guarded := ?_ }
      · intro k looper d
        rw [closes_setLooper (by simp [setMtx, hl, LooperPhase.closes])]
        exact h.closes k looper d
      · refine Walkable.setLooper h.pointers ?_
        have hp := h.pointers l
        rwa [hl] at hp
      · have hout : s.within (.looper l) = none := by simp [within, hl, LooperPhase.within]
        exact guarded_lock h.guarded hfree hout rfl (within_eq_looper rfl rfl rfl)
    · cases hstep
  · cases hstep

theorem acceptor_of_registered {c : Client κ} (h : Described s stage)
    (hg : stage c = .registered) : s.acceptor = .registered c := by
  have hh := (h.acceptor c .registered).mpr ⟨hg, Or.inr rfl⟩
  cases ha : s.acceptor with
  | registered d =>
    rw [ha] at hh
    cases hh
    rfl
  | idle | accepted d | locked d =>
    rw [ha] at hh
    cases hh

theorem mapped_of_locked {l : κ} {c : Client κ} {rest : List (Client κ)} (h : Described s stage)
    (hl : s.looper l = .locked c rest) : c.looper = l ∧ stage c = .mapped := by
  have hm : c ∈ (s.looper l).pointers := by simp [hl, LooperPhase.pointers]
  refine ⟨(h.pointers l).looper c hm, ((h.pointers l).served c hm).resolve_left fun hg => ?_⟩
  have hin : s.within (.looper l) = some c.looper := by simp [within, hl, LooperPhase.within]
  have hin' : s.within .acceptor = some c.looper := by
    simp [within, h.acceptor_of_registered hg, AcceptorPhase.within]
  cases (h.guarded c.looper).unique hin hin'

theorem connections_erase {c : Client κ} (h : Described s stage) (hg : stage c = .mapped)
    (k : κ) (fd : ℕ) (d : Client κ) :
    (fd, d) ∈ Function.update s.connections c.looper
        ((s.connections c.looper).filter fun e => e.1 ≠ c.fd) k ↔
      fd = d.fd ∧ k = d.looper ∧ Function.update stage c .closing d = .mapped := by
  have hd := h.connections k fd d
  by_cases hdc : d = c
  · subst hdc
    rw [Function.update_self]
    by_cases hk : k = d.looper
    · subst hk
      simp only [Function.update_self, List.mem_filter, hd]
      simp +contextual
    · rw [Function.update_of_ne hk, hd]
      simp [hk]
  · rw [Function.update_of_ne hdc, ← hd]
    by_cases hk : k = c.looper
    · subst hk
      simp only [Function.update_self, List.mem_filter, and_iff_left_iff_imp]
      intro hm
      obtain ⟨hfd, -, hgd⟩ := hd.mp hm
      have hne : fd ≠ c.fd := fun he => hdc (h.eq_of_fd (by simp [hgd, Stage.IsOpen])
        (by simp [hg, Stage.IsOpen]) (hfd.symm.trans he))
      simpa using hne
    · rw [Function.update_of_ne hk]

theorem closes_erase {l : κ} {c : Client κ} {rest : List (Client κ)} (h : Described s stage)
    (hl : s.looper l = .locked c rest) (k looper : κ) (d : Client κ) :
    ((s.setLooper l (.closing c.looper c rest)).looper k).closes = some (looper, d) ↔
      k = looper ∧ looper = d.looper ∧ Function.update stage c .closing d = .closing := by
  obtain ⟨hcl, hg⟩ := h.mapped_of_locked hl
  have hd := h.closes k looper d
  by_cases hk : k = l
  · subst hk
    simp only [hl, LooperPhase.closes, reduceCtorEq, false_iff] at hd
    simp only [Loopers.setLooper, Function.update_self, LooperPhase.closes, Option.some.injEq,
      Prod.mk.injEq]
    by_cases hdc : d = c
    · subst hdc
      simp only [and_true, Function.update_self]
      exact ⟨fun he => ⟨hcl.symm.trans he, he.symm⟩, fun he => he.2.symm⟩
    · simp [hdc, Ne.symm hdc, hd]
  · simp only [Loopers.setLooper, Function.update_of_ne hk, hd]
    by_cases hdc : d = c
    · subst hdc
      rw [Function.update_self, hg]
      constructor
      · intro he
        cases he.2.2
      · intro he
        exact absurd (he.1.trans (he.2.1.trans hcl)) hk
    · rw [Function.update_of_ne hdc]

theorem pointers_erase {l : κ} {c : Client κ} {rest : List (Client κ)} (h : Described s stage)
    (hl : s.looper l = .locked c rest) (k : κ) :
    Walkable (Function.update stage c .closing) k
      ((s.setLooper l (.closing c.looper c rest)).looper k).pointers := by
  have hpl : Walkable stage l (c :: rest) := by
    have hp := h.pointers l
    rwa [hl] at hp
  by_cases hk : k = l
  · subst hk
    simp only [Loopers.setLooper, Function.update_self, LooperPhase.pointers]
    exact hpl.tail.update_of_notMem (List.nodup_cons.mp hpl.nodup).1
  · simp only [Loopers.setLooper, Function.update_of_ne hk]
    apply (h.pointers k).update_of_notMem
    intro hm
    exact hk (((h.pointers k).looper c hm).symm.trans (h.mapped_of_locked hl).1)

theorem erase {l : κ} (h : Described s stage) (hstep : s.looperStep (.erase l) = some s') :
    ∃ stage', Described s' stage' := by
  simp only [looperStep] at hstep
  split at hstep
  · next c rest hl =>
    have hg := (h.mapped_of_locked hl).2
    have hin : s.within (.looper l) = some c.looper := by simp [within, hl, LooperPhase.within]
    rw [h.lookup_iff.mpr ⟨rfl, rfl, hg⟩] at hstep
    cases hstep
    refine ⟨Function.update stage c .closing, { h with
      known := h.known_update (by simp [hg])
      copied := h.copied_update (by decide)
      table := h.table_update (by simp [hg, Stage.IsOpen])
      acceptor := h.acceptor_update ?_
      connections := h.connections_erase hg
      closes := h.closes_erase hl
      erased := ?_
      interest := h.interest_update (by simp [hg, Stage.IsListed]) (by simp [hg])
      pointers := h.pointers_erase hl
      guarded := guarded_stay h.guarded hin rfl (within_eq_looper rfl rfl rfl) }⟩
    · intro g' hg'
      obtain rfl | rfl := hg' <;> simp [hg]
    · intro d
      have hd := h.erased d
      by_cases hdc : d = c
      · simp [hdc, Stage.IsErased]
      · simpa [hdc] using hd
  · cases hstep

theorem mem_dropClosed {stage' : Client κ → Stage} {l : κ} {c : Client κ} (h : Described s stage)
    (hi : s'.interest = s.interest)
    (ht : s'.table c.fd = some (.client c) ↔ (stage' c).IsOpen)
    (hcopied : s'.Copied c → s.Copied c)
    (hclosed : stage' c = stage c ∨ stage c = .closing ∧ stage' c = .closed) :
    c ∈ s'.dropClosed.interest l ↔
      l = c.looper ∧ ((stage' c).IsListed ∨ stage' c = .closed ∧ s'.Copied c) := by
  have hmem : c ∈ s'.dropClosed.interest l ↔
      c ∈ s.interest l ∧ ((stage' c).IsOpen ∨ s'.Copied c) := by
    simp [dropClosed, List.mem_filter, hasDescriptor, hi, ht]
  rw [hmem, h.interest, and_assoc]
  refine and_congr_right fun _ => ?_
  obtain hsame | ⟨hg, hg'⟩ := hclosed
  · rw [hsame]
    constructor
    · intro he
      obtain ⟨hlisted | ⟨hg, -⟩, hopen⟩ := he
      · exact Or.inl hlisted
      · exact Or.inr ⟨hg, hopen.resolve_left fun ho => ho.2 hg⟩
    · intro he
      obtain hlisted | ⟨hg, hcop⟩ := he
      · exact ⟨Or.inl hlisted, Or.inl hlisted.isOpen⟩
      · exact ⟨Or.inr ⟨hg, hcopied hcop⟩, Or.inr hcop⟩
  · simp [hg, hg', Stage.IsListed, Stage.IsOpen]

theorem table_close {c : Client κ} (h : Described s stage) (hg : stage c = .closing) (fd : ℕ)
    (d : Client κ) : Function.update s.table c.fd none fd = some (.client d) ↔
      fd = d.fd ∧ (Function.update stage c .closed d).IsOpen := by
  by_cases hdc : d = c
  · subst hdc
    by_cases hfd : fd = d.fd
    · simp [hfd, Stage.IsOpen]
    · simp [hfd, h.table]
  · by_cases hfd : fd = c.fd
    · subst hfd
      have hne : ¬ (c.fd = d.fd ∧ (stage d).IsOpen) := fun he =>
        hdc (h.eq_of_fd he.2 (by simp [hg, Stage.IsOpen]) he.1.symm)
      simp [hdc, hne]
    · simp [hdc, hfd, h.table]

theorem closes_close {l : κ} {c : Client κ} {rest : List (Client κ)} (h : Described s stage)
    (hl : s.looper l = .closing l c rest) (k looper : κ) (d : Client κ) :
    ((s.setLooper l (.walking rest)).looper k).closes = some (looper, d) ↔
      k = looper ∧ looper = d.looper ∧ Function.update stage c .closed d = .closing := by
  have hd := h.closes k looper d
  obtain ⟨-, hcl, -⟩ := (h.closes l l c).mp (by rw [hl]; rfl)
  by_cases hdc : d = c
  · subst hdc
    rw [Function.update_self]
    by_cases hk : k = l
    · subst hk
      simp [Loopers.setLooper, LooperPhase.closes]
    · simp only [Loopers.setLooper, Function.update_of_ne hk, reduceCtorEq, and_false, iff_false]
      intro he
      obtain ⟨rfl, hlooper, -⟩ := hd.mp he
      exact hk (hlooper.trans hcl.symm)
  · rw [Function.update_of_ne hdc, ← hd]
    by_cases hk : k = l
    · subst hk
      simp [Loopers.setLooper, LooperPhase.closes, hl, Ne.symm hdc]
    · simp [Loopers.setLooper, hk]

theorem close {l : κ} (h : Described s stage) (hstep : s.looperStep (.close l) = some s') :
    ∃ stage', Described s' stage' := by
  simp only [looperStep] at hstep
  split at hstep
  · next looper c rest hl =>
    cases hstep
    obtain ⟨rfl, -, hg⟩ := (h.closes l looper c).mp (by rw [hl]; rfl)
    have hin : s.within (.looper l) = some l := by simp [within, hl, LooperPhase.within]
    have hserved : (stage c).IsServed → Stage.closed.IsServed := by simp [hg, Stage.IsServed]
    have hp : Walkable stage l rest := by
      have hp := h.pointers l
      rwa [hl] at hp
    refine ⟨Function.update stage c .closed, { h with
      known := h.known_update (by simp [hg])
      copied := h.copied_update (by decide)
      table := h.table_close hg
      acceptor := h.acceptor_update ?_
      connections := h.connections_update (by simp [hg])
      closes := h.closes_close hl
      erased := h.erased_update (by simp [hg, Stage.IsErased])
      interest := ?_
      pointers := Walkable.setLooper (fun k => (h.pointers k).update hserved) (hp.update hserved)
      guarded := guarded_unlock h.guarded hin rfl (within_eq_looper rfl rfl rfl)
      deleted := by simpa using h.deleted }⟩
    · intro g' hg'
      obtain rfl | rfl := hg' <;> simp [hg]
    · intro k d
      refine h.mem_dropClosed rfl ?_ id ?_
      · exact (h.table_close hg d.fd d).trans (and_iff_right rfl)
      · by_cases hdc : d = c
        · exact Or.inr ⟨hdc ▸ hg, by rw [hdc, Function.update_self]⟩
        · exact Or.inl (Function.update_of_ne hdc _ _)
  · cases hstep

theorem fork {l : κ} (h : Described s stage) (hstep : s.looperStep (.fork l) = some s') :
    Described s' stage := by
  simp only [looperStep] at hstep
  split at hstep
  · next c rest hl =>
    cases hstep
    have hp := h.pointers l
    rw [hl] at hp
    have h₁ : Described (s.setLooper l (.harvesting s.children.length c rest)) stage :=
      h.setLooper (by rw [hl]; rfl) (by rw [hl]; rfl) hp
    refine { h₁ with copied := ?_, interest := ?_ }
    · intro child hchild d hd
      obtain hchild | hchild := List.mem_append.mp hchild
      · exact h.copied child hchild d hd
      · rw [List.mem_singleton.mp hchild] at hd
        exact ((h.table d.fd d).mp hd).2.1
    · intro k d
      refine (h.interest k d).trans (and_congr_right fun _ => or_congr_right ?_)
      refine and_congr_right fun hg => ?_
      -- the child gets no copy of a socket that the server has closed
      have hnone : s.table d.fd ≠ some (.client d) := fun hd => ((h.table d.fd d).mp hd).2.2 hg
      simp [Copied, hnone]
  · cases hstep

theorem releaseCopies (h : Described s stage) (n : ℕ) (running : Bool) :
    Described (s.releaseCopies n running) stage := by
  have hsub : ∀ child ∈ s.children.set n ⟨fun _ => none, running⟩, ∀ d : Client κ,
      child.copies d.fd = some (.client d) → child ∈ s.children := by
    intro child hchild d hd
    obtain hchild | rfl := List.mem_or_eq_of_mem_set hchild
    · exact hchild
    · cases hd
  refine { h with copied := ?_, interest := ?_ }
  · intro child hchild d hd
    exact h.copied child (hsub child hchild d hd) d hd
  · intro l d
    refine h.mem_dropClosed rfl ((h.table d.fd d).trans (and_iff_right rfl)) ?_ (Or.inl rfl)
    intro hc
    obtain ⟨child, hchild, hd⟩ := hc
    exact ⟨child, hsub child hchild d hd, hd⟩

theorem setOther {fd : ℕ} {o : Option (Descriptor κ)} (h : Described s stage)
    (hold : ∀ c, s.table fd ≠ some (.client c)) (hnew : ∀ c, o ≠ some (.client c)) :
    Described { s with table := Function.update s.table fd o } stage := by
  refine { h with table := fun fd' c => ?_ }
  rw [← h.table]
  by_cases hfd : fd' = fd
  · subst hfd
    simp [hold, hnew]
  · simp [hfd]

theorem kernelStep {e : LoopEvent κ} (h : Described s stage)
    (hstep : s.kernelStep e = some s') : Described s' stage := by
  unfold Loopers.kernelStep at hstep
  split at hstep
  · split at hstep
    · split at hstep
      · cases hstep
        exact h.releaseCopies _ true
      · cases hstep
    · cases hstep
  · split at hstep
    · split at hstep
      · cases hstep
        exact h.releaseCopies _ false
      · cases hstep
    · cases hstep
  · split at hstep
    · next hfree =>
      cases hstep
      exact h.setOther (by simp [hfree]) (by simp)
    · cases hstep
  · split at hstep
    · next hother =>
      cases hstep
      exact h.setOther (by simp [hother]) (by simp)
    · cases hstep
  · cases hstep

end Described

end Loopers

end HttpReactor
