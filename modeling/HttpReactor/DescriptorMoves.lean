import HttpReactor.Ownership

/-!
# Moving sockets and pollers

A `Socket` and a `Poller` each hold a descriptor as an `int`, `-1` for none, and close it
in their destructor. The two classes differ in their move operations: those of `Socket` are
written by hand, those of `Poller` are defaulted. Operations act on named objects, so that
an assignment may have the same object on both sides.
-/

namespace HttpReactor
open Ownership Refinement

variable {ι : Type} [DecidableEq ι]

namespace Socket

def moveConstruct (h : Handles ι Int) (this other : ι) : Handles ι Int :=
  { h with objects :=
      Function.update (Function.update h.objects this (h.objects other)) other (some (-1)) }

/-- Closes the target's descriptor, then swaps the two, so that the source gets a closed one. -/
def moveAssign (h : Handles ι Int) (this other : ι) : Handles ι Int :=
  let h := h.closeOwn (-1) this
  { h with objects :=
      Function.update (Function.update h.objects other (h.objects this)) this (h.objects other) }

end Socket

namespace Poller

def moveConstruct (h : Handles ι Int) (this other : ι) : Handles ι Int :=
  { h with objects := Function.update h.objects this (h.objects other) }

def moveAssign (h : Handles ι Int) (this other : ι) : Handles ι Int :=
  { h with objects := Function.update h.objects this (h.objects other) }

end Poller

structure MoveOperations (ι : Type) where
  moveConstruct : Handles ι Int → ι → ι → Handles ι Int
  moveAssign : Handles ι Int → ι → ι → Handles ι Int

def Socket.moves : MoveOperations ι := ⟨Socket.moveConstruct, Socket.moveAssign⟩

def Poller.moves : MoveOperations ι := ⟨Poller.moveConstruct, Poller.moveAssign⟩

inductive ObjectAction (ι : Type)
  | construct (this : ι) (fd : Int)
  | moveConstruct (this other : ι)
  | moveAssign (this other : ι)
  | destroy (this : ι)
deriving DecidableEq, Repr

/-- A new descriptor is one that is not open; its number may have been closed before. -/
def MoveOperations.step (moves : MoveOperations ι) (h : Handles ι Int) :
    ObjectAction ι → Option (Handles ι Int)
  | .construct this fd =>
    match h.objects this with
    | none => if 0 ≤ fd ∧ fd ∉ h.opened then some (h.build this fd) else none
    | some _ => none
  | .moveConstruct this other =>
    match h.objects this, h.objects other with
    | none, some _ => some (moves.moveConstruct h this other)
    | _, _ => none
  | .moveAssign this other =>
    match h.objects this, h.objects other with
    | some _, some _ => some (moves.moveAssign h this other)
    | _, _ => none
  | .destroy this =>
    match h.objects this with
    | none => none
    | some _ => some (h.destroy (-1) this)

def Socket.TargetEmpty (h : Handles ι Int) : ObjectAction ι → Prop
  | .moveAssign this _ => h.objects this = some (-1)
  | _ => True

/-- No `Poller` is moved, but possibly assigned to itself. -/
def Poller.Unmoved (_ : Handles ι Int) : ObjectAction ι → Prop
  | .moveConstruct _ _ => False
  | .moveAssign this other => this = other
  | _ => True

instance (h : Handles ι Int) : DecidablePred (Socket.TargetEmpty h)
  | .moveAssign this _ => inferInstanceAs (Decidable (h.objects this = some (-1)))
  | .construct _ _ | .moveConstruct _ _ | .destroy _ => isTrue trivial

instance (h : Handles ι Int) : DecidablePred (Poller.Unmoved h)
  | .moveConstruct _ _ => isFalse id
  | .moveAssign this other => inferInstanceAs (Decidable (this = other))
  | .construct _ _ | .destroy _ => isTrue trivial

section Steps

variable {moves : MoveOperations ι} {h h' : Handles ι Int} {this other : ι} {fd : Int}

theorem construct_eq_some (hstep : moves.step h (.construct this fd) = some h') :
    h.objects this = none ∧ 0 ≤ fd ∧ fd ∉ h.opened ∧ h' = h.build this fd := by
  simp only [MoveOperations.step] at hstep
  split at hstep
  · next hthis =>
    split at hstep
    · next hfresh =>
      cases hstep
      exact ⟨hthis, hfresh.1, hfresh.2, rfl⟩
    · cases hstep
  · cases hstep

theorem moveConstruct_eq_some (hstep : moves.step h (.moveConstruct this other) = some h') :
    h.objects this = none ∧ (∃ fd, h.objects other = some fd) ∧
      h' = moves.moveConstruct h this other := by
  simp only [MoveOperations.step] at hstep
  split at hstep
  · next fd hthis hother =>
    cases hstep
    exact ⟨hthis, ⟨fd, hother⟩, rfl⟩
  · cases hstep

theorem moveAssign_eq_some (hstep : moves.step h (.moveAssign this other) = some h') :
    (∃ fd, h.objects this = some fd) ∧ (∃ fd, h.objects other = some fd) ∧
      h' = moves.moveAssign h this other := by
  simp only [MoveOperations.step] at hstep
  split at hstep
  · next fd fd' hthis hother =>
    cases hstep
    exact ⟨⟨fd, hthis⟩, ⟨fd', hother⟩, rfl⟩
  · cases hstep

theorem destroy_eq_some (hstep : moves.step h (.destroy this) = some h') :
    (∃ fd, h.objects this = some fd) ∧ h' = h.destroy (-1) this := by
  simp only [MoveOperations.step] at hstep
  split at hstep
  · cases hstep
  · next fd hthis =>
    cases hstep
    exact ⟨⟨fd, hthis⟩, rfl⟩

end Steps

namespace Socket

variable {h h' : Handles ι Int} {this other : ι}

theorem owned_moveConstruct (ho : h.Owned (-1)) (hthis : h.objects this = none)
    (hother : h.objects other ≠ none) : (moveConstruct h this other).Owned (-1) := by
  have hne : other ≠ this := fun heq => hother (heq ▸ hthis)
  -- the new object starts with no descriptor and then trades places with the source
  have hnull : Handles.Owned (-1)
      { h with objects := Function.update h.objects this (some (-1)) } :=
    ho.setNull (by simp [hthis]) (by simp)
  have hswap := hnull.rename (Equiv.swap other this)
  have hobjects : Function.update h.objects this (some (-1)) ∘ Equiv.swap other this =
      Function.update (Function.update h.objects this (h.objects other)) other (some (-1)) := by
    rw [Equiv.comp_swap_eq_update]
    simp [hne]
  rw [hobjects] at hswap
  exact hswap

theorem owned_moveAssign (ho : h.Owned (-1)) (hthis : h.objects this = some (-1)) :
    (moveAssign h this other).Owned (-1) := by
  have hown : h.closeOwn (-1) this = h := by simp [Handles.closeOwn, hthis]
  have hswap := ho.rename (Equiv.swap this other)
  rw [Equiv.comp_swap_eq_update] at hswap
  rw [moveAssign, hown]
  exact hswap

theorem owned_step {action : ObjectAction ι} (ho : h.Owned (-1)) (htarget : TargetEmpty h action)
    (hstep : moves.step h action = some h') : h'.Owned (-1) := by
  cases action with
  | construct this fd =>
    obtain ⟨hthis, hfd, hfresh, rfl⟩ := construct_eq_some hstep
    exact ho.build hthis hfresh (by omega)
  | moveConstruct this other =>
    obtain ⟨hthis, ⟨fd, hother⟩, rfl⟩ := moveConstruct_eq_some hstep
    exact owned_moveConstruct ho hthis (by simp [hother])
  | moveAssign this other =>
    obtain ⟨-, -, rfl⟩ := moveAssign_eq_some hstep
    exact owned_moveAssign ho htarget
  | destroy this =>
    obtain ⟨⟨fd, hthis⟩, rfl⟩ := destroy_eq_some hstep
    exact ho.destroy hthis

theorem not_safe_of_target {action : ObjectAction ι} (ho : h.Owned (-1))
    (htarget : ¬ TargetEmpty h action) (hstep : moves.step h action = some h') :
    ¬ h'.Safe (-1) := by
  -- The closed descriptor stays with the source, or with the target of a self-assignment.
  cases action with
  | construct this fd => exact absurd trivial htarget
  | moveConstruct this other => exact absurd trivial htarget
  | destroy this => exact absurd trivial htarget
  | moveAssign this other =>
    obtain ⟨⟨fd, hthis⟩, -, rfl⟩ := moveAssign_eq_some hstep
    have hfd : fd ≠ -1 := by
      intro heq
      rw [heq] at hthis
      exact htarget hthis
    have hopen := ho.holdsOpen this fd hthis hfd
    have hown : h.closeOwn (-1) this = { h with opened := h.opened.erase fd } := by
      simp [Handles.closeOwn, hthis, hfd, Handles.close, hopen]
    intro hsafe
    have hsource : (moveAssign h this other).objects other = some fd := by
      by_cases heq : other = this
      · subst heq
        simp [moveAssign, hown, hthis]
      · simp [moveAssign, hown, hthis, heq]
    have hmem := hsafe.holdsOpen other fd hsource hfd
    have hclosed : fd ∉ (moveAssign h this other).opened := by
      simp only [moveAssign, hown]
      exact ho.nodup.not_mem_erase
    exact hclosed hmem

end Socket

namespace Poller

variable {h h' : Handles ι Int}

structure Kept (h : Handles ι Int) : Prop where
  owned : h.Owned (-1)
  holds : ∀ x, h.objects x ≠ some (-1)

theorem kept_step {action : ObjectAction ι} (hk : Kept h) (hunmoved : Unmoved h action)
    (hstep : moves.step h action = some h') : Kept h' := by
  cases action with
  | construct this fd =>
    obtain ⟨hthis, hfd, hfresh, rfl⟩ := construct_eq_some hstep
    have hne : fd ≠ -1 := by omega
    refine ⟨hk.owned.build hthis hfresh hne, ?_⟩
    intro x
    by_cases hx : x = this
    · subst hx
      simpa [Handles.build] using hne
    · simpa [Handles.build, hx] using hk.holds x
  | moveConstruct this other => exact hunmoved.elim
  | moveAssign this other =>
    obtain ⟨-, -, rfl⟩ := moveAssign_eq_some hstep
    have heq : this = other := hunmoved
    subst heq
    have hsame : moves.moveAssign h this this = h := by simp [moves, moveAssign]
    rwa [hsame]
  | destroy this =>
    obtain ⟨⟨fd, hthis⟩, rfl⟩ := destroy_eq_some hstep
    refine ⟨hk.owned.destroy hthis, ?_⟩
    intro x
    by_cases hx : x = this
    · subst hx
      simp [Handles.destroy]
    · simpa [Handles.destroy, hx] using hk.holds x

theorem not_safe_of_shared (hk : Kept h) {this other : ι} {fd : Int}
    (hother : h.objects other = some fd) (hne : other ≠ this) :
    ¬ Handles.Safe (-1) { h with objects := Function.update h.objects this (h.objects other) } := by
  -- After the move both objects hold the descriptor of the source.
  intro hsafe
  have hfd : fd ≠ -1 := by
    intro heq
    rw [heq] at hother
    exact hk.holds other hother
  have hsame := hsafe.oneOwner other this fd (by simp [hne, hother]) (by simp [hother]) hfd
  exact hne hsame

theorem not_safe_of_moved {action : ObjectAction ι} (hk : Kept h)
    (hunmoved : ¬ Unmoved h action) (hstep : moves.step h action = some h') :
    ¬ h'.Safe (-1) := by
  cases action with
  | construct this fd => exact absurd trivial hunmoved
  | destroy this => exact absurd trivial hunmoved
  | moveConstruct this other =>
    obtain ⟨hthis, ⟨fd, hother⟩, rfl⟩ := moveConstruct_eq_some hstep
    have hne : other ≠ this := by
      intro heq
      rw [heq, hthis] at hother
      cases hother
    exact not_safe_of_shared hk hother hne
  | moveAssign this other =>
    obtain ⟨-, ⟨fd, hother⟩, rfl⟩ := moveAssign_eq_some hstep
    exact not_safe_of_shared hk hother (Ne.symm hunmoved)

end Poller

/-- A `Socket` history is safe in all its states exactly when nothing is assigned to a `Socket`
that holds a descriptor, and a `Poller` history exactly when no `Poller` is moved to another. -/
theorem safe_throughout_iff (actions : List (ObjectAction ι)) :
    (∀ h, runGuarded Socket.moves.step .empty actions = some h →
      (Throughout Socket.moves.step (Handles.Safe (-1)) .empty actions ↔
        Along Socket.moves.step Socket.TargetEmpty .empty actions)) ∧
    ∀ h, runGuarded Poller.moves.step .empty actions = some h →
      (Throughout Poller.moves.step (Handles.Safe (-1)) .empty actions ↔
        Along Poller.moves.step Poller.Unmoved .empty actions) := by
  constructor
  · intro h hrun
    exact throughout_iff_along (fun _ ho => ho.safe)
      (fun _ _ _ ho htarget hstep => Socket.owned_step ho htarget hstep)
      (fun _ _ _ ho htarget hstep => Socket.not_safe_of_target ho htarget hstep)
      Handles.Owned.empty hrun
  · intro h hrun
    have hempty : Poller.Kept (.empty : Handles ι Int) :=
      ⟨Handles.Owned.empty, by simp [Handles.empty]⟩
    exact throughout_iff_along (fun _ hk => hk.owned.safe)
      (fun _ _ _ hk hunmoved hstep => Poller.kept_step hk hunmoved hstep)
      (fun _ _ _ hk hunmoved hstep => Poller.not_safe_of_moved hk hunmoved hstep) hempty hrun

def assignedAndDestroyed : List (ObjectAction ℕ) :=
  [.construct 0 5, .construct 1 6, .moveAssign 0 1, .destroy 1, .destroy 0]

theorem stray_assignedAndDestroyed :
    (∃ h, runGuarded Socket.moves.step .empty assignedAndDestroyed = some h ∧ ¬ h.Safe (-1)) ∧
      ∃ h, runGuarded Poller.moves.step .empty assignedAndDestroyed = some h ∧
        ¬ h.Safe (-1) := by
  constructor
  · refine ⟨_, rfl, ?_⟩
    intro hsafe
    cases hsafe.noStray
  · refine ⟨_, rfl, ?_⟩
    intro hsafe
    cases hsafe.noStray

def movedThroughEmpty : List (ObjectAction ℕ) :=
  [.construct 0 5, .moveConstruct 1 0, .moveAssign 0 1, .destroy 1, .destroy 0]

theorem safe_throughout_iff_movedThroughEmpty :
    Throughout Socket.moves.step (Handles.Safe (-1)) .empty movedThroughEmpty ∧
      Throughout Poller.moves.step (Handles.Safe (-1)) .empty
        [.construct 0 5, .moveAssign 0 0, .destroy 0] :=
  ⟨((safe_throughout_iff movedThroughEmpty).1 _ rfl).mpr (by decide),
    ((safe_throughout_iff [.construct 0 5, .moveAssign 0 0, .destroy 0]).2 _ rfl).mpr
      (by decide)⟩

end HttpReactor
