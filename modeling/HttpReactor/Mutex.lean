import Mathlib.Logic.Function.Basic
import Mathlib.Tactic.Common

/-!
# Mutual exclusion

A mutex is the name of its holder, if there is one. `Guarded` says that the threads
inside the critical section are exactly that holder; the rules below keep it through
the steps of one thread. The last section is about a family of mutexes of which each
thread holds one at most.
-/

namespace HttpReactor.Mutex

variable {θ φ : Type*}

def Guarded (holder : Option θ) (inside : θ → Prop) : Prop := ∀ t, inside t ↔ holder = some t

variable {holder : Option θ} {inside inside' : θ → Prop} {t u : θ}

theorem Guarded.unique (h : Guarded holder inside) (ht : inside t) (hu : inside u) : t = u := by
  have h₁ := (h t).mp ht
  have h₂ := (h u).mp hu
  rw [h₁] at h₂
  exact Option.some.inj h₂

theorem Guarded.keep (h : Guarded holder inside) (hsame : ∀ t, inside' t ↔ inside t) :
    Guarded holder inside' := by
  intro t
  rw [hsame t]
  exact h t

theorem Guarded.acquire (h : Guarded none inside) (ht : inside' t)
    (hother : ∀ u, u ≠ t → (inside' u ↔ inside u)) : Guarded (some t) inside' := by
  intro u
  by_cases hu : u = t
  · subst hu
    simp only [ht]
  · rw [hother u hu, h u]
    simp [Ne.symm hu]

theorem Guarded.release (h : Guarded holder inside) (ht : inside t) (ht' : ¬ inside' t)
    (hother : ∀ u, u ≠ t → (inside' u ↔ inside u)) : Guarded none inside' := by
  intro u
  by_cases hu : u = t
  · subst hu
    simp [ht']
  · have hnot : ¬ inside u := fun hin => hu (h.unique hin ht)
    rw [hother u hu]
    simp [hnot]

section Family

variable {κ : Type*} [DecidableEq κ] [DecidableEq θ] {mtx : κ → Option θ}
  {within : θ → Option κ} {l : κ}

theorem guarded_acquire (h : ∀ k, Guarded (mtx k) fun t => within t = some k)
    (hl : mtx l = none) (ht : within t = none) (k : κ) :
    Guarded (Function.update mtx l (some t) k)
      fun u => Function.update within t (some l) u = some k := by
  have hother : ∀ u, u ≠ t →
      (Function.update within t (some l) u = some k ↔ within u = some k) := by
    intro u hu
    rw [Function.update_of_ne hu]
  by_cases hk : k = l
  · subst hk
    rw [Function.update_self]
    exact (hl ▸ h k).acquire (Function.update_self ..) hother
  · rw [Function.update_of_ne hk]
    refine (h k).keep fun u => ?_
    by_cases hu : u = t
    · subst hu
      simp [ht, Ne.symm hk]
    · exact hother u hu

theorem guarded_release (h : ∀ k, Guarded (mtx k) fun t => within t = some k)
    (ht : within t = some l) (k : κ) :
    Guarded (Function.update mtx l none k)
      fun u => Function.update within t none u = some k := by
  have hother : ∀ u, u ≠ t →
      (Function.update within t none u = some k ↔ within u = some k) := by
    intro u hu
    rw [Function.update_of_ne hu]
  by_cases hk : k = l
  · subst hk
    rw [Function.update_self]
    exact (h k).release ht (by simp) hother
  · rw [Function.update_of_ne hk]
    refine (h k).keep fun u => ?_
    by_cases hu : u = t
    · subst hu
      simp [ht, Ne.symm hk]
    · exact hother u hu

end Family

end HttpReactor.Mutex
