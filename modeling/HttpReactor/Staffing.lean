import Mathlib.Data.List.Nodup
import Mathlib.Tactic.Common

/-!
# Notifications that are on their way

A queue is `Staffed` when there are at least as many different threads coming to it as it
has items: threads that are awake and will look at it, or that are about to wake one that
sleeps. Waiting on a condition variable loses no wake-up as long as the queue of a sleeping
thread stays staffed.
-/

namespace HttpReactor

def Staffed {θ : Type*} (coming : θ → Prop) (n : ℕ) : Prop :=
  ∃ ts : List θ, ts.Nodup ∧ (∀ t ∈ ts, coming t) ∧ n ≤ ts.length

namespace Staffed

variable {θ : Type*} {coming coming' : θ → Prop} {n m : ℕ} {t u : θ}

theorem empty : Staffed coming 0 := ⟨[], List.nodup_nil, nofun, Nat.le_refl 0⟩

theorem mono (h : Staffed coming n) (hcoming : ∀ t, coming t → coming' t) (hle : m ≤ n) :
    Staffed coming' m := by
  obtain ⟨ts, hnd, hts, hn⟩ := h
  exact ⟨ts, hnd, fun t ht => hcoming t (hts t ht), Nat.le_trans hle hn⟩

theorem eq_zero (h : Staffed coming n) (hnone : ∀ t, ¬ coming t) : n = 0 := by
  obtain ⟨ts, -, hts, hn⟩ := h
  cases ts with
  | nil => exact Nat.le_zero.mp hn
  | cons t ts => exact absurd (hts t List.mem_cons_self) (hnone t)

theorem join (h : Staffed coming n) (ht : ¬ coming t) (ht' : coming' t)
    (hcoming : ∀ u, coming u → coming' u) : Staffed coming' (n + 1) := by
  obtain ⟨ts, hnd, hts, hn⟩ := h
  refine ⟨t :: ts, List.nodup_cons.mpr ⟨fun hm => ht (hts t hm), hnd⟩, ?_, ?_⟩
  · exact List.forall_mem_cons.mpr ⟨ht', fun u hu => hcoming u (hts u hu)⟩
  · rw [List.length_cons]
    omega

variable [DecidableEq θ]

theorem leave (h : Staffed coming (n + 1)) (t : θ) (hcoming : ∀ u ≠ t, coming u → coming' u) :
    Staffed coming' n := by
  obtain ⟨ts, hnd, hts, hn⟩ := h
  refine ⟨ts.erase t, hnd.erase t, fun u hu => ?_, ?_⟩
  · obtain ⟨hne, hu⟩ := hnd.mem_erase_iff.mp hu
    exact hcoming u hne (hts u hu)
  · have := List.le_length_erase (a := t) (l := ts)
    omega

theorem replace (h : Staffed coming n) (hu : ¬ coming u) (hu' : coming' u)
    (hcoming : ∀ v ≠ t, coming v → coming' v) : Staffed coming' n := by
  cases n with
  | zero => exact empty
  | succ n =>
    have hleft : Staffed (fun v => coming v ∧ coming' v) n :=
      h.leave t fun v hv hc => ⟨hc, hcoming v hv hc⟩
    exact hleft.join (fun hc => hu hc.1) hu' fun v hv => hv.2

end Staffed

end HttpReactor
