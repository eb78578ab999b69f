import Mathlib.Data.List.Chain
import Mathlib.Data.List.Nodup
import Mathlib.Logic.Function.Basic
import Mathlib.Tactic.Common

/-!
# Doubly linked chains

A chain is a list of cells linked in both directions by two partial maps. The
results describe pointwise updates of the maps: taking a cell out of the middle
of a chain, putting a fresh cell between two neighbours, and changing the maps
only away from the chain.
-/

namespace HttpReactor.LinkedChain

variable {α : Type*}

def Link (next prev : α → Option α) (a b : α) : Prop := next a = some b ∧ prev b = some a

structure Linked (next prev : α → Option α) (l : List α) : Prop where
  chain : l.IsChain (Link next prev)
  nodup : l.Nodup

theorem isChain_concat_imp {R S : α → α → Prop} {xs : List α} {a : α}
    (h : ∀ x ∈ xs, ∀ y ∈ xs ++ [a], R x y → S x y) (hc : (xs ++ [a]).IsChain R) :
    (xs ++ [a]).IsChain S := by
  induction xs with
  | nil => exact .singleton a
  | cons x xs ih =>
    rw [List.cons_append, List.isChain_cons] at hc ⊢
    refine ⟨fun y hy => ?_, ih (fun u hu v hv => ?_) hc.2⟩
    · refine h x List.mem_cons_self y ?_ (hc.1 y hy)
      exact List.mem_cons_of_mem _ (List.mem_of_mem_head? hy)
    · exact h u (List.mem_cons_of_mem _ hu) v (List.mem_cons_of_mem _ hv)

theorem Linked.congr {next prev next' prev' : α → Option α} {l : List α}
    (h : Linked next prev l) (hn : ∀ a ∈ l, next' a = next a) (hp : ∀ a ∈ l, prev' a = prev a) :
    Linked next' prev' l := by
  refine ⟨List.IsChain.imp_of_mem_imp (fun a b ha hb hl => ?_) h.chain, h.nodup⟩
  exact ⟨(hn a ha).trans hl.1, (hp b hb).trans hl.2⟩

theorem Linked.link {next prev : α → Option α} {pre post : List α} {p s : α}
    (h : Linked next prev (pre ++ post)) (hp : pre.getLast? = some p)
    (hs : post.head? = some s) : next p = some s ∧ prev s = some p :=
  (List.isChain_append.mp h.chain).2.2 p hp s hs

variable [DecidableEq α]

theorem isChain_relink {next prev : α → Option α} {xs ys : List α} {p s : α}
    (hx : (xs ++ [p]).IsChain (Link next prev)) (hy : (s :: ys).IsChain (Link next prev))
    (hnd : (xs ++ [p] ++ s :: ys).Nodup) :
    (xs ++ [p] ++ s :: ys).IsChain
      (Link (Function.update next p (some s)) (Function.update prev s (some p))) := by
  have hps := List.nodup_append.mp hnd
  have hxp := List.nodup_append.mp hps.1
  have hsy := List.nodup_cons.mp hps.2.1
  have hpmem : p ∈ xs ++ [p] := List.mem_append_right _ List.mem_cons_self
  refine List.isChain_append.mpr ⟨isChain_concat_imp ?_ hx,
    List.IsChain.imp_of_mem_tail_imp ?_ hy, ?_⟩
  · intro x hxm y hym hl
    have h₁ : x ≠ p := hxp.2.2 x hxm p List.mem_cons_self
    have h₂ : y ≠ s := hps.2.2 y hym s List.mem_cons_self
    exact ⟨by rw [Function.update_of_ne h₁]; exact hl.1,
      by rw [Function.update_of_ne h₂]; exact hl.2⟩
  · intro x y hxm hym hl
    have h₁ : x ≠ p := (hps.2.2 p hpmem x hxm).symm
    have h₂ : y ≠ s := fun he => hsy.1 (he ▸ hym)
    exact ⟨by rw [Function.update_of_ne h₁]; exact hl.1,
      by rw [Function.update_of_ne h₂]; exact hl.2⟩
  · intro x hxl y hyh
    rw [List.getLast?_concat, Option.mem_some_iff] at hxl
    rw [List.head?_cons, Option.mem_some_iff] at hyh
    subst hxl hyh
    exact ⟨Function.update_self _ _ _, Function.update_self _ _ _⟩

theorem Linked.unlink {next prev : α → Option α} {pre post : List α} {p x s : α}
    (h : Linked next prev (pre ++ x :: post)) (hp : pre.getLast? = some p)
    (hs : post.head? = some s) :
    Linked (Function.update next p (some s)) (Function.update prev s (some p)) (pre ++ post) := by
  obtain ⟨xs, rfl⟩ := List.getLast?_eq_some_iff.mp hp
  obtain ⟨ys, rfl⟩ := List.head?_eq_some_iff.mp hs
  have hnd : (xs ++ [p] ++ s :: ys).Nodup :=
    h.nodup.sublist ((List.sublist_cons_self x (s :: ys)).append_left (xs ++ [p]))
  obtain ⟨hx, hxy, -⟩ := List.isChain_append.mp h.chain
  exact ⟨isChain_relink hx hxy.tail hnd, hnd⟩

theorem Linked.insert {next prev : α → Option α} {pre post : List α} {p n s : α}
    (h : Linked next prev (pre ++ post)) (hp : pre.getLast? = some p) (hs : post.head? = some s)
    (hn : n ∉ pre ++ post) :
    Linked (Function.update (Function.update next p (some n)) n (some s))
      (Function.update (Function.update prev s (some n)) n (some p)) (pre ++ n :: post) := by
  obtain ⟨xs, rfl⟩ := List.getLast?_eq_some_iff.mp hp
  obtain ⟨ys, rfl⟩ := List.head?_eq_some_iff.mp hs
  obtain ⟨hx, hy, -⟩ := List.isChain_append.mp h.chain
  have hnp : p ≠ n := fun he => hn (by simp [← he])
  have hnd : (xs ++ [p] ++ n :: s :: ys).Nodup :=
    List.nodup_middle.mpr (List.nodup_cons.mpr ⟨hn, h.nodup⟩)
  -- first the joint between the fresh cell and the tail half, then the one before it
  have hright : ([n] ++ s :: ys).IsChain
      (Link (Function.update next n (some s)) (Function.update prev s (some n))) := by
    have hone : ([] ++ [n]).IsChain (Link next prev) := .singleton n
    exact isChain_relink hone hy
      (hnd.sublist (List.sublist_append_right (xs ++ [p]) (n :: s :: ys)))
  have hleft : (xs ++ [p]).IsChain
      (Link (Function.update next n (some s)) (Function.update prev s (some n))) := by
    refine List.IsChain.imp_of_mem_imp (fun u v hu hv hl => ?_) hx
    have h₁ : u ≠ n := fun he => hn (List.mem_append_left _ (he ▸ hu))
    have h₂ : v ≠ s := (List.nodup_append.mp h.nodup).2.2 v hv s List.mem_cons_self
    exact ⟨by rw [Function.update_of_ne h₁]; exact hl.1,
      by rw [Function.update_of_ne h₂]; exact hl.2⟩
  refine ⟨?_, hnd⟩
  have hall := isChain_relink hleft hright hnd
  rw [Function.update_comm hnp.symm] at hall
  exact hall

end HttpReactor.LinkedChain
