import Mathlib.Data.List.Nodup
import Mathlib.Tactic.Common

/-!
# Least-recently-used stores

A store is a list of keyed values, the least recently used first, under a bound on
the total size of the values. Loading moves an entry to the end; inserting removes
the shortest prefix that makes room.
-/

namespace HttpReactor.LruStore

variable {κ ν : Type*} (size : ν → ℕ)

abbrev Entries (κ ν : Type*) := List (κ × ν)

def total : Entries κ ν → ℕ
  | [] => 0
  | e :: es => size e.2 + total es

@[simp] theorem total_nil : total size ([] : Entries κ ν) = 0 := rfl

@[simp] theorem total_cons (e : κ × ν) (es : Entries κ ν) :
    total size (e :: es) = size e.2 + total size es := rfl

theorem total_append (es es' : Entries κ ν) :
    total size (es ++ es') = total size es + total size es' := by
  induction es with
  | nil => simp
  | cons e es ih =>
    rw [List.cons_append, total_cons, total_cons, ih]
    omega

theorem total_perm {es es' : Entries κ ν} (h : es.Perm es') : total size es = total size es' := by
  induction h with
  | nil => rfl
  | cons e _ ih => rw [total_cons, total_cons, ih]
  | swap e e' es =>
    simp only [total_cons]
    omega
  | trans _ _ ih ih' => exact ih.trans ih'

def dropToFit (capacity n : ℕ) : Entries κ ν → Entries κ ν
  | [] => []
  | e :: es => if total size (e :: es) + n ≤ capacity then e :: es else dropToFit capacity n es

theorem dropToFit_shortest {capacity n : ℕ} (hn : n ≤ capacity) (es : Entries κ ν) :
    ∃ k, dropToFit size capacity n es = es.drop k ∧ total size (es.drop k) + n ≤ capacity ∧
      ∀ j < k, capacity < total size (es.drop j) + n := by
  induction es with
  | nil => exact ⟨0, rfl, by simpa using hn, by omega⟩
  | cons e es ih =>
    simp only [dropToFit]
    split_ifs with h
    · exact ⟨0, rfl, h, by omega⟩
    · obtain ⟨k, he, hfit, hmin⟩ := ih
      refine ⟨k + 1, he, hfit, fun j hj => ?_⟩
      cases j with
      | zero => exact Nat.lt_of_not_le h
      | succ j => exact hmin j (by omega)

theorem dropToFit_of_fits {capacity n : ℕ} {es : Entries κ ν}
    (h : total size es + n ≤ capacity) : dropToFit size capacity n es = es := by
  cases es with
  | nil => rfl
  | cons e es => rw [dropToFit, if_pos h]

theorem dropToFit_cons_of_not_fits {capacity n : ℕ} {e : κ × ν} {es : Entries κ ν}
    (h : ¬ total size (e :: es) + n ≤ capacity) :
    dropToFit size capacity n (e :: es) = dropToFit size capacity n es := by
  rw [dropToFit, if_neg h]

variable [DecidableEq κ]

/-- The value under a key, and the entries with that key's entry moved to the end. -/
def load (k : κ) (es : Entries κ ν) : Option (ν × Entries κ ν) :=
  (es.find? fun e => e.1 = k).map fun e => (e.2, es.filter (fun e => e.1 ≠ k) ++ [e])

def insert (capacity : ℕ) (k : κ) (v : ν) (es : Entries κ ν) : Option (Entries κ ν) :=
  if k ∈ es.map Prod.fst ∨ capacity < size v then none
  else some (dropToFit size capacity (size v) es ++ [(k, v)])

theorem load_of_notMem {k : κ} {es : Entries κ ν} (h : k ∉ es.map Prod.fst) :
    load k es = none := by
  rw [load, Option.map_eq_none_iff, List.find?_eq_none]
  intro e he hk
  exact h (List.mem_map.mpr ⟨e, he, by simpa using hk⟩)

theorem mem_of_load {k : κ} {v : ν} {es es' : Entries κ ν} (h : load k es = some (v, es')) :
    (k, v) ∈ es ∧ ∀ e ∈ es', e ∈ es := by
  simp only [load, Option.map_eq_some_iff, Prod.mk.injEq] at h
  obtain ⟨e, he, rfl, rfl⟩ := h
  have hm := List.mem_of_find?_eq_some he
  obtain rfl : e.1 = k := by simpa using List.find?_some he
  refine ⟨hm, fun e' he' => ?_⟩
  rcases List.mem_append.mp he' with he' | he'
  · exact (List.mem_filter.mp he').1
  · rwa [List.mem_singleton.mp he']

theorem load_middle {k : κ} {v : ν} {xs ys : Entries κ ν}
    (h : ((xs ++ (k, v) :: ys).map Prod.fst).Nodup) :
    load k (xs ++ (k, v) :: ys) = some (v, xs ++ ys ++ [(k, v)]) := by
  rw [List.map_append, List.map_cons] at h
  have hk := (List.nodup_cons.mp (List.perm_middle.nodup_iff.mp h)).1
  have hx : ∀ e ∈ xs, e.1 ≠ k := fun e he hek =>
    hk (List.mem_append_left _ (List.mem_map.mpr ⟨e, he, hek⟩))
  have hy : ∀ e ∈ ys, e.1 ≠ k := fun e he hek =>
    hk (List.mem_append_right _ (List.mem_map.mpr ⟨e, he, hek⟩))
  have hfind : (xs ++ (k, v) :: ys).find? (fun e => e.1 = k) = some (k, v) := by
    rw [List.find?_append, List.find?_eq_none.mpr (by simpa using hx)]
    simp
  have hfilter : (xs ++ (k, v) :: ys).filter (fun e => e.1 ≠ k) = xs ++ ys := by
    rw [List.filter_append, List.filter_cons_of_neg (by simp),
      List.filter_eq_self.mpr (by simpa using hx), List.filter_eq_self.mpr (by simpa using hy)]
  rw [load, hfind, Option.map_some, hfilter]

end HttpReactor.LruStore
