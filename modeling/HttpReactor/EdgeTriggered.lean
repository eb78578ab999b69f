import Mathlib.Data.List.Nodup
import Mathlib.Tactic.Common

/-!
# Edge-triggered readiness

An edge-triggered poller queues a watched source when something happens to it, and a report
takes sources from the front of the queue without putting them back. A source in the queue
that is no longer readable is dropped by the report that meets it.

`Covers` says that no readable source is forgotten: it is queued, or its consumer still owes
it a read. Consumers that read until nothing is left keep it, whatever happens meanwhile.
The queue is fair: a report of `n` sources takes a source or brings it `n` places forward.
-/

namespace HttpReactor.EdgeTriggered

structure Readiness (κ : Type*) where
  watched : List κ
  ready : List κ
deriving DecidableEq, Repr

variable {κ : Type*}

/-- The first `n` readable sources of a queue, and what is left of it. -/
def collect (readable : κ → Bool) : List κ → ℕ → List κ × List κ
  | [], _ => ([], [])
  | k :: ks, 0 => ([], k :: ks)
  | k :: ks, n + 1 =>
    if readable k then (k :: (collect readable ks n).1, (collect readable ks n).2)
    else collect readable ks (n + 1)

namespace Readiness

def report (r : Readiness κ) (readable : κ → Bool) (n : ℕ) : List κ × Readiness κ :=
  ((collect readable r.ready n).1, { r with ready := (collect readable r.ready n).2 })

def watch (r : Readiness κ) (k : κ) (readable : Bool) : Readiness κ :=
  { watched := r.watched ++ [k]
    ready := if readable then r.ready ++ [k] else r.ready }

def Covers (r : Readiness κ) (readable : κ → Bool) (owed : List κ) : Prop :=
  ∀ k ∈ r.watched, readable k = true → k ∈ r.ready ∨ k ∈ owed

structure WellQueued (r : Readiness κ) : Prop where
  nodup : r.ready.Nodup
  watched : ∀ k ∈ r.ready, k ∈ r.watched

end Readiness

section Collect

variable (readable : κ → Bool)

theorem collect_suffix (ks : List κ) (n : ℕ) : (collect readable ks n).2 <:+ ks := by
  induction ks generalizing n with
  | nil => exact List.suffix_rfl
  | cons k ks ih =>
    cases n with
    | zero => exact List.suffix_rfl
    | succ n =>
      rw [collect]
      split_ifs
      · exact (ih n).trans (List.suffix_cons k ks)
      · exact (ih (n + 1)).trans (List.suffix_cons k ks)

theorem collect_sublist (ks : List κ) (n : ℕ) :
    ((collect readable ks n).1 ++ (collect readable ks n).2).Sublist ks := by
  induction ks generalizing n with
  | nil => exact List.Sublist.refl _
  | cons k ks ih =>
    cases n with
    | zero => exact List.Sublist.refl _
    | succ n =>
      rw [collect]
      split_ifs
      · exact (ih n).cons_cons k
      · exact (ih (n + 1)).cons k

theorem mem_collect_of_readable {ks : List κ} {k : κ} (hk : k ∈ ks) (hr : readable k = true)
    (n : ℕ) : k ∈ (collect readable ks n).1 ∨ k ∈ (collect readable ks n).2 := by
  induction ks generalizing n with
  | nil => cases hk
  | cons k' ks ih =>
    cases n with
    | zero => exact Or.inr hk
    | succ n =>
      rw [collect]
      rcases List.mem_cons.mp hk with rfl | hk
      · rw [if_pos hr]
        exact Or.inl List.mem_cons_self
      · split_ifs
        · exact (ih hk n).imp_left (List.mem_cons_of_mem k')
        · exact ih hk (n + 1)

theorem collect_congr {readable readable' : κ → Bool} {ks : List κ}
    (h : ∀ k ∈ ks, readable k = readable' k) (n : ℕ) :
    collect readable ks n = collect readable' ks n := by
  induction ks generalizing n with
  | nil => rfl
  | cons k ks ih =>
    have ih := ih fun k' hk' => h k' (List.mem_cons_of_mem k hk')
    cases n with
    | zero => rfl
    | succ n => simp only [collect, h k List.mem_cons_self, ih]

theorem collect_shortens {ks : List κ} (hks : ks ≠ []) {n : ℕ} (hn : 0 < n) :
    (collect readable ks n).1.length + (collect readable ks n).2.length ≤ ks.length ∧
      (collect readable ks n).2.length < ks.length := by
  obtain ⟨n, rfl⟩ : ∃ m, n = m + 1 := ⟨n - 1, by omega⟩
  have hle := (collect_sublist readable ks (n + 1)).length_le
  rw [List.length_append] at hle
  refine ⟨hle, ?_⟩
  cases ks with
  | nil => exact absurd rfl hks
  | cons k ks =>
    rw [collect]
    split_ifs
    · exact Nat.lt_succ_of_le (collect_suffix readable ks n).length_le
    · exact Nat.lt_succ_of_le (collect_suffix readable ks (n + 1)).length_le

variable [DecidableEq κ]

theorem idxOf_collect {ks : List κ} {k : κ} (hk : k ∈ ks) (hr : readable k = true) (n : ℕ) :
    k ∈ (collect readable ks n).1 ∨
      k ∈ (collect readable ks n).2 ∧ (collect readable ks n).2.idxOf k + n ≤ ks.idxOf k := by
  induction ks generalizing n with
  | nil => cases hk
  | cons k' ks ih =>
    cases n with
    | zero => exact Or.inr ⟨hk, Nat.le_refl _⟩
    | succ n =>
      rw [collect]
      by_cases he : k' = k
      · rw [he, if_pos hr]
        exact Or.inl List.mem_cons_self
      · have hm := List.mem_of_ne_of_mem (Ne.symm he) hk
        rw [List.idxOf_cons_ne ks he]
        split_ifs
        · refine (ih hm n).imp (List.mem_cons_of_mem k') fun hrest => ⟨hrest.1, ?_⟩
          exact Nat.succ_le_succ hrest.2
        · refine (ih hm (n + 1)).imp_right fun hrest => ⟨hrest.1, ?_⟩
          exact Nat.le_succ_of_le hrest.2

theorem idxOf_filter_le {p : κ → Bool} {k : κ} (hp : p k = true) (ks : List κ) :
    (ks.filter p).idxOf k ≤ ks.idxOf k := by
  induction ks with
  | nil => exact Nat.le_refl _
  | cons k' ks ih =>
    by_cases he : k' = k
    · subst he
      rw [List.filter_cons_of_pos hp, List.idxOf_cons_self]
      exact Nat.zero_le _
    · rw [List.idxOf_cons_ne ks he, List.filter_cons]
      split_ifs
      · rw [List.idxOf_cons_ne _ he]
        exact Nat.succ_le_succ ih
      · exact Nat.le_succ_of_le ih

end Collect

namespace Readiness

variable {r : Readiness κ} {readable readable' : κ → Bool} {owed : List κ} {k : κ}

theorem WellQueued.watch (h : r.WellQueued) (hk : k ∉ r.watched) (b : Bool) :
    (r.watch k b).WellQueued := by
  have hq : k ∉ r.ready := fun hm => hk (h.watched k hm)
  simp only [Readiness.watch]
  split_ifs
  · refine ⟨List.nodup_append.mpr ⟨h.nodup, List.nodup_singleton k, ?_⟩, ?_⟩
    · intro a ha b hb hab
      exact hq (List.mem_singleton.mp hb ▸ hab ▸ ha)
    · intro a ha
      exact (List.mem_append.mp ha).elim (fun ha => List.mem_append_left _ (h.watched a ha))
        (List.mem_append_right _)
  · exact ⟨h.nodup, fun a ha => List.mem_append_left _ (h.watched a ha)⟩

theorem WellQueued.report (h : r.WellQueued) (readable : κ → Bool) (n : ℕ) :
    (r.report readable n).2.WellQueued :=
  ⟨h.nodup.sublist (collect_suffix readable r.ready n).sublist,
    fun k hk => h.watched k ((collect_suffix readable r.ready n).subset hk)⟩

theorem WellQueued.reported (h : r.WellQueued) (readable : κ → Bool) (n : ℕ) :
    (r.report readable n).1.Nodup ∧ ∀ k ∈ (r.report readable n).1, k ∈ r.watched := by
  have hsub := collect_sublist readable r.ready n
  have hleft : (r.report readable n).1.Sublist r.ready := (List.sublist_append_left _ _).trans hsub
  exact ⟨h.nodup.sublist hleft, fun k hk => h.watched k (hleft.subset hk)⟩

theorem Covers.mono {owed' : List κ} (h : r.Covers readable owed)
    (ho : ∀ k ∈ owed, readable k = true → k ∈ r.ready ∨ k ∈ owed') : r.Covers readable owed' :=
  fun k hk hr => (h k hk hr).elim Or.inl fun hm => ho k hm hr

theorem Covers.of_le (h : r.Covers readable owed)
    (hle : ∀ k, readable' k = true → readable k = true) : r.Covers readable' owed :=
  fun k hk hr => h k hk (hle k hr)

theorem Covers.watch (h : r.Covers readable owed) (k : κ) :
    (r.watch k (readable k)).Covers readable owed := by
  intro a ha hra
  simp only [Readiness.watch] at ha ⊢
  rcases List.mem_append.mp ha with ha | ha
  · refine (h a ha hra).imp_left fun hm => ?_
    split_ifs
    · exact List.mem_append_left _ hm
    · exact hm
  · obtain rfl := List.mem_singleton.mp ha
    rw [if_pos hra]
    exact Or.inl (List.mem_append_right _ ha)

theorem Covers.report (h : r.Covers readable owed) (n : ℕ) :
    (r.report readable n).2.Covers readable ((r.report readable n).1 ++ owed) := by
  intro a ha hra
  rcases h a ha hra with hm | hm
  · exact (mem_collect_of_readable readable hm hra n).symm.imp_right (List.mem_append_left _)
  · exact Or.inr (List.mem_append_right _ hm)

theorem Covers.drained (h : r.Covers readable (k :: owed)) (hk : readable k = false) :
    r.Covers readable owed := by
  refine h.mono fun a ha hra => Or.inr ?_
  rcases List.mem_cons.mp ha with rfl | ha
  · rw [hk] at hra
    cases hra
  · exact ha

variable [DecidableEq κ]

def notify (r : Readiness κ) (k : κ) : Readiness κ :=
  { r with ready := if k ∈ r.watched ∧ k ∉ r.ready then r.ready ++ [k] else r.ready }

def unwatch (r : Readiness κ) (k : κ) : Readiness κ :=
  { watched := r.watched.filter fun k' => k' ≠ k
    ready := r.ready.filter fun k' => k' ≠ k }

theorem WellQueued.notify (h : r.WellQueued) (k : κ) : (r.notify k).WellQueued := by
  simp only [Readiness.notify]
  split_ifs with hk
  · refine ⟨List.nodup_append.mpr ⟨h.nodup, List.nodup_singleton k, ?_⟩, ?_⟩
    · intro a ha b hb hab
      exact hk.2 (List.mem_singleton.mp hb ▸ hab ▸ ha)
    · intro a ha
      rcases List.mem_append.mp ha with ha | ha
      · exact h.watched a ha
      · exact List.mem_singleton.mp ha ▸ hk.1
  · exact ⟨h.nodup, h.watched⟩

theorem WellQueued.unwatch (h : r.WellQueued) (k : κ) : (r.unwatch k).WellQueued := by
  refine ⟨h.nodup.filter _, fun a ha => ?_⟩
  obtain ⟨ha, hne⟩ := List.mem_filter.mp ha
  exact List.mem_filter.mpr ⟨h.watched a ha, hne⟩

theorem Covers.notify (h : r.Covers readable owed)
    (hr : ∀ k' ≠ k, readable' k' = true → readable k' = true) :
    (r.notify k).Covers readable' owed := by
  intro a ha hra
  by_cases hak : a = k
  · subst hak
    left
    simp only [Readiness.notify]
    split_ifs with hn
    · exact List.mem_append_right _ (List.mem_singleton_self a)
    · by_contra hm
      exact hn ⟨ha, hm⟩
  · refine (h a ha (hr a hak hra)).imp_left fun hm => ?_
    simp only [Readiness.notify]
    split_ifs
    · exact List.mem_append_left _ hm
    · exact hm

theorem Covers.unwatch (h : r.Covers readable owed) (k : κ) :
    (r.unwatch k).Covers readable (owed.filter fun a => a ≠ k) := by
  intro a ha hra
  obtain ⟨ha, hne⟩ := List.mem_filter.mp ha
  exact (h a ha hra).imp (fun hm => List.mem_filter.mpr ⟨hm, hne⟩)
    fun hm => List.mem_filter.mpr ⟨hm, hne⟩

end Readiness

end HttpReactor.EdgeTriggered
