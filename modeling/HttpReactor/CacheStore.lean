import HttpReactor.CacheRefinement
import Mathlib.Data.List.Perm.Subperm

/-!
# The cache with its invariant

A `Store` is a cache together with its invariant. On it the operations never fail,
and their effect is what they do to the list of entries read off the chain.
-/

namespace HttpReactor
open LruStore

namespace Cache

def follow (c : Cache) : ℕ → Addr → List Addr
  | 0, _ => []
  | fuel + 1, a =>
    match c.next a with
    | none => []
    | some b => if b = c.tail then [] else b :: c.follow fuel b

def nodes (c : Cache) : List Addr := c.follow c.nextFree c.head

theorem follow_eq {c : Cache} {ns : List Addr} {fuel : ℕ} {a : Addr}
    (h : LinkedChain.Linked c.next c.prev ([a] ++ (ns ++ [c.tail]))) (hf : ns.length < fuel) :
    c.follow fuel a = ns := by
  induction ns generalizing fuel a with
  | nil =>
    obtain ⟨fuel, rfl⟩ : ∃ n, fuel = n + 1 := ⟨fuel - 1, by simp at hf; omega⟩
    have hn : c.next a = some c.tail := (h.link rfl List.head?_cons).1
    simp [follow, hn]
  | cons b ns ih =>
    rw [List.length_cons] at hf
    obtain ⟨fuel, rfl⟩ : ∃ n, fuel = n + 1 := ⟨fuel - 1, by omega⟩
    have hn : c.next a = some b := (h.link rfl List.head?_cons).1
    have hnd : (b :: (ns ++ [c.tail])).Nodup := (List.nodup_append.mp h.nodup).2.1
    have hbt : b ≠ c.tail := by
      intro he
      subst he
      exact (List.nodup_cons.mp hnd).1 (List.mem_append_right _ List.mem_cons_self)
    have ht : LinkedChain.Linked c.next c.prev ([b] ++ (ns ++ [c.tail])) :=
      ⟨(List.isChain_append.mp h.chain).2.1, hnd⟩
    have hrest : c.follow fuel b = ns := ih ht (by omega)
    simp [follow, hn, hbt, hrest]

theorem Wf.nodes_eq {c : Cache} {ns : List Addr} (h : Wf c ns) : c.nodes = ns := by
  refine follow_eq h.linked ?_
  have hnd : (c.head :: ns).Nodup := (List.nodup_append.mp h.linked.nodup).1
  have hsub : c.head :: ns ⊆ List.range c.nextFree := fun a ha =>
    List.mem_range.mpr (h.fresh a (h.live a (List.mem_append_left _ ha)))
  exact (List.subperm_of_subset hnd hsub).length_le.trans_eq List.length_range

end Cache

structure Store where
  cache : Cache
  wf : ∃ ns, Cache.Wf cache ns

namespace Store

def entries (s : Store) : Entries Bytes Bytes := s.cache.entries s.cache.nodes

def capacity (s : Store) : ℕ := s.cache.capacity

def okOr {ε α : Type} (x : Except ε α) (default : α) : α :=
  match x with
  | .ok a => a
  | .error _ => default

theorem represents (s : Store) : Cache.Represents s.capacity s.cache s.entries := by
  obtain ⟨ns, hwf⟩ := s.wf
  exact ⟨ns, hwf, by rw [entries, hwf.nodes_eq], rfl⟩

theorem entries_of_represents {c : Cache} {capacity : ℕ} {es : Entries Bytes Bytes}
    (h : Cache.Represents capacity c es) (hwf : ∃ ns, Cache.Wf c ns) :
    (Store.mk c hwf).entries = es := by
  obtain ⟨ns, hns, rfl, -⟩ := h
  rw [entries, hns.nodes_eq]

def new (now : Int) (capacity : UInt64) : Store :=
  ⟨Cache.new now capacity, [], Cache.new_wf now capacity⟩

@[simp] theorem new_entries (now : Int) (capacity : UInt64) : (new now capacity).entries = [] :=
  entries_of_represents (Cache.new_represents now capacity) _

theorem tryLoad_wf (s : Store) (now : Int) (url : Bytes) (dst : DynamicByteArray) :
    ∃ ns, Cache.Wf (okOr (s.cache.tryLoad now url dst) ((false, dst), s.cache)).2 ns := by
  have hr := Cache.tryLoad_refines s.represents now url dst
  cases hl : load url s.entries with
  | none =>
    simp only [hl] at hr
    rw [hr]
    exact s.wf
  | some r =>
    simp only [hl] at hr
    obtain ⟨c', h', ns, hwf, -⟩ := hr
    rw [h']
    exact ⟨ns, hwf⟩

def tryLoad (s : Store) (now : Int) (url : Bytes) (dst : DynamicByteArray) :
    (Bool × DynamicByteArray) × Store :=
  ((okOr (s.cache.tryLoad now url dst) ((false, dst), s.cache)).1,
    ⟨(okOr (s.cache.tryLoad now url dst) ((false, dst), s.cache)).2, s.tryLoad_wf now url dst⟩)

theorem tryLoad_hit {s : Store} {url bytes : Bytes} {es : Entries Bytes Bytes}
    (h : load url s.entries = some (bytes, es)) (now : Int) (dst : DynamicByteArray) :
    (s.tryLoad now url dst).1 = (true, dst ++ bytes) ∧ (s.tryLoad now url dst).2.entries = es := by
  have hr := Cache.tryLoad_refines s.represents now url dst
  simp only [h] at hr
  obtain ⟨c', h', hrep⟩ := hr
  constructor
  · simp [tryLoad, h', okOr]
  · have hc : (okOr (s.cache.tryLoad now url dst) ((false, dst), s.cache)).2 = c' := by
      rw [h']; rfl
    exact entries_of_represents (hc ▸ hrep) _

theorem tryLoad_miss {s : Store} {url : Bytes} (h : load url s.entries = none) (now : Int)
    (dst : DynamicByteArray) : s.tryLoad now url dst = ((false, dst), s) := by
  have hr := Cache.tryLoad_refines s.represents now url dst
  simp only [h] at hr
  simp [tryLoad, hr, okOr]

theorem tryInsert_wf (s : Store) (now : Int) (url : Bytes) (source : DynamicByteArray) :
    ∃ ns, Cache.Wf (okOr (s.cache.tryInsert now url source) (false, s.cache)).2 ns := by
  obtain ⟨ns, hwf⟩ := s.wf
  have hr := hwf.tryInsert_spec now url source
  cases hl : LruStore.insert List.length s.cache.capacity url source (s.cache.entries ns) with
  | none =>
    simp only [hl] at hr
    rw [hr]
    exact ⟨ns, hwf⟩
  | some es =>
    simp only [hl] at hr
    obtain ⟨c', ns', h', hwf', -⟩ := hr
    rw [h']
    exact ⟨ns', hwf'⟩

def tryInsert (s : Store) (now : Int) (url : Bytes) (source : DynamicByteArray) : Bool × Store :=
  ((okOr (s.cache.tryInsert now url source) (false, s.cache)).1,
    ⟨(okOr (s.cache.tryInsert now url source) (false, s.cache)).2, s.tryInsert_wf now url source⟩)

theorem tryInsert_entries (s : Store) (now : Int) (url : Bytes) (source : DynamicByteArray) :
    (s.tryInsert now url source).2.entries =
      (LruStore.insert List.length s.capacity url source s.entries).getD s.entries := by
  obtain ⟨ns, hwf⟩ := s.wf
  have hr := hwf.tryInsert_spec now url source
  have hes : s.entries = s.cache.entries ns := by rw [entries, hwf.nodes_eq]
  rw [hes, capacity]
  cases hl : LruStore.insert List.length s.cache.capacity url source (s.cache.entries ns) with
  | none =>
    simp only [hl] at hr
    have hc : (okOr (s.cache.tryInsert now url source) (false, s.cache)).2 = s.cache := by
      rw [hr]; rfl
    have hrep : Cache.Represents s.cache.capacity s.cache (s.cache.entries ns) :=
      ⟨ns, hwf, rfl, rfl⟩
    exact entries_of_represents (by rw [hc]; exact hrep) _
  | some es =>
    simp only [hl] at hr
    obtain ⟨c', ns', h', hwf', hcap, rfl⟩ := hr
    have hc : (okOr (s.cache.tryInsert now url source) (false, s.cache)).2 = c' := by
      rw [h']; rfl
    have hrep : Cache.Represents s.cache.capacity c' (c'.entries ns') := ⟨ns', hwf', rfl, hcap⟩
    exact entries_of_represents (by rw [hc]; exact hrep) _

theorem mem_tryInsert_entries {s : Store} {now : Int} {url source : Bytes} {e : Bytes × Bytes}
    (h : e ∈ (s.tryInsert now url source).2.entries) : e ∈ s.entries ∨ e = (url, source) := by
  rw [tryInsert_entries] at h
  unfold LruStore.insert at h
  split_ifs at h with hno
  · exact Or.inl h
  · rw [Option.getD_some, List.mem_append, List.mem_singleton] at h
    refine h.imp_left fun hm => ?_
    obtain ⟨k, hk, -⟩ := dropToFit_shortest List.length
      (not_lt.mp (not_or.mp hno).2) s.entries
    rw [hk] at hm
    exact List.mem_of_mem_drop hm

end Store

end HttpReactor
