import HttpReactor.CacheInvariant

/-!
# The cache refines a least-recently-used store

Runs of the cache, one call at a time, against runs of the store of `LruStore`. A
reply holds everything a caller observes: the returned value, the destination buffer
and the occupancy.
-/

namespace HttpReactor
open LruStore Refinement

inductive CacheOp
  | tryLoad (now : Int) (resourceUrl : Bytes) (destination : DynamicByteArray)
  | tryInsert (now : Int) (resourceUrl : Bytes) (source : DynamicByteArray)
  | clear
deriving DecidableEq, Repr

structure CacheReply where
  result : Option Bool
  destination : Option DynamicByteArray
  occupancy : ℕ
deriving DecidableEq, Repr

def Cache.step (c : Cache) : CacheOp → Except CacheFault (CacheReply × Cache)
  | .tryLoad now url dst => do
    let r ← c.tryLoad now url dst
    return (⟨some r.1.1, some r.1.2, r.2.getOccupancy⟩, r.2)
  | .tryInsert now url source => do
    let r ← c.tryInsert now url source
    return (⟨some r.1, none, r.2.getOccupancy⟩, r.2)
  | .clear => do
    let c ← c.clear
    return (⟨none, none, c.getOccupancy⟩, c)

/-- The abstract store of urls and bytes, the least recently used first. -/
def lruStep (capacity : ℕ) (es : Entries Bytes Bytes) : CacheOp → CacheReply × Entries Bytes Bytes
  | .tryLoad _ url dst =>
    match load url es with
    | some (bytes, es') => (⟨some true, some (dst ++ bytes), total List.length es'⟩, es')
    | none => (⟨some false, some dst, total List.length es⟩, es)
  | .tryInsert _ url source =>
    match LruStore.insert List.length capacity url source es with
    | some es' => (⟨some true, none, total List.length es'⟩, es')
    | none => (⟨some false, none, total List.length es⟩, es)
  | .clear => (⟨none, none, 0⟩, [])

namespace Cache

def Represents (capacity : ℕ) (c : Cache) (es : Entries Bytes Bytes) : Prop :=
  ∃ ns, Wf c ns ∧ c.entries ns = es ∧ c.capacity = capacity

theorem Represents.occupancy {capacity : ℕ} {c : Cache} {es : Entries Bytes Bytes}
    (h : Represents capacity c es) : c.getOccupancy = total List.length es := by
  obtain ⟨ns, hwf, rfl, -⟩ := h
  exact hwf.occupancy

theorem new_represents (now : Int) (capacity : UInt64) :
    Represents capacity.toNat (Cache.new now capacity) [] :=
  ⟨[], new_wf now capacity, rfl, rfl⟩

theorem tryLoad_refines {capacity : ℕ} {c : Cache} {es : Entries Bytes Bytes}
    (h : Represents capacity c es) (now : Int) (url : Bytes) (dst : DynamicByteArray) :
    match load url es with
    | some (bytes, es') => ∃ c', c.tryLoad now url dst = .ok ((true, dst ++ bytes), c') ∧
        Represents capacity c' es'
    | none => c.tryLoad now url dst = .ok ((false, dst), c) := by
  obtain ⟨ns, hwf, rfl, hcap⟩ := h
  cases hl : c.mapping.lookup url with
  | none =>
    have hk : url ∉ (c.entries ns).map Prod.fst := by
      rw [← hwf.mem_keys_iff, hl]
      simp
    rw [load_of_notMem hk]
    exact Wf.tryLoad_miss hl now dst
  | some x =>
    obtain ⟨hx, hkey⟩ := hwf.lookup_iff.mp hl
    obtain ⟨xs, ys, rfl⟩ := List.append_of_mem hx
    obtain ⟨c', h', hwf', hcap', hentry⟩ := hwf.tryLoad_hit hl now dst
    have hes : c.entries (xs ++ x :: ys) =
        c.entries xs ++ (url, (c.entry x).2) :: c.entries ys := by
      simp [entries, ← hkey]
    rw [hes, load_middle (hes ▸ hwf.entries_keys_nodup)]
    refine ⟨c', h', _, hwf', ?_, hcap'.trans hcap⟩
    simp [entries, hentry, ← hkey]

theorem step_refines (capacity : ℕ) (c : Cache) (es : Entries Bytes Bytes) (op : CacheOp)
    (h : Represents capacity c es) :
    ∃ c', c.step op = .ok ((lruStep capacity es op).1, c') ∧
      Represents capacity c' (lruStep capacity es op).2 := by
  have hocc := h.occupancy
  cases op with
  | tryLoad now url dst =>
    have hr := tryLoad_refines h now url dst
    simp only [lruStep, step]
    cases hl : load url es with
    | none =>
      simp only [hl] at hr
      exact ⟨c, by simp [hr, hocc], h⟩
    | some r =>
      obtain ⟨bytes, es'⟩ := r
      simp only [hl] at hr
      obtain ⟨c', h', hrep⟩ := hr
      exact ⟨c', by simp [h', hrep.occupancy], hrep⟩
  | tryInsert now url source =>
    obtain ⟨ns, hwf, rfl, rfl⟩ := h
    have hr := hwf.tryInsert_spec now url source
    simp only [lruStep, step]
    cases hl : LruStore.insert List.length c.capacity url source (c.entries ns) with
    | none =>
      simp only [hl] at hr
      exact ⟨c, by simp [hr, hocc], ns, hwf, rfl, rfl⟩
    | some es' =>
      simp only [hl] at hr
      obtain ⟨c', ns', h', hwf', hcap', rfl⟩ := hr
      have hrep : Represents c.capacity c' (c'.entries ns') := ⟨ns', hwf', rfl, hcap'⟩
      exact ⟨c', by simp [h', hrep.occupancy], hrep⟩
  | clear =>
    obtain ⟨ns, hwf, rfl, rfl⟩ := h
    obtain ⟨c', h', hwf', hcap'⟩ := hwf.clear_spec
    have hrep : Represents c.capacity c' [] := ⟨[], hwf', rfl, hcap'⟩
    exact ⟨c', by simp [lruStep, step, h', hrep.occupancy], hrep⟩

/-- For every capacity and every sequence of calls the cache answers as the store does. -/
theorem cache_refines_lru (now : Int) (capacity : UInt64) (ops : List CacheOp) :
    ∃ c, runM step (Cache.new now capacity) ops =
      .ok ((run (lruStep capacity.toNat) [] ops).1, c) := by
  obtain ⟨c, h, -⟩ := runM_refines (step_refines capacity.toNat) ops (new_represents now capacity)
  exact ⟨c, h⟩

def Reachable (capacity : UInt64) (c : Cache) : Prop :=
  ∃ now ops replies, runM step (Cache.new now capacity) ops = .ok (replies, c)

theorem Reachable.wf {capacity : UInt64} {c : Cache} (h : Reachable capacity c) :
    ∃ ns, Wf c ns ∧ c.capacity = capacity.toNat := by
  obtain ⟨now, ops, replies, hrun⟩ := h
  obtain ⟨c', h', ns, hwf, -, hcap⟩ :=
    runM_refines (step_refines capacity.toNat) ops (new_represents now capacity)
  rw [h'] at hrun
  obtain ⟨-, rfl⟩ : _ ∧ c' = c := by simpa using hrun
  exact ⟨ns, hwf, hcap⟩

inductive EvictionState (sourceSize : ℕ) (c : Cache) : Cache → Prop
  | entered : EvictionState sourceSize c c
  | iterated {c' c'' : Cache} : EvictionState sourceSize c c' →
      c'.evictionNeeded sourceSize = true → c'.evictFirst = .ok c'' →
      EvictionState sourceSize c c''

theorem EvictionState.wf {n : ℕ} {c c' : Cache} {ns : List Addr} (hwf : Wf c ns)
    (h : EvictionState n c c') : ∃ ns', Wf c' ns' := by
  induction h with
  | entered => exact ⟨ns, hwf⟩
  | iterated _ hev hstep ih =>
    obtain ⟨ns', hwf'⟩ := ih
    cases ns' with
    | nil => exact absurd rfl (hwf'.evictionNeeded_iff.mp hev).1
    | cons x ns' =>
      obtain ⟨c₁, h₁, hwf₁, -⟩ := hwf'.evictFirst_spec
      rw [h₁] at hstep
      cases hstep
      exact ⟨ns', hwf₁⟩

theorem Wf.evicting {c : Cache} {ns : List Addr} {n : ℕ} (h : Wf c ns)
    (hev : c.evictionNeeded n = true) :
    ∃ x key data, c.next c.head = some x ∧ x ≠ c.tail ∧ c.payload x = some (key, data) ∧
      c.mapping.lookup key = some x ∧ data.length ≤ c.occupancy ∧
      sizeSub c.capacity c.occupancy = c.capacity - c.occupancy := by
  cases ns with
  | nil => exact absurd rfl (h.evictionNeeded_iff.mp hev).1
  | cons x ns =>
    obtain ⟨c', -, -, -, -, -, hocc⟩ := h.evictFirst_spec
    have hl : LinkedChain.Linked c.next c.prev ([c.head] ++ (x :: ns ++ [c.tail])) := h.linked
    have hne : x ≠ c.tail := fun he => h.notMem_chain_of_cons (he ▸ tail_mem_chain c ns)
    exact ⟨x, (c.entry x).1, (c.entry x).2, (hl.link rfl List.head?_cons).1, hne,
      h.payload_of_mem List.mem_cons_self, h.lookup_iff.mpr ⟨List.mem_cons_self, rfl⟩, by omega,
      sizeSub_of_le h.fits h.bounded⟩

/-- Every reachable cache is well formed, and so is every state of the eviction loop that
`TryInsert` enters from it; the loop ends with room for the new resource. -/
theorem cache_invariant (capacity : UInt64) (c : Cache) (hc : Reachable capacity c) :
    (∃ ns, Wf c ns) ∧ sizeSub c.capacity c.occupancy = c.capacity - c.occupancy ∧
    ∀ source : DynamicByteArray, source.length ≤ c.capacity →
      (∀ c', EvictionState source.length c c' → c'.evictionNeeded source.length = true →
        ∃ x key data, c'.next c'.head = some x ∧ x ≠ c'.tail ∧ c'.payload x = some (key, data) ∧
          c'.mapping.lookup key = some x ∧ data.length ≤ c'.occupancy ∧
          sizeSub c'.capacity c'.occupancy = c'.capacity - c'.occupancy) ∧
      ∃ c', evictLoop source.length c.mapping.length c = .ok c' ∧
        c'.capacity = c.capacity ∧ source.length ≤ c'.capacity - c'.occupancy := by
  obtain ⟨ns, hwf, -⟩ := hc.wf
  refine ⟨⟨ns, hwf⟩, sizeSub_of_le hwf.fits hwf.bounded, fun source hs => ⟨?_, ?_⟩⟩
  · intro c' hst hev
    obtain ⟨ns', hwf'⟩ := hst.wf hwf
    exact hwf'.evicting hev
  · obtain ⟨c', ns', h', hwf', hcap, -, hfit⟩ := hwf.evictLoop_spec hs le_rfl
    exact ⟨c', h', hcap, by omega⟩

theorem cache_invariant_after_eviction :
    ∃ c, Reachable 3 c ∧ c.mapping.map Prod.fst = [[99], [98]] ∧ ∃ ns, Wf c ns := by
  have hr : Reachable 3 _ := ⟨0, [.tryInsert 0 [97] [1, 2], .tryInsert 1 [98] [3],
    .tryInsert 2 [99] [4]], _, rfl⟩
  exact ⟨_, hr, rfl, (cache_invariant 3 _ hr).1⟩

end Cache

end HttpReactor
