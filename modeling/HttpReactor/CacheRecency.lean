import HttpReactor.AccessLog
import HttpReactor.CacheRefinement

/-!
# The order of the cache list is the order of the last accesses

Each node carries the url it was made for and the time it was last stamped. Along the chain
these stamps are the last successful accesses of the cached urls, in the order of the run
(`run_inOrder`). Linking and unlinking leave the stamps alone, a hit and an insertion put a new
stamp at the end, and the eviction loop takes stamps from the front.
-/

namespace HttpReactor
open LruStore Refinement AccessLog

/-- The url and the time of a call that has accessed a resource. Only such calls read the
clock. -/
def accessOf : CacheOp × CacheReply → Option (Bytes × Int)
  | (.tryLoad now url _, reply) => if reply.result = some true then some (url, now) else none
  | (.tryInsert now url _, reply) => if reply.result = some true then some (url, now) else none
  | (.clear, _) => none

namespace Cache

variable {c c' : Cache} {ns : List Addr}

def lastAccess (c : Cache) (a : Addr) : Option Int := (c.heap a).map CacheNode.lastAccess

def stamp (c : Cache) (a : Addr) : Bytes × Int := ((c.entry a).1, (c.lastAccess a).getD 0)

def stamps (c : Cache) (ns : List Addr) : List (Bytes × Int) := ns.map c.stamp

/-! ## What the primitives do to the stamps -/

theorem modify_lastAccess {p : Option Addr} {f : CacheNode → CacheNode}
    (h : c.modify p f = .ok c') (hf : ∀ node, (f node).lastAccess = node.lastAccess) :
    c'.lastAccess = c.lastAccess := by
  cases p with
  | none => cases h
  | some a =>
    rw [modify] at h
    cases hnode : c.heap a with
    | none =>
      rw [hnode] at h
      cases h
    | some node =>
      rw [hnode] at h
      cases h
      funext b
      by_cases hb : b = a <;> simp [lastAccess, hb, hnode, hf]

theorem setNext_lastAccess {p v : Option Addr} (h : c.setNext p v = .ok c') :
    c'.lastAccess = c.lastAccess :=
  modify_lastAccess h fun _ => rfl

theorem setPrev_lastAccess {p v : Option Addr} (h : c.setPrev p v = .ok c') :
    c'.lastAccess = c.lastAccess :=
  modify_lastAccess h fun _ => rfl

theorem detach_lastAccess {x : Addr} (h : c.detach x = .ok c') :
    c'.lastAccess = c.lastAccess := by
  obtain ⟨node, -, h⟩ := bind_eq_ok h
  obtain ⟨c₁, hnext, h⟩ := bind_eq_ok h
  obtain ⟨node', -, hprev⟩ := bind_eq_ok h
  rw [setPrev_lastAccess hprev, setNext_lastAccess hnext]

theorem appendToListTail_lastAccess {x : Addr} (h : c.appendToListTail x = .ok c') :
    c'.lastAccess = c.lastAccess := by
  obtain ⟨tail, -, h⟩ := bind_eq_ok h
  obtain ⟨c₁, h₁, h⟩ := bind_eq_ok h
  obtain ⟨c₂, h₂, h⟩ := bind_eq_ok h
  obtain ⟨c₃, h₃, h₄⟩ := bind_eq_ok h
  rw [setNext_lastAccess h₄, setPrev_lastAccess h₃, setPrev_lastAccess h₂, setNext_lastAccess h₁]

theorem updateTimestamp_lastAccess {x : Addr} {now : Int} (h : c.updateTimestamp x now = .ok c') :
    c'.lastAccess = Function.update c.lastAccess x (some now) := by
  rw [updateTimestamp, modify] at h
  cases hnode : c.heap x with
  | none =>
    rw [hnode] at h
    cases h
  | some node =>
    rw [hnode] at h
    cases h
    funext b
    by_cases hb : b = x <;> simp [lastAccess, hb]

theorem eraseVictim_lastAccess {key : Bytes} {x : Addr} {size : ℕ} :
    (c.eraseVictim key x size).lastAccess = Function.update c.lastAccess x none := by
  funext b
  by_cases hb : b = x <;> simp [eraseVictim, lastAccess, hb]

theorem makeNode_lastAccess {now : Int} {url source : Bytes} :
    (c.makeNode now url source).lastAccess =
      Function.update c.lastAccess c.nextFree (some now) := by
  funext b
  by_cases hb : b = c.nextFree <;> simp [makeNode, lastAccess, hb]

theorem stamp_congr {a : Addr} (hentry : c'.entry a = c.entry a)
    (htime : c'.lastAccess a = c.lastAccess a) : c'.stamp a = c.stamp a := by
  rw [stamp, stamp, hentry, htime]

/-! ## What the calls do to the stamps -/

theorem Wf.tryLoad_stamps {x : Addr} {xs ys : List Addr} (h : Wf c (xs ++ x :: ys)) {k : Bytes}
    (hk : c.mapping.lookup k = some x) (now : Int) (dst : DynamicByteArray) :
    ∃ c', c.tryLoad now k dst = .ok ((true, dst ++ (c.entry x).2), c') ∧
      Wf c' (xs ++ ys ++ [x]) ∧
      c'.stamps (xs ++ ys ++ [x]) = c.stamps (xs ++ ys) ++ [(k, now)] := by
  obtain ⟨c', hload, hwf, -, hentry⟩ := h.tryLoad_hit hk now dst
  have htime : c'.lastAccess = Function.update c.lastAccess x (some now) := by
    rw [tryLoad, hk] at hload
    obtain ⟨node, -, hload⟩ := bind_eq_ok hload
    obtain ⟨c₁, hdetach, hload⟩ := bind_eq_ok hload
    obtain ⟨c₂, happend, hload⟩ := bind_eq_ok hload
    obtain ⟨c₃, hupdate, hload⟩ := bind_eq_ok hload
    simp only [pure_eq_ok, Except.ok.injEq, Prod.mk.injEq] at hload
    obtain ⟨-, rfl⟩ := hload
    rw [updateTimestamp_lastAccess hupdate, appendToListTail_lastAccess happend,
      detach_lastAccess hdetach]
  have hne : ∀ a ∈ xs ++ ys, a ≠ x := by
    intro a ha heq
    have hnodup := List.perm_middle.nodup_iff.mp h.nodup
    exact (List.nodup_cons.mp hnodup).1 (heq ▸ ha)
  refine ⟨c', hload, hwf, ?_⟩
  have hold : ∀ a ∈ xs ++ ys, c'.stamp a = c.stamp a := by
    intro a ha
    refine stamp_congr (by rw [hentry]) ?_
    rw [htime, Function.update_of_ne (hne a ha)]
  have hnew : c'.stamp x = (k, now) := by
    rw [stamp, hentry, (h.lookup_iff.mp hk).2, htime, Function.update_self]
    rfl
  rw [stamps, List.map_append, List.map_congr_left hold, List.map_singleton, hnew]
  rfl

theorem Wf.evictFirst_stamps {x : Addr} (h : Wf c (x :: ns)) :
    ∃ c', c.evictFirst = .ok c' ∧ Wf c' ns ∧ c'.stamps ns = c.stamps ns := by
  obtain ⟨c', hevict, hwf, -, hentries, -, -⟩ := h.evictFirst_spec
  have htime : ∀ a, c'.lastAccess a = c.lastAccess a ∨ c'.lastAccess a = none := by
    intro a
    obtain ⟨head, -, hstep⟩ := bind_eq_ok hevict
    obtain ⟨node, -, hstep⟩ := bind_eq_ok hstep
    split at hstep
    · cases hstep
    · next victim hlook =>
      obtain ⟨c₁, hdetach, hstep⟩ := bind_eq_ok hstep
      cases hstep
      rw [eraseVictim_lastAccess, detach_lastAccess hdetach]
      by_cases ha : a = victim
      · rw [ha, Function.update_self]
        exact .inr rfl
      · rw [Function.update_of_ne ha]
        exact .inl rfl
  refine ⟨c', hevict, hwf, List.map_congr_left fun a ha => stamp_congr ?_ ?_⟩
  · exact List.map_inj_left.mp hentries a ha
  · refine (htime a).resolve_right fun hnone => ?_
    obtain ⟨node, hnode⟩ := live_iff.mp (hwf.live a (mem_chain_of_mem ha))
    simp [lastAccess, hnode] at hnone

theorem Wf.evictLoop_stamps {n fuel : ℕ} (h : Wf c ns) (hloop : evictLoop n fuel c = .ok c') :
    ∃ j, Wf c' (ns.drop j) ∧ c'.stamps (ns.drop j) = c.stamps (ns.drop j) := by
  induction fuel generalizing c ns with
  | zero =>
    rw [evictLoop] at hloop
    split_ifs at hloop
    cases hloop
    exact ⟨0, h, rfl⟩
  | succ fuel ih =>
    rw [evictLoop] at hloop
    split_ifs at hloop with hev
    · cases ns with
      | nil => exact absurd rfl (h.evictionNeeded_iff.mp hev).1
      | cons x ns =>
        obtain ⟨c₁, h₁, hwf₁, hstamps₁⟩ := h.evictFirst_stamps
        rw [h₁] at hloop
        obtain ⟨j, hwf, hstamps⟩ := ih hwf₁ hloop
        refine ⟨j + 1, hwf, ?_⟩
        rw [List.drop_succ_cons, hstamps]
        exact List.map_congr_left fun a ha =>
          List.map_inj_left.mp hstamps₁ a ((List.drop_suffix j ns).subset ha)
    · cases hloop
      exact ⟨0, h, rfl⟩

theorem Wf.appendNew_stamps {k data : Bytes} (h : Wf c ns) (now : Int)
    (hk : c.mapping.lookup k = none) (hfit : c.occupancy + data.length ≤ c.capacity) :
    ∃ c₁, (c.makeNode now k data).appendToListTail c.nextFree = .ok c₁ ∧
      Wf { c₁ with
        occupancy := sizeAdd c₁.occupancy data.length
        mapping := emplace c₁.mapping k c.nextFree } (ns ++ [c.nextFree]) ∧
      c₁.stamps (ns ++ [c.nextFree]) = c.stamps ns ++ [(k, now)] := by
  obtain ⟨c₁, happend, hwf, -, hentries⟩ := h.appendNew now hk hfit
  have htime : c₁.lastAccess = Function.update c.lastAccess c.nextFree (some now) := by
    rw [appendToListTail_lastAccess happend, makeNode_lastAccess]
  rw [entries, List.map_append] at hentries
  obtain ⟨hold, hnew⟩ := List.append_inj hentries (by simp [entries])
  refine ⟨c₁, happend, hwf, ?_⟩
  have hstamp : ∀ a ∈ ns, c₁.stamp a = c.stamp a := by
    intro a ha
    refine stamp_congr (List.map_inj_left.mp hold a ha) ?_
    rw [htime, Function.update_of_ne (h.ne_nextFree (mem_chain_of_mem ha))]
  have hentry : c₁.entry c.nextFree = (k, data) := by simpa using hnew
  have hlast : c₁.stamp c.nextFree = (k, now) := by
    rw [stamp, hentry, htime, Function.update_self]
    rfl
  rw [stamps, List.map_append, List.map_congr_left hstamp, List.map_singleton, hlast]
  rfl

theorem Wf.tryInsert_stamps {now : Int} {k data : Bytes} {inserted : Bool} (h : Wf c ns)
    (hinsert : c.tryInsert now k data = .ok (inserted, c')) :
    inserted = false ∧ c' = c ∨
      inserted = true ∧ c.mapping.lookup k = none ∧
        ∃ j x, Wf c' (ns.drop j ++ [x]) ∧
          c'.stamps (ns.drop j ++ [x]) = c.stamps (ns.drop j) ++ [(k, now)] := by
  rw [tryInsert] at hinsert
  split_ifs at hinsert with hk hbig
  · cases hinsert
    exact .inl ⟨rfl, rfl⟩
  · cases hinsert
    exact .inl ⟨rfl, rfl⟩
  · have hnone := Option.not_isSome_iff_eq_none.mp hk
    obtain ⟨c₁, ns₁, hloop, hwf₁, hcap₁, hent₁, hfit₁⟩ :=
      h.evictLoop_spec (n := data.length) (by omega) le_rfl
    have hnone₁ := evictLoop_lookup_none h hwf₁ hnone hent₁ (by omega)
    obtain ⟨j, hwf, hstamps⟩ := h.evictLoop_stamps hloop
    have hroom : c₁.occupancy + data.length ≤ c₁.capacity := by omega
    obtain ⟨c₂, happend, hwf₂, hstamps₂⟩ := hwf.appendNew_stamps now hnone₁ hroom
    simp only [hloop, ok_bind, happend] at hinsert
    cases hinsert
    refine .inr ⟨rfl, hnone, j, c₁.nextFree, hwf₂, ?_⟩
    rw [← hstamps]
    exact hstamps₂

theorem Wf.stamp_ne {k : Bytes} (h : Wf c ns) {a : Addr} (ha : a ∈ ns)
    (hk : c.mapping.lookup k ≠ some a) : (c.stamp a).1 ≠ k :=
  fun heq => hk (h.lookup_iff.mpr ⟨ha, heq⟩)

/-! ## Runs -/

/-- The chain is in the order of the last accesses of the log. -/
def Recent (log : List (CacheOp × CacheReply)) (c : Cache) : Prop :=
  ∃ ns, Wf c ns ∧ InOrder accessOf log (c.stamps ns)

variable {log : List (CacheOp × CacheReply)} {reply : CacheReply}

theorem Recent.tryLoad {now : Int} {url : Bytes} {dst : DynamicByteArray} (h : Recent log c)
    (hstep : c.step (.tryLoad now url dst) = .ok (reply, c')) :
    Recent (log ++ [(.tryLoad now url dst, reply)]) c' := by
  obtain ⟨ns, hwf, hin⟩ := h
  cases hlook : c.mapping.lookup url with
  | none =>
    rw [Cache.step, Wf.tryLoad_miss hlook, ok_bind] at hstep
    cases hstep
    exact ⟨ns, hwf, hin.keep fun s hs t => by simp [accessOf]⟩
  | some x =>
    obtain ⟨xs, ys, rfl⟩ := List.append_of_mem (hwf.lookup_iff.mp hlook).1
    obtain ⟨c₁, hload, hwf₁, hstamps⟩ := hwf.tryLoad_stamps hlook now dst
    rw [Cache.step, hload, ok_bind] at hstep
    cases hstep
    refine ⟨_, hwf₁, ?_⟩
    rw [hstamps]
    have hothers : (xs ++ ys).Sublist (xs ++ x :: ys) :=
      (List.sublist_cons_self x ys).append_left xs
    refine (hin.sublist (hothers.map _)).touch rfl fun s hs => ?_
    obtain ⟨a, ha, rfl⟩ := List.mem_map.mp hs
    have hnodup := List.nodup_cons.mp (List.perm_middle.nodup_iff.mp hwf.nodup)
    refine hwf.stamp_ne (hothers.subset ha) ?_
    rw [hlook]
    intro heq
    exact hnodup.1 (Option.some_inj.mp heq ▸ ha)

theorem Recent.tryInsert {now : Int} {url : Bytes} {source : DynamicByteArray} (h : Recent log c)
    (hstep : c.step (.tryInsert now url source) = .ok (reply, c')) :
    Recent (log ++ [(.tryInsert now url source, reply)]) c' := by
  obtain ⟨ns, hwf, hin⟩ := h
  obtain ⟨r, hinsert, hreply⟩ := bind_eq_ok hstep
  obtain ⟨inserted, c₁⟩ := r
  cases hreply
  rcases hwf.tryInsert_stamps hinsert with ⟨rfl, rfl⟩ | ⟨rfl, hlook, j, x, hwf₁, hstamps⟩
  · exact ⟨ns, hwf, hin.keep fun s hs t => by simp [accessOf]⟩
  · refine ⟨_, hwf₁, ?_⟩
    rw [hstamps]
    refine (hin.sublist ((List.drop_sublist j ns).map _)).touch rfl fun s hs => ?_
    obtain ⟨a, ha, rfl⟩ := List.mem_map.mp hs
    refine hwf.stamp_ne ((List.drop_sublist j ns).subset ha) ?_
    rw [hlook]
    simp

theorem Recent.clear (h : Recent log c) (hstep : c.step .clear = .ok (reply, c')) :
    Recent (log ++ [(.clear, reply)]) c' := by
  obtain ⟨ns, hwf, -⟩ := h
  obtain ⟨c₁, hclear, hwf₁, -⟩ := hwf.clear_spec
  rw [Cache.step, hclear, ok_bind] at hstep
  cases hstep
  exact ⟨[], hwf₁, .nil⟩

theorem Recent.step {op : CacheOp} (h : Recent log c) (hstep : c.step op = .ok (reply, c')) :
    Recent (log ++ [(op, reply)]) c' := by
  cases op with
  | tryLoad now url dst => exact h.tryLoad hstep
  | tryInsert now url source => exact h.tryInsert hstep
  | clear => exact h.clear hstep

theorem EvictionState.stamps {n : ℕ} (h : Wf c ns) (hstate : EvictionState n c c') :
    ∃ j, Wf c' (ns.drop j) ∧ c'.stamps (ns.drop j) = c.stamps (ns.drop j) := by
  induction hstate with
  | entered => exact ⟨0, h, rfl⟩
  | iterated _ hev hstep ih =>
    obtain ⟨j, hwf, hstamps⟩ := ih
    cases hdrop : ns.drop j with
    | nil =>
      rw [hdrop] at hwf
      exact absurd rfl (hwf.evictionNeeded_iff.mp hev).1
    | cons x rest =>
      rw [hdrop] at hwf hstamps
      obtain ⟨c₁, h₁, hwf₁, hstamps₁⟩ := hwf.evictFirst_stamps
      rw [h₁] at hstep
      cases hstep
      have hrest : ns.drop (j + 1) = rest := by
        rw [← List.tail_drop, hdrop, List.tail_cons]
      refine ⟨j + 1, hrest ▸ hwf₁, ?_⟩
      rw [hrest, hstamps₁]
      exact (List.cons.inj hstamps).2

end Cache
end HttpReactor
