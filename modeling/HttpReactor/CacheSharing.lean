import HttpReactor.CacheInvariant

/-!
# Overlapping loads of the cache

`TryLoad` takes the mutex shared although it moves its node to the tail of the list, so
any number of loads may stand between two of its calls; each of the four calls on the node
is one step here. `TryInsert` takes the mutex exclusively and runs as one step while no
load is in progress. A node that a load has detached is off the list until the same load
appends it; two loads that both hold the same node detached append it twice.
-/

namespace HttpReactor
open Refinement LinkedChain

inductive LoadCall
  | serialize
  | detach
  | appendToListTail
  | updateTimestamp
deriving DecidableEq, Repr

structure Loading where
  node : Addr
  destination : DynamicByteArray
  pending : LoadCall
deriving DecidableEq, Repr

inductive CacheReturn
  | loaded (found : Bool) (destination : DynamicByteArray)
  | inserted (stored : Bool)
deriving DecidableEq, Repr

structure SharedCache where
  cache : Cache
  loading : List Loading
  returned : List CacheReturn
  fault : Option CacheFault

/-- `proceed n` makes the next call of the `n`-th load in progress. -/
inductive CacheEvent
  | tryLoad (resourceUrl : Bytes) (destination : DynamicByteArray)
  | proceed (n : ℕ) (now : Int)
  | tryInsert (now : Int) (resourceUrl : Bytes) (source : DynamicByteArray)
deriving DecidableEq, Repr

def Loading.proceed (l : Loading) (now : Int) (c : Cache) :
    Except CacheFault (Option Loading × Cache) :=
  match l.pending with
  | .serialize => do
    let node ← c.deref (some l.node)
    return (some { l with destination := l.destination ++ node.data, pending := .detach }, c)
  | .detach => do
    let c ← c.detach l.node
    return (some { l with pending := .appendToListTail }, c)
  | .appendToListTail => do
    let c ← c.appendToListTail l.node
    return (some { l with pending := .updateTimestamp }, c)
  | .updateTimestamp => do
    let c ← c.updateTimestamp l.node now
    return (none, c)

def Loading.detached (l : Loading) : Option Addr :=
  if l.pending = .appendToListTail then some l.node else none

namespace SharedCache

def start (now : Int) (capacity : UInt64) : SharedCache :=
  { cache := Cache.new now capacity, loading := [], returned := [], fault := none }

def step (s : SharedCache) (e : CacheEvent) : Option SharedCache :=
  if s.fault.isSome then none
  else match e with
    | .tryLoad resourceUrl destination =>
      match s.cache.mapping.lookup resourceUrl with
      | some node => some { s with loading := s.loading ++ [⟨node, destination, .serialize⟩] }
      | none => some { s with returned := s.returned ++ [.loaded false destination] }
    | .proceed n now =>
      match s.loading[n]? with
      | none => none
      | some l =>
        match l.proceed now s.cache with
        | .error f => some { s with fault := some f }
        | .ok (some l', c) => some { s with cache := c, loading := s.loading.set n l' }
        | .ok (none, c) => some { s with
            cache := c
            loading := s.loading.eraseIdx n
            returned := s.returned ++ [.loaded true l.destination] }
    | .tryInsert now resourceUrl source =>
      if s.loading ≠ [] then none
      else match s.cache.tryInsert now resourceUrl source with
        | .error f => some { s with fault := some f }
        | .ok (stored, c) => some { s with
            cache := c
            returned := s.returned ++ [.inserted stored] }

def detached (s : SharedCache) : List Addr := s.loading.filterMap Loading.detached

/-- No load detaches a node that another load holds detached. -/
def Apart (s : SharedCache) : CacheEvent → Prop
  | .proceed n _ => ∀ l ∈ s.loading[n]?, l.pending = .detach → l.node ∉ s.detached
  | _ => True

instance decidableApart : ∀ (s : SharedCache) (e : CacheEvent), Decidable (s.Apart e)
  | s, .proceed n _ => inferInstanceAs
      (Decidable (∀ l ∈ s.loading[n]?, l.pending = .detach → l.node ∉ s.detached))
  | _, .tryLoad _ _ => inferInstanceAs (Decidable True)
  | _, .tryInsert _ _ _ => inferInstanceAs (Decidable True)

theorem soloLoad_agrees {s : SharedCache} {c : Cache} {resourceUrl : Bytes} {now : Int}
    {destination loaded : DynamicByteArray} (hf : s.fault = none) (hs : s.loading = [])
    (h : s.cache.tryLoad now resourceUrl destination = .ok ((true, loaded), c)) :
    runGuarded step s [.tryLoad resourceUrl destination, .proceed 0 now, .proceed 0 now,
        .proceed 0 now, .proceed 0 now] =
      some ⟨c, [], s.returned ++ [.loaded true loaded], none⟩ := by
  unfold Cache.tryLoad at h
  split at h
  · next node hlook =>
    obtain ⟨cell, hd, h⟩ := bind_eq_ok h
    obtain ⟨c₁, h₁, h⟩ := bind_eq_ok h
    obtain ⟨c₂, h₂, h⟩ := bind_eq_ok h
    obtain ⟨c₃, h₃, h⟩ := bind_eq_ok h
    cases h
    simp [runGuarded, step, Loading.proceed, hf, hs, hlook, hd, h₁, h₂, h₃]
  · cases h

end SharedCache

namespace Cache

/-- The list from the head to the tail sentinel holds each node of the map exactly once, and
`prev_` and `next_` are inverse along it. -/
def Intact (c : Cache) : Prop :=
  ∃ ns, Linked c.next c.prev (c.chain ns) ∧ ∀ a, a ∈ ns ↔ a ∈ c.mapping.map Prod.snd

theorem not_intact_of_prev_self {c : Cache} {x : Addr} (hx : x ∈ c.mapping.map Prod.snd)
    (hp : c.prev x = some x) : ¬ c.Intact := by
  intro h
  obtain ⟨ns, hl, hmem⟩ := h
  obtain ⟨xs, ys, rfl⟩ := List.append_of_mem ((hmem x).mpr hx)
  rw [chain_append] at hl
  obtain ⟨q, hq⟩ : ∃ q, (c.head :: xs).getLast? = some q :=
    ⟨_, List.getLast?_eq_some_getLast (List.cons_ne_nil _ _)⟩
  have hqx : q = x := Option.some.inj ((hl.link hq List.head?_cons).2.symm.trans hp)
  have hne := (List.nodup_append.mp hl.nodup).2.2 q (List.mem_of_mem_getLast? hq) x
    List.mem_cons_self
  exact hne hqx

/-! ## The pointers that a load follows

Whatever the order of the calls, the list may lose its shape but a load never leaves the live
nodes: each call redirects pointers to live nodes only, and no node is freed meanwhile. -/

def Redirects (c : Cache) (f f' : Addr → Option Addr) : Prop :=
  ∀ a, f' a = f a ∨ ∃ v, f' a = some v ∧ c.Live v

theorem Redirects.refl (c : Cache) (f : Addr → Option Addr) : Redirects c f f :=
  fun _ => Or.inl rfl

theorem Redirects.update {c : Cache} {f f' : Addr → Option Addr} (h : Redirects c f f')
    {v : Addr} (hv : c.Live v) (b : Addr) : Redirects c f (Function.update f' b (some v)) := by
  intro a
  by_cases hab : a = b
  · subst hab
    exact Or.inr ⟨v, Function.update_self _ _ _, hv⟩
  · rw [Function.update_of_ne hab]
    exact h a

structure Pointed (c : Cache) : Prop where
  live : ∀ a ∈ c.mapping.map Prod.snd, c.Live a
  prev : ∀ a ∈ c.mapping.map Prod.snd, ∃ p, c.prev a = some p ∧ c.Live p
  next : ∀ a ∈ c.mapping.map Prod.snd, ∃ s, c.next a = some s ∧ c.Live s
  tail_live : c.Live c.tail
  tail_prev : ∃ p, c.prev c.tail = some p ∧ c.Live p
  tail_notMem : c.tail ∉ c.mapping.map Prod.snd

theorem Pointed.relink {c c' : Cache} {next' prev' : Addr → Option Addr} (h : Pointed c)
    (hr : Relinked c c' next' prev') (hn : Redirects c c.next next')
    (hp : Redirects c c.prev prev') : Pointed c' := by
  have hmap : c'.mapping = c.mapping := by rw [hr.rest_eq]
  have htail : c'.tail = c.tail := by rw [hr.rest_eq]
  have hkeep : ∀ {f f' : Addr → Option Addr} {a : Addr}, Redirects c f f' →
      (∃ v, f a = some v ∧ c.Live v) → ∃ v, f' a = some v ∧ c'.Live v := by
    intro f f' a hf hv
    obtain ⟨v, hv, hvl⟩ := hv
    obtain he | ⟨w, hw, hwl⟩ := hf a
    · exact ⟨v, he.trans hv, hr.live.mpr hvl⟩
    · exact ⟨w, hw, hr.live.mpr hwl⟩
  refine ⟨?_, ?_, ?_, ?_, ?_, ?_⟩
  · intro a ha
    exact hr.live.mpr (h.live a (hmap ▸ ha))
  · intro a ha
    rw [hr.prev_eq]
    exact hkeep hp (h.prev a (hmap ▸ ha))
  · intro a ha
    rw [hr.next_eq]
    exact hkeep hn (h.next a (hmap ▸ ha))
  · rw [htail]
    exact hr.live.mpr h.tail_live
  · rw [hr.prev_eq, htail]
    exact hkeep hp h.tail_prev
  · rw [htail, hmap]
    exact h.tail_notMem

theorem Wf.pointed {c : Cache} {ns : List Addr} (h : Wf c ns) : Pointed c := by
  have hlinked : ∀ {a : Addr} {pre post : List Addr}, c.chain ns = pre ++ a :: post →
      pre ≠ [] → ∃ p, c.prev a = some p ∧ c.Live p := by
    intro a pre post he hne
    obtain ⟨q, hq⟩ : ∃ q, pre.getLast? = some q := ⟨_, List.getLast?_eq_some_getLast hne⟩
    have hl := h.linked
    rw [he] at hl
    refine ⟨q, (hl.link hq List.head?_cons).2, h.live q ?_⟩
    rw [he]
    exact List.mem_append_left _ (List.mem_of_mem_getLast? hq)
  refine ⟨?_, ?_, ?_, h.live _ (tail_mem_chain c ns), hlinked rfl (List.cons_ne_nil _ _), ?_⟩
  · intro a ha
    exact h.live a (mem_chain_of_mem (h.mem_map_snd_iff.mp ha))
  · intro a ha
    obtain ⟨xs, ys, rfl⟩ := List.append_of_mem (h.mem_map_snd_iff.mp ha)
    exact hlinked (chain_append c xs (a :: ys)) (List.cons_ne_nil _ _)
  · intro a ha
    obtain ⟨xs, ys, rfl⟩ := List.append_of_mem (h.mem_map_snd_iff.mp ha)
    obtain ⟨q, hq⟩ : ∃ q, (ys ++ [c.tail]).head? = some q :=
      ⟨_, List.head?_eq_some_head (by simp)⟩
    have he : c.chain (xs ++ a :: ys) = ((c.head :: xs) ++ [a]) ++ (ys ++ [c.tail]) := by
      simp [chain]
    have hl := h.linked
    rw [he] at hl
    refine ⟨q, (hl.link List.getLast?_concat hq).1, h.live q ?_⟩
    rw [he]
    exact List.mem_append_right _ (List.mem_of_mem_head? hq)
  · intro hm
    exact h.sentinels.2.1 (h.mem_map_snd_iff.mp hm)

section Registered

variable {c : Cache} {ms ns ds : List Addr} {x : Addr}

theorem Registered.live_chain (h : Registered c ms) (hp : (ns ++ ds).Perm ms) :
    ∀ a ∈ c.chain ns, c.Live a := by
  intro a ha
  refine h.live a ?_
  have hns : ns ⊆ ms := fun b hb => hp.subset (List.mem_append_left _ hb)
  simp only [chain, List.mem_append, List.mem_cons] at ha ⊢
  obtain (ha | ha) | ha := ha
  · exact Or.inl (Or.inl ha)
  · exact Or.inl (Or.inr (hns ha))
  · exact Or.inr ha

theorem Registered.notMem_chain (h : Registered c ms) (hx : x ∈ ms) (hns : x ∉ ns) :
    x ∉ c.chain ns := by
  have hnd : (c.head :: ms ++ [c.tail]).Nodup := h.nodup
  obtain ⟨hinit, -, hdisj⟩ := List.nodup_append.mp hnd
  have hhead : x ≠ c.head := fun he => (List.nodup_cons.mp hinit).1 (he ▸ hx)
  have htail : x ≠ c.tail :=
    hdisj x (List.mem_cons_of_mem _ hx) c.tail List.mem_cons_self
  simp [chain, hhead, hns, htail]

theorem Registered.detach (h : Registered c ms) (hl : Linked c.next c.prev (c.chain ns))
    (hp : (ns ++ ds).Perm ms) (hx : x ∈ ns) :
    ∃ c' ns', c.detach x = .ok c' ∧ Registered c' ms ∧
      Linked c'.next c'.prev (c'.chain ns') ∧ (x :: ns').Perm ns := by
  obtain ⟨xs, ys, rfl⟩ := List.append_of_mem hx
  obtain ⟨c', next', prev', h', r, hl'⟩ := detach_linked hl (h.live_chain hp)
  refine ⟨c', xs ++ ys, h', h.relink r, ?_, List.perm_middle.symm⟩
  rw [r.next_eq, r.prev_eq, show c'.chain (xs ++ ys) = c.chain (xs ++ ys) by rw [r.rest_eq]; rfl]
  exact hl'

theorem Registered.append (h : Registered c ms) (hl : Linked c.next c.prev (c.chain ns))
    (hp : (ns ++ ds).Perm ms) (hx : x ∈ ms) (hns : x ∉ ns) :
    ∃ c', c.appendToListTail x = .ok c' ∧ Registered c' ms ∧
      Linked c'.next c'.prev (c'.chain (ns ++ [x])) := by
  obtain ⟨c', next', prev', h', r, hl'⟩ := appendToListTail_linked hl (h.live_chain hp)
    (h.live x (mem_chain_of_mem hx)) (h.notMem_chain hx hns)
  refine ⟨c', h', h.relink r, ?_⟩
  rw [r.next_eq, r.prev_eq,
    show c'.chain (ns ++ [x]) = c.chain (ns ++ [x]) by rw [r.rest_eq]; rfl]
  exact hl'

end Registered

end Cache

namespace Loading

def rank (l : Loading) : ℕ :=
  match l.pending with
  | .serialize => 4
  | .detach => 3
  | .appendToListTail => 2
  | .updateTimestamp => 1

theorem proceed_pointed {l : Loading} {c : Cache} (h : c.Pointed)
    (hl : l.node ∈ c.mapping.map Prod.snd) (now : Int) :
    ∃ o c' next' prev', l.proceed now c = .ok (o, c') ∧ c.Relinked c' next' prev' ∧
      c'.Pointed ∧ ∀ l' ∈ o, l'.node = l.node ∧ l'.rank < l.rank := by
  have hx := h.live _ hl
  obtain ⟨node, destination, pending⟩ := l
  cases pending with
  | serialize =>
    obtain ⟨cell, hd, -, -, -⟩ := Cache.deref_live hx
    refine ⟨some ⟨node, destination ++ cell.data, .detach⟩, c, c.next, c.prev, ?_,
      ⟨rfl, rfl, rfl, rfl⟩, h, ?_⟩
    · simp only [proceed, hd, ok_bind, pure_eq_ok]
    · intro l' hl'
      cases hl'
      exact ⟨rfl, by simp [rank]⟩
  | detach =>
    obtain ⟨p, hp, hpl⟩ := h.prev _ hl
    obtain ⟨s, hs, hsl⟩ := h.next _ hl
    obtain ⟨c', h', r⟩ := Cache.detach_spec hx hpl hsl hp hs
    refine ⟨some ⟨node, destination, .appendToListTail⟩, c', _, _, ?_, r,
      h.relink r ((Cache.Redirects.refl c _).update hsl p)
        ((Cache.Redirects.refl c _).update hpl s), ?_⟩
    · simp only [proceed, h', ok_bind, pure_eq_ok]
    · intro l' hl'
      cases hl'
      exact ⟨rfl, by simp [rank]⟩
  | appendToListTail =>
    obtain ⟨p, hp, hpl⟩ := h.tail_prev
    obtain ⟨c', h', r⟩ := Cache.appendToListTail_spec hx hpl h.tail_live hp
    refine ⟨some ⟨node, destination, .updateTimestamp⟩, c', _, _, ?_, r,
      h.relink r (((Cache.Redirects.refl c _).update hx p).update h.tail_live node)
        (((Cache.Redirects.refl c _).update hx c.tail).update hpl node), ?_⟩
    · simp only [proceed, h', ok_bind, pure_eq_ok]
    · intro l' hl'
      cases hl'
      exact ⟨rfl, by simp [rank]⟩
  | updateTimestamp =>
    obtain ⟨c', h', r⟩ := Cache.updateTimestamp_live hx now
    refine ⟨none, c', c.next, c.prev, ?_, r,
      h.relink r (Cache.Redirects.refl c _) (Cache.Redirects.refl c _), ?_⟩
    · simp only [proceed, h', ok_bind, pure_eq_ok]
    · intro l' hl'
      cases hl'

end Loading

namespace SharedCache

structure Sound (s : SharedCache) : Prop where
  running : s.fault = none
  pointed : s.cache.Pointed
  found : ∀ l ∈ s.loading, l.node ∈ s.cache.mapping.map Prod.snd

theorem split_at {α : Type} {xs : List α} {n : ℕ} {x : α} (h : xs[n]? = some x) :
    ∃ pre post, xs = pre ++ x :: post ∧ pre.length = n := by
  obtain ⟨hn, rfl⟩ := List.getElem?_eq_some_iff.mp h
  exact ⟨xs.take n, xs.drop (n + 1), by simp, by simp; omega⟩

theorem step_proceed {s : SharedCache} {pre post : List Loading} {l : Loading} {now : Int}
    {o : Option Loading} {c : Cache} (hf : s.fault = none)
    (hs : s.loading = pre ++ l :: post) (hl : l.proceed now s.cache = .ok (o, c)) :
    ∃ returned, s.step (.proceed pre.length now) =
      some ⟨c, pre ++ o.toList ++ post, returned, none⟩ := by
  cases o with
  | none =>
    refine ⟨s.returned ++ [.loaded true l.destination], ?_⟩
    simp [step, hf, hl, hs, List.eraseIdx_append]
  | some l' =>
    refine ⟨s.returned, ?_⟩
    simp [step, hf, hl, hs]

theorem step_proceed_inv {s s' : SharedCache} {n : ℕ} {now : Int} (h : Sound s)
    (hstep : s.step (.proceed n now) = some s') :
    ∃ pre l post o c next' prev', s.loading = pre ++ l :: post ∧ pre.length = n ∧
      l.proceed now s.cache = .ok (o, c) ∧ s.cache.Relinked c next' prev' ∧ c.Pointed ∧
      (∀ l' ∈ o, l'.node = l.node ∧ l'.rank < l.rank) ∧ s'.fault = none ∧ s'.cache = c ∧
      s'.loading = pre ++ o.toList ++ post := by
  cases hget : s.loading[n]? with
  | none => simp [step, hget] at hstep
  | some l =>
    obtain ⟨pre, post, hs, hn⟩ := split_at hget
    have hl : l ∈ s.loading := List.mem_of_getElem? hget
    obtain ⟨o, c, next', prev', hok, r, hc, ho⟩ :=
      Loading.proceed_pointed h.pointed (h.found l hl) now
    obtain ⟨returned, hs'⟩ := step_proceed h.running hs hok
    rw [hn, hstep] at hs'
    cases hs'
    exact ⟨pre, l, post, o, c, next', prev', hs, hn, hok, r, hc, ho, rfl, rfl, rfl⟩

theorem Sound.proceed {s s' : SharedCache} {n : ℕ} {now : Int} (h : Sound s)
    (hstep : s.step (.proceed n now) = some s') : Sound s' := by
  obtain ⟨pre, l, post, o, c, next', prev', hs, -, -, r, hc, ho, hf, rfl, hload⟩ :=
    step_proceed_inv h hstep
  refine ⟨hf, hc, ?_⟩
  intro m hm
  rw [show s'.cache.mapping = s.cache.mapping by rw [r.rest_eq]]
  rw [hload, List.append_assoc, List.mem_append, List.mem_append, Option.mem_toList] at hm
  have hfound := h.found
  rw [hs] at hfound
  rcases hm with hm | hm | hm
  · exact hfound m (List.mem_append_left _ hm)
  · rw [(ho m hm).1]
    exact hfound l (List.mem_append_right _ List.mem_cons_self)
  · exact hfound m (List.mem_append_right _ (List.mem_cons_of_mem _ hm))

/-! ## Loads of different nodes -/

structure Consistent (s : SharedCache) : Prop extends Sound s where
  chained : ∃ ms ns, s.cache.Registered ms ∧
    Linked s.cache.next s.cache.prev (s.cache.chain ns) ∧ (ns ++ s.detached).Perm ms

theorem detached_append (pre post : List Loading) (l : Loading) :
    (pre ++ l :: post).filterMap Loading.detached =
      pre.filterMap Loading.detached ++ l.detached.toList ++
        post.filterMap Loading.detached := by
  cases hl : l.detached <;> simp [hl]

theorem Consistent.proceed {s s' : SharedCache} {n : ℕ} {now : Int} (h : Consistent s)
    (hapart : s.Apart (.proceed n now)) (hstep : s.step (.proceed n now) = some s') :
    Consistent s' := by
  refine ⟨h.toSound.proceed hstep, ?_⟩
  obtain ⟨pre, ⟨node, destination, pending⟩, post, o, c, next', prev', hs, hn, hok, r, -, -, -,
    hc, hload⟩ := step_proceed_inv h.toSound hstep
  obtain ⟨ms, ns, hreg, hl, hp⟩ := h.chained
  have hnode : node ∈ ms :=
    hreg.mem_map_snd_iff.mp (h.found ⟨node, destination, pending⟩ (by simp [hs]))
  rw [detached, hs, detached_append] at hp
  simp only [detached, hload, hc]
  cases pending with
  | serialize =>
    obtain ⟨cell, hd, -, -, -⟩ := Cache.deref_live (hreg.live _ (Cache.mem_chain_of_mem hnode))
    simp only [Loading.proceed, hd, ok_bind, pure_eq_ok] at hok
    cases hok
    exact ⟨ms, ns, hreg, hl, by simpa [Loading.detached] using hp⟩
  | detach =>
    have hget : s.loading[n]? = some ⟨node, destination, .detach⟩ := by simp [hs, ← hn]
    have hfree : node ∉ s.detached := hapart _ hget rfl
    rw [detached, hs, detached_append] at hfree
    have hns : node ∈ ns := (List.mem_append.mp (hp.mem_iff.mpr hnode)).resolve_right hfree
    obtain ⟨c', ns', h', hreg', hl', hperm⟩ := hreg.detach hl hp hns
    simp only [Loading.proceed, h', ok_bind, pure_eq_ok] at hok
    cases hok
    refine ⟨ms, ns', hreg', hl', ?_⟩
    have hmid : ∀ xs ys : List Addr, (ns' ++ (xs ++ node :: ys)).Perm (node :: ns' ++ (xs ++ ys)) :=
      fun xs ys => (List.perm_middle.append_left ns').trans List.perm_middle
    refine List.Perm.trans ?_ ((hperm.append_right _).trans hp)
    simpa [Loading.detached] using hmid _ _
  | appendToListTail =>
    have hns : node ∉ ns := by
      have hnd := hp.nodup_iff.mpr (List.nodup_cons.mp (List.nodup_append.mp hreg.nodup).1).2
      intro hm
      exact (List.nodup_append.mp hnd).2.2 node hm node (by simp [Loading.detached]) rfl
    obtain ⟨c', h', hreg', hl'⟩ := hreg.append hl hp hnode hns
    simp only [Loading.proceed, h', ok_bind, pure_eq_ok] at hok
    cases hok
    refine ⟨ms, ns ++ [node], hreg', hl', ?_⟩
    have hmid : ∀ xs ys : List Addr, (ns ++ node :: (xs ++ ys)).Perm (ns ++ (xs ++ node :: ys)) :=
      fun xs ys => List.perm_middle.symm.append_left ns
    refine List.Perm.trans ?_ hp
    simpa [Loading.detached] using hmid _ _
  | updateTimestamp =>
    obtain ⟨c', h', r'⟩ :=
      Cache.updateTimestamp_live (hreg.live _ (Cache.mem_chain_of_mem hnode)) now
    simp only [Loading.proceed, h', ok_bind, pure_eq_ok] at hok
    cases hok
    refine ⟨ms, ns, hreg.relink r', ?_, by simpa [Loading.detached] using hp⟩
    rw [r'.next_eq, r'.prev_eq, show c.chain ns = s.cache.chain ns by rw [r'.rest_eq]; rfl]
    exact hl

theorem Consistent.of_wf {s : SharedCache} {ns : List Addr} (hw : s.cache.Wf ns)
    (hf : s.fault = none) (hload : s.loading = []) : Consistent s := by
  refine ⟨⟨hf, hw.pointed, by simp [hload]⟩, ns, ns, hw.registered, hw.linked, ?_⟩
  simp [detached, hload]

theorem Consistent.wf {s : SharedCache} (h : Consistent s) (hload : s.loading = []) :
    ∃ ns, s.cache.Wf ns := by
  obtain ⟨ms, ns, hreg, hl, hp⟩ := h.chained
  exact ⟨ns, hreg.wf hl (by simpa [detached, hload] using hp)⟩

theorem Consistent.intact {s : SharedCache} (h : Consistent s) (hload : s.loading = []) :
    s.cache.Intact := by
  obtain ⟨ns, hw⟩ := h.wf hload
  exact ⟨ns, hw.linked, fun _ => hw.mem_map_snd_iff.symm⟩

theorem Consistent.keep {s s' : SharedCache} {e : CacheEvent} (h : Consistent s)
    (hapart : s.Apart e) (hstep : s.step e = some s') : Consistent s' := by
  cases e with
  | proceed n now => exact h.proceed hapart hstep
  | tryLoad resourceUrl destination =>
    obtain ⟨ms, ns, hreg, hl, hp⟩ := h.chained
    simp only [step, h.running, Option.isSome_none, Bool.false_eq_true, if_false] at hstep
    split at hstep
    · next node hlook =>
      cases hstep
      have hmem := (Cache.lookup_eq_some_iff_mem hreg.keys).mp hlook
      refine ⟨⟨rfl, h.pointed, ?_⟩, ms, ns, hreg, hl, ?_⟩
      · intro l hm
        obtain hm | hm := List.mem_append.mp hm
        · exact h.found l hm
        · obtain rfl := List.mem_singleton.mp hm
          exact List.mem_map.mpr ⟨_, hmem, rfl⟩
      · simpa [detached, Loading.detached] using hp
    · cases hstep
      exact ⟨⟨rfl, h.pointed, h.found⟩, ms, ns, hreg, hl, hp⟩
  | tryInsert now resourceUrl source =>
    simp only [step, h.running, Option.isSome_none, Bool.false_eq_true, if_false] at hstep
    split at hstep
    · cases hstep
    · next hload =>
      have hload : s.loading = [] := not_not.mp hload
      obtain ⟨ns, hw⟩ := h.wf hload
      have hspec := hw.tryInsert_spec now resourceUrl source
      split at hspec
      · rw [hspec] at hstep
        cases hstep
        exact .of_wf hw rfl hload
      · obtain ⟨c', ns', hok, hw', -, -⟩ := hspec
        rw [hok] at hstep
        cases hstep
        exact .of_wf hw' rfl hload

/-! ## Two loads of one node -/

theorem Sound.finish {s : SharedCache} {pre post : List Loading} {l : Loading} (h : Sound s)
    (hs : s.loading = pre ++ l :: post) :
    ∃ es s', runGuarded step s es = some s' ∧ Sound s' ∧ s'.loading = pre ++ post := by
  induction hr : l.rank using Nat.strong_induction_on generalizing s l with
  | _ r ih =>
    have hl := h.found l (by simp [hs])
    obtain ⟨o, c, -, -, hok, -, -, ho⟩ := Loading.proceed_pointed h.pointed hl 0
    obtain ⟨returned, hstep⟩ := step_proceed h.running hs hok
    have h₁ := h.proceed hstep
    cases o with
    | none =>
      refine ⟨[.proceed pre.length 0], _, ?_, h₁, by simp⟩
      simp [runGuarded, hstep]
    | some l' =>
      obtain ⟨es, s', hrun, hs', hload⟩ := ih l'.rank (hr ▸ (ho l' rfl).2) h₁ (by simp) rfl
      refine ⟨.proceed pre.length 0 :: es, s', ?_, hs', hload⟩
      simpa [runGuarded, hstep] using hrun

theorem Sound.finish_others {xs ys : List Loading} (hsub : xs.Sublist ys) :
    ∀ {pre : List Loading} {s : SharedCache}, Sound s → s.loading = pre ++ ys →
      ∃ es s', runGuarded step s es = some s' ∧ Sound s' ∧ s'.loading = pre ++ xs := by
  induction hsub with
  | slnil =>
    intro pre s h hs
    exact ⟨[], s, rfl, h, hs⟩
  | @cons xs ys l _ ih =>
    intro pre s h hs
    obtain ⟨es₁, s₁, hrun₁, h₁, hload₁⟩ := h.finish hs
    obtain ⟨es₂, s₂, hrun₂, h₂, hload₂⟩ := ih h₁ hload₁
    exact ⟨es₁ ++ es₂, s₂, runGuarded_append hrun₁ hrun₂, h₂, hload₂⟩
  | @cons_cons xs ys l _ ih =>
    intro pre s h hs
    obtain ⟨es, s', hrun, h', hload⟩ := ih h (show s.loading = (pre ++ [l]) ++ ys by simp [hs])
    exact ⟨es, s', hrun, h', by simp [hload]⟩

theorem append_twice {c : Cache} {x : Addr} (h : c.Pointed)
    (hx : x ∈ c.mapping.map Prod.snd) :
    ∃ c₁ c₂, c.appendToListTail x = .ok c₁ ∧ c₁.appendToListTail x = .ok c₂ ∧
      c₂.mapping = c.mapping ∧ c₂.Live x ∧ c₂.prev x = some x := by
  -- The second append reads the node itself as the last one of the list.
  obtain ⟨p, hp, hpl⟩ := h.tail_prev
  have hne : c.tail ≠ x := fun he => h.tail_notMem (he ▸ hx)
  obtain ⟨c₁, h₁, r₁⟩ := Cache.appendToListTail_spec (h.live x hx) hpl h.tail_live hp
  have htail : c₁.tail = c.tail := by rw [r₁.rest_eq]
  have hlast : c₁.prev c₁.tail = some x := by
    rw [htail, r₁.prev_eq, Function.update_of_ne hne, Function.update_self]
  have hx₁ := r₁.live.mpr (h.live x hx)
  obtain ⟨c₂, h₂, r₂⟩ := Cache.appendToListTail_spec hx₁ hx₁
    (htail ▸ r₁.live.mpr h.tail_live) hlast
  refine ⟨c₁, c₂, h₁, h₂, by rw [r₂.rest_eq, r₁.rest_eq], r₂.live.mpr hx₁, ?_⟩
  rw [r₂.prev_eq, Function.update_self]

theorem Sound.spoil {s : SharedCache} {l₁ l₂ : Loading} (h : Sound s)
    (hs : s.loading = [l₁, l₂]) (h₁ : l₁.pending = .appendToListTail)
    (h₂ : l₂.pending = .appendToListTail) (hnode : l₁.node = l₂.node) :
    ∃ es s', runGuarded step s es = some s' ∧ s'.loading = [] ∧ ¬ s'.cache.Intact := by
  have hx := h.found l₁ (by simp [hs])
  obtain ⟨c₁, c₂, ha₁, ha₂, hmap, hlive, hself⟩ := append_twice h.pointed hx
  obtain ⟨c₃, hu₁, r₁⟩ := Cache.updateTimestamp_live hlive 0
  obtain ⟨c₄, hu₂, r₂⟩ := Cache.updateTimestamp_live (r₁.live.mpr hlive) 0
  have hp₁ : l₁.proceed 0 s.cache = .ok (some { l₁ with pending := .updateTimestamp }, c₁) := by
    simp only [Loading.proceed, h₁, ha₁, ok_bind, pure_eq_ok]
  have hp₂ : l₂.proceed 0 c₁ = .ok (some { l₂ with pending := .updateTimestamp }, c₂) := by
    simp only [Loading.proceed, h₂, ← hnode, ha₂, ok_bind, pure_eq_ok]
  have hp₃ : Loading.proceed { l₁ with pending := .updateTimestamp } 0 c₂ = .ok (none, c₃) := by
    simp only [Loading.proceed, hu₁, ok_bind, pure_eq_ok]
  have hp₄ : Loading.proceed { l₂ with pending := .updateTimestamp } 0 c₃ = .ok (none, c₄) := by
    simp only [Loading.proceed, ← hnode, hu₂, ok_bind, pure_eq_ok]
  refine ⟨[.proceed 0 0, .proceed 1 0, .proceed 0 0, .proceed 0 0],
    ⟨c₄, [], s.returned ++ [.loaded true l₁.destination] ++ [.loaded true l₂.destination],
      s.fault⟩, ?_, rfl, ?_⟩
  · simp [runGuarded, step, h.running, hs, hp₁, hp₂, hp₃, hp₄]
  · refine Cache.not_intact_of_prev_self (x := l₁.node) ?_ ?_
    · rw [r₂.rest_eq, r₁.rest_eq]
      exact hmap ▸ hx
    · rw [r₂.prev_eq, r₁.prev_eq]
      exact hself

theorem Sound.spoil_of_pair {s : SharedCache} {l₁ l₂ : Loading} (h : Sound s)
    (hsub : [l₁, l₂].Sublist s.loading) (h₁ : l₁.pending = .appendToListTail)
    (h₂ : l₂.pending = .appendToListTail) (hnode : l₁.node = l₂.node) :
    ∃ es t, runGuarded step s es = some t ∧ t.loading = [] ∧ ¬ t.cache.Intact := by
  obtain ⟨es₁, s₁, hrun₁, hs₁, hload₁⟩ := h.finish_others hsub (List.nil_append _).symm
  obtain ⟨es₂, s₂, hrun₂, hdone, hbad⟩ := hs₁.spoil hload₁ h₁ h₂ hnode
  exact ⟨es₁ ++ es₂, s₂, runGuarded_append hrun₁ hrun₂, hdone, hbad⟩

theorem Sound.spoil_of_not_apart {s s' : SharedCache} {e : CacheEvent} (h : Sound s)
    (hapart : ¬ s.Apart e) (hstep : s.step e = some s') :
    ∃ es t, runGuarded step s' es = some t ∧ t.loading = [] ∧ ¬ t.cache.Intact := by
  cases e with
  | tryLoad resourceUrl destination => exact absurd trivial hapart
  | tryInsert now resourceUrl source => exact absurd trivial hapart
  | proceed n now =>
    have hs' := h.proceed hstep
    obtain ⟨pre, l, post, o, c, -, -, hs, hn, hok, -, -, -, -, -, hload⟩ :=
      step_proceed_inv h hstep
    have hget : s.loading[n]? = some l := by simp [hs, ← hn]
    simp only [Apart, hget, Option.mem_some_iff, forall_eq', not_forall, not_not] at hapart
    obtain ⟨hl, hm⟩ := hapart
    obtain ⟨m, hm, hmd⟩ := List.mem_filterMap.mp hm
    obtain ⟨hmp, hmn⟩ : m.pending = .appendToListTail ∧ m.node = l.node := by
      simpa [Loading.detached] using hmd
    -- the other load is not this one, which has yet to detach the node
    have hml : m ≠ l := fun he => by simp [he, hl] at hmp
    obtain ⟨l', rfl, hlp, hln⟩ : ∃ l', o = some l' ∧ l'.pending = .appendToListTail ∧
        l'.node = l.node := by
      simp only [Loading.proceed, hl] at hok
      obtain ⟨c', -, hret⟩ := bind_eq_ok hok
      cases hret
      exact ⟨_, rfl, rfl, rfl⟩
    rw [hs, List.mem_append, List.mem_cons] at hm
    simp only [Option.toList_some] at hload
    obtain hm | hm | hm := hm
    · apply hs'.spoil_of_pair ?_ hmp hlp (hmn.trans hln.symm)
      rw [hload]
      exact ((List.singleton_sublist.mpr hm).append (List.Sublist.refl [l'])).trans
        (List.sublist_append_left _ _)
    · exact absurd hm hml
    · apply hs'.spoil_of_pair ?_ hlp hmp (hln.trans hmn.symm)
      rw [hload, List.append_assoc]
      exact ((List.Sublist.refl [l']).append (List.singleton_sublist.mpr hm)).trans
        (List.sublist_append_right _ _)

/-- In every run in which no load detaches a node that another load holds detached, no call
fails and the list is intact whenever no call is in progress. The first step that breaks the
condition can be continued to a state in which it is not. -/
theorem list_intact_of_apart (now : Int) (capacity : UInt64) (es : List CacheEvent)
    (s : SharedCache) (h : runGuarded step (start now capacity) es = some s)
    (halong : Along step Apart (start now capacity) es) :
    s.fault = none ∧ (s.loading = [] → s.cache.Intact) ∧
      ∀ e s', s.step e = some s' → ¬ s.Apart e →
        ∃ es' t, runGuarded step s' es' = some t ∧ t.loading = [] ∧ ¬ t.cache.Intact := by
  have hs : Consistent s :=
    runGuarded_invariant_of_along (fun _ _ _ hs hapart hstep => hs.keep hapart hstep)
      (.of_wf (Cache.new_wf now capacity) rfl rfl) halong h
  refine ⟨hs.running, hs.intact, ?_⟩
  intro e s' hstep hapart
  exact hs.toSound.spoil_of_not_apart hapart hstep

def sameUrlLoads : List CacheEvent :=
  [.tryInsert 0 (ascii "a") (ascii "1"), .tryLoad (ascii "a") [], .tryLoad (ascii "a") [],
    .proceed 0 1, .proceed 1 1, .proceed 0 1, .proceed 1 1, .proceed 0 1, .proceed 1 1,
    .proceed 0 1, .proceed 0 1]

theorem not_intact_sameUrlLoads :
    ∃ s, runGuarded step (start 0 10) sameUrlLoads = some s ∧ s.fault = none ∧
      s.loading = [] ∧ ¬ s.cache.Intact :=
  ⟨_, rfl, rfl, rfl, Cache.not_intact_of_prev_self (x := 2) (by decide) rfl⟩

def neighbourLoads : List CacheEvent :=
  [.tryInsert 0 (ascii "a") (ascii "1"), .tryInsert 0 (ascii "b") (ascii "2"),
    .tryLoad (ascii "a") [], .tryLoad (ascii "b") [], .proceed 0 1, .proceed 1 1, .proceed 1 1,
    .proceed 0 1, .tryLoad (ascii "a") [], .proceed 2 1, .proceed 0 1, .proceed 2 2, .proceed 1 2,
    .proceed 2 2, .proceed 0 2, .proceed 0 2, .proceed 0 2, .tryInsert 3 (ascii "c") (ascii "3")]

theorem list_intact_of_apart_neighbourLoads :
    Along step Apart (start 0 2) neighbourLoads ∧
      ∃ s, runGuarded step (start 0 2) neighbourLoads = some s ∧ s.loading = [] ∧
        s.cache.mapping.map Prod.fst = [ascii "c", ascii "a"] ∧ s.cache.Intact := by
  have halong : Along step Apart (start 0 2) neighbourLoads := by decide
  exact ⟨halong, _, rfl, rfl, rfl,
    (list_intact_of_apart 0 2 neighbourLoads _ rfl halong).2.1 rfl⟩

end SharedCache

end HttpReactor
