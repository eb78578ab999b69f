import HttpReactor.Cache
import HttpReactor.LinkedChain
import HttpReactor.LruStore
import HttpReactor.Refinement

/-!
# The representation invariant of the cache

`Wf c ns` says that the nodes `ns` form the chain from the head to the tail sentinel,
that the map holds exactly these nodes under their identifiers and that the occupancy
is their total size. Each operation is described once, by the nodes and the entries
it leaves; all results about runs follow from these descriptions.
-/

namespace HttpReactor.Cache
open LinkedChain LruStore

theorem lookup_eq_some_iff_mem {m : List (Bytes × Addr)} (h : (m.map Prod.fst).Nodup)
    {k : Bytes} {a : Addr} : m.lookup k = some a ↔ (k, a) ∈ m := by
  induction m with
  | nil => simp
  | cons e m ih =>
    obtain ⟨k', a'⟩ := e
    rw [List.map_cons, List.nodup_cons] at h
    by_cases hk : k = k'
    · subst hk
      have hnot : (k, a) ∉ m := fun hm => h.1 (List.mem_map.mpr ⟨_, hm, rfl⟩)
      simp [hnot, eq_comm]
    · have hb : (k == k') = false := by simpa using hk
      simp [List.lookup_cons, hb, ih h.2, hk]

theorem emplace_of_lookup_none {m : List (Bytes × Addr)} {k : Bytes} (hk : m.lookup k = none)
    (a : Addr) : emplace m k a = (k, a) :: m := by
  rw [emplace, hk]
  rfl

theorem nodup_keys_cons {m : List (Bytes × Addr)} (h : (m.map Prod.fst).Nodup) {k : Bytes}
    (hk : m.lookup k = none) (a : Addr) : (((k, a) :: m).map Prod.fst).Nodup := by
  rw [List.map_cons, List.nodup_cons]
  refine ⟨fun hm => ?_, h⟩
  obtain ⟨⟨k', a'⟩, he, hkk⟩ := List.mem_map.mp hm
  have hsome := (lookup_eq_some_iff_mem h).mpr he
  rw [show k' = k from hkk, hk] at hsome
  cases hsome

def entry (c : Cache) (a : Addr) : Bytes × Bytes := (c.payload a).getD ([], [])

def entries (c : Cache) (ns : List Addr) : Entries Bytes Bytes := ns.map c.entry

def chain (c : Cache) (ns : List Addr) : List Addr := (c.head :: ns) ++ [c.tail]

structure Wf (c : Cache) (ns : List Addr) : Prop where
  linked : Linked c.next c.prev (c.chain ns)
  live : ∀ a ∈ c.chain ns, c.Live a
  mapping : ∀ k a, (k, a) ∈ c.mapping ↔ a ∈ ns ∧ ∃ data, c.payload a = some (k, data)
  keys : (c.mapping.map Prod.fst).Nodup
  occupancy : c.occupancy = total List.length (c.entries ns)
  fits : c.occupancy ≤ c.capacity
  bounded : c.capacity < sizeModulus
  fresh : ∀ a, c.Live a → a < c.nextFree

theorem mem_chain_of_mem {c : Cache} {ns : List Addr} {a : Addr} (h : a ∈ ns) :
    a ∈ c.chain ns :=
  List.mem_append_left _ (List.mem_cons_of_mem _ h)

theorem tail_mem_chain (c : Cache) (ns : List Addr) : c.tail ∈ c.chain ns :=
  List.mem_append_right _ List.mem_cons_self

theorem head_mem_chain (c : Cache) (ns : List Addr) : c.head ∈ c.chain ns :=
  List.mem_append_left _ List.mem_cons_self

/-- What does not depend on how the nodes are linked: the map, the sizes and the heap agree on
the nodes `ms`, in any order. -/
structure Registered (c : Cache) (ms : List Addr) : Prop where
  nodup : (c.chain ms).Nodup
  live : ∀ a ∈ c.chain ms, c.Live a
  mapping : ∀ k a, (k, a) ∈ c.mapping ↔ a ∈ ms ∧ ∃ data, c.payload a = some (k, data)
  keys : (c.mapping.map Prod.fst).Nodup
  occupancy : c.occupancy = total List.length (c.entries ms)
  fits : c.occupancy ≤ c.capacity
  bounded : c.capacity < sizeModulus
  fresh : ∀ a, c.Live a → a < c.nextFree

theorem Wf.registered {c : Cache} {ns : List Addr} (h : Wf c ns) : Registered c ns :=
  ⟨h.linked.nodup, h.live, h.mapping, h.keys, h.occupancy, h.fits, h.bounded, h.fresh⟩

theorem Registered.relink {c c' : Cache} {ms : List Addr} {next' prev' : Addr → Option Addr}
    (h : Registered c ms) (hr : Relinked c c' next' prev') : Registered c' ms := by
  have hrest := hr.rest_eq
  have hchain : c'.chain ms = c.chain ms := by rw [hrest]; rfl
  have hentry : c'.entry = c.entry := by funext a; rw [entry, hr.payload_eq]; rfl
  have hmap : c'.mapping = c.mapping := by rw [hrest]
  have hocc : c'.occupancy = c.occupancy := by rw [hrest]
  refine ⟨hchain ▸ h.nodup, ?_, ?_, hmap ▸ h.keys, ?_, ?_, ?_, ?_⟩
  · intro a ha
    exact hr.live.mpr (h.live a (hchain ▸ ha))
  · intro k a
    rw [hmap, hr.payload_eq]
    exact h.mapping k a
  · rw [hocc, h.occupancy, entries, entries, hentry]
  · rw [hrest]; exact h.fits
  · rw [hrest]; exact h.bounded
  · intro a ha
    rw [hrest]
    exact h.fresh a (hr.live.mp ha)

theorem Registered.wf {c : Cache} {ms ns : List Addr} (h : Registered c ms)
    (hl : Linked c.next c.prev (c.chain ns)) (hp : ns.Perm ms) : Wf c ns := by
  refine ⟨hl, ?_, ?_, h.keys, ?_, h.fits, h.bounded, h.fresh⟩
  · intro a ha
    refine h.live a ?_
    simpa [chain, hp.mem_iff] using ha
  · intro k a
    rw [hp.mem_iff]
    exact h.mapping k a
  · rw [h.occupancy]
    exact total_perm _ (hp.map c.entry).symm

theorem Registered.mem_map_snd_iff {c : Cache} {ms : List Addr} (h : Registered c ms)
    {a : Addr} : a ∈ c.mapping.map Prod.snd ↔ a ∈ ms := by
  rw [List.mem_map]
  constructor
  · intro he
    obtain ⟨⟨k, b⟩, hb, rfl⟩ := he
    exact ((h.mapping k b).mp hb).1
  · intro ha
    obtain ⟨⟨k, d⟩, hd⟩ := Option.isSome_iff_exists.mp (h.live a (mem_chain_of_mem ha))
    exact ⟨(k, a), (h.mapping k a).mpr ⟨ha, d, hd⟩, rfl⟩

theorem chain_append (c : Cache) (xs ys : List Addr) :
    c.chain (xs ++ ys) = (c.head :: xs) ++ (ys ++ [c.tail]) := by
  simp [chain]

theorem detach_linked {c : Cache} {x : Addr} {xs ys : List Addr}
    (hl : Linked c.next c.prev (c.chain (xs ++ x :: ys)))
    (hlive : ∀ a ∈ c.chain (xs ++ x :: ys), c.Live a) :
    ∃ c' next' prev', c.detach x = .ok c' ∧ Relinked c c' next' prev' ∧
      Linked next' prev' (c.chain (xs ++ ys)) := by
  rw [chain_append] at hl hlive
  obtain ⟨p, hp⟩ : ∃ p, (c.head :: xs).getLast? = some p :=
    ⟨_, List.getLast?_eq_some_getLast (List.cons_ne_nil _ _)⟩
  obtain ⟨s, hs⟩ : ∃ s, (ys ++ [c.tail]).head? = some s :=
    ⟨_, List.head?_eq_some_head (by simp)⟩
  have hpl : c.Live p := hlive p (List.mem_append_left _ (List.mem_of_mem_getLast? hp))
  have hsl : c.Live s :=
    hlive s (List.mem_append_right _ (List.mem_cons_of_mem _ (List.mem_of_mem_head? hs)))
  have hx : c.Live x := hlive x (List.mem_append_right _ List.mem_cons_self)
  have hpx := (hl.link hp List.head?_cons).2
  have hl' : Linked c.next c.prev (((c.head :: xs) ++ [x]) ++ (ys ++ [c.tail])) := by
    simpa using hl
  have hxs := (hl'.link List.getLast?_concat hs).1
  obtain ⟨c', h', r⟩ := detach_spec hx hpl hsl hpx hxs
  exact ⟨c', _, _, h', r, chain_append c xs ys ▸ hl.unlink hp hs⟩

theorem appendToListTail_linked {c : Cache} {x : Addr} {ns : List Addr}
    (hl : Linked c.next c.prev (c.chain ns)) (hlive : ∀ a ∈ c.chain ns, c.Live a)
    (hx : c.Live x) (hnew : x ∉ c.chain ns) :
    ∃ c' next' prev', c.appendToListTail x = .ok c' ∧ Relinked c c' next' prev' ∧
      Linked next' prev' (c.chain (ns ++ [x])) := by
  obtain ⟨q, hq⟩ : ∃ q, (c.head :: ns).getLast? = some q :=
    ⟨_, List.getLast?_eq_some_getLast (List.cons_ne_nil _ _)⟩
  have hql : c.Live q := hlive q (List.mem_append_left _ (List.mem_of_mem_getLast? hq))
  obtain ⟨c', h', r⟩ := appendToListTail_spec hx hql (hlive c.tail (tail_mem_chain c ns))
    (hl.link hq List.head?_cons).2
  exact ⟨c', _, _, h', r, chain_append c ns [x] ▸ hl.insert hq List.head?_cons hnew⟩

namespace Wf

variable {c : Cache} {ns : List Addr}

theorem payload_of_mem (h : Wf c ns) {a : Addr} (ha : a ∈ ns) :
    c.payload a = some (c.entry a) := by
  obtain ⟨e, he⟩ := Option.isSome_iff_exists.mp (h.live a (mem_chain_of_mem ha))
  rw [entry, he]
  rfl

theorem lookup_iff (h : Wf c ns) {k : Bytes} {a : Addr} :
    c.mapping.lookup k = some a ↔ a ∈ ns ∧ (c.entry a).1 = k := by
  rw [lookup_eq_some_iff_mem h.keys, h.mapping]
  constructor
  · intro he
    obtain ⟨ha, d, hd⟩ := he
    exact ⟨ha, by rw [entry, hd]; rfl⟩
  · intro he
    obtain ⟨ha, rfl⟩ := he
    exact ⟨ha, (c.entry a).2, h.payload_of_mem ha⟩

theorem mem_keys_iff (h : Wf c ns) {k : Bytes} :
    (c.mapping.lookup k).isSome ↔ k ∈ (c.entries ns).map Prod.fst := by
  rw [Option.isSome_iff_exists, entries, List.map_map, List.mem_map]
  constructor
  · intro he
    obtain ⟨a, ha⟩ := he
    exact ⟨a, (h.lookup_iff.mp ha).1, (h.lookup_iff.mp ha).2⟩
  · intro he
    obtain ⟨a, ha, hk⟩ := he
    exact ⟨a, h.lookup_iff.mpr ⟨ha, hk⟩⟩

theorem nodup (h : Wf c ns) : ns.Nodup :=
  (List.nodup_cons.mp (List.nodup_append.mp h.linked.nodup).1).2

theorem entries_keys_nodup (h : Wf c ns) : ((c.entries ns).map Prod.fst).Nodup := by
  rw [entries, List.map_map]
  refine List.Nodup.map_on (fun a ha b hb hab => ?_) h.nodup
  have h₁ := h.lookup_iff.mpr ⟨ha, rfl⟩
  have h₂ := h.lookup_iff.mpr ⟨hb, hab.symm⟩
  exact Option.some.inj (h₁.symm.trans h₂)

theorem mapping_eq_nil_iff (h : Wf c ns) : c.mapping = [] ↔ ns = [] := by
  constructor
  · intro hm
    rw [List.eq_nil_iff_forall_not_mem]
    intro a ha
    have := (h.mapping _ a).mpr ⟨ha, _, h.payload_of_mem ha⟩
    simp [hm] at this
  · intro he
    subst he
    rw [List.eq_nil_iff_forall_not_mem]
    intro e hm
    obtain ⟨k, a⟩ := e
    exact List.not_mem_nil ((h.mapping k a).mp hm).1

theorem evictionNeeded_iff (h : Wf c ns) {n : ℕ} :
    c.evictionNeeded n = true ↔ ns ≠ [] ∧ ¬ total List.length (c.entries ns) + n ≤ c.capacity := by
  have hf := h.fits
  rw [evictionNeeded, decide_eq_true_eq, sizeSub_of_le h.fits h.bounded, ← h.occupancy, ne_eq,
    h.mapping_eq_nil_iff]
  exact and_congr_right fun _ => by omega

theorem relink {c' : Cache} {ns' : List Addr} {next' prev' : Addr → Option Addr} (h : Wf c ns)
    (hr : Relinked c c' next' prev') (hl : Linked next' prev' (c.chain ns')) (hp : ns'.Perm ns) :
    Wf c' ns' := by
  have hchain : c'.chain ns' = c.chain ns' := by rw [hr.rest_eq]; rfl
  refine (h.registered.relink hr).wf ?_ hp
  rw [hchain, hr.next_eq, hr.prev_eq]
  exact hl

theorem moveToTail {x : Addr} {xs ys : List Addr} (h : Wf c (xs ++ x :: ys)) :
    ∃ c₁ c₂ next' prev', c.detach x = .ok c₁ ∧ c₁.appendToListTail x = .ok c₂ ∧
      Relinked c c₂ next' prev' ∧ Linked next' prev' (c.chain (xs ++ ys ++ [x])) := by
  have hx : c.Live x := h.live x (mem_chain_of_mem (by simp))
  obtain ⟨c₁, next₁, prev₁, h₁, r₁, hl₁⟩ := detach_linked h.linked h.live
  have hch : ∀ ms, c₁.chain ms = c.chain ms := fun ms => by rw [r₁.rest_eq]; rfl
  rw [← r₁.next_eq, ← r₁.prev_eq, ← hch] at hl₁
  have hmid : c.chain (xs ++ x :: ys) = (c.head :: xs) ++ x :: (ys ++ [c.tail]) := by simp [chain]
  have hlive : ∀ a ∈ c₁.chain (xs ++ ys), c₁.Live a := by
    intro a ha
    refine r₁.live.mpr (h.live a ?_)
    rw [hch, chain_append] at ha
    rw [hmid]
    exact ((List.sublist_cons_self x _).append_left _).subset ha
  have hnew : x ∉ c₁.chain (xs ++ ys) := by
    have hnd := h.linked.nodup
    rw [hmid] at hnd
    rw [hch, chain_append]
    exact (List.nodup_cons.mp (List.perm_middle.nodup_iff.mp hnd)).1
  obtain ⟨c₂, next₂, prev₂, h₂, r₂, hl₂⟩ :=
    appendToListTail_linked hl₁ hlive (r₁.live.mpr hx) hnew
  exact ⟨c₁, c₂, next₂, prev₂, h₁, h₂, r₁.trans r₂, hch _ ▸ hl₂⟩

theorem tryLoad_hit {x : Addr} {xs ys : List Addr} (h : Wf c (xs ++ x :: ys)) {k : Bytes}
    (hk : c.mapping.lookup k = some x) (now : Int) (dst : DynamicByteArray) :
    ∃ c', c.tryLoad now k dst = .ok ((true, dst ++ (c.entry x).2), c') ∧
      Wf c' (xs ++ ys ++ [x]) ∧ c'.capacity = c.capacity ∧ c'.entry = c.entry := by
  have hx : c.Live x := h.live x (mem_chain_of_mem (by simp))
  obtain ⟨node, hd, -, -, hpay⟩ := deref_live hx
  obtain ⟨c₁, c₂, next', prev', h₁, h₂, r, hl⟩ := h.moveToTail
  obtain ⟨c₃, h₃, r₃⟩ := updateTimestamp_live (r.live.mpr hx) now
  have hr : Relinked c c₃ next' prev' := by
    have hr := r.trans r₃
    rwa [r.next_eq, r.prev_eq] at hr
  have hperm : (xs ++ ys ++ [x]).Perm (xs ++ x :: ys) :=
    (List.perm_append_comm).trans (by simpa using List.perm_middle.symm)
  have hdata : (c.entry x).2 = node.data := by rw [entry, hpay]; rfl
  refine ⟨c₃, ?_, h.relink hr hl hperm, by rw [hr.rest_eq], ?_⟩
  · simp only [tryLoad, hk, hd, h₁, h₂, h₃, hdata, Refinement.ok_bind, Refinement.pure_eq_ok]
  · funext a
    rw [entry, hr.payload_eq]
    rfl

theorem tryLoad_miss {k : Bytes} (hk : c.mapping.lookup k = none) (now : Int)
    (dst : DynamicByteArray) : c.tryLoad now k dst = .ok ((false, dst), c) := by
  simp only [tryLoad, hk, Refinement.pure_eq_ok]

theorem notMem_chain_of_cons {x : Addr} (h : Wf c (x :: ns)) : x ∉ c.chain ns := by
  have hnd : ([c.head] ++ x :: (ns ++ [c.tail])).Nodup := by
    simpa [chain] using h.linked.nodup
  have hm := (List.nodup_cons.mp (List.perm_middle.nodup_iff.mp hnd)).1
  simpa [chain] using hm

theorem mem_filter_mapping_iff {x : Addr} {key data : Bytes} (h : Wf c (x :: ns))
    (hpay : c.payload x = some (key, data)) (k : Bytes) (a : Addr) :
    (k, a) ∈ c.mapping.filter (fun e => e.1 ≠ key) ↔
      a ∈ ns ∧ ∃ d, c.payload a = some (k, d) := by
  have hlook : c.mapping.lookup key = some x :=
    (lookup_eq_some_iff_mem h.keys).mpr ((h.mapping key x).mpr ⟨List.mem_cons_self, data, hpay⟩)
  rw [List.mem_filter, h.mapping]
  constructor
  · intro he
    obtain ⟨⟨ha, d, hd⟩, hk⟩ := he
    have hax : a ≠ x := by
      intro hax
      rw [hax, hpay] at hd
      cases hd
      simp at hk
    exact ⟨(List.mem_cons.mp ha).resolve_left hax, d, hd⟩
  · intro he
    obtain ⟨ha, d, hd⟩ := he
    refine ⟨⟨List.mem_cons_of_mem _ ha, d, hd⟩, ?_⟩
    have hk : k ≠ key := by
      intro hk
      have ha' := h.lookup_iff.mpr ⟨List.mem_cons_of_mem x ha,
        show (c.entry a).1 = key by rw [entry, hd]; exact hk⟩
      have hax : a = x := Option.some.inj (ha'.symm.trans hlook)
      exact h.notMem_chain_of_cons (hax ▸ mem_chain_of_mem ha)
    simpa using hk

theorem payload_eraseVictim_of_ne {a x : Addr} (ha : a ≠ x) (key : Bytes) (size : ℕ) :
    (c.eraseVictim key x size).payload a = c.payload a := by
  simp [Cache.eraseVictim, payload, ha]

theorem sizeSub_first {x : Addr} {key data : Bytes} (h : Wf c (x :: ns))
    (hpay : c.payload x = some (key, data)) :
    sizeSub c.occupancy data.length = total List.length (c.entries ns) ∧
      c.occupancy = data.length + total List.length (c.entries ns) := by
  have hf := h.fits
  have hb := h.bounded
  have hocc : c.occupancy = data.length + total List.length (c.entries ns) := by
    rw [h.occupancy]
    simp [entries, entry, hpay]
  refine ⟨?_, hocc⟩
  rw [sizeSub_of_le (by omega) (by omega)]
  omega

theorem eraseVictim {c₁ : Cache} {x : Addr} {key data : Bytes} {next' prev' : Addr → Option Addr}
    (h : Wf c (x :: ns)) (hr : Relinked c c₁ next' prev') (hl : Linked next' prev' (c.chain ns))
    (hpay : c.payload x = some (key, data)) :
    Wf (c₁.eraseVictim key x data.length) ns ∧
      (c₁.eraseVictim key x data.length).entries ns = c.entries ns ∧
      (c₁.eraseVictim key x data.length).occupancy + data.length = c.occupancy := by
  have hrest := hr.rest_eq
  have hne : ∀ a ∈ c.chain ns, a ≠ x := fun a ha he => h.notMem_chain_of_cons (he ▸ ha)
  have hxns : ∀ a ∈ ns, a ≠ x := fun a ha => hne a (mem_chain_of_mem ha)
  have hch : (c₁.eraseVictim key x data.length).chain ns = c.chain ns := by rw [hrest]; rfl
  have hmap : (c₁.eraseVictim key x data.length).mapping =
      c.mapping.filter fun e => e.1 ≠ key := by
    rw [hrest]; rfl
  have hpayload : ∀ a, a ≠ x →
      (c₁.eraseVictim key x data.length).payload a = c.payload a := by
    intro a ha
    rw [payload_eraseVictim_of_ne ha, hr.payload_eq]
  have hentries : (c₁.eraseVictim key x data.length).entries ns = c.entries ns :=
    List.map_congr_left fun a ha => by rw [entry, entry, hpayload a (hxns a ha)]
  have hf := h.fits
  obtain ⟨hfirst, hocc⟩ := h.sizeSub_first hpay
  have hsub : (c₁.eraseVictim key x data.length).occupancy =
      total List.length (c.entries ns) := by
    rw [← hfirst, hrest]
    rfl
  refine ⟨⟨?_, ?_, ?_, ?_, ?_, ?_, ?_, ?_⟩, hentries, by omega⟩
  · rw [hch]
    refine hl.congr (fun a ha => ?_) fun a ha => ?_
    · rw [← hr.next_eq]
      simp [Cache.eraseVictim, Cache.next, hne a ha]
    · rw [← hr.prev_eq]
      simp [Cache.eraseVictim, Cache.prev, hne a ha]
  · intro a ha
    rw [hch] at ha
    rw [Live, hpayload a (hne a ha)]
    refine h.live a ?_
    simp only [chain, List.cons_append, List.mem_cons, List.mem_append] at ha ⊢
    tauto
  · intro k a
    rw [hmap, h.mem_filter_mapping_iff hpay]
    exact and_congr_right fun ha => by rw [hpayload a (hxns a ha)]
  · rw [hmap]
    exact h.keys.sublist (List.filter_sublist.map _)
  · rw [hsub, hentries]
  · have hcap : (c₁.eraseVictim key x data.length).capacity = c.capacity := by rw [hrest]; rfl
    rw [hsub, hcap]
    omega
  · rw [hrest]
    exact h.bounded
  · intro a ha
    have hfree : (c₁.eraseVictim key x data.length).nextFree = c.nextFree := by rw [hrest]; rfl
    rw [hfree]
    by_cases hax : a = x
    · exact h.fresh a (hax ▸ h.live x (mem_chain_of_mem List.mem_cons_self))
    · rw [Live, hpayload a hax] at ha
      exact h.fresh a ha

theorem evictFirst_spec {x : Addr} (h : Wf c (x :: ns)) :
    ∃ c', c.evictFirst = .ok c' ∧ Wf c' ns ∧ c'.capacity = c.capacity ∧
      c'.entries ns = c.entries ns ∧ c'.mapping.length < c.mapping.length ∧
      c'.occupancy + (c.entry x).2.length = c.occupancy := by
  have hx : c.Live x := h.live x (mem_chain_of_mem List.mem_cons_self)
  have hl : Linked c.next c.prev ([c.head] ++ (x :: ns ++ [c.tail])) := h.linked
  have hfirst : c.next c.head = some x := (hl.link rfl List.head?_cons).1
  obtain ⟨hd, hhd, hhn, -, -⟩ := deref_live (h.live c.head (head_mem_chain c _))
  obtain ⟨node, hnd, -, -, hpay⟩ := deref_live hx
  have hentry : c.entry x = (node.identifier, node.data) := by rw [entry, hpay]; rfl
  have hlook : c.mapping.lookup node.identifier = some x :=
    h.lookup_iff.mpr ⟨List.mem_cons_self, by rw [hentry]⟩
  have hfst : Wf c ([] ++ x :: ns) := h
  obtain ⟨c₁, next₁, prev₁, h₁, r₁, hl₁⟩ := detach_linked hfst.linked hfst.live
  obtain ⟨hwf, hentries, hocc⟩ := h.eraseVictim r₁ hl₁ hpay
  refine ⟨c₁.eraseVictim node.identifier x node.data.length, ?_, hwf, ?_, hentries, ?_, ?_⟩
  · simp only [evictFirst, hhd, hhn, hfirst, hnd, hlook, h₁, Refinement.ok_bind,
      Refinement.pure_eq_ok]
  · rw [r₁.rest_eq]
    rfl
  · have hmap : (c₁.eraseVictim node.identifier x node.data.length).mapping =
        c.mapping.filter fun e => e.1 ≠ node.identifier := by rw [r₁.rest_eq]; rfl
    rw [hmap]
    refine List.length_filter_lt_length_iff_exists.mpr ⟨(node.identifier, x), ?_, by simp⟩
    exact (lookup_eq_some_iff_mem h.keys).mp hlook
  · rw [hentry]
    exact hocc

theorem evictLoop_spec {n fuel : ℕ} (h : Wf c ns) (hn : n ≤ c.capacity)
    (hfuel : c.mapping.length ≤ fuel) :
    ∃ c' ns', evictLoop n fuel c = .ok c' ∧ Wf c' ns' ∧ c'.capacity = c.capacity ∧
      c'.entries ns' = dropToFit List.length c.capacity n (c.entries ns) ∧
      c'.occupancy + n ≤ c.capacity := by
  induction fuel generalizing c ns with
  | zero =>
    have hm : c.mapping = [] := List.length_eq_zero_iff.mp (by omega)
    obtain rfl := h.mapping_eq_nil_iff.mp hm
    have hev : c.evictionNeeded n = false := by simp [evictionNeeded, hm]
    have hocc : c.occupancy = 0 := h.occupancy
    exact ⟨c, [], by simp [evictLoop, hev], h, rfl, rfl, by omega⟩
  | succ fuel ih =>
    by_cases hev : c.evictionNeeded n = true
    · obtain ⟨hne, hfull⟩ := h.evictionNeeded_iff.mp hev
      cases ns with
      | nil => exact absurd rfl hne
      | cons x ns =>
        obtain ⟨c₁, h₁, hwf, hcap, hent, hlen, -⟩ := h.evictFirst_spec
        obtain ⟨c', ns', h', hwf', hcap', hent', hfit⟩ := ih hwf (by omega) (by omega)
        refine ⟨c', ns', ?_, hwf', hcap'.trans hcap, ?_, by omega⟩
        · simp only [evictLoop, hev, if_true, h₁, Refinement.ok_bind, h']
        · rw [hent', hent, hcap]
          exact (dropToFit_cons_of_not_fits _ hfull).symm
    · have hfits : total List.length (c.entries ns) + n ≤ c.capacity := by
        by_contra hfull
        cases ns with
        | nil => exact hfull (by simpa [entries] using hn)
        | cons x ns => exact hev (h.evictionNeeded_iff.mpr ⟨List.cons_ne_nil _ _, hfull⟩)
      refine ⟨c, ns, by simp [evictLoop, hev], h, rfl, (dropToFit_of_fits _ hfits).symm, ?_⟩
      rw [h.occupancy]
      exact hfits

section MakeNode

variable (now : Int) (k data : Bytes)

theorem ne_nextFree (h : Wf c ns) {a : Addr} (ha : a ∈ c.chain ns) : a ≠ c.nextFree :=
  Nat.ne_of_lt (h.fresh a (h.live a ha))

theorem payload_makeNode_of_ne {a : Addr} (ha : a ≠ c.nextFree) :
    (c.makeNode now k data).payload a = c.payload a := by
  simp [makeNode, payload, ha]

theorem payload_makeNode_self : (c.makeNode now k data).payload c.nextFree = some (k, data) := by
  simp [makeNode, payload]

theorem live_makeNode (h : Wf c ns) {a : Addr} (ha : a ∈ c.chain ns) :
    (c.makeNode now k data).Live a := by
  rw [Live, payload_makeNode_of_ne now k data (h.ne_nextFree ha)]
  exact h.live a ha

theorem linkNew (h : Wf c ns) :
    ∃ c₁ next' prev', (c.makeNode now k data).appendToListTail c.nextFree = .ok c₁ ∧
      Relinked (c.makeNode now k data) c₁ next' prev' ∧
      Linked next' prev' (c.head :: ns ++ c.nextFree :: [c.tail]) := by
  have hl : Linked (c.makeNode now k data).next (c.makeNode now k data).prev (c.chain ns) := by
    refine h.linked.congr (fun a ha => ?_) fun a ha => ?_
    · simp [makeNode, Cache.next, h.ne_nextFree ha]
    · simp [makeNode, Cache.prev, h.ne_nextFree ha]
  have hnew : (c.makeNode now k data).Live c.nextFree := by
    rw [Live, payload_makeNode_self]
    rfl
  obtain ⟨c₁, next₁, prev₁, h₁, r, hl₁⟩ :=
    appendToListTail_linked hl (fun a ha => h.live_makeNode now k data ha) hnew
      fun hm => h.ne_nextFree hm rfl
  exact ⟨c₁, next₁, prev₁, h₁, r, by simpa [chain, makeNode] using hl₁⟩

end MakeNode

theorem payload_appendNew {c₁ : Cache} {next' prev' : Addr → Option Addr} {k data : Bytes}
    {now : Int} (r : Relinked (c.makeNode now k data) c₁ next' prev') :
    c₁.payload c.nextFree = some (k, data) ∧
      ∀ a, a ≠ c.nextFree → c₁.payload a = c.payload a := by
  constructor
  · rw [r.payload_eq, payload_makeNode_self]
  · intro a ha
    rw [r.payload_eq, payload_makeNode_of_ne now k data ha]

theorem entries_appendNew {c₁ : Cache} {next' prev' : Addr → Option Addr} {k data : Bytes}
    {now : Int} (h : Wf c ns) (r : Relinked (c.makeNode now k data) c₁ next' prev') :
    c₁.entries (ns ++ [c.nextFree]) = c.entries ns ++ [(k, data)] := by
  obtain ⟨hnew, hpay⟩ := payload_appendNew r
  have hold : ∀ a ∈ ns, c₁.entry a = c.entry a := by
    intro a ha
    rw [entry, hpay a (h.ne_nextFree (mem_chain_of_mem ha)), entry]
  rw [entries, List.map_append, List.map_congr_left hold]
  simp [entries, entry, hnew]

theorem live_appendNew {c₁ : Cache} {next' prev' : Addr → Option Addr} {k data : Bytes}
    {now : Int} (h : Wf c ns) (r : Relinked (c.makeNode now k data) c₁ next' prev') {a : Addr}
    (ha : a ∈ c.head :: ns ++ c.nextFree :: [c.tail]) : c₁.Live a := by
  by_cases hax : a = c.nextFree
  · rw [hax, Live, (payload_appendNew r).1]
    rfl
  · refine r.live.mpr (h.live_makeNode now k data ?_)
    simp only [chain, List.cons_append, List.mem_cons, List.mem_append] at ha ⊢
    tauto

theorem mem_mapping_appendNew {c₁ : Cache} {next' prev' : Addr → Option Addr} {k data : Bytes}
    {now : Int} (h : Wf c ns) (r : Relinked (c.makeNode now k data) c₁ next' prev')
    (k' : Bytes) (a : Addr) :
    (k', a) ∈ (k, c.nextFree) :: c.mapping ↔
      a ∈ ns ++ [c.nextFree] ∧ ∃ d, c₁.payload a = some (k', d) := by
  obtain ⟨hnew, hpay⟩ := payload_appendNew r
  rw [List.mem_cons, h.mapping, List.mem_append, List.mem_singleton]
  by_cases ha : a = c.nextFree
  · subst ha
    have hnot : c.nextFree ∉ ns := fun hm => h.ne_nextFree (mem_chain_of_mem hm) rfl
    simp [hnew, hnot, eq_comm]
  · simp [hpay a ha, ha]

theorem appendNew {k data : Bytes} (h : Wf c ns) (now : Int)
    (hk : c.mapping.lookup k = none) (hfit : c.occupancy + data.length ≤ c.capacity) :
    ∃ c₁, (c.makeNode now k data).appendToListTail c.nextFree = .ok c₁ ∧
      Wf { c₁ with
        occupancy := sizeAdd c₁.occupancy data.length
        mapping := emplace c₁.mapping k c.nextFree } (ns ++ [c.nextFree]) ∧
      c₁.capacity = c.capacity ∧
      c₁.entries (ns ++ [c.nextFree]) = c.entries ns ++ [(k, data)] := by
  obtain ⟨c₁, next', prev', h₁, r, hl⟩ := h.linkNew now k data
  have hrest := r.rest_eq
  have hpay := (payload_appendNew r).2
  have hentries := h.entries_appendNew r
  have hmap : emplace c₁.mapping k c.nextFree = (k, c.nextFree) :: c.mapping := by
    have hm : c₁.mapping = c.mapping := by rw [hrest]; rfl
    rw [hm, emplace_of_lookup_none hk]
  have hocc : sizeAdd c₁.occupancy data.length = c.occupancy + data.length := by
    have hb := h.bounded
    rw [show c₁.occupancy = c.occupancy by rw [hrest]; rfl, sizeAdd_of_lt (by omega)]
  have hcap : c₁.capacity = c.capacity := by rw [hrest]; rfl
  have hch : c₁.chain (ns ++ [c.nextFree]) = c.head :: ns ++ c.nextFree :: [c.tail] := by
    rw [hrest]
    simp [chain, makeNode]
  refine ⟨c₁, h₁, ⟨?_, ?_, ?_, ?_, ?_, ?_, ?_, ?_⟩, hcap, hentries⟩
  · change Linked c₁.next c₁.prev (c₁.chain (ns ++ [c.nextFree]))
    rw [hch, r.next_eq, r.prev_eq]
    exact hl
  · change ∀ a ∈ c₁.chain (ns ++ [c.nextFree]), c₁.Live a
    rw [hch]
    exact fun a ha => h.live_appendNew r ha
  · change ∀ k' a, (k', a) ∈ emplace c₁.mapping k c.nextFree ↔ a ∈ ns ++ [c.nextFree] ∧
      ∃ d, c₁.payload a = some (k', d)
    rw [hmap]
    exact h.mem_mapping_appendNew r
  · change ((emplace c₁.mapping k c.nextFree).map Prod.fst).Nodup
    rw [hmap]
    exact nodup_keys_cons h.keys hk c.nextFree
  · change sizeAdd c₁.occupancy data.length = total List.length (c₁.entries (ns ++ [c.nextFree]))
    rw [hocc, hentries, h.occupancy, total_append]
    simp
  · change sizeAdd c₁.occupancy data.length ≤ c₁.capacity
    rw [hocc, hcap]
    exact hfit
  · change c₁.capacity < sizeModulus
    rw [hcap]
    exact h.bounded
  · change ∀ a, c₁.Live a → a < c₁.nextFree
    intro a ha
    have hfree : c₁.nextFree = c.nextFree + 1 := by rw [hrest]; rfl
    rw [hfree]
    by_cases hax : a = c.nextFree
    · exact hax ▸ Nat.lt_succ_self _
    · rw [Live, hpay a hax] at ha
      exact Nat.lt_succ_of_lt (h.fresh a ha)

theorem evictLoop_lookup_none {n : ℕ} {c' : Cache} {ns' : List Addr} {k : Bytes}
    (h : Wf c ns) (h' : Wf c' ns') (hk : c.mapping.lookup k = none)
    (he : c'.entries ns' = dropToFit List.length c.capacity n (c.entries ns))
    (hn : n ≤ c.capacity) : c'.mapping.lookup k = none := by
  rw [← Option.not_isSome_iff_eq_none] at hk ⊢
  rw [h'.mem_keys_iff, he]
  rw [h.mem_keys_iff] at hk
  obtain ⟨j, hj, -, -⟩ := dropToFit_shortest List.length hn (c.entries ns)
  intro hm
  rw [hj] at hm
  exact hk (((List.drop_sublist j _).map _).subset hm)

theorem tryInsert_spec (h : Wf c ns) (now : Int) (k data : Bytes) :
    match LruStore.insert List.length c.capacity k data (c.entries ns) with
    | none => c.tryInsert now k data = .ok (false, c)
    | some es => ∃ c' ns', c.tryInsert now k data = .ok (true, c') ∧ Wf c' ns' ∧
        c'.capacity = c.capacity ∧ c'.entries ns' = es := by
  unfold LruStore.insert
  by_cases hk : (c.mapping.lookup k).isSome
  · rw [if_pos (Or.inl (h.mem_keys_iff.mp hk))]
    simp [tryInsert, hk]
  · by_cases hbig : c.capacity < data.length
    · rw [if_pos (Or.inr hbig)]
      simp [tryInsert, hk, hbig]
    · rw [if_neg (by rw [← h.mem_keys_iff]; tauto)]
      obtain ⟨c₁, ns₁, h₁, hwf₁, hcap₁, hent₁, hfit₁⟩ :=
        h.evictLoop_spec (n := data.length) (by omega) le_rfl
      have hk₁ := evictLoop_lookup_none h hwf₁
        (Option.not_isSome_iff_eq_none.mp hk) hent₁ (by omega)
      have hroom : c₁.occupancy + data.length ≤ c₁.capacity := by omega
      obtain ⟨c₂, h₂, hwf₂, hcap₂, hent₂⟩ := hwf₁.appendNew now hk₁ hroom
      refine ⟨_, ns₁ ++ [c₁.nextFree], ?_, hwf₂, hcap₂.trans hcap₁, ?_⟩
      · simp [tryInsert, hk, hbig, h₁, h₂]
      · rw [← hent₁]
        exact hent₂

theorem mem_map_snd_iff (h : Wf c ns) {a : Addr} : a ∈ c.mapping.map Prod.snd ↔ a ∈ ns :=
  h.registered.mem_map_snd_iff

theorem sentinels (h : Wf c ns) : c.head ∉ ns ∧ c.tail ∉ ns ∧ c.head ≠ c.tail := by
  have hnd : (c.head :: ns ++ [c.tail]).Nodup := h.linked.nodup
  obtain ⟨hinit, -, hdisj⟩ := List.nodup_append.mp hnd
  exact ⟨(List.nodup_cons.mp hinit).1,
    fun hm => hdisj c.tail (List.mem_cons_of_mem _ hm) c.tail List.mem_cons_self rfl,
    hdisj c.head List.mem_cons_self c.tail List.mem_cons_self⟩

theorem clear_spec (h : Wf c ns) :
    ∃ c', c.clear = .ok c' ∧ Wf c' [] ∧ c'.capacity = c.capacity := by
  have hhl := h.live c.head (head_mem_chain c ns)
  have htl := h.live c.tail (tail_mem_chain c ns)
  obtain ⟨hhead, htail, hne⟩ := h.sentinels
  obtain ⟨c₁, h₁, r₁⟩ := setNext_live hhl (some c.tail)
  have ht₁ : c₁.tail = c.tail := by rw [r₁.rest_eq]
  have hd₁ : c₁.head = c.head := by rw [r₁.rest_eq]
  obtain ⟨c₂, h₂, r₂⟩ := setPrev_live (r₁.live.mpr htl) (some c.head)
  have r := r₁.trans r₂
  rw [r₁.next_eq, r₁.prev_eq] at r
  have hrest := r.rest_eq
  have hfreed : ∀ a, a ∈ c₂.mapping.map Prod.snd ↔ a ∈ ns := by
    intro a
    have hm : c₂.mapping = c.mapping := by rw [hrest]
    rw [hm, h.mem_map_snd_iff]
  have hheap : ∀ a, a ∉ ns → c₂.eraseAll.heap a = c₂.heap a :=
    fun a ha => if_neg fun hm => ha ((hfreed a).mp hm)
  have hch : c₂.eraseAll.chain [] = [c.head, c.tail] := by rw [hrest]; rfl
  refine ⟨c₂.eraseAll, ?_, ⟨?_, ?_, ?_, ?_, rfl, Nat.zero_le _, ?_, ?_⟩, ?_⟩
  · simp only [clear, h₁, ht₁, hd₁, h₂, Refinement.ok_bind, Refinement.pure_eq_ok]
  · refine ⟨?_, by simpa [hch] using hne⟩
    have hn : c₂.next c.head = some c.tail := by rw [r.next_eq, Function.update_self]
    have hp : c₂.prev c.tail = some c.head := by rw [r.prev_eq, Function.update_self]
    rw [hch, List.isChain_pair]
    constructor
    · rw [← hn, Cache.next, Cache.next, hheap _ hhead]
    · rw [← hp, Cache.prev, Cache.prev, hheap _ htail]
  · intro a ha
    rw [hch, List.mem_cons, List.mem_singleton] at ha
    have hlive : c₂.Live a := by
      rcases ha with rfl | rfl
      · exact r.live.mpr hhl
      · exact r.live.mpr htl
    have hns : a ∉ ns := by rcases ha with rfl | rfl <;> assumption
    rw [live_iff] at hlive ⊢
    rwa [hheap a hns]
  · simp [eraseAll]
  · simp [eraseAll]
  · rw [hrest]
    exact h.bounded
  · intro a ha
    have hfree : c₂.eraseAll.nextFree = c.nextFree := by rw [hrest]; rfl
    rw [hfree]
    refine h.fresh a (r.live.mp ?_)
    obtain ⟨node, hnode⟩ := live_iff.mp ha
    have hns : a ∉ ns := fun hm => by simp [eraseAll, (hfreed a).mpr hm] at hnode
    exact live_iff.mpr ⟨node, (hheap a hns).symm.trans hnode⟩
  · rw [hrest]
    rfl

end Wf

theorem new_wf (now : Int) (capacity : UInt64) : Wf (Cache.new now capacity) [] := by
  refine ⟨⟨?_, ?_⟩, ?_, ?_, ?_, rfl, Nat.zero_le _, capacity.toNat_lt, ?_⟩
  · exact List.isChain_pair.mpr ⟨rfl, rfl⟩
  · simp [chain, Cache.new]
  · intro a ha
    have hm : a = 0 ∨ a = 1 := by simpa [chain, Cache.new] using ha
    rcases hm with rfl | rfl <;> rfl
  · simp [Cache.new]
  · simp [Cache.new]
  · intro a ha
    match a with
    | 0 => exact Nat.zero_lt_two
    | 1 => exact Nat.one_lt_two
    | n + 2 => simp [Live, payload, Cache.new] at ha

end HttpReactor.Cache
