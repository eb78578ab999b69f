import HttpReactor.CacheSharing
import Mathlib.Data.List.Forall2

/-!
# What overlapping loads leave alone

Loads that overlap can spoil the list, so that a later eviction picks the wrong victim or
follows a freed pointer. They do not touch the map or the bytes: until a call follows a freed or
null pointer or evicts a victim that is not in the map, whatever the order of the calls, a load
appends the bytes that were last inserted under its url. As long as no url is empty, the
occupancy stays the total size of the cached bytes as well.
-/

namespace HttpReactor
open Refinement LruStore

namespace Cache

def Relinks (c c' : Cache) : Prop := ∃ next' prev', Relinked c c' next' prev'

variable {c c' : Cache}

theorem Relinks.refl (c : Cache) : Relinks c c := ⟨c.next, c.prev, rfl, rfl, rfl, rfl⟩

theorem Relinks.trans {c'' : Cache} (h : Relinks c c') (h' : Relinks c' c'') : Relinks c c'' := by
  obtain ⟨n₁, p₁, r₁⟩ := h
  obtain ⟨n₂, p₂, r₂⟩ := h'
  exact ⟨n₂, p₂, r₁.trans r₂⟩

theorem Relinks.payload_eq (h : Relinks c c') : c'.payload = c.payload := by
  obtain ⟨n, p, r⟩ := h
  exact r.payload_eq

theorem Relinks.rest_eq (h : Relinks c c') : c' = { c with heap := c'.heap } := by
  obtain ⟨n, p, r⟩ := h
  exact r.rest_eq

theorem live_of_modify {p : Option Addr} {f : CacheNode → CacheNode} (h : c.modify p f = .ok c') :
    ∃ a, p = some a ∧ c.Live a := by
  unfold modify at h
  split at h
  · next a =>
    split at h
    · next node hn => exact ⟨a, rfl, live_iff.mpr ⟨node, hn⟩⟩
    · cases h
  · cases h

theorem relinks_of_setNext {p v : Option Addr} (h : c.setNext p v = .ok c') : Relinks c c' := by
  obtain ⟨a, rfl, ha⟩ := live_of_modify h
  obtain ⟨c₁, h₁, r⟩ := setNext_live ha v
  rw [h] at h₁
  cases h₁
  exact ⟨_, _, r⟩

theorem relinks_of_setPrev {p v : Option Addr} (h : c.setPrev p v = .ok c') : Relinks c c' := by
  obtain ⟨a, rfl, ha⟩ := live_of_modify h
  obtain ⟨c₁, h₁, r⟩ := setPrev_live ha v
  rw [h] at h₁
  cases h₁
  exact ⟨_, _, r⟩

theorem relinks_of_updateTimestamp {x : Addr} {now : Int}
    (h : c.updateTimestamp x now = .ok c') : Relinks c c' := by
  obtain ⟨a, hx, ha⟩ := live_of_modify h
  cases hx
  obtain ⟨c₁, h₁, r⟩ := updateTimestamp_live ha now
  rw [h] at h₁
  cases h₁
  exact ⟨_, _, r⟩

theorem relinks_of_detach {x : Addr} (h : c.detach x = .ok c') : Relinks c c' := by
  obtain ⟨node, -, h⟩ := bind_eq_ok h
  obtain ⟨c₁, h₁, h⟩ := bind_eq_ok h
  obtain ⟨node', -, h₂⟩ := bind_eq_ok h
  exact (relinks_of_setNext h₁).trans (relinks_of_setPrev h₂)

theorem relinks_of_appendToListTail {x : Addr} (h : c.appendToListTail x = .ok c') :
    Relinks c c' := by
  obtain ⟨tail, -, h⟩ := bind_eq_ok h
  obtain ⟨c₁, h₁, h⟩ := bind_eq_ok h
  obtain ⟨c₂, h₂, h⟩ := bind_eq_ok h
  obtain ⟨c₃, h₃, h₄⟩ := bind_eq_ok h
  exact (((relinks_of_setNext h₁).trans (relinks_of_setPrev h₂)).trans
    (relinks_of_setPrev h₃)).trans (relinks_of_setNext h₄)

/-- The map and the heap agree, however the nodes are linked. -/
structure Filed (c : Cache) : Prop where
  keys : (c.mapping.map Prod.fst).Nodup
  stored : ∀ e ∈ c.mapping, ∃ data, c.payload e.2 = some (e.1, data)
  fresh : ∀ a, c.Live a → a < c.nextFree

theorem Wf.filed {ns : List Addr} (h : Wf c ns) : c.Filed :=
  ⟨h.keys, fun e he => ((h.mapping e.1 e.2).mp he).2, h.fresh⟩

theorem Filed.relink (h : c.Filed) (hr : Relinks c c') : c'.Filed := by
  have hmap : c'.mapping = c.mapping := by rw [hr.rest_eq]
  have hfree : c'.nextFree = c.nextFree := by rw [hr.rest_eq]
  refine ⟨hmap ▸ h.keys, fun e he => ?_, fun a ha => ?_⟩
  · rw [hr.payload_eq]
    exact h.stored e (hmap ▸ he)
  · rw [Live, hr.payload_eq] at ha
    exact hfree ▸ h.fresh a ha

structure Keeps (c c' : Cache) : Prop where
  mem : ∀ e ∈ c'.mapping, e ∈ c.mapping
  payload : ∀ e ∈ c'.mapping, c'.payload e.2 = c.payload e.2
  capacity : c'.capacity = c.capacity

theorem Keeps.trans {c'' : Cache} (h : Keeps c c') (h' : Keeps c' c'') : Keeps c c'' :=
  ⟨fun e he => h.mem e (h'.mem e he),
    fun e he => (h'.payload e he).trans (h.payload e (h'.mem e he)), h'.capacity.trans h.capacity⟩

theorem Relinks.keeps (h : Relinks c c') : Keeps c c' := by
  have hmap : c'.mapping = c.mapping := by rw [h.rest_eq]
  exact ⟨fun e he => hmap ▸ he, fun e _ => by rw [h.payload_eq], by rw [h.rest_eq]⟩

theorem Filed.eraseVictim (h : c.Filed) {key : Bytes} {node : Addr}
    (hlook : c.mapping.lookup key = some node) (size : ℕ) :
    (c.eraseVictim key node size).Filed ∧ Keeps c (c.eraseVictim key node size) := by
  have hnode := (lookup_eq_some_iff_mem h.keys).mp hlook
  obtain ⟨data, hpay⟩ := h.stored _ hnode
  have hmem : ∀ e ∈ (c.eraseVictim key node size).mapping, e ∈ c.mapping ∧ e.2 ≠ node := by
    intro e he
    obtain ⟨he, hk⟩ := List.mem_filter.mp he
    refine ⟨he, fun hn => ?_⟩
    obtain ⟨d, hd⟩ := h.stored e he
    rw [hn, hpay] at hd
    cases hd
    simp at hk
  have hkeep : ∀ e ∈ (c.eraseVictim key node size).mapping,
      (c.eraseVictim key node size).payload e.2 = c.payload e.2 :=
    fun e he => Wf.payload_eraseVictim_of_ne (hmem e he).2 key size
  refine ⟨⟨h.keys.sublist (List.filter_sublist.map _), fun e he => ?_, fun a ha => ?_⟩,
    fun e he => (hmem e he).1, hkeep, rfl⟩
  · rw [hkeep e he]
    exact h.stored e (hmem e he).1
  · by_cases han : a = node
    · exact h.fresh a (by rw [han, Live, hpay]; rfl)
    · rw [Live, Wf.payload_eraseVictim_of_ne han] at ha
      exact h.fresh a ha

theorem evictFirst_ok (h : c.evictFirst = .ok c') :
    ∃ a first node c₁, c.heap a = some first ∧ c.mapping.lookup first.identifier = some node ∧
      Relinks c c₁ ∧ c' = c₁.eraseVictim first.identifier node first.data.length := by
  obtain ⟨head, -, h⟩ := bind_eq_ok h
  obtain ⟨first, hfirst, h⟩ := bind_eq_ok h
  obtain ⟨a, -, ha⟩ : ∃ a, head.next = some a ∧ c.heap a = some first := by
    unfold deref at hfirst
    split at hfirst
    · next node hn =>
      cases hfirst
      exact Option.bind_eq_some_iff.mp hn
    · cases hfirst
  split at h
  · cases h
  · next node hlook =>
    obtain ⟨c₁, h₁, h⟩ := bind_eq_ok h
    cases h
    exact ⟨a, first, node, c₁, ha, hlook, relinks_of_detach h₁, rfl⟩

theorem Filed.evictFirst (h : c.Filed) (hok : c.evictFirst = .ok c') : c'.Filed ∧ Keeps c c' := by
  obtain ⟨a, first, node, c₁, -, hlook, hr, rfl⟩ := evictFirst_ok hok
  have hmap : c₁.mapping = c.mapping := by rw [hr.rest_eq]
  obtain ⟨hf, hk⟩ := (h.relink hr).eraseVictim (hmap ▸ hlook) first.data.length
  exact ⟨hf, hr.keeps.trans hk⟩

theorem evictLoop_invariant {I : Cache → Prop}
    (hI : ∀ c c', I c → c.evictFirst = .ok c' → I c') {n fuel : ℕ} (h : I c)
    (hok : evictLoop n fuel c = .ok c') : I c' ∧ c'.evictionNeeded n = false := by
  induction fuel generalizing c with
  | zero =>
    rw [evictLoop] at hok
    split_ifs at hok with hev
    cases hok
    exact ⟨h, by simpa using hev⟩
  | succ fuel ih =>
    rw [evictLoop] at hok
    split_ifs at hok with hev
    · obtain ⟨c₁, h₁, hrest⟩ := bind_eq_ok hok
      exact ih (hI c c₁ h h₁) hrest
    · cases hok
      exact ⟨h, by simpa using hev⟩

theorem tryInsert_ok {now : Int} {k data : Bytes} {stored : Bool}
    (h : c.tryInsert now k data = .ok (stored, c')) :
    (stored = false ∧ c' = c) ∨
    (stored = true ∧ c.mapping.lookup k = none ∧ data.length ≤ c.capacity ∧ ∃ c₁ c₂,
      evictLoop data.length c.mapping.length c = .ok c₁ ∧
      Relinks (c₁.makeNode now k data) c₂ ∧
      c' = { c₂ with
        occupancy := sizeAdd c₂.occupancy data.length
        mapping := emplace c₂.mapping k c₁.nextFree }) := by
  unfold tryInsert at h
  split_ifs at h with hk hbig
  · cases h
    exact Or.inl ⟨rfl, rfl⟩
  · cases h
    exact Or.inl ⟨rfl, rfl⟩
  · obtain ⟨c₁, h₁, h⟩ := bind_eq_ok h
    obtain ⟨c₂, h₂, h⟩ := bind_eq_ok h
    cases h
    refine Or.inr ⟨rfl, Option.not_isSome_iff_eq_none.mp hk, by omega, c₁, c₂, h₁, ?_, rfl⟩
    exact relinks_of_appendToListTail h₂

theorem lookup_eq_none_of_keeps {k : Bytes} (hk : c.mapping.lookup k = none) (h : Keeps c c') :
    c'.mapping.lookup k = none := by
  rw [List.lookup_eq_none_iff] at hk ⊢
  exact fun e he => hk e (h.mem e he)

theorem Filed.insertNew {now : Int} {k data : Bytes} (h : c.Filed)
    (hk : c.mapping.lookup k = none) {c₂ : Cache} (hr : Relinks (c.makeNode now k data) c₂)
    (hc' : c' = { c₂ with
      occupancy := sizeAdd c₂.occupancy data.length
      mapping := emplace c₂.mapping k c.nextFree }) :
    c'.Filed ∧ c'.mapping = (k, c.nextFree) :: c.mapping ∧
      c'.payload c.nextFree = some (k, data) ∧
      ∀ a, a ≠ c.nextFree → c'.payload a = c.payload a := by
  have hmap₂ : c₂.mapping = c.mapping := by rw [hr.rest_eq]; rfl
  have hfree : c'.nextFree = c.nextFree + 1 := by rw [hc', hr.rest_eq]; rfl
  have hmap : c'.mapping = (k, c.nextFree) :: c.mapping := by
    rw [hc', hmap₂, emplace_of_lookup_none hk]
  have hpayload : c'.payload = (c.makeNode now k data).payload := by
    rw [hc', ← hr.payload_eq]
    rfl
  have hnew : c'.payload c.nextFree = some (k, data) := by
    rw [hpayload, Wf.payload_makeNode_self]
  have hold : ∀ a, a ≠ c.nextFree → c'.payload a = c.payload a := by
    intro a ha
    rw [hpayload, Wf.payload_makeNode_of_ne now k data ha]
  refine ⟨⟨?_, fun e he => ?_, fun a ha => ?_⟩, hmap, hnew, hold⟩
  · rw [hmap]
    exact nodup_keys_cons h.keys hk _
  · rw [hmap] at he
    rcases List.mem_cons.mp he with rfl | he
    · exact ⟨data, hnew⟩
    · obtain ⟨d, hd⟩ := h.stored e he
      have hlt := h.fresh e.2 (by rw [Live, hd]; rfl)
      exact ⟨d, by rw [hold _ (Nat.ne_of_lt hlt), hd]⟩
  · rw [hfree]
    by_cases han : a = c.nextFree
    · exact han ▸ Nat.lt_succ_self _
    · rw [Live, hold a han] at ha
      exact Nat.lt_succ_of_lt (h.fresh a ha)

theorem Filed.tryInsert {now : Int} {k data : Bytes} (h : c.Filed)
    (hok : c.tryInsert now k data = .ok (true, c')) :
    c'.Filed ∧ ∀ e ∈ c'.mapping, (e.1 = k ∧ c'.payload e.2 = some (k, data)) ∨
      (e.1 ≠ k ∧ e ∈ c.mapping ∧ c'.payload e.2 = c.payload e.2) := by
  rcases tryInsert_ok hok with ⟨hf, -⟩ | ⟨-, hk, -, c₁, c₂, hloop, hr, hc'⟩
  · cases hf
  · obtain ⟨⟨hf₁, hkeep⟩, -⟩ := evictLoop_invariant
      (I := fun c₁ => c₁.Filed ∧ Keeps c c₁)
      (fun a b hab hok => ⟨(hab.1.evictFirst hok).1, hab.2.trans (hab.1.evictFirst hok).2⟩)
      ⟨h, (Relinks.refl c).keeps⟩ hloop
    have hk₁ := lookup_eq_none_of_keeps hk hkeep
    obtain ⟨hf, hmap, hnew, hold⟩ := hf₁.insertNew hk₁ hr hc'
    refine ⟨hf, fun e he => ?_⟩
    rw [hmap] at he
    rcases List.mem_cons.mp he with rfl | he
    · exact Or.inl ⟨rfl, hnew⟩
    · have hne : e.1 ≠ k := by
        intro hek
        have := List.lookup_eq_none_iff.mp hk₁ e he
        simp [hek] at this
      obtain ⟨d, hd⟩ := hf₁.stored e he
      have hlt := hf₁.fresh e.2 (by rw [Live, hd]; rfl)
      exact Or.inr ⟨hne, hkeep.mem e he, by rw [hold _ (Nat.ne_of_lt hlt), hkeep.payload e he]⟩

end Cache

inductive Loading.Proceeded (l : Loading) (c : Cache) : Option Loading → Prop
  | serialized (k data : Bytes) (hl : l.pending = .serialize)
      (hpay : c.payload l.node = some (k, data)) :
      Loading.Proceeded l c
        (some { l with destination := l.destination ++ data, pending := .detach })
  | moved (pending : LoadCall) (hl : l.pending ≠ .serialize) (hp : pending ≠ .serialize) :
      Loading.Proceeded l c (some { l with pending := pending })
  | finished (hl : l.pending ≠ .serialize) : Loading.Proceeded l c none

theorem Loading.proceeded {l : Loading} {now : Int} {c c' : Cache} {o : Option Loading}
    (h : l.proceed now c = .ok (o, c')) : l.Proceeded c o ∧ c.Relinks c' := by
  obtain ⟨node, destination, pending⟩ := l
  cases pending with
  | serialize =>
    obtain ⟨cell, hcell, h⟩ := bind_eq_ok h
    cases h
    have hpay : c.payload node = some (cell.identifier, cell.data) := by
      unfold Cache.deref at hcell
      split at hcell
      · next n hn =>
        cases hcell
        rw [Option.bind_some] at hn
        simp [Cache.payload, hn]
      · cases hcell
    exact ⟨.serialized _ _ rfl hpay, .refl c⟩
  | detach =>
    obtain ⟨c₁, h₁, h⟩ := bind_eq_ok h
    cases h
    exact ⟨.moved _ (by simp) (by simp), Cache.relinks_of_detach h₁⟩
  | appendToListTail =>
    obtain ⟨c₁, h₁, h⟩ := bind_eq_ok h
    cases h
    exact ⟨.moved _ (by simp) (by simp), Cache.relinks_of_appendToListTail h₁⟩
  | updateTimestamp =>
    obtain ⟨c₁, h₁, h⟩ := bind_eq_ok h
    cases h
    exact ⟨.finished (by simp), Cache.relinks_of_updateTimestamp h₁⟩

inductive CacheAnswer
  | inserted (resourceUrl : Bytes) (source : DynamicByteArray)
  | hit (resourceUrl : Bytes) (destination loaded : DynamicByteArray)
  | missed (resourceUrl : Bytes)
deriving DecidableEq, Repr

/-- The cache with what each load in progress was asked and a record of the answers. -/
structure CacheHistory where
  shared : SharedCache
  asked : List (Bytes × DynamicByteArray)
  answers : List CacheAnswer

/-- The bytes that were last inserted under the url. -/
def lastInserted (resourceUrl : Bytes) (answers : List CacheAnswer) : Option DynamicByteArray :=
  answers.foldl (fun last answer => match answer with
    | .inserted url source => if url = resourceUrl then some source else last
    | _ => last) none

namespace CacheHistory

def start (now : Int) (capacity : UInt64) : CacheHistory := ⟨.start now capacity, [], []⟩

/-- The code goes on where a call follows a freed or null pointer or evicts a victim that is not in
the map; a history stops there. -/
def step (s : CacheHistory) (e : CacheEvent) : Option CacheHistory :=
  (s.shared.step e).map fun shared =>
    match e, shared.returned.drop s.shared.returned.length with
    | .tryLoad resourceUrl destination, [] =>
      ⟨shared, s.asked ++ [(resourceUrl, destination)], s.answers⟩
    | .tryLoad resourceUrl _, _ => ⟨shared, s.asked, s.answers ++ [.missed resourceUrl]⟩
    | .proceed n _, [.loaded _ loaded] =>
      ⟨shared, s.asked.eraseIdx n, s.answers ++ (s.asked[n]?.toList.map fun q =>
        .hit q.1 q.2 loaded)⟩
    | .tryInsert _ resourceUrl source, [.inserted true] =>
      ⟨shared, s.asked, s.answers ++ [.inserted resourceUrl source]⟩
    | _, _ => ⟨shared, s.asked, s.answers⟩

def run (s : CacheHistory) (events : List CacheEvent) : Option CacheHistory :=
  runGuarded step s events

inductive Stepped (s : CacheHistory) : CacheEvent → CacheHistory → Prop
  | asked (url destination : Bytes) (node : Addr)
      (hlook : s.shared.cache.mapping.lookup url = some node) :
      Stepped s (.tryLoad url destination)
        ⟨{ s.shared with loading := s.shared.loading ++ [⟨node, destination, .serialize⟩] },
          s.asked ++ [(url, destination)], s.answers⟩
  | missed (url destination : Bytes) (returned : List CacheReturn) :
      Stepped s (.tryLoad url destination)
        ⟨{ s.shared with returned := returned }, s.asked, s.answers ++ [.missed url]⟩
  | faulted (e : CacheEvent) (f : CacheFault) :
      Stepped s e ⟨{ s.shared with fault := some f }, s.asked, s.answers⟩
  | moved (n : ℕ) (now : Int) (l l' : Loading) (c : Cache) (hn : s.shared.loading[n]? = some l)
      (hl : l.Proceeded s.shared.cache (some l')) (hc : s.shared.cache.Relinks c) :
      Stepped s (.proceed n now)
        ⟨{ s.shared with cache := c, loading := s.shared.loading.set n l' }, s.asked, s.answers⟩
  | finished (n : ℕ) (now : Int) (l : Loading) (c : Cache) (returned : List CacheReturn)
      (hn : s.shared.loading[n]? = some l) (hl : l.Proceeded s.shared.cache none)
      (hc : s.shared.cache.Relinks c) :
      Stepped s (.proceed n now)
        ⟨{ s.shared with
            cache := c, loading := s.shared.loading.eraseIdx n, returned := returned },
          s.asked.eraseIdx n, s.answers ++ (s.asked[n]?.toList.map fun q =>
            .hit q.1 q.2 l.destination)⟩
  | rejected (now : Int) (url source : Bytes) (returned : List CacheReturn) :
      Stepped s (.tryInsert now url source)
        ⟨{ s.shared with returned := returned }, s.asked, s.answers⟩
  | inserted (now : Int) (url source : Bytes) (c : Cache) (returned : List CacheReturn)
      (hload : s.shared.loading = [])
      (hc : s.shared.cache.tryInsert now url source = .ok (true, c)) :
      Stepped s (.tryInsert now url source)
        ⟨{ s.shared with cache := c, returned := returned }, s.asked,
          s.answers ++ [.inserted url source]⟩

theorem stepped_of_step {s s' : CacheHistory} {e : CacheEvent} (h : s.step e = some s') :
    Stepped s e s' := by
  obtain ⟨shared, hstep, rfl⟩ := Option.map_eq_some_iff.mp h
  have hdrop : ∀ r : List CacheReturn, (s.shared.returned ++ r).drop s.shared.returned.length = r :=
    fun r => List.drop_left
  have hsame : s.shared.returned.drop s.shared.returned.length = [] := List.drop_length
  unfold SharedCache.step at hstep
  split at hstep
  · cases hstep
  cases e with
  | tryLoad url destination =>
    dsimp only at hstep
    split at hstep
    · next node hlook =>
      cases hstep
      simp only [hsame]
      exact .asked url destination node hlook
    · cases hstep
      simp only [hdrop]
      exact .missed url destination _
  | proceed n now =>
    dsimp only at hstep
    split at hstep
    · cases hstep
    · next l hn =>
      split at hstep
      · cases hstep
        simp only [hsame]
        exact .faulted _ _
      · next l' c hl =>
        cases hstep
        simp only [hsame]
        obtain ⟨hl, hc⟩ := Loading.proceeded hl
        exact .moved n now l l' c hn hl hc
      · next c hl =>
        cases hstep
        simp only [hdrop]
        obtain ⟨hl, hc⟩ := Loading.proceeded hl
        exact .finished n now l c _ hn hl hc
  | tryInsert now url source =>
    dsimp only at hstep
    split_ifs at hstep with hload
    split at hstep
    · cases hstep
      simp only [hsame]
      exact .faulted _ _
    · next stored c hc =>
      cases hstep
      simp only [hdrop]
      cases stored with
      | false =>
        rcases Cache.tryInsert_ok hc with ⟨-, rfl⟩ | ⟨ht, -⟩
        · exact .rejected now url source _
        · cases ht
      | true => exact .inserted now url source c _ (not_not.mp hload) hc

def Answered (answers : List CacheAnswer) : Prop :=
  ∀ pre post url destination loaded, answers = pre ++ .hit url destination loaded :: post →
    ∃ source, lastInserted url pre = some source ∧ loaded = destination ++ source

theorem Answered.snoc {answers : List CacheAnswer} (h : Answered answers) {a : CacheAnswer}
    (ha : ∀ url destination loaded, a = .hit url destination loaded →
      ∃ source, lastInserted url answers = some source ∧ loaded = destination ++ source) :
    Answered (answers ++ [a]) := by
  intro pre post url destination loaded he
  rcases List.eq_nil_or_concat post with rfl | ⟨post', b, rfl⟩
  · obtain ⟨rfl, hb⟩ := List.append_inj' he rfl
    exact ha url destination loaded (List.singleton_injective hb)
  · rw [List.concat_eq_append, ← List.cons_append, ← List.append_assoc] at he
    obtain ⟨rfl, -⟩ := List.append_inj' he rfl
    exact h pre post' url destination loaded rfl

@[simp] theorem lastInserted_hit (url url' destination loaded : Bytes)
    (answers : List CacheAnswer) :
    lastInserted url (answers ++ [.hit url' destination loaded]) = lastInserted url answers := by
  simp [lastInserted]

@[simp] theorem lastInserted_missed (url url' : Bytes) (answers : List CacheAnswer) :
    lastInserted url (answers ++ [.missed url']) = lastInserted url answers := by
  simp [lastInserted]

@[simp] theorem lastInserted_inserted (url url' source : Bytes) (answers : List CacheAnswer) :
    lastInserted url (answers ++ [.inserted url' source]) =
      if url' = url then some source else lastInserted url answers := by
  simp [lastInserted]

structure Asked (c : Cache) (q : Bytes × DynamicByteArray) (l : Loading) : Prop where
  found : (q.1, l.node) ∈ c.mapping
  begun : l.pending = .serialize → l.destination = q.2
  copied : l.pending ≠ .serialize → ∃ data, c.payload l.node = some (q.1, data) ∧
    l.destination = q.2 ++ data

structure Contents (s : CacheHistory) : Prop where
  filed : s.shared.cache.Filed
  stored : ∀ e ∈ s.shared.cache.mapping, ∃ data, s.shared.cache.payload e.2 = some (e.1, data) ∧
    lastInserted e.1 s.answers = some data
  asked : List.Forall₂ (Asked s.shared.cache) s.asked s.shared.loading
  answered : Answered s.answers

variable {s s' : CacheHistory} {c : Cache} {q : Bytes × DynamicByteArray} {l l' : Loading}

theorem Asked.relink {c' : Cache} (h : Asked c q l) (hc : c.Relinks c') : Asked c' q l := by
  have hmap : c'.mapping = c.mapping := by rw [hc.rest_eq]
  exact ⟨hmap ▸ h.found, h.begun, hc.payload_eq ▸ h.copied⟩

theorem Asked.proceed (h : Asked c q l) (hf : c.Filed) (hl : l.Proceeded c (some l')) :
    Asked c q l' := by
  cases hl with
  | serialized k data hs hpay =>
    refine ⟨h.found, nofun, fun _ => ⟨data, ?_, by rw [h.begun hs]⟩⟩
    obtain ⟨data', hpay'⟩ := hf.stored _ h.found
    rw [hpay] at hpay'
    cases hpay'
    exact hpay
  | moved pending hs hp => exact ⟨h.found, fun h' => absurd h' hp, fun _ => h.copied hs⟩

theorem forall₂_set {α β : Type} {R : α → β → Prop} {xs : List α} {ys : List β} {n : ℕ} {y : β}
    (h : List.Forall₂ R xs ys) (hy : ∀ x, xs[n]? = some x → R x y) :
    List.Forall₂ R xs (ys.set n y) := by
  induction h generalizing n with
  | nil => exact .nil
  | cons hxy hrest ih =>
    cases n with
    | zero => exact .cons (hy _ rfl) hrest
    | succ n => exact .cons hxy (ih fun x hx => hy x hx)

theorem forall₂_eraseIdx {α β : Type} {R : α → β → Prop} {xs : List α} {ys : List β} (n : ℕ)
    (h : List.Forall₂ R xs ys) : List.Forall₂ R (xs.eraseIdx n) (ys.eraseIdx n) := by
  induction h generalizing n with
  | nil => exact .nil
  | cons hxy hrest ih =>
    cases n with
    | zero => exact hrest
    | succ n => exact .cons hxy (ih n)

theorem forall₂_getElem? {α β : Type} {R : α → β → Prop} {xs : List α} {ys : List β} {n : ℕ}
    {y : β} (h : List.Forall₂ R xs ys) (hy : ys[n]? = some y) : ∃ x, xs[n]? = some x ∧ R x y := by
  induction h generalizing n with
  | nil => cases hy
  | cons hxy hrest ih =>
    cases n with
    | zero =>
      cases hy
      exact ⟨_, rfl, hxy⟩
    | succ n => exact ih hy

theorem Contents.relink (h : s.Contents) (hc : s.shared.cache.Relinks c)
    (returned : List CacheReturn) {asked : List (Bytes × DynamicByteArray)}
    {loading : List Loading} (hasked : List.Forall₂ (Asked s.shared.cache) asked loading) :
    Contents ⟨{ s.shared with cache := c, loading := loading, returned := returned }, asked,
      s.answers⟩ := by
  have hmap : c.mapping = s.shared.cache.mapping := by rw [hc.rest_eq]
  refine ⟨h.filed.relink hc, fun e he => ?_, hasked.imp fun _ _ ha => ha.relink hc, h.answered⟩
  rw [hc.payload_eq]
  exact h.stored e (hmap ▸ he)

theorem Contents.answer (h : s.Contents) {a : CacheAnswer}
    (hkeep : ∀ url, lastInserted url (s.answers ++ [a]) = lastInserted url s.answers)
    (ha : ∀ url destination loaded, a = .hit url destination loaded →
      ∃ source, lastInserted url s.answers = some source ∧ loaded = destination ++ source) :
    Contents { s with answers := s.answers ++ [a] } := by
  refine ⟨h.filed, fun e he => ?_, h.asked, h.answered.snoc ha⟩
  obtain ⟨data, hpay, hlast⟩ := h.stored e he
  exact ⟨data, hpay, (hkeep e.1).trans hlast⟩

theorem Contents.step {e : CacheEvent} (h : s.Contents) (hstep : s.step e = some s') :
    s'.Contents := by
  cases stepped_of_step hstep with
  | asked url destination node hlook =>
    refine ⟨h.filed, h.stored, ?_, h.answered⟩
    have hfound := (Cache.lookup_eq_some_iff_mem h.filed.keys).mp hlook
    exact List.rel_append h.asked (.cons ⟨hfound, fun _ => rfl, fun hp => absurd rfl hp⟩ .nil)
  | missed url destination returned =>
    have hm := h.answer (a := .missed url) (fun _ => lastInserted_missed _ _ _) nofun
    exact ⟨hm.filed, hm.stored, hm.asked, hm.answered⟩
  | faulted e f => exact ⟨h.filed, h.stored, h.asked, h.answered⟩
  | moved n now l l' c hn hl hc =>
    refine h.relink hc s.shared.returned (forall₂_set h.asked fun q hq => ?_)
    obtain ⟨q', hq', ha⟩ := forall₂_getElem? h.asked hn
    rw [hq] at hq'
    cases hq'
    exact ha.proceed h.filed hl
  | finished n now l c returned hn hl hc =>
    obtain ⟨q, hq, ha⟩ := forall₂_getElem? h.asked hn
    obtain ⟨data, hpay, hdest⟩ : ∃ data, s.shared.cache.payload l.node = some (q.1, data) ∧
        l.destination = q.2 ++ data := by
      cases hl with
      | finished hs => exact ha.copied hs
    obtain ⟨data', hpay', hlast⟩ := h.stored _ ha.found
    rw [hpay] at hpay'
    cases hpay'
    have hhit := (h.relink hc returned (forall₂_eraseIdx n h.asked)).answer
      (a := .hit q.1 q.2 l.destination) (fun _ => lastInserted_hit _ _ _ _ _) fun url d out he => by
        cases he
        exact ⟨data, hlast, hdest⟩
    simpa [hq] using hhit
  | rejected now url source returned => exact ⟨h.filed, h.stored, h.asked, h.answered⟩
  | inserted now url source c returned hload hc =>
    obtain ⟨hf, hmem⟩ := h.filed.tryInsert hc
    refine ⟨hf, fun e he => ?_, ?_, h.answered.snoc nofun⟩
    · rcases hmem e he with ⟨hurl, hpay⟩ | ⟨hne, he', hpay⟩
      · exact ⟨source, hurl ▸ hpay, by rw [lastInserted_inserted, if_pos hurl.symm]⟩
      · obtain ⟨data, hpay', hlast⟩ := h.stored e he'
        exact ⟨data, hpay.trans hpay', by rw [lastInserted_inserted, if_neg (Ne.symm hne), hlast]⟩
    · have hasked := h.asked
      rw [hload] at hasked ⊢
      rw [List.forall₂_nil_right_iff.mp hasked]
      exact .nil

theorem start_contents (now : Int) (capacity : UInt64) : (start now capacity).Contents := by
  refine ⟨(Cache.new_wf now capacity).filed, nofun, .nil, fun pre post url d loaded he => ?_⟩
  exact absurd he.symm (List.append_ne_nil_of_right_ne_nil _ (List.cons_ne_nil _ _))

/-- However loads overlap, also once they have spoiled the list, until a call faults: a load that
finds its url appends the bytes that were last inserted under it. -/
theorem loads_return_inserted {now : Int} {capacity : UInt64} {events : List CacheEvent}
    (h : run (start now capacity) events = some s) {pre post : List CacheAnswer}
    {url destination loaded : Bytes}
    (hlog : s.answers = pre ++ .hit url destination loaded :: post) :
    ∃ source, lastInserted url pre = some source ∧ loaded = destination ++ source := by
  have hs : s.Contents := runGuarded_invariant (fun _ _ _ _ hi hstep => hi.step hstep)
    (start_contents now capacity) h
  exact hs.answered pre post url destination loaded hlog

theorem loads_return_inserted_spoiled :
    let events := SharedCache.sameUrlLoads ++
      [.tryLoad (ascii "a") (ascii "x"), .proceed 0 2, .proceed 0 2, .proceed 0 2, .proceed 0 2]
    ∃ s pre source, run (start 0 10) events = some s ∧
      s.answers = pre ++ [.hit (ascii "a") (ascii "x") (ascii "x1")] ∧
      lastInserted (ascii "a") pre = some source ∧ ascii "x1" = ascii "x" ++ source := by
  intro events
  have hfacts : (run (start 0 10) events).map CacheHistory.answers =
      some ([.inserted (ascii "a") (ascii "1"), .hit (ascii "a") [] (ascii "1"),
        .hit (ascii "a") [] (ascii "1")] ++ [.hit (ascii "a") (ascii "x") (ascii "x1")]) := by
    decide +kernel
  obtain ⟨s, h, hs⟩ := Option.map_eq_some_iff.mp hfacts
  obtain ⟨source, hlast, hout⟩ := loads_return_inserted h hs
  exact ⟨s, _, source, h, hs, hlast, hout⟩

end CacheHistory

namespace Cache

variable {c c' : Cache}

structure Accounted (c : Cache) : Prop extends Filed c where
  named : ∀ e ∈ c.mapping, e.1 ≠ []
  registered : ∀ a, c.Live a → a ∈ c.mapping.map Prod.snd ∨ c.payload a = some ([], [])
  occupancy : c.occupancy = total List.length (c.entries (c.mapping.map Prod.snd))
  fits : c.occupancy ≤ c.capacity
  bounded : c.capacity < sizeModulus

theorem entries_congr {ns : List Addr} (h : ∀ a ∈ ns, c'.payload a = c.payload a) :
    c'.entries ns = c.entries ns :=
  List.map_congr_left fun a ha => by rw [entry, entry, h a ha]

theorem Accounted.relink (h : c.Accounted) (hr : Relinks c c') : c'.Accounted := by
  have hmap : c'.mapping = c.mapping := by rw [hr.rest_eq]
  have hocc : c'.occupancy = c.occupancy := by rw [hr.rest_eq]
  have hcap : c'.capacity = c.capacity := by rw [hr.rest_eq]
  refine ⟨h.toFiled.relink hr, hmap ▸ h.named, fun a ha => ?_, ?_, ?_, hcap ▸ h.bounded⟩
  · rw [Live, hr.payload_eq] at ha
    rw [hmap, hr.payload_eq]
    exact h.registered a ha
  · rw [hocc, hmap, h.occupancy, entries_congr fun a _ => by rw [hr.payload_eq]]
  · rw [hocc, hcap]
    exact h.fits

theorem Accounted.lookup_of_payload (h : c.Accounted) {a : Addr} {key data : Bytes}
    (hpay : c.payload a = some (key, data)) (hkey : key ≠ []) :
    c.mapping.lookup key = some a := by
  rcases h.registered a (by rw [Live, hpay]; rfl) with hm | hnone
  · obtain ⟨⟨k, a'⟩, he, rfl⟩ := List.mem_map.mp hm
    obtain ⟨d, hd⟩ := h.stored _ he
    rw [hpay] at hd
    cases hd
    exact (lookup_eq_some_iff_mem h.keys).mpr he
  · rw [hpay] at hnone
    cases hnone
    exact absurd rfl hkey

theorem exists_split_of_lookup {m : List (Bytes × Addr)} (hm : (m.map Prod.fst).Nodup)
    {key : Bytes} {a : Addr} (h : m.lookup key = some a) :
    ∃ xs ys, m = xs ++ (key, a) :: ys ∧ (m.filter fun e => e.1 ≠ key) = xs ++ ys := by
  obtain ⟨xs, ys, rfl⟩ := List.append_of_mem ((lookup_eq_some_iff_mem hm).mp h)
  refine ⟨xs, ys, rfl, ?_⟩
  rw [List.map_append, List.map_cons] at hm
  obtain ⟨-, hys, hdisj⟩ := List.nodup_append.mp hm
  have hx : ∀ e ∈ xs, e.1 ≠ key := fun e he =>
    hdisj e.1 (List.mem_map_of_mem he) key List.mem_cons_self
  have hy : ∀ e ∈ ys, e.1 ≠ key := fun e he hk =>
    (List.nodup_cons.mp hys).1 (List.mem_map.mpr ⟨e, he, hk⟩)
  rw [List.filter_append, List.filter_cons_of_neg (by simp),
    List.filter_eq_self.mpr (by simpa using hx), List.filter_eq_self.mpr (by simpa using hy)]

theorem Accounted.eraseVictim (h : c.Accounted) {key data : Bytes} {node : Addr}
    (hlook : c.mapping.lookup key = some node) (hpay : c.payload node = some (key, data)) :
    (c.eraseVictim key node data.length).Accounted := by
  obtain ⟨hf, hkeep⟩ := h.toFiled.eraseVictim hlook data.length
  obtain ⟨xs, ys, hsplit, hfilter⟩ := exists_split_of_lookup h.keys hlook
  have hmap : (c.eraseVictim key node data.length).mapping = xs ++ ys := hfilter
  have htotal : c.occupancy =
      data.length + total List.length (c.entries ((xs ++ ys).map Prod.snd)) := by
    rw [h.occupancy, hsplit]
    simp only [entries, List.map_append, List.map_cons, total_append, total_cons, entry, hpay,
      Option.getD_some]
    omega
  have hent : (c.eraseVictim key node data.length).entries ((xs ++ ys).map Prod.snd) =
      c.entries ((xs ++ ys).map Prod.snd) := by
    refine entries_congr fun a ha => ?_
    obtain ⟨e, he, rfl⟩ := List.mem_map.mp ha
    exact hkeep.payload e (hmap ▸ he)
  have hfits := h.fits
  have hbounded := h.bounded
  have hocc : (c.eraseVictim key node data.length).occupancy =
      total List.length (c.entries ((xs ++ ys).map Prod.snd)) := by
    change sizeSub c.occupancy data.length = _
    rw [sizeSub_of_le (by omega) (by omega)]
    omega
  have hcap : (c.eraseVictim key node data.length).capacity = c.capacity := rfl
  refine ⟨hf, fun e he => h.named e (hkeep.mem e he), fun a ha => ?_, ?_, ?_, hcap ▸ hbounded⟩
  · have hne : a ≠ node := by
      intro hne
      rw [hne, live_iff] at ha
      obtain ⟨n, hn⟩ := ha
      simp [Cache.eraseVictim] at hn
    rw [Live, Wf.payload_eraseVictim_of_ne hne] at ha
    rw [Wf.payload_eraseVictim_of_ne hne, hmap]
    refine (h.registered a ha).imp_left fun hm => ?_
    simpa [hsplit, hne] using hm
  · rw [hocc, hmap, hent]
  · rw [hocc, hcap]
    omega

theorem Accounted.evictFirst (h : c.Accounted) (hok : c.evictFirst = .ok c') : c'.Accounted := by
  obtain ⟨a, first, node, c₁, ha, hlook, hr, rfl⟩ := evictFirst_ok hok
  have hpay : c.payload a = some (first.identifier, first.data) := by simp [payload, ha]
  have hnode := (lookup_eq_some_iff_mem h.keys).mp hlook
  have hsame := h.lookup_of_payload hpay (h.named _ hnode)
  rw [hlook] at hsame
  cases hsame
  have hmap : c₁.mapping = c.mapping := by rw [hr.rest_eq]
  exact (h.relink hr).eraseVictim (hmap ▸ hlook) (hr.payload_eq ▸ hpay)

theorem Accounted.room (h : c.Accounted) {n : ℕ} (hn : n ≤ c.capacity)
    (hev : c.evictionNeeded n = false) : c.occupancy + n ≤ c.capacity := by
  have hfits := h.fits
  have hocc := h.occupancy
  have hsub := sizeSub_of_le hfits h.bounded
  simp only [evictionNeeded, hsub, decide_eq_false_iff_not, not_and, not_lt] at hev
  cases hm : c.mapping with
  | nil =>
    rw [hm] at hocc
    have hzero : c.occupancy = 0 := hocc
    omega
  | cons e m =>
    have := hev (by simp [hm])
    omega

theorem Accounted.insertNew {now : Int} {k data : Bytes} (h : c.Accounted) (hname : k ≠ [])
    (hk : c.mapping.lookup k = none) (hroom : c.occupancy + data.length ≤ c.capacity) {c₂ : Cache}
    (hr : Relinks (c.makeNode now k data) c₂)
    (hc' : c' = { c₂ with
      occupancy := sizeAdd c₂.occupancy data.length
      mapping := emplace c₂.mapping k c.nextFree }) : c'.Accounted := by
  obtain ⟨hf, hmap, hnew, hold⟩ := h.toFiled.insertNew hk hr hc'
  have hbounded := h.bounded
  have hcap : c'.capacity = c.capacity := by rw [hc', hr.rest_eq]; rfl
  have hocc : c'.occupancy = c.occupancy + data.length := by
    have hocc₂ : c₂.occupancy = c.occupancy := by rw [hr.rest_eq]; rfl
    rw [hc', hocc₂, sizeAdd_of_lt (by omega)]
  have hent : c'.entries (c.mapping.map Prod.snd) = c.entries (c.mapping.map Prod.snd) := by
    refine entries_congr fun a ha => hold a ?_
    obtain ⟨e, he, rfl⟩ := List.mem_map.mp ha
    obtain ⟨d, hd⟩ := h.stored e he
    exact Nat.ne_of_lt (h.fresh e.2 (by rw [Live, hd]; rfl))
  refine ⟨hf, fun e he => ?_, fun a ha => ?_, ?_, ?_, hcap ▸ hbounded⟩
  · rw [hmap] at he
    rcases List.mem_cons.mp he with rfl | he
    · exact hname
    · exact h.named e he
  · rw [hmap, List.map_cons, List.mem_cons]
    by_cases han : a = c.nextFree
    · exact Or.inl (Or.inl han)
    · rw [Live, hold a han] at ha
      rw [hold a han]
      exact (h.registered a ha).imp_left Or.inr
  · have hentry : c'.entry c.nextFree = (k, data) := by rw [entry, hnew]; rfl
    have hcons : c'.entries (c'.mapping.map Prod.snd) =
        (k, data) :: c.entries (c.mapping.map Prod.snd) := by
      rw [hmap, ← hent, ← hentry]
      rfl
    rw [hocc, hcons, total_cons, h.occupancy]
    exact Nat.add_comm _ _
  · rw [hocc, hcap]
    exact hroom

theorem Accounted.tryInsert {now : Int} {k data : Bytes} (h : c.Accounted) (hname : k ≠ [])
    (hok : c.tryInsert now k data = .ok (true, c')) :
    c'.Accounted ∧ c'.capacity = c.capacity := by
  rcases tryInsert_ok hok with ⟨hf, -⟩ | ⟨-, hk, hbig, c₁, c₂, hloop, hr, hc'⟩
  · cases hf
  · obtain ⟨⟨h₁, hkeep⟩, hev⟩ := evictLoop_invariant
      (I := fun c₁ => c₁.Accounted ∧ Keeps c c₁)
      (fun a b hab hok => ⟨hab.1.evictFirst hok, hab.2.trans (hab.1.toFiled.evictFirst hok).2⟩)
      ⟨h, (Relinks.refl c).keeps⟩ hloop
    have hroom := h₁.room (by rw [hkeep.capacity]; exact hbig) hev
    refine ⟨h₁.insertNew hname (lookup_eq_none_of_keeps hk hkeep) hroom hr hc', ?_⟩
    rw [hc', ← hkeep.capacity, hr.rest_eq]
    rfl

theorem new_accounted (now : Int) (capacity : UInt64) : (Cache.new now capacity).Accounted := by
  have hw := new_wf now capacity
  refine ⟨hw.filed, nofun, fun a ha => ?_, rfl, Nat.zero_le _, hw.bounded⟩
  match a with
  | 0 => exact Or.inr rfl
  | 1 => exact Or.inr rfl
  | n + 2 => simp [Live, payload, Cache.new] at ha

end Cache

namespace CacheHistory

variable {s s' : CacheHistory}

theorem accounted_step {e : CacheEvent}
    (he : ∀ now url source, e = .tryInsert now url source → url ≠ [])
    (h : s.shared.cache.Accounted) (hstep : s.step e = some s') :
    s'.shared.cache.Accounted ∧ s'.shared.cache.capacity = s.shared.cache.capacity := by
  cases stepped_of_step hstep with
  | asked url destination node hlook => exact ⟨h, rfl⟩
  | missed url destination returned => exact ⟨h, rfl⟩
  | faulted e f => exact ⟨h, rfl⟩
  | moved n now l l' c hn hl hc => exact ⟨h.relink hc, hc.keeps.capacity⟩
  | finished n now l c returned hn hl hc => exact ⟨h.relink hc, hc.keeps.capacity⟩
  | rejected now url source returned => exact ⟨h, rfl⟩
  | inserted now url source c returned hload hc => exact h.tryInsert (he now url source rfl) hc

/-- However loads overlap, also once they have spoiled the list, until a call faults: the occupancy
is the size of the cached bytes, and the cache does not take more than its capacity. -/
theorem occupancy_exact {now : Int} {capacity : UInt64} {events : List CacheEvent}
    (hurls : ∀ now url source, .tryInsert now url source ∈ events → url ≠ [])
    (h : run (start now capacity) events = some s) :
    let c := s.shared.cache
    c.getOccupancy = total List.length (c.entries (c.mapping.map Prod.snd)) ∧
      c.getOccupancy ≤ capacity.toNat := by
  intro c
  have hstep : ∀ t : CacheHistory, ∀ e ∈ events, ∀ t',
      t.shared.cache.Accounted ∧ t.shared.cache.capacity = capacity.toNat →
      t.step e = some t' →
      t'.shared.cache.Accounted ∧ t'.shared.cache.capacity = capacity.toNat := by
    intro t e he t' ht hs
    obtain ⟨hacc, hcap⟩ := accounted_step (fun now url source heq =>
      hurls now url source (heq ▸ he)) ht.1 hs
    exact ⟨hacc, hcap.trans ht.2⟩
  obtain ⟨ha, hcap⟩ := runGuarded_invariant hstep ⟨Cache.new_accounted now capacity, rfl⟩ h
  exact ⟨ha.occupancy, hcap ▸ ha.fits⟩

theorem occupancy_exact_spoiled :
    let events := SharedCache.sameUrlLoads ++ [.tryInsert 3 (ascii "b") (ascii "22")]
    ∃ s, run (start 0 10) events = some s ∧ s.shared.cache.mapping.length = 2 ∧
      s.shared.cache.getOccupancy = total List.length
        (s.shared.cache.entries (s.shared.cache.mapping.map Prod.snd)) ∧
      s.shared.cache.getOccupancy ≤ 10 := by
  intro events
  have hfacts : ((run (start 0 10) events).map fun s => s.shared.cache.mapping.length) =
      some 2 := by
    decide +kernel
  obtain ⟨s, h, hlen⟩ := Option.map_eq_some_iff.mp hfacts
  have hurls : ∀ now url source, .tryInsert now url source ∈ events → url ≠ [] := by
    intro now url source hm
    obtain ⟨rfl, rfl, rfl⟩ | ⟨rfl, rfl, rfl⟩ : (now = 0 ∧ url = ascii "a" ∧ source = ascii "1") ∨
        (now = 3 ∧ url = ascii "b" ∧ source = ascii "22") := by
      simpa [events, SharedCache.sameUrlLoads] using hm
    · decide
    · decide
  obtain ⟨htotal, hle⟩ := occupancy_exact hurls h
  exact ⟨s, h, hlen, htotal, hle⟩

end CacheHistory

end HttpReactor
