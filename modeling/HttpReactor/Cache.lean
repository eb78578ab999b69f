import HttpReactor.Bytes
import HttpReactor.Refinement
import Mathlib.Logic.Function.Basic

/-!
# The LRU cache on its heap

Nodes live at addresses of a heap; `prev_` and `next_` are possibly null pointers.
A node is owned by its map entry alone, so erasing the entry frees the node, and a
read or write through a null or freed pointer is a fault. Sizes are `size_t`:
differences and sums are taken modulo `2 ^ 64`.
-/

namespace HttpReactor

abbrev Addr := ℕ

structure CacheNode where
  identifier : Bytes
  data : DynamicByteArray
  lastAccess : Int
  prev : Option Addr
  next : Option Addr
deriving DecidableEq, Repr

inductive CacheFault
  | badPointer
  | assertFailed
  | loopUnfinished
deriving DecidableEq, Repr

def sizeSub (a b : ℕ) : ℕ := (a + (sizeModulus - b % sizeModulus)) % sizeModulus

def sizeAdd (a b : ℕ) : ℕ := (a + b) % sizeModulus

theorem sizeSub_of_le {a b : ℕ} (hb : b ≤ a) (ha : a < sizeModulus) : sizeSub a b = a - b := by
  unfold sizeSub
  rw [Nat.mod_eq_of_lt (show b < sizeModulus by omega),
    show a + (sizeModulus - b) = (a - b) + sizeModulus by omega, Nat.add_mod_right,
    Nat.mod_eq_of_lt (by omega)]

theorem sizeAdd_of_lt {a b : ℕ} (h : a + b < sizeModulus) : sizeAdd a b = a + b :=
  Nat.mod_eq_of_lt h

structure Cache where
  heap : Addr → Option CacheNode
  nextFree : Addr
  mapping : List (Bytes × Addr)
  capacity : ℕ
  occupancy : ℕ
  head : Addr
  tail : Addr

namespace Cache

def deref (c : Cache) (p : Option Addr) : Except CacheFault CacheNode :=
  match p.bind c.heap with
  | some node => .ok node
  | none => .error .badPointer

def modify (c : Cache) (p : Option Addr) (f : CacheNode → CacheNode) : Except CacheFault Cache :=
  match p with
  | some a =>
    match c.heap a with
    | some node => .ok { c with heap := Function.update c.heap a (some (f node)) }
    | none => .error .badPointer
  | none => .error .badPointer

def setNext (c : Cache) (p v : Option Addr) : Except CacheFault Cache :=
  c.modify p fun node => { node with next := v }

def setPrev (c : Cache) (p v : Option Addr) : Except CacheFault Cache :=
  c.modify p fun node => { node with prev := v }

def updateTimestamp (c : Cache) (node : Addr) (now : Int) : Except CacheFault Cache :=
  c.modify (some node) fun node => { node with lastAccess := now }

/-- The second assignment reads `next_` and `prev_` after the first has been made. -/
def detach (c : Cache) (self : Addr) : Except CacheFault Cache := do
  let node ← c.deref (some self)
  let c ← c.setNext node.prev node.next
  let node ← c.deref (some self)
  c.setPrev node.next node.prev

def appendToListTail (c : Cache) (node : Addr) : Except CacheFault Cache := do
  let tail ← c.deref (some c.tail)
  let nodePrev := tail.prev
  let c ← c.setNext nodePrev (some node)
  let c ← c.setPrev (some c.tail) (some node)
  let c ← c.setPrev (some node) nodePrev
  c.setNext (some node) (some c.tail)

def new (now : Int) (capacity : UInt64) : Cache :=
  let sentinel : CacheNode :=
    { identifier := [], data := [], lastAccess := now, prev := none, next := none }
  { heap := Function.update
      (Function.update (fun _ => none) 0 (some { sentinel with next := some 1 }))
      1 (some { sentinel with prev := some 0 })
    nextFree := 2
    mapping := []
    capacity := capacity.toNat
    occupancy := 0
    head := 0
    tail := 1 }

def getOccupancy (c : Cache) : ℕ := c.occupancy

def tryLoad (c : Cache) (now : Int) (resourceUrl : Bytes) (destination : DynamicByteArray) :
    Except CacheFault ((Bool × DynamicByteArray) × Cache) :=
  match c.mapping.lookup resourceUrl with
  | some node => do
    let serialized := destination ++ (← c.deref (some node)).data
    let c ← c.detach node
    let c ← c.appendToListTail node
    let c ← c.updateTimestamp node now
    return ((true, serialized), c)
  | none => return ((false, destination), c)

def eraseVictim (c : Cache) (key : Bytes) (node : Addr) (resourceSize : ℕ) : Cache :=
  { c with
    mapping := c.mapping.filter fun e => e.1 ≠ key
    heap := Function.update c.heap node none
    occupancy := sizeSub c.occupancy resourceSize }

def evictionNeeded (c : Cache) (sourceSize : ℕ) : Bool :=
  c.mapping ≠ [] ∧ sizeSub c.capacity c.occupancy < sourceSize

def evictFirst (c : Cache) : Except CacheFault Cache := do
  let firstPtr := (← c.deref (some c.head)).next
  let firstNode ← c.deref firstPtr
  let resourceSize := firstNode.data.length
  match c.mapping.lookup firstNode.identifier with
  | none => throw .assertFailed
  | some node =>
    let c ← c.detach node
    return c.eraseVictim firstNode.identifier node resourceSize

def evictLoop (sourceSize : ℕ) : ℕ → Cache → Except CacheFault Cache
  | 0, c => if c.evictionNeeded sourceSize then .error .loopUnfinished else .ok c
  | fuel + 1, c =>
    if c.evictionNeeded sourceSize then do
      let c ← c.evictFirst
      evictLoop sourceSize fuel c
    else .ok c

def makeNode (c : Cache) (now : Int) (resourceUrl : Bytes) (source : DynamicByteArray) : Cache :=
  { c with
    heap := Function.update c.heap c.nextFree (some
      { identifier := resourceUrl, data := source, lastAccess := now, prev := none, next := none })
    nextFree := c.nextFree + 1 }

/-- `unordered_map::emplace` keeps an entry that is already there. -/
def emplace (mapping : List (Bytes × Addr)) (key : Bytes) (node : Addr) : List (Bytes × Addr) :=
  if (mapping.lookup key).isSome then mapping else (key, node) :: mapping

/-- Each round of the eviction loop erases a map entry, so the number of entries bounds it. -/
def tryInsert (c : Cache) (now : Int) (resourceUrl : Bytes) (source : DynamicByteArray) :
    Except CacheFault (Bool × Cache) :=
  if (c.mapping.lookup resourceUrl).isSome then return (false, c)
  else if c.capacity < source.length then return (false, c)
  else do
    let c ← evictLoop source.length c.mapping.length c
    let node := c.nextFree
    let c := c.makeNode now resourceUrl source
    let c ← c.appendToListTail node
    return (true, { c with
      occupancy := sizeAdd c.occupancy source.length
      mapping := emplace c.mapping resourceUrl node })

def eraseAll (c : Cache) : Cache :=
  { c with
    heap := fun a => if a ∈ c.mapping.map Prod.snd then none else c.heap a
    mapping := []
    occupancy := 0 }

def clear (c : Cache) : Except CacheFault Cache := do
  let c ← c.setNext (some c.head) (some c.tail)
  let c ← c.setPrev (some c.tail) (some c.head)
  return c.eraseAll

/-! The pointers and the payload of the node at an address, as maps. -/

def next (c : Cache) (a : Addr) : Option Addr := (c.heap a).bind CacheNode.next

def prev (c : Cache) (a : Addr) : Option Addr := (c.heap a).bind CacheNode.prev

def payload (c : Cache) (a : Addr) : Option (Bytes × Bytes) :=
  (c.heap a).map fun node => (node.identifier, node.data)

def Live (c : Cache) (a : Addr) : Prop := (c.payload a).isSome

structure Relinked (c c' : Cache) (next' prev' : Addr → Option Addr) : Prop where
  next_eq : c'.next = next'
  prev_eq : c'.prev = prev'
  payload_eq : c'.payload = c.payload
  rest_eq : c' = { c with heap := c'.heap }

theorem Relinked.live {c c' : Cache} {next' prev' : Addr → Option Addr}
    (h : Relinked c c' next' prev') {a : Addr} : c'.Live a ↔ c.Live a := by
  rw [Live, Live, h.payload_eq]

theorem Relinked.trans {c c' c'' : Cache} {n₁ p₁ n₂ p₂ : Addr → Option Addr}
    (h : Relinked c c' n₁ p₁) (h' : Relinked c' c'' n₂ p₂) : Relinked c c'' n₂ p₂ := by
  refine ⟨h'.next_eq, h'.prev_eq, h'.payload_eq.trans h.payload_eq, ?_⟩
  rw [h'.rest_eq, h.rest_eq]

theorem live_iff {c : Cache} {a : Addr} : c.Live a ↔ ∃ node, c.heap a = some node := by
  simp [Live, payload, Option.isSome_iff_exists]

theorem deref_live {c : Cache} {a : Addr} (h : c.Live a) :
    ∃ node, c.deref (some a) = .ok node ∧ node.next = c.next a ∧ node.prev = c.prev a ∧
      c.payload a = some (node.identifier, node.data) := by
  obtain ⟨node, hn⟩ := live_iff.mp h
  exact ⟨node, by simp [deref, hn], by simp [next, hn], by simp [prev, hn], by simp [payload, hn]⟩

theorem setNext_live {c : Cache} {a : Addr} (h : c.Live a) (v : Option Addr) :
    ∃ c', c.setNext (some a) v = .ok c' ∧
      Relinked c c' (Function.update c.next a v) c.prev := by
  obtain ⟨node, hn⟩ := live_iff.mp h
  refine ⟨_, by simp [setNext, modify, hn]; rfl, ?_, ?_, ?_, rfl⟩
  · funext b
    by_cases hb : b = a <;> simp [next, hb]
  · funext b
    by_cases hb : b = a <;> simp [prev, hb, hn]
  · funext b
    by_cases hb : b = a <;> simp [payload, hb, hn]

theorem setPrev_live {c : Cache} {a : Addr} (h : c.Live a) (v : Option Addr) :
    ∃ c', c.setPrev (some a) v = .ok c' ∧
      Relinked c c' c.next (Function.update c.prev a v) := by
  obtain ⟨node, hn⟩ := live_iff.mp h
  refine ⟨_, by simp [setPrev, modify, hn]; rfl, ?_, ?_, ?_, rfl⟩
  · funext b
    by_cases hb : b = a <;> simp [next, hb, hn]
  · funext b
    by_cases hb : b = a <;> simp [prev, hb]
  · funext b
    by_cases hb : b = a <;> simp [payload, hb, hn]

theorem updateTimestamp_live {c : Cache} {a : Addr} (h : c.Live a) (now : Int) :
    ∃ c', c.updateTimestamp a now = .ok c' ∧ Relinked c c' c.next c.prev := by
  obtain ⟨node, hn⟩ := live_iff.mp h
  refine ⟨_, by simp [updateTimestamp, modify, hn]; rfl, ?_, ?_, ?_, rfl⟩
  · funext b
    by_cases hb : b = a <;> simp [next, hb, hn]
  · funext b
    by_cases hb : b = a <;> simp [prev, hb, hn]
  · funext b
    by_cases hb : b = a <;> simp [payload, hb, hn]

theorem detach_spec {c : Cache} {x p s : Addr} (hx : c.Live x) (hpl : c.Live p) (hsl : c.Live s)
    (hp : c.prev x = some p) (hs : c.next x = some s) :
    ∃ c', c.detach x = .ok c' ∧
      Relinked c c' (Function.update c.next p (some s)) (Function.update c.prev s (some p)) := by
  obtain ⟨node, hd, hn, hv, -⟩ := deref_live hx
  obtain ⟨c₁, h₁, r₁⟩ := setNext_live hpl (some s)
  obtain ⟨node', hd', hn', hv', -⟩ := deref_live (r₁.live.mpr hx)
  obtain ⟨c₂, h₂, r₂⟩ := setPrev_live (r₁.live.mpr hsl) (some p)
  have hkept : c₁.next x = some s := by
    rw [r₁.next_eq]
    by_cases hpx : x = p
    · rw [hpx, Function.update_self]
    · rw [Function.update_of_ne hpx, hs]
  rw [hs] at hn
  rw [hp] at hv
  rw [hkept] at hn'
  rw [r₁.prev_eq, hp] at hv'
  refine ⟨c₂, ?_, ?_⟩
  · simp only [detach, hd, hn, hv, h₁, hd', hn', hv', h₂, Refinement.ok_bind]
  · rw [← r₁.next_eq, ← r₁.prev_eq]
    exact r₁.trans r₂

theorem appendToListTail_spec {c : Cache} {x p : Addr} (hx : c.Live x) (hpl : c.Live p)
    (htl : c.Live c.tail) (hp : c.prev c.tail = some p) :
    ∃ c', c.appendToListTail x = .ok c' ∧
      Relinked c c' (Function.update (Function.update c.next p (some x)) x (some c.tail))
        (Function.update (Function.update c.prev c.tail (some x)) x (some p)) := by
  obtain ⟨node, hd, -, hv, -⟩ := deref_live htl
  obtain ⟨c₁, h₁, r₁⟩ := setNext_live hpl (some x)
  have ht₁ : c₁.tail = c.tail := by rw [r₁.rest_eq]
  obtain ⟨c₂, h₂, r₂⟩ := setPrev_live (r₁.live.mpr htl) (some x)
  obtain ⟨c₃, h₃, r₃⟩ := setPrev_live (r₂.live.mpr (r₁.live.mpr hx)) (some p)
  have ht₃ : c₃.tail = c.tail := by rw [r₃.rest_eq, r₂.rest_eq, r₁.rest_eq]
  obtain ⟨c₄, h₄, r₄⟩ := setNext_live (r₃.live.mpr (r₂.live.mpr (r₁.live.mpr hx))) (some c.tail)
  rw [hp] at hv
  refine ⟨c₄, ?_, ?_⟩
  · simp only [appendToListTail, hd, hv, h₁, ht₁, h₂, h₃, ht₃, h₄, Refinement.ok_bind]
  · have hr := ((r₁.trans r₂).trans r₃).trans r₄
    rw [r₃.next_eq, r₃.prev_eq, r₂.next_eq, r₂.prev_eq, r₁.next_eq, r₁.prev_eq] at hr
    exact hr

end Cache

end HttpReactor
