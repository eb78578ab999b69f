import HttpReactor.Refinement
import Mathlib.Logic.Function.Basic

/-!
# Loopers, the acceptor and the kernel

The acceptor thread hands each accepted client to a looper with `AddConnection`; the thread
of each looper polls, walks the batch of raw pointers it got and calls `Start` on each. A
callback may delete its own connection, as its last act, and may run a CGI program, which
forks. Each step is one access to something that several threads or the kernel share: the
descriptor table, the interest list of an epoll instance, `connections_`, a mutex.

The kernel gives an accepted client a number that is not open, and takes a socket off the
interest lists when its last descriptor is closed. A forked child has copies of all open
descriptors until its `execve` (client sockets are close-on-exec) or its exit. A connection
object is named by an id that no later object gets, so a pointer to a destroyed object is
never taken for one to a later object at the same address.
-/

namespace HttpReactor
open Refinement

structure Client (κ : Type) where
  id : ℕ
  fd : ℕ
  looper : κ
deriving DecidableEq, Repr

inductive Descriptor (κ : Type)
  | client (c : Client κ)
  | other
deriving DecidableEq, Repr

abbrev DescriptorTable (κ : Type) : Type := ℕ → Option (Descriptor κ)

structure ForkedChild (κ : Type) where
  copies : DescriptorTable κ
  running : Bool

/-- Where the acceptor's callback stands; from `locked` on it is inside `AddConnection`. -/
inductive AcceptorPhase (κ : Type)
  | idle
  | accepted (c : Client κ)
  | locked (c : Client κ)
  | registered (c : Client κ)
deriving DecidableEq, Repr

/-- Where the thread of a looper stands. `rest` is what is left of the batch after the
connection whose callback runs; from `locked` on the callback is inside `DeleteConnection`. -/
inductive LooperPhase (κ : Type)
  | walking (batch : List (Client κ))
  | serving (c : Client κ) (rest : List (Client κ))
  | harvesting (child : ℕ) (c : Client κ) (rest : List (Client κ))
  | deleting (c : Client κ) (rest : List (Client κ))
  | locked (c : Client κ) (rest : List (Client κ))
  | closing (looper : κ) (c : Client κ) (rest : List (Client κ))
deriving DecidableEq, Repr

inductive LoopThread (κ : Type)
  | acceptor
  | looper (l : κ)
deriving DecidableEq, Repr

structure Loopers (κ : Type) where
  table : DescriptorTable κ
  freshId : ℕ
  children : List (ForkedChild κ)
  interest : κ → List (Client κ)
  connections : κ → List (ℕ × Client κ)
  mtx : κ → Option (LoopThread κ)
  acceptor : AcceptorPhase κ
  looper : κ → LooperPhase κ
  inserted : List Bool
  deleted : List Bool
  erased : List (Client κ)
  /-- Some `Poll` has returned the pointer of an erased connection. -/
  stale : Bool

inductive LoopEvent (κ : Type)
  | acceptClient (fd : ℕ) (looper : κ)
  | lockAdd
  | register
  | insert
  | poll (l : κ) (batch : List (Client κ))
  | start (l : κ)
  | finish (l : κ)
  | callDelete (l : κ)
  | lockDelete (l : κ)
  | erase (l : κ)
  | close (l : κ)
  | fork (l : κ)
  | waitpid (l : κ) (ok : Bool)
  | execve (child : ℕ)
  | exit (child : ℕ)
  | openOther (fd : ℕ)
  | closeOther (fd : ℕ)
deriving DecidableEq, Repr

def kDefaultListenedEvents : ℕ := 1024

namespace Loopers

variable {κ : Type}

def start : Loopers κ :=
  { table := fun _ => none
    freshId := 0
    children := []
    interest := fun _ => []
    connections := fun _ => []
    mtx := fun _ => none
    acceptor := .idle
    looper := fun _ => .walking []
    inserted := []
    deleted := []
    erased := []
    stale := false }

def Copied (s : Loopers κ) (c : Client κ) : Prop :=
  ∃ child ∈ s.children, child.copies c.fd = some (.client c)

variable [DecidableEq κ]

instance decidableCopied (s : Loopers κ) (c : Client κ) : Decidable (s.Copied c) :=
  inferInstanceAs (Decidable (∃ child ∈ s.children, child.copies c.fd = some (.client c)))

def hasDescriptor (s : Loopers κ) (c : Client κ) : Bool :=
  s.table c.fd = some (.client c) ∨ s.Copied c

def dropClosed (s : Loopers κ) : Loopers κ :=
  { s with interest := fun l => (s.interest l).filter s.hasDescriptor }

def closeSocket (s : Loopers κ) (c : Client κ) : Loopers κ :=
  dropClosed { s with table := Function.update s.table c.fd none }

def setLooper (s : Loopers κ) (l : κ) (phase : LooperPhase κ) : Loopers κ :=
  { s with looper := Function.update s.looper l phase }

def setMtx (s : Loopers κ) (l : κ) (holder : Option (LoopThread κ)) : Loopers κ :=
  { s with mtx := Function.update s.mtx l holder }

def releaseCopies (s : Loopers κ) (n : ℕ) (running : Bool) : Loopers κ :=
  dropClosed { s with children := s.children.set n ⟨fun _ => none, running⟩ }

def acceptorStep (s : Loopers κ) : LoopEvent κ → Option (Loopers κ)
  | .acceptClient fd looper =>
    if s.acceptor = .idle ∧ s.table fd = none then
      let c : Client κ := ⟨s.freshId, fd, looper⟩
      some { s with
        table := Function.update s.table fd (some (.client c))
        freshId := s.freshId + 1
        acceptor := .accepted c }
    else none
  | .lockAdd =>
    match s.acceptor with
    | .accepted c =>
      if s.mtx c.looper = none then
        some { s.setMtx c.looper (some .acceptor) with acceptor := .locked c }
      else none
    | _ => none
  | .register =>
    match s.acceptor with
    | .locked c =>
      some { s with
        interest := Function.update s.interest c.looper (s.interest c.looper ++ [c])
        acceptor := .registered c }
    | _ => none
  | .insert =>
    match s.acceptor with
    | .registered c =>
      if (s.connections c.looper).lookup c.fd = none then
        some { s.setMtx c.looper none with
          connections :=
            Function.update s.connections c.looper ((c.fd, c) :: s.connections c.looper)
          acceptor := .idle
          inserted := s.inserted ++ [true] }
      else
        -- the pair that was not inserted owns the connection and destroys it
        some { (s.closeSocket c).setMtx c.looper none with
          acceptor := .idle
          inserted := s.inserted ++ [false] }
    | _ => none
  | _ => none

def looperStep (s : Loopers κ) : LoopEvent κ → Option (Loopers κ)
  | .poll l batch =>
    if s.looper l = .walking [] ∧ batch.Nodup ∧ batch.length ≤ kDefaultListenedEvents ∧
        ∀ c ∈ batch, c ∈ s.interest l then
      some { s.setLooper l (.walking batch) with
        stale := s.stale || batch.any fun c => c ∈ s.erased }
    else none
  | .start l =>
    match s.looper l with
    | .walking (c :: rest) => some (s.setLooper l (.serving c rest))
    | _ => none
  | .finish l =>
    match s.looper l with
    | .serving _ rest => some (s.setLooper l (.walking rest))
    | _ => none
  | .callDelete l =>
    match s.looper l with
    | .serving c rest => some (s.setLooper l (.deleting c rest))
    | _ => none
  | .lockDelete l =>
    match s.looper l with
    | .deleting c rest =>
      if s.mtx c.looper = none then
        some ((s.setMtx c.looper (some (.looper l))).setLooper l (.locked c rest))
      else none
    | _ => none
  | .erase l =>
    match s.looper l with
    | .locked c rest =>
      match (s.connections c.looper).lookup c.fd with
      | none =>
        some { (s.setMtx c.looper none).setLooper l (.walking rest) with
          deleted := s.deleted ++ [false] }
      | some found =>
        some { s.setLooper l (.closing c.looper found rest) with
          connections := Function.update s.connections c.looper
            ((s.connections c.looper).filter fun e => e.1 ≠ c.fd)
          erased := found :: s.erased }
    | _ => none
  | .close l =>
    match s.looper l with
    | .closing looper c rest =>
      some { ((s.closeSocket c).setMtx looper none).setLooper l (.walking rest) with
        deleted := s.deleted ++ [true] }
    | _ => none
  | .fork l =>
    match s.looper l with
    | .serving c rest =>
      some { s.setLooper l (.harvesting s.children.length c rest) with
        children := s.children ++ [⟨s.table, true⟩] }
    | _ => none
  | .waitpid l ok =>
    match s.looper l with
    | .harvesting n c rest =>
      if ok = true → ∀ child ∈ s.children[n]?, child.running = false then
        some (s.setLooper l (.serving c rest))
      else none
    | _ => none
  | _ => none

def kernelStep (s : Loopers κ) : LoopEvent κ → Option (Loopers κ)
  | .execve n =>
    match s.children[n]? with
    | some child => if child.running then some (s.releaseCopies n true) else none
    | none => none
  | .exit n =>
    match s.children[n]? with
    | some child => if child.running then some (s.releaseCopies n false) else none
    | none => none
  | .openOther fd =>
    if s.table fd = none then
      some { s with table := Function.update s.table fd (some .other) }
    else none
  | .closeOther fd =>
    if s.table fd = some .other then some { s with table := Function.update s.table fd none }
    else none
  | _ => none

/-- After a stale pointer has been used the behaviour is undefined, and the machine stops. -/
def step (s : Loopers κ) (e : LoopEvent κ) : Option (Loopers κ) :=
  if s.stale then none
  else match e with
    | .acceptClient _ _ | .lockAdd | .register | .insert => s.acceptorStep e
    | .execve _ | .exit _ | .openOther _ | .closeOther _ => s.kernelStep e
    | _ => s.looperStep e

end Loopers

end HttpReactor
