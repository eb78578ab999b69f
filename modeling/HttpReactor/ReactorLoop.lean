import HttpReactor.EdgeTriggered
import HttpReactor.LooperMachine
import HttpReactor.Session

/-!
# The loop of a reactor

`StartLoop` polls and calls `Start` on each connection of the batch. The callback receives
until there is nothing left to read, answers the complete requests and may delete its
connection. Meanwhile the clients send, shut down or reset, the acceptor's thread registers
new connections and other threads change the files and the cache. A `recv`, a `Poll` and
what follows the return of `Receive` are one step each, and anything may happen between them.

The poller is edge-triggered for clients: a registration queues a client whose socket is
readable, later every arrival does. Closing a deleted connection takes it off the poller.
-/

namespace HttpReactor
open ListSearch Connection EdgeTriggered Refinement

inductive Ending
  | shutdown
  | reset (code : ℕ)
deriving DecidableEq, Repr

structure Inbox where
  unread : Bytes
  ending : Option Ending
deriving DecidableEq, Repr

namespace Inbox

def readable (b : Inbox) : Bool := b.unread ≠ [] ∨ b.ending ≠ none

/-- The answer to a `recv` of `kBufferSize` bytes; with bytes to read the kernel may give
fewer than it has. -/
def recv (b : Inbox) (extra : ℕ) : RecvOutcome × Inbox :=
  if h : b.unread = [] then
    match b.ending with
    | none => (.failed .EAGAIN, b)
    | some .shutdown => (.closed, b)
    | some (.reset code) => (.failed (.other code), b)
  else
    let size := min (extra + 1) (min kBufferSize b.unread.length)
    (.data ⟨b.unread.take size,
      by
        have hn : 0 < b.unread.length := List.length_pos_iff.mpr h
        rw [List.length_take]
        simp only [size, kBufferSize]
        omega,
      by
        rw [List.length_take]
        simp only [size]
        omega⟩, { b with unread := b.unread.drop size })

inductive Received (b : Inbox) : RecvOutcome × Inbox → Prop
  | data (chunk : Chunk) (rest : Bytes) (h : b.unread = chunk.bytes ++ rest) :
      Received b (.data chunk, { b with unread := rest })
  | blocked (hu : b.unread = []) (he : b.ending = none) : Received b (.failed .EAGAIN, b)
  | ended (out : RecvOutcome) (hu : b.unread = []) (he : b.ending ≠ none)
      (ho : out = .closed ∨ ∃ code, out = .failed (.other code)) : Received b (out, b)

theorem received_recv (b : Inbox) (extra : ℕ) : Received b (b.recv extra) := by
  unfold recv
  split_ifs with hu
  · split
    · next he => exact .blocked hu he
    · next he => exact .ended .closed hu (by simp [he]) (Or.inl rfl)
    · next code he => exact .ended _ hu (by simp [he]) (Or.inr ⟨code, rfl⟩)
  · exact .data _ _ (List.take_append_drop _ _).symm

end Inbox

inductive ReactorPhase (κ : Type)
  | walking (batch : List κ)
  | receiving (c : κ) (outs : List RecvOutcome) (rest : List κ)
  | handling (c : κ) (outs : List RecvOutcome) (rest : List κ)
  | terminated

structure Reactor (κ σ : Type) where
  inbox : κ → Inbox
  arrived : κ → Bytes
  epoll : Readiness κ
  sessions : κ → Option (Session σ)
  server : σ
  phase : ReactorPhase κ
  exit : Bool

inductive ReactorEvent (κ σ : Type)
  | arrive (c : κ) (bytes : Bytes)
  | finish (c : κ) (ending : Ending)
  | register (c : κ) (sends : List SendOutcome)
  | disturb (server : σ)
  | callExit
  | poll
  | pollFails
  | start
  | recv (extra : ℕ)
  | interrupt
  | handle

namespace Reactor

variable {κ σ : Type} [DecidableEq κ]

def start (server : σ) : Reactor κ σ :=
  { inbox := fun _ => ⟨[], none⟩
    arrived := fun _ => []
    epoll := ⟨[], []⟩
    sessions := fun _ => none
    server := server
    phase := .walking []
    exit := false }

def readable (s : Reactor κ σ) (c : κ) : Bool := (s.inbox c).readable

def otherStep (s : Reactor κ σ) : ReactorEvent κ σ → Option (Reactor κ σ)
  | .arrive c bytes =>
    if bytes ≠ [] ∧ (s.inbox c).ending = none then
      some { s with
        inbox := Function.update s.inbox c { s.inbox c with unread := (s.inbox c).unread ++ bytes }
        arrived := Function.update s.arrived c (s.arrived c ++ bytes)
        epoll := s.epoll.notify c }
    else none
  | .finish c ending =>
    if (s.inbox c).ending = none then
      some { s with
        inbox := Function.update s.inbox c { s.inbox c with ending := some ending }
        epoll := s.epoll.notify c }
    else none
  | .register c sends =>
    match s.sessions c with
    | some _ => none
    | none => some { s with
        sessions := Function.update s.sessions c (some (Session.start s.server sends))
        epoll := s.epoll.watch c (s.readable c) }
  | .disturb server => some { s with server := server }
  | .callExit => some { s with exit := true }
  | _ => none

variable (dispatch : σ → Bytes → Except Terminate (Handled × σ))

def handled (s : Reactor κ σ) (c : κ) (rest : List κ) (session : Session σ) : Reactor κ σ :=
  { s with
    sessions := Function.update s.sessions c (some session)
    server := session.server
    epoll := if session.status = .connected then s.epoll else s.epoll.unwatch c
    phase := if session.status = .terminated then .terminated else .walking rest }

def loopStep (s : Reactor κ σ) : ReactorEvent κ σ → Option (Reactor κ σ)
  | .poll =>
    match s.phase with
    | .walking [] =>
      if s.exit then none
      else
        let reported := s.epoll.report s.readable kDefaultListenedEvents
        some { s with epoll := reported.2, phase := .walking reported.1 }
    | _ => none
  | .pollFails =>
    match s.phase with
    | .walking [] => if s.exit then none else some { s with phase := .terminated }
    | _ => none
  | .start =>
    match s.phase with
    | .walking (c :: rest) => some { s with phase := .receiving c [] rest }
    | _ => none
  | .recv extra =>
    match s.phase with
    | .receiving c outs rest =>
      let answer := (s.inbox c).recv extra
      some { s with
        inbox := Function.update s.inbox c answer.2
        phase := match answer.1 with
          | .data _ => .receiving c (outs ++ [answer.1]) rest
          | _ => .handling c (outs ++ [answer.1]) rest }
    | _ => none
  | .interrupt =>
    match s.phase with
    | .receiving c outs rest =>
      some { s with phase := .receiving c (outs ++ [.failed .EINTR]) rest }
    | _ => none
  | .handle =>
    match s.phase with
    | .handling c outs rest =>
      match s.sessions c with
      | none => none
      | some x =>
        some (s.handled c rest (processHttpRequest dispatch { x with server := s.server } outs))
    | _ => none
  | _ => none

/-- After the process has terminated nothing happens any more. -/
def step (s : Reactor κ σ) (e : ReactorEvent κ σ) : Option (Reactor κ σ) :=
  match s.phase with
  | .terminated => none
  | _ =>
    match e with
    | .arrive _ _ | .finish _ _ | .register _ _ | .disturb _ | .callExit => s.otherStep e
    | _ => s.loopStep dispatch e

def run (s : Reactor κ σ) (events : List (ReactorEvent κ σ)) : Option (Reactor κ σ) :=
  runGuarded (step dispatch) s events

end Reactor

end HttpReactor
