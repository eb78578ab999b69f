import HttpReactor.Connection
import HttpReactor.HttpServer

/-!
# The life of a connection

`ProcessHttpRequest` runs once for every notification of the poller, until it deletes
the connection. What it receives, serves and sends is kept as a list of events. The
handling of one request text is a parameter `dispatch` over the state of the rest of
the server; `serve` is the repository's own.
-/

namespace HttpReactor
open ListSearch Connection

/-- One request taken off the read buffer, its response, and the `Send` of that response: the
kernel's answers it starts with and the bytes the kernel took. -/
structure Exchange where
  requestStr : Bytes
  handled : Handled
  sends : List SendOutcome
  accepted : Bytes
deriving DecidableEq, Repr

inductive Event
  | received (bytes : Bytes)
  | served (exchange : Exchange)
  | deleteConnection
deriving DecidableEq, Repr

def receivedBytes (events : List Event) : Bytes :=
  events.flatMap fun
    | .received bytes => bytes
    | _ => []

def exchanges (events : List Event) : List Exchange :=
  events.filterMap fun
    | .served x => some x
    | _ => none

inductive Status
  | connected
  | deleted
  | terminated
deriving DecidableEq, Repr

structure Session (σ : Type) where
  server : σ
  conn : Connection
  sends : List SendOutcome
  status : Status
  events : List Event

variable {σ : Type}

namespace Session

def start (server : σ) (sends : List SendOutcome) : Session σ :=
  ⟨server, ⟨[], []⟩, sends, .connected, []⟩

def receive (s : Session σ) (outs : List RecvOutcome) : Session σ :=
  { s with
    conn := (s.conn.receive outs).1
    events := s.events ++ [.received (delivered outs)] }

def answer (s : Session σ) (conn : Connection) (requestStr : Bytes) (handled : Handled)
    (server : σ) : Session σ :=
  let sent := (conn.write handled.responseBuf).send s.sends
  { server := server
    conn := sent.1
    sends := sent.2.2
    status := s.status
    events := s.events ++ [.served ⟨requestStr, handled, s.sends, sent.2.1⟩] }

def deleteConnection (s : Session σ) : Session σ :=
  { s with status := .deleted, events := s.events ++ [.deleteConnection] }

end Session

section Dispatch

variable (dispatch : σ → Bytes → Except Terminate (Handled × σ))

def requestLoop : ℕ → Session σ → Session σ × Bool
  | 0, s => (s, false)
  | fuel + 1, s =>
    match s.conn.findAndPopTill kRequestEnd with
    | (none, conn) => ({ s with conn := conn }, false)
    | (some requestStr, conn) =>
      match dispatch s.server requestStr with
      | .error _ => ({ s with conn := conn, status := .terminated }, false)
      | .ok (handled, server) =>
        let s' := s.answer conn requestStr handled server
        if handled.shouldFinish then (s', true) else requestLoop fuel s'

def processHttpRequest (s : Session σ) (outs : List RecvOutcome) : Session σ :=
  let received := s.receive outs
  if (s.conn.receive outs).2.2 then received.deleteConnection
  else
    -- every round of the loop shortens the read buffer
    let handled := requestLoop dispatch (received.conn.readBuffer.length + 1) received
    if handled.2 then handled.1.deleteConnection else handled.1

def runSession : Session σ → List (List RecvOutcome) → Session σ
  | s, [] => s
  | s, outs :: rounds =>
    if s.status = .connected then runSession (processHttpRequest dispatch s outs) rounds else s

end Dispatch

inductive LoopEnd (s s' : Session σ) (xs : List Exchange) : Bool → Prop
  | drained (hs : s'.status = s.status)
      (hf : frames kRequestEnd s.conn.readBuffer = (xs.map Exchange.requestStr, s'.conn.readBuffer))
      (hx : ∀ x ∈ xs, x.handled.shouldFinish = false) : LoopEnd s s' xs false
  | finished (ys : List Exchange) (x : Exchange) (he : xs = ys ++ [x]) (hs : s'.status = s.status)
      (hf : xs.map Exchange.requestStr <+: (frames kRequestEnd s.conn.readBuffer).1)
      (hy : ∀ y ∈ ys, y.handled.shouldFinish = false) (hx : x.handled.shouldFinish = true) :
      LoopEnd s s' xs true
  | terminated (hs : s'.status = .terminated) : LoopEnd s s' xs false

structure LoopSpec (s s' : Session σ) (finished : Bool) (xs : List Exchange) : Prop where
  events : s'.events = s.events ++ xs.map .served
  writeBuffer : s'.conn.writeBuffer = []
  ending : LoopEnd s s' xs finished

theorem findAndPopTill_of_cut_none {c : Connection} {t : Bytes} (h : cut t c.readBuffer = none) :
    c.findAndPopTill t = (none, c) := by
  rw [Connection.findAndPopTill, Buffer.findAndPopTill_of_cut_none h]

theorem findAndPopTill_of_cut_some {c : Connection} {t p r : Bytes}
    (h : cut t c.readBuffer = some (p, r)) :
    c.findAndPopTill t = (some p, { c with readBuffer := r }) := by
  rw [Connection.findAndPopTill, Buffer.findAndPopTill_of_cut_some h]

theorem LoopSpec.cons {s s₁ s' : Session σ} {finished : Bool} {xs : List Exchange} {x : Exchange}
    {r : Bytes} (hc : cut kRequestEnd s.conn.readBuffer = some (x.requestStr, r))
    (hr : s₁.conn.readBuffer = r) (hs : s₁.status = s.status)
    (he : s₁.events = s.events ++ [.served x])
    (hx : x.handled.shouldFinish = false) (h : LoopSpec s₁ s' finished xs) :
    LoopSpec s s' finished (x :: xs) := by
  have hf := frames_of_cut_some kRequestEnd_ne_nil hc
  rw [← hr] at hf
  refine ⟨by rw [h.events, he]; simp, h.writeBuffer, ?_⟩
  cases h.ending with
  | drained hs' hf' hx' =>
    refine .drained (hs'.trans hs) ?_ (List.forall_mem_cons.mpr ⟨hx, hx'⟩)
    rw [hf, hf', List.map_cons]
  | finished ys y he' hs' hf' hy hy' =>
    refine .finished (x :: ys) y (by rw [he']; rfl) (hs'.trans hs) ?_
      (List.forall_mem_cons.mpr ⟨hx, hy⟩) hy'
    rw [hf, List.map_cons]
    exact List.cons_prefix_cons.mpr ⟨rfl, hf'⟩
  | terminated hs' => exact .terminated hs'

theorem requestLoop_spec (dispatch : σ → Bytes → Except Terminate (Handled × σ)) {fuel : ℕ}
    {s : Session σ} (hfuel : s.conn.readBuffer.length < fuel) (hw : s.conn.writeBuffer = []) :
    ∃ xs, LoopSpec s (requestLoop dispatch fuel s).1 (requestLoop dispatch fuel s).2 xs := by
  induction fuel generalizing s with
  | zero => omega
  | succ fuel ih =>
    cases hc : cut kRequestEnd s.conn.readBuffer with
    | none =>
      simp only [requestLoop, findAndPopTill_of_cut_none hc]
      exact ⟨[], by simp, hw, .drained rfl (frames_of_cut_none hc) nofun⟩
    | some q =>
      obtain ⟨p, r⟩ := q
      have hlt := cut_length_lt kRequestEnd_ne_nil hc
      simp only [requestLoop, findAndPopTill_of_cut_some hc]
      cases hd : dispatch s.server p with
      | error e => exact ⟨[], by simp, hw, .terminated rfl⟩
      | ok res =>
        obtain ⟨handled, server⟩ := res
        simp only []
        generalize hs₁ : s.answer { s.conn with readBuffer := r } p handled server = s₁
        have hread : s₁.conn.readBuffer = r := by rw [← hs₁]; rfl
        have hstatus : s₁.status = s.status := by rw [← hs₁]; rfl
        have hw₁ : s₁.conn.writeBuffer = [] := by rw [← hs₁]; rfl
        obtain ⟨x, he, hxr, hxh⟩ : ∃ x : Exchange, s₁.events = s.events ++ [.served x] ∧
            x.requestStr = p ∧ x.handled = handled :=
          ⟨_, by rw [← hs₁]; rfl, rfl, rfl⟩
        split_ifs with hfin
        · refine ⟨[x], he, hw₁, .finished [] x rfl hstatus ?_ nofun ?_⟩
          · rw [frames_of_cut_some kRequestEnd_ne_nil hc, List.map_singleton, hxr]
            exact List.cons_prefix_cons.mpr ⟨rfl, List.nil_prefix⟩
          · rw [hxh, hfin]
        · obtain ⟨xs, hxs⟩ := ih (by rw [hread]; omega) hw₁
          rw [← hxr] at hc
          rw [← hxh, Bool.not_eq_true] at hfin
          exact ⟨x :: xs, hxs.cons hc hread hstatus he hfin⟩

section Events

@[simp] theorem receivedBytes_append (a b : List Event) :
    receivedBytes (a ++ b) = receivedBytes a ++ receivedBytes b := by
  simp [receivedBytes]

@[simp] theorem exchanges_append (a b : List Event) :
    exchanges (a ++ b) = exchanges a ++ exchanges b := by
  simp [exchanges]

@[simp] theorem receivedBytes_served (xs : List Exchange) :
    receivedBytes (xs.map .served) = [] := by
  simp [receivedBytes, List.flatMap_map]

@[simp] theorem exchanges_served (xs : List Exchange) : exchanges (xs.map .served) = xs := by
  simp [exchanges, List.filterMap_map]

@[simp] theorem receivedBytes_cons_received (bytes : Bytes) (events : List Event) :
    receivedBytes (.received bytes :: events) = bytes ++ receivedBytes events := rfl

@[simp] theorem exchanges_cons_received (bytes : Bytes) (events : List Event) :
    exchanges (.received bytes :: events) = exchanges events := rfl

@[simp] theorem receivedBytes_cons_deleteConnection (events : List Event) :
    receivedBytes (.deleteConnection :: events) = receivedBytes events := rfl

@[simp] theorem exchanges_cons_deleteConnection (events : List Event) :
    exchanges (.deleteConnection :: events) = exchanges events := rfl

@[simp] theorem receivedBytes_nil : receivedBytes [] = [] := rfl

@[simp] theorem exchanges_nil : exchanges [] = [] := rfl

end Events

/-- The connection is there: the requests served so far are the complete ones received, in
order, none closed it, and the rest of what was received is in the read buffer. -/
structure Session.Open (s : Session σ) : Prop where
  status : s.status = .connected
  writeBuffer : s.conn.writeBuffer = []
  asked : frames kRequestEnd (receivedBytes s.events) =
    ((exchanges s.events).map Exchange.requestStr, s.conn.readBuffer)
  kept : ∀ x ∈ exchanges s.events, x.handled.shouldFinish = false
  present : Event.deleteConnection ∉ s.events

structure LoopInvariant (dispatch : σ → Bytes → Except Terminate (Handled × σ))
    (I : Session σ → Prop) : Prop where
  answer : ∀ {s : Session σ} {conn : Connection} {requestStr : Bytes} {handled : Handled}
    {server : σ}, I s → conn.writeBuffer = s.conn.writeBuffer →
      cut kRequestEnd s.conn.readBuffer = some (requestStr, conn.readBuffer) →
      dispatch s.server requestStr = .ok (handled, server) →
      I (s.answer conn requestStr handled server)
  terminate : ∀ {s : Session σ} {conn : Connection} {requestStr : Bytes} {t : Terminate}, I s →
    conn.writeBuffer = s.conn.writeBuffer →
      cut kRequestEnd s.conn.readBuffer = some (requestStr, conn.readBuffer) →
      dispatch s.server requestStr = .error t → I { s with conn := conn, status := .terminated }
  delete : ∀ {s : Session σ}, I s → I s.deleteConnection

structure SessionInvariant (dispatch : σ → Bytes → Except Terminate (Handled × σ))
    (I : Session σ → Prop) : Prop extends LoopInvariant dispatch I where
  receive : ∀ {s : Session σ} (outs : List RecvOutcome), I s → I (s.receive outs)

section Invariant

variable {dispatch : σ → Bytes → Except Terminate (Handled × σ)} {I : Session σ → Prop}

theorem LoopInvariant.requestLoop (hI : LoopInvariant dispatch I) (fuel : ℕ)
    {s : Session σ} (h : I s) : I (requestLoop dispatch fuel s).1 := by
  induction fuel generalizing s with
  | zero => exact h
  | succ fuel ih =>
    cases hc : cut kRequestEnd s.conn.readBuffer with
    | none =>
      simp only [HttpReactor.requestLoop, findAndPopTill_of_cut_none hc]
      exact h
    | some q =>
      obtain ⟨p, r⟩ := q
      have hw : ({ s.conn with readBuffer := r } : Connection).writeBuffer =
        s.conn.writeBuffer := rfl
      simp only [HttpReactor.requestLoop, findAndPopTill_of_cut_some hc]
      cases hd : dispatch s.server p with
      | error t => exact hI.terminate h hw hc hd
      | ok res =>
        have ha := hI.answer h hw hc hd
        simp only []
        split_ifs
        · exact ha
        · exact ih ha

theorem LoopInvariant.process (hI : LoopInvariant dispatch I) {s : Session σ}
    {outs : List RecvOutcome} (hr : I (s.receive outs)) :
    I (processHttpRequest dispatch s outs) := by
  unfold processHttpRequest
  dsimp only
  split_ifs
  · exact hI.delete hr
  · exact hI.delete (hI.requestLoop _ hr)
  · exact hI.requestLoop _ hr

theorem SessionInvariant.process (hI : SessionInvariant dispatch I) {s : Session σ} (h : I s)
    (outs : List RecvOutcome) : I (processHttpRequest dispatch s outs) :=
  hI.toLoopInvariant.process (hI.receive outs h)

theorem SessionInvariant.run (hI : SessionInvariant dispatch I) {s : Session σ} (h : I s)
    (rounds : List (List RecvOutcome)) : I (runSession dispatch s rounds) := by
  induction rounds generalizing s with
  | nil => exact h
  | cons outs rounds ih =>
    rw [runSession]
    split_ifs
    · exact ih (hI.process h outs)
    · exact h

end Invariant

theorem Session.start_open (server : σ) (sends : List SendOutcome) :
    (start server sends).Open :=
  ⟨rfl, rfl, rfl, nofun, nofun⟩

theorem Session.Open.frames_received {s : Session σ} (h : s.Open) (outs : List RecvOutcome) :
    (frames kRequestEnd (receivedBytes (s.events ++ [.received (delivered outs)]))).1 =
      (exchanges s.events).map Exchange.requestStr ++
        (frames kRequestEnd (s.receive outs).conn.readBuffer).1 := by
  have hread : (s.receive outs).conn.readBuffer = s.conn.readBuffer ++ delivered outs := by
    rw [Session.receive, receive_eq]
  have happend := frames_append kRequestEnd_ne_nil (receivedBytes s.events) (delivered outs)
  rw [h.asked, ← hread] at happend
  simp [happend]

structure ClosedBy (events : List Event) (ys : List Exchange) (x : Exchange) : Prop where
  served : exchanges events = ys ++ [x]
  asked : (exchanges events).map Exchange.requestStr <+:
    (frames kRequestEnd (receivedBytes events)).1
  kept : ∀ y ∈ ys, y.handled.shouldFinish = false
  closing : x.handled.shouldFinish = true

/-- What one call of `ProcessHttpRequest` does to an open connection. -/
inductive Processed (s : Session σ) (outs : List RecvOutcome) (s' : Session σ) : Prop
  | stays (he : exits outs = false) (ho : s'.Open)
      (hr : receivedBytes s'.events = receivedBytes s.events ++ delivered outs)
  | exited (he : exits outs = true) (hs : s'.status = .deleted)
      (hev : s'.events = s.events ++ [.received (delivered outs)] ++ [.deleteConnection])
  | finished (evs : List Event) (ys : List Exchange) (x : Exchange) (he : exits outs = false)
      (hs : s'.status = .deleted) (hev : s'.events = evs ++ [.deleteConnection])
      (hd : .deleteConnection ∉ evs) (hc : ClosedBy evs ys x)
      (hr : receivedBytes evs = receivedBytes s.events ++ delivered outs)
  | terminated (he : exits outs = false) (hs : s'.status = .terminated)
      (hd : .deleteConnection ∉ s'.events)

theorem Processed.of_loop {s s' : Session σ} {outs : List RecvOutcome} {finished : Bool}
    {xs : List Exchange} (h : s.Open) (he : exits outs = false)
    (hspec : LoopSpec (s.receive outs) s' finished xs) :
    Processed s outs (if finished then s'.deleteConnection else s') := by
  have hread : (s.receive outs).conn.readBuffer = s.conn.readBuffer ++ delivered outs := by
    rw [Session.receive, receive_eq]
  have hev : s'.events = s.events ++ [.received (delivered outs)] ++ xs.map .served := hspec.events
  have hrecv : receivedBytes s'.events = receivedBytes s.events ++ delivered outs := by
    simp [hev]
  have hex : exchanges s'.events = exchanges s.events ++ xs := by simp [hev]
  have hpresent : .deleteConnection ∉ s'.events := by simp [hev, h.present]
  have hframes := frames_append kRequestEnd_ne_nil (receivedBytes s.events) (delivered outs)
  rw [h.asked, ← hrecv, ← hread] at hframes
  cases hspec.ending with
  | drained hs hf hx =>
    rw [if_neg Bool.false_ne_true]
    refine .stays he ⟨hs.trans h.status, hspec.writeBuffer, ?_, ?_, hpresent⟩ hrecv
    · rw [hframes, hf, hex, List.map_append]
    · rw [hex]
      exact List.forall_mem_append.mpr ⟨h.kept, hx⟩
  | finished ys x hxs hs hf hy hx =>
    refine .finished s'.events (exchanges s.events ++ ys) x he rfl rfl hpresent
      ⟨?_, ?_, List.forall_mem_append.mpr ⟨h.kept, hy⟩, hx⟩ hrecv
    · rw [hex, hxs, List.append_assoc]
    · rw [hframes, hex, List.map_append]
      exact (List.prefix_append_right_inj _).mpr hf
  | terminated hs =>
    rw [if_neg Bool.false_ne_true]
    exact .terminated he hs hpresent

theorem processHttpRequest_spec (dispatch : σ → Bytes → Except Terminate (Handled × σ))
    {s : Session σ} (h : s.Open) (outs : List RecvOutcome) :
    Processed s outs (processHttpRequest dispatch s outs) := by
  unfold processHttpRequest
  cases he : exits outs with
  | true =>
    rw [receive_eq, he]
    exact .exited he rfl rfl
  | false =>
    obtain ⟨xs, hspec⟩ := requestLoop_spec dispatch (s := s.receive outs) (Nat.lt_succ_self _)
      h.writeBuffer
    have hp := Processed.of_loop h he hspec
    rw [receive_eq, he]
    exact hp

end HttpReactor
