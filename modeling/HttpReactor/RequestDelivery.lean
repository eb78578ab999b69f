import HttpReactor.CacheCoherence
import HttpReactor.Session

/-!
# What becomes of the bytes a connection receives

`no_request_lost_iff`: a complete request that was received is answered before the
connection is deleted, except that a `Receive` which ends with the client's exit drops
what it has just read. `session_chunking_independent`: as long as the client stays, the
responses depend on the received bytes only, not on how they were cut.
-/

namespace HttpReactor
open ListSearch Connection

section Lost

def AllServed (events : List Event) : Prop :=
  ∀ i requestStr, (frames kRequestEnd (receivedBytes events)).1[i]? = some requestStr →
    (∀ x ∈ (exchanges events).take i, x.handled.shouldFinish = false) →
    (exchanges events)[i]?.map Exchange.requestStr = some requestStr

/-- Whenever the connection is deleted, everything received before has been served. -/
def NoRequestLost (events : List Event) : Prop :=
  ∀ pre post, events = pre ++ .deleteConnection :: post → AllServed pre

theorem noRequestLost_of_present {events : List Event} (h : Event.deleteConnection ∉ events) :
    NoRequestLost events := by
  intro pre post he
  subst he
  exact absurd (List.mem_append_right _ List.mem_cons_self) h

theorem noRequestLost_deleted_iff {events : List Event} (h : Event.deleteConnection ∉ events) :
    NoRequestLost (events ++ [.deleteConnection]) ↔ AllServed events := by
  constructor
  · exact fun hn => hn events [] rfl
  · intro ha pre post he
    obtain ⟨rfl, -⟩ := (List.append_cons_inj_of_notMem h List.not_mem_nil).mp he
    exact ha

theorem ClosedBy.allServed {events : List Event} {ys : List Exchange} {x : Exchange}
    (h : ClosedBy events ys x) : AllServed events := by
  intro i requestStr hi hopen
  by_cases hlt : i < (exchanges events).length
  · -- a served request is the complete request at its place
    have hm : i < ((exchanges events).map Exchange.requestStr).length := by simpa using hlt
    rw [← List.getElem?_map, ← hi]
    exact (List.prefix_iff_getElem?.mp h.asked i hm).symm ▸ List.getElem?_eq_getElem hm
  · -- past them all, the closing one is among the earlier ones
    rw [List.take_of_length_le (by omega), h.served] at hopen
    have hx := hopen x (List.mem_append_right _ List.mem_cons_self)
    rw [h.closing] at hx
    cases hx

theorem allServed_of_frames {events : List Event} {r : Bytes}
    (h : frames kRequestEnd (receivedBytes events) =
      ((exchanges events).map Exchange.requestStr, r)) : AllServed events := by
  intro i requestStr hi _
  rw [h] at hi
  rwa [← List.getElem?_map]

theorem allServed_exit_iff {σ : Type} {s : Session σ} (h : s.Open) (d : Bytes) :
    AllServed (s.events ++ [.received d]) ↔ ¬ kRequestEnd <:+: s.conn.readBuffer ++ d := by
  have hf : frames kRequestEnd (receivedBytes (s.events ++ [.received d])) =
      ((exchanges s.events).map Exchange.requestStr ++
        (frames kRequestEnd (s.conn.readBuffer ++ d)).1,
        (frames kRequestEnd (s.conn.readBuffer ++ d)).2) := by
    have ha := frames_append kRequestEnd_ne_nil (receivedBytes s.events) d
    rw [h.asked] at ha
    simpa using ha
  have hx : exchanges (s.events ++ [.received d]) = exchanges s.events := by simp
  rw [← frames_eq_nil_iff kRequestEnd_ne_nil]
  constructor
  · intro ha
    cases hn : (frames kRequestEnd (s.conn.readBuffer ++ d)).1 with
    | nil => rfl
    | cons p ps =>
      -- the first of the new requests has no exchange in its place
      have hi := ha (exchanges s.events).length p (by rw [hf, hn]; simp)
      rw [hx, List.take_length] at hi
      simpa using hi h.kept
  · intro hn
    rw [hn, List.append_nil] at hf
    exact allServed_of_frames (hx ▸ hf)

variable {σ : Type} (dispatch : σ → Bytes → Except Terminate (Handled × σ))

/-- In every call made while the connection is there, a `Receive` that ends with the client's
exit leaves no complete request in the read buffer. -/
def ExitsClean : Session σ → List (List RecvOutcome) → Prop
  | _, [] => True
  | s, outs :: rounds =>
    s.status = .connected →
      (exits outs = true → ¬ kRequestEnd <:+: s.conn.readBuffer ++ delivered outs) ∧
        ExitsClean (processHttpRequest dispatch s outs) rounds

theorem runSession_of_ne {s : Session σ} (h : s.status ≠ .connected)
    (rounds : List (List RecvOutcome)) : runSession dispatch s rounds = s := by
  cases rounds with
  | nil => rfl
  | cons outs rounds => rw [runSession, if_neg h]

theorem exitsClean_of_ne {s : Session σ} (h : s.status ≠ .connected)
    (rounds : List (List RecvOutcome)) : ExitsClean dispatch s rounds := by
  cases rounds with
  | nil => trivial
  | cons outs rounds => exact fun hc => absurd hc h

theorem noRequestLost_run_iff {s : Session σ} (h : s.Open) (rounds : List (List RecvOutcome)) :
    NoRequestLost (runSession dispatch s rounds).events ↔ ExitsClean dispatch s rounds := by
  induction rounds generalizing s with
  | nil => exact iff_of_true (noRequestLost_of_present h.present) trivial
  | cons outs rounds ih =>
    rw [runSession, if_pos h.status, ExitsClean, forall_prop_of_true h.status]
    cases processHttpRequest_spec dispatch h outs with
    | stays he ho hr =>
      rw [ih ho, he]
      simp
    | exited he hs hev =>
      have hne : (processHttpRequest dispatch s outs).status ≠ .connected := by simp [hs]
      have hp : Event.deleteConnection ∉ s.events ++ [.received (delivered outs)] := by
        simp [h.present]
      rw [runSession_of_ne dispatch hne, hev, noRequestLost_deleted_iff hp, allServed_exit_iff h,
        and_iff_left (exitsClean_of_ne dispatch hne rounds), he]
      simp
    | finished evs ys x he hs hev hd hc hr =>
      have hne : (processHttpRequest dispatch s outs).status ≠ .connected := by simp [hs]
      rw [runSession_of_ne dispatch hne, hev, noRequestLost_deleted_iff hd, he]
      exact iff_of_true hc.allServed
        ⟨fun h => absurd h Bool.false_ne_true, exitsClean_of_ne dispatch hne rounds⟩
    | terminated he hs hd =>
      have hne : (processHttpRequest dispatch s outs).status ≠ .connected := by simp [hs]
      rw [runSession_of_ne dispatch hne, he]
      exact iff_of_true (noRequestLost_of_present hd)
        ⟨fun h => absurd h Bool.false_ne_true, exitsClean_of_ne dispatch hne rounds⟩

/-- Over every run of a connection, whatever the clients, the files and the kernel do: no
complete request is dropped exactly when no `Receive` that ends with the client's exit has a
complete request in the buffer. -/
theorem no_request_lost_iff (dir : Bytes) (around : Surroundings) (server : Service)
    (sends : List SendOutcome) (rounds : List (List RecvOutcome)) :
    NoRequestLost (runSession (serve dir around) (.start server sends) rounds).events ↔
      ExitsClean (serve dir around) (.start server sends) rounds :=
  noRequestLost_run_iff (serve dir around) (Session.start_open server sends) rounds

theorem request_before_exit_lost :
    let fs : FileSystem := fun path =>
      if path = ascii "/srv/a" then .regular (ascii "xy") true else .missing
    let around : Surroundings :=
      ⟨fun _ _ => ⟨1, 2, .writes (ascii "1") []⟩, fun _ world => world⟩
    let get := ascii "GET /a HTTP/1.1" ++ kRequestEnd
    let chunk : Chunk := ⟨get, by decide, by decide⟩
    ¬ NoRequestLost (runSession (serve (ascii "/srv") around)
      (.start ⟨0, ⟨fs, Store.new 0 100⟩⟩ []) [[.data chunk, .closed]]).events := by
  intro fs around get chunk hlost
  have hs := hlost [.received get] [] (by simp [runSession, processHttpRequest, Session.start,
    Session.receive, Session.deleteConnection, receive_eq, delivered, exits, chunk]) 0 get
  have hget : (frames kRequestEnd (receivedBytes [.received get])).1[0]? = some get := by decide
  simpa using hs hget (by simp)

end Lost

section Chunking

variable {σ : Type} {dispatch : σ → Bytes → Except Terminate (Handled × σ)}

inductive Reaches (dispatch : σ → Bytes → Except Terminate (Handled × σ)) (asked : Bytes → Prop)
    (s₀ : σ) : σ → Prop
  | refl : Reaches dispatch asked s₀ s₀
  | serve {s s' : σ} {requestStr : Bytes} {handled : Handled} (h : Reaches dispatch asked s₀ s)
      (ha : asked requestStr) (hd : dispatch s requestStr = .ok (handled, s')) :
      Reaches dispatch asked s₀ s'

/-- While only the `asked` texts are served, each of them has a result that stays the same. -/
def FixedResults (dispatch : σ → Bytes → Except Terminate (Handled × σ)) (asked : Bytes → Prop)
    (s₀ : σ) (result : Bytes → Handled) : Prop :=
  ∀ s, Reaches dispatch asked s₀ s → ∀ requestStr, asked requestStr →
    ∃ s', dispatch s requestStr = .ok (result requestStr, s')

def answered (result : Bytes → Handled) : List Bytes → List Handled
  | [] => []
  | p :: ps => result p :: if (result p).shouldFinish then [] else answered result ps

def acceptedBytes (events : List Event) : Bytes :=
  ((exchanges events).map Exchange.accepted).flatten

theorem answered_of_kept {result : Bytes → Handled} {ps : List Bytes}
    (h : ∀ p ∈ ps, (result p).shouldFinish = false) : answered result ps = ps.map result := by
  induction ps with
  | nil => rfl
  | cons p ps ih =>
    obtain ⟨hp, hps⟩ := List.forall_mem_cons.mp h
    rw [answered, hp, ih hps]
    rfl

theorem answered_of_closed {result : Bytes → Handled} {ps qs : List Bytes} {p : Bytes}
    (h : ∀ q ∈ qs, (result q).shouldFinish = false) (hp : (result p).shouldFinish = true)
    (hpre : qs ++ [p] <+: ps) : answered result ps = (qs ++ [p]).map result := by
  induction qs generalizing ps with
  | nil =>
    obtain ⟨t, rfl⟩ := hpre
    simp [answered, hp]
  | cons q qs ih =>
    obtain ⟨t, rfl⟩ := hpre
    obtain ⟨hq, hqs⟩ := List.forall_mem_cons.mp h
    rw [List.cons_append, List.cons_append, answered, hq, ih hqs ⟨t, rfl⟩]
    rfl

structure Session.TakenWhole (s : Session σ) : Prop where
  writeBuffer : s.conn.writeBuffer = []
  delivers : Delivers s.sends
  whole : ∀ x ∈ exchanges s.events, x.accepted = x.handled.responseBuf

theorem start_takenWhole (server : σ) {sends : List SendOutcome} (hsends : Delivers sends) :
    (Session.start server sends).TakenWhole :=
  ⟨rfl, hsends, by simp [Session.start]⟩

theorem takenWhole_invariant (dispatch : σ → Bytes → Except Terminate (Handled × σ)) :
    SessionInvariant dispatch Session.TakenWhole where
  receive outs h := by
    refine ⟨h.writeBuffer, h.delivers, ?_⟩
    simpa [Session.receive] using h.whole
  answer {s conn requestStr handled server} h hw hc hd := by
    refine ⟨rfl, delivers_send h.delivers, ?_⟩
    have hacc : ((conn.write handled.responseBuf).send s.sends).2.1 = handled.responseBuf := by
      rw [send_complete (sendAborts_of_delivers h.delivers _)]
      simp [Connection.write, Buffer.pushBackUnsafe, hw, h.writeBuffer]
    intro x hx
    simp only [Session.answer, exchanges_append] at hx
    rcases List.mem_append.mp hx with hx | hx
    · exact h.whole x hx
    · obtain rfl := List.mem_singleton.mp hx
      exact hacc
  terminate h hw _ _ := ⟨hw.trans h.writeBuffer, h.delivers, h.whole⟩
  delete h := by
    refine ⟨h.writeBuffer, h.delivers, ?_⟩
    simpa [Session.deleteConnection] using h.whole

structure Session.Faithful (dispatch : σ → Bytes → Except Terminate (Handled × σ))
    (asked : Bytes → Prop) (s₀ : σ) (result : Bytes → Handled) (s : Session σ) : Prop where
  taken : s.TakenWhole
  reaches : Reaches dispatch asked s₀ s.server
  alive : s.status ≠ .terminated
  pending : ∀ p ∈ (frames kRequestEnd s.conn.readBuffer).1, asked p
  results : ∀ x ∈ exchanges s.events, x.handled = result x.requestStr

variable {asked : Bytes → Prop}

theorem start_faithful (dispatch : σ → Bytes → Except Terminate (Handled × σ))
    (asked : Bytes → Prop) (s₀ : σ) (result : Bytes → Handled) {sends : List SendOutcome}
    (hsends : Delivers sends) : (Session.start s₀ sends).Faithful dispatch asked s₀ result :=
  ⟨start_takenWhole s₀ hsends, .refl, by simp [Session.start],
    fun _ hp => absurd hp List.not_mem_nil, by simp [Session.start]⟩

theorem faithful_loop {s₀ : σ} {result : Bytes → Handled}
    (hfix : FixedResults dispatch asked s₀ result) :
    LoopInvariant dispatch (Session.Faithful dispatch asked s₀ result) where
  answer {s conn requestStr handled server} h hw hc hd := by
    have hframes := frames_of_cut_some kRequestEnd_ne_nil hc
    obtain ⟨hp, hrest⟩ : asked requestStr ∧
        ∀ p ∈ (frames kRequestEnd conn.readBuffer).1, asked p := by
      have hpending := h.pending
      rw [hframes] at hpending
      exact List.forall_mem_cons.mp hpending
    obtain ⟨server', hd'⟩ := hfix s.server h.reaches requestStr hp
    obtain ⟨rfl, rfl⟩ : result requestStr = handled ∧ server' = server := by
      simpa [hd] using hd'.symm
    refine ⟨(takenWhole_invariant dispatch).answer h.taken hw hc hd, .serve h.reaches hp hd,
      h.alive, hrest, fun x hx => ?_⟩
    simp only [Session.answer, exchanges_append] at hx
    rcases List.mem_append.mp hx with hx | hx
    · exact h.results x hx
    · obtain rfl := List.mem_singleton.mp hx
      rfl
  terminate {s conn requestStr t} h hw hc hd := by
    have hp : asked requestStr := by
      refine h.pending requestStr ?_
      rw [frames_of_cut_some kRequestEnd_ne_nil hc]
      exact List.mem_cons_self
    obtain ⟨server', hd'⟩ := hfix s.server h.reaches requestStr hp
    simp [hd] at hd'
  delete h := by
    refine ⟨(takenWhole_invariant dispatch).delete h.taken, h.reaches,
      by simp [Session.deleteConnection], h.pending, ?_⟩
    simpa [Session.deleteConnection] using h.results

theorem Session.Open.pending_subset {s : Session σ} (ho : s.Open) {outs : List RecvOutcome}
    {stream : Bytes} (hstream : receivedBytes s.events ++ delivered outs <+: stream) :
    (frames kRequestEnd (s.receive outs).conn.readBuffer).1 ⊆ (frames kRequestEnd stream).1 := by
  have hframes := ho.frames_received outs
  have hrec : receivedBytes (s.events ++ [.received (delivered outs)]) =
      receivedBytes s.events ++ delivered outs := by
    simp
  rw [hrec] at hframes
  intro p hp
  refine (frames_mono kRequestEnd_ne_nil hstream).subset ?_
  rw [hframes]
  exact List.mem_append_right _ hp

theorem Session.Faithful.process {s₀ : σ} {result : Bytes → Handled} {s : Session σ}
    (hfix : FixedResults dispatch asked s₀ result) (h : s.Faithful dispatch asked s₀ result)
    (ho : s.Open) {outs : List RecvOutcome} {stream : Bytes}
    (hstream : receivedBytes s.events ++ delivered outs <+: stream)
    (hasked : ∀ p ∈ (frames kRequestEnd stream).1, asked p) :
    (processHttpRequest dispatch s outs).Faithful dispatch asked s₀ result := by
  refine (faithful_loop hfix).process
    ⟨(takenWhole_invariant dispatch).receive outs h.taken, h.reaches, h.alive, ?_, ?_⟩
  · exact fun p hp => hasked p (ho.pending_subset hstream hp)
  · simpa [Session.receive] using h.results

theorem runSession_stays (dispatch : σ → Bytes → Except Terminate (Handled × σ)) {s : Session σ}
    (h : s.Open) {rounds : List (List RecvOutcome)} (hr : ∀ outs ∈ rounds, exits outs = false) :
    let s' := runSession dispatch s rounds
    (s'.Open ∧
      receivedBytes s'.events = receivedBytes s.events ++ (rounds.map delivered).flatten) ∨
    (∃ ys x, s'.status = .deleted ∧ ClosedBy s'.events ys x ∧
      receivedBytes s'.events <+: receivedBytes s.events ++ (rounds.map delivered).flatten) ∨
    s'.status = .terminated := by
  induction rounds generalizing s with
  | nil => exact Or.inl ⟨h, by simp [runSession]⟩
  | cons outs rounds ih =>
    obtain ⟨he, hrs⟩ := List.forall_mem_cons.mp hr
    simp only [runSession, if_pos h.status]
    cases processHttpRequest_spec dispatch h outs with
    | stays _ ho hrecv =>
      have ht := ih ho hrs
      rw [hrecv, List.append_assoc] at ht
      simpa using ht
    | exited he' => simp [he] at he'
    | finished evs ys x _ hs hev hd hc hrecv =>
      have hne : (processHttpRequest dispatch s outs).status ≠ .connected := by simp [hs]
      rw [runSession_of_ne dispatch hne, hev]
      refine Or.inr (Or.inl ⟨ys, x, hs, ⟨?_, ?_, hc.kept, hc.closing⟩, ?_⟩)
      · simpa using hc.served
      · simpa using hc.asked
      · simp [hrecv]
    | terminated _ hs hd =>
      have hne : (processHttpRequest dispatch s outs).status ≠ .connected := by simp [hs]
      rw [runSession_of_ne dispatch hne]
      exact Or.inr (Or.inr hs)

section Answers

variable {s₀ : σ} {result : Bytes → Handled} {s : Session σ}

theorem Session.Faithful.acceptedBytes_eq (h : s.Faithful dispatch asked s₀ result) :
    acceptedBytes s.events = ((((exchanges s.events).map Exchange.requestStr).map result).map
      Handled.responseBuf).flatten := by
  rw [acceptedBytes, List.map_map, List.map_map]
  congr 1
  refine List.map_congr_left fun x hx => ?_
  rw [h.taken.whole x hx, h.results x hx]
  rfl

theorem Session.Faithful.shouldFinish_eq (h : s.Faithful dispatch asked s₀ result) {x : Exchange}
    (hx : x ∈ exchanges s.events) :
    (result x.requestStr).shouldFinish = x.handled.shouldFinish := by
  rw [h.results x hx]

theorem Session.Faithful.answered_open (h : s.Faithful dispatch asked s₀ result) (ho : s.Open) :
    (∀ p ∈ (frames kRequestEnd (receivedBytes s.events)).1, (result p).shouldFinish = false) ∧
      answered result (frames kRequestEnd (receivedBytes s.events)).1 =
        ((exchanges s.events).map Exchange.requestStr).map result := by
  have hpieces : (frames kRequestEnd (receivedBytes s.events)).1 =
      (exchanges s.events).map Exchange.requestStr := congrArg Prod.fst ho.asked
  have hkept : ∀ p ∈ (frames kRequestEnd (receivedBytes s.events)).1,
      (result p).shouldFinish = false := by
    intro p hp
    rw [hpieces] at hp
    obtain ⟨y, hy, rfl⟩ := List.mem_map.mp hp
    rw [h.shouldFinish_eq hy]
    exact ho.kept y hy
  exact ⟨hkept, by rw [answered_of_kept hkept, hpieces]⟩

theorem Session.Faithful.answered_closed (h : s.Faithful dispatch asked s₀ result)
    {ys : List Exchange} {x : Exchange} (hc : ClosedBy s.events ys x) {stream : Bytes}
    (hrecv : receivedBytes s.events <+: stream) :
    (∃ p ∈ (frames kRequestEnd stream).1, (result p).shouldFinish = true) ∧
      answered result (frames kRequestEnd stream).1 =
        ((exchanges s.events).map Exchange.requestStr).map result := by
  obtain ⟨t, rfl⟩ := hrecv
  -- bytes that arrive after the closing request do not change the earlier pieces
  have hpre : (ys ++ [x]).map Exchange.requestStr <+:
      (frames kRequestEnd (receivedBytes s.events ++ t)).1 := by
    rw [← hc.served, frames_append kRequestEnd_ne_nil]
    exact hc.asked.trans (List.prefix_append _ _)
  rw [List.map_append, List.map_singleton] at hpre
  have hmem : ∀ y ∈ ys ++ [x], y ∈ exchanges s.events := fun y hy => hc.served ▸ hy
  have hys : ∀ q ∈ ys.map Exchange.requestStr, (result q).shouldFinish = false := by
    intro q hq
    obtain ⟨y, hy, rfl⟩ := List.mem_map.mp hq
    rw [h.shouldFinish_eq (hmem y (List.mem_append_left _ hy))]
    exact hc.kept y hy
  have hx : (result x.requestStr).shouldFinish = true := by
    rw [h.shouldFinish_eq (hmem x (List.mem_append_right _ List.mem_cons_self))]
    exact hc.closing
  refine ⟨⟨x.requestStr, hpre.subset (by simp), hx⟩, ?_⟩
  rw [answered_of_closed hys hx hpre, hc.served]
  simp

theorem Session.Faithful.run (hfix : FixedResults dispatch asked s₀ result) {s : Session σ}
    (h : s.Faithful dispatch asked s₀ result) (ho : s.Open) {rounds : List (List RecvOutcome)}
    (hasked : ∀ p ∈ (frames kRequestEnd
      (receivedBytes s.events ++ (rounds.map delivered).flatten)).1, asked p) :
    (runSession dispatch s rounds).Faithful dispatch asked s₀ result := by
  induction rounds generalizing s with
  | nil => exact h
  | cons outs rounds ih =>
    rw [List.map_cons, List.flatten_cons, ← List.append_assoc] at hasked
    have hone := h.process hfix ho (List.prefix_append _ _) hasked
    rw [runSession, if_pos ho.status]
    cases processHttpRequest_spec dispatch ho outs with
    | stays he ho' hrecv => exact ih hone ho' (by rwa [hrecv])
    | exited he hs => rwa [runSession_of_ne dispatch (by simp [hs])]
    | finished _ _ _ he hs => rwa [runSession_of_ne dispatch (by simp [hs])]
    | terminated he hs => exact absurd hs hone.alive

theorem runSession_answers {sends : List SendOutcome} (hsends : Delivers sends)
    {rounds : List (List RecvOutcome)} (hr : ∀ outs ∈ rounds, StaysConnected outs)
    (hfix : FixedResults dispatch
      (· ∈ (frames kRequestEnd (rounds.map delivered).flatten).1) s₀ result) :
    let pieces := (frames kRequestEnd (rounds.map delivered).flatten).1
    let s := runSession dispatch (.start s₀ sends) rounds
    acceptedBytes s.events = ((answered result pieces).map Handled.responseBuf).flatten ∧
      ((∃ p ∈ pieces, (result p).shouldFinish = true) ∧ s.status = .deleted ∨
        (∀ p ∈ pieces, (result p).shouldFinish = false) ∧ s.status = .connected) := by
  intro pieces s
  have hfaith : s.Faithful dispatch (· ∈ pieces) s₀ result :=
    (start_faithful dispatch _ s₀ result hsends).run hfix (Session.start_open s₀ sends)
      fun p hp => hp
  rcases runSession_stays dispatch (Session.start_open s₀ sends)
    (fun outs ho => exits_of_staysConnected (hr outs ho)) with
    ⟨hopen, hrecv⟩ | ⟨ys, x, hdel, hclosed, hrecv⟩ | hterm
  · obtain ⟨hkept, hans⟩ := hfaith.answered_open hopen
    rw [hrecv] at hkept hans
    exact ⟨by rw [hfaith.acceptedBytes_eq, ← hans]; rfl, Or.inr ⟨hkept, hopen.status⟩⟩
  · obtain ⟨hex, hans⟩ := hfaith.answered_closed hclosed hrecv
    exact ⟨by rw [hfaith.acceptedBytes_eq, ← hans]; rfl, Or.inl ⟨hex, hdel⟩⟩
  · exact absurd hterm hfaith.alive

end Answers

section Files

def Fixes (dispatch : σ → Bytes → Except Terminate (Handled × σ)) (I : σ → Prop)
    (asked : Bytes → Prop) (result : Bytes → Handled) : Prop :=
  ∀ s, I s → ∀ requestStr, asked requestStr →
    ∃ s', dispatch s requestStr = .ok (result requestStr, s') ∧ I s'

variable {I : σ → Prop} {result : Bytes → Handled}

theorem Fixes.reaches (h : Fixes dispatch I asked result) {s s' : σ} (hs : I s)
    (hr : Reaches dispatch asked s s') : I s' := by
  induction hr with
  | refl => exact hs
  | @serve s s' requestStr handled hr ha hd ih =>
    obtain ⟨s'', hd', hs''⟩ := h s ih requestStr ha
    rw [hd'] at hd
    cases hd
    exact hs''

theorem Fixes.fixedResults (h : Fixes dispatch I asked result) {s : σ} (hs : I s) :
    FixedResults dispatch asked s result := by
  intro s' hr requestStr ha
  obtain ⟨s'', hd, -⟩ := h s' (h.reaches hs hr) requestStr ha
  exact ⟨s'', hd⟩

def Service.Unchanged (fs : FileSystem) (s : Service) : Prop :=
  s.world.fs = fs ∧ s.world.store.Coherent fs

/-- The CGI run of an `asked` text, if there is one, leaves the files as they are, and the text
has a result: it does not terminate the process. -/
structure Steady (dir : Bytes) (fs : FileSystem) (cgi : Bytes → CGIOutcome)
    (asked : Bytes → Prop) (result : Bytes → Handled) : Prop where
  keeps : ∀ t, asked t → CGIRunner.KeepsFiles fs (cgi t)
  returns : ∀ t, asked t → respondUncached dir fs (cgi t) t = .ok (result t)

theorem steady_of_writes {dir threadId : Bytes} {fs : FileSystem} (output : Bytes)
    (hm : fs.at (CGIRunner.sharedFileName threadId) = .missing)
    (hr : ∀ t, asked t → (respondUncached dir fs (.writes threadId output) t).isOk = true) :
    Steady dir fs (fun _ => .writes threadId output) asked
      fun t => Store.okOr (respondUncached dir fs (.writes threadId output) t) ⟨[], true⟩ := by
  refine ⟨fun t _ => CGIRunner.keepsFiles_writes output hm, fun t ht => ?_⟩
  have hok := hr t ht
  cases hu : respondUncached dir fs (.writes threadId output) t with
  | ok handled => rfl
  | error e =>
    rw [hu] at hok
    cases hok

theorem serve_fixes {dir : Bytes} {fs : FileSystem} {cgi : Bytes → CGIOutcome}
    (hsteady : Steady dir fs cgi asked result) (clock : ℕ → Int × Int)
    {disturb : ℕ → World → World}
    (hdisturb : ∀ n store, Store.Coherent fs store →
      Service.Unchanged fs ⟨n, disturb n ⟨fs, store⟩⟩) :
    Fixes (serve dir ⟨fun n t => ⟨(clock n).1, (clock n).2, cgi t⟩, disturb⟩)
      (Service.Unchanged fs) asked result := by
  intro s hs t ht
  obtain ⟨n, fs', store⟩ := s
  obtain ⟨rfl, hst⟩ : fs' = fs ∧ store.Coherent fs := hs
  have hd := hdisturb n store hst
  generalize hw : disturb n ⟨fs', store⟩ = world at hd
  obtain ⟨fs'', store'⟩ := world
  obtain ⟨rfl, hst'⟩ : fs'' = fs' ∧ store'.Coherent fs' := hd
  obtain ⟨store'', hr, hst''⟩ := @respond_uncached ⟨fs'', store'⟩ hst'
    ⟨(clock n).1, (clock n).2, cgi t⟩ (hsteady.keeps t ht) dir t _ (hsteady.returns t ht)
  exact ⟨⟨n + 1, ⟨fs'', store''⟩⟩, by simp [serve, hw, hr], rfl, hst''⟩

end Files

/-- However the bytes of a client that stays connected are cut into calls and chunks, it gets
the results of the successive requests, up to the first that closes the connection, and the
connection is deleted exactly then: as if all had arrived at once. -/
theorem session_chunking_independent (dir : Bytes) (around : Surroundings) (server : Service)
    {result : Bytes → Handled} {sends : List SendOutcome} (hsends : Delivers sends)
    {rounds : List (List RecvOutcome)} (hr : ∀ outs ∈ rounds, StaysConnected outs)
    (hfix : FixedResults (serve dir around)
      (· ∈ (frames kRequestEnd (rounds.map delivered).flatten).1) server result) :
    let stream := (rounds.map delivered).flatten
    let pieces := (frames kRequestEnd stream).1
    let s := runSession (serve dir around) (.start server sends) rounds
    acceptedBytes s.events = ((answered result pieces).map Handled.responseBuf).flatten ∧
      (s.status = .deleted ↔ ∃ p ∈ pieces, (result p).shouldFinish = true) ∧
      ∀ whole, StaysConnected whole → delivered whole = stream →
        let once := runSession (serve dir around) (.start server sends) [whole]
        acceptedBytes s.events = acceptedBytes once.events ∧ s.status = once.status := by
  intro stream pieces s
  obtain ⟨hacc, hst⟩ := runSession_answers hsends hr hfix
  refine ⟨hacc, ?_, fun whole hw hd => ?_⟩
  · rcases hst with ⟨hex, hst⟩ | ⟨hall, hst⟩
    · exact iff_of_true hst hex
    · refine iff_of_false (by simp [s, hst]) ?_
      intro h
      obtain ⟨p, hp, hf⟩ := h
      rw [hall p hp] at hf
      cases hf
  · have hone : ∀ outs ∈ [whole], StaysConnected outs := by simpa using hw
    have hstream : ([whole].map delivered).flatten = stream := by simpa using hd
    obtain ⟨hacc', hst'⟩ := runSession_answers hsends hone (by rwa [hstream])
    rw [hstream] at hacc' hst'
    refine ⟨hacc.trans hacc'.symm, ?_⟩
    rcases hst with ⟨⟨p, hp, hf⟩, hst⟩ | ⟨hall, hst⟩ <;>
      rcases hst' with ⟨⟨q, hq, hf'⟩, hst'⟩ | ⟨hall', hst'⟩
    · rw [hst, hst']
    · rw [hall' p hp] at hf
      cases hf
    · rw [hall q hq] at hf'
      cases hf'
    · rw [hst, hst']

theorem session_chunking_two_rounds :
    let fs : FileSystem := fun path =>
      if path = ascii "/srv" then .directory
      else if path = ascii "/srv/a" then .regular (ascii "xy") true else .missing
    let cgi : CGIOutcome := .writes (ascii "1") (ascii "out")
    let around : Surroundings := ⟨fun _ _ => ⟨1, 2, cgi⟩, fun _ world => world⟩
    let result := fun t => Store.okOr (respondUncached (ascii "/srv") fs cgi t) ⟨[], true⟩
    let first : Chunk := ⟨ascii "GET /a HTTP/1.1" ++ kCRLF ++ [13], by decide, by decide⟩
    let second : Chunk := ⟨[10] ++ ascii "GET /b", by decide, by decide⟩
    let s := runSession (serve (ascii "/srv") around) (.start ⟨0, ⟨fs, Store.new 0 100⟩⟩ [.took 3])
      [[.data first], [.failed .EINTR, .data second]]
    acceptedBytes s.events =
        (result (ascii "GET /a HTTP/1.1" ++ kRequestEnd)).responseBuf ∧
      (s.status = .deleted ↔
        (result (ascii "GET /a HTTP/1.1" ++ kRequestEnd)).shouldFinish = true) := by
  intro fs cgi around result first second s
  have hpieces : (frames kRequestEnd ([[RecvOutcome.data first],
      [.failed .EINTR, .data second]].map delivered).flatten).1 =
        [ascii "GET /a HTTP/1.1" ++ kRequestEnd] := by
    decide
  have hsteady : Steady (ascii "/srv") fs (fun _ => cgi) (· ∈ (frames kRequestEnd
      ([[RecvOutcome.data first], [.failed .EINTR, .data second]].map delivered).flatten).1)
        result := by
    refine steady_of_writes (ascii "out") (by decide) ?_
    rw [hpieces]
    decide +kernel
  have hfixes : Fixes (serve (ascii "/srv") around) (Service.Unchanged fs) _ result :=
    serve_fixes hsteady (fun _ => (1, 2)) fun _ _ hst => ⟨rfl, hst⟩
  have hnew : Service.Unchanged fs ⟨0, ⟨fs, Store.new 0 100⟩⟩ := ⟨rfl, by simp [Store.Coherent]⟩
  have hrounds : ∀ outs ∈ [[RecvOutcome.data first], [.failed .EINTR, .data second]],
      StaysConnected outs := by
    simp [StaysConnected]
  have hsends : Delivers [.took 3] := by simp [Delivers]
  obtain ⟨hacc, hst, -⟩ := session_chunking_independent (ascii "/srv") around
    ⟨0, ⟨fs, Store.new 0 100⟩⟩ hsends hrounds (hfixes.fixedResults hnew)
  rw [hpieces] at hacc hst
  exact ⟨by simpa [answered] using hacc, by simpa using hst⟩

end Chunking

end HttpReactor
