import HttpReactor.CacheCoherence
import HttpReactor.RequestDelivery

/-!
# Announced and actual closing

The `Connection` header is chosen in the response factories; whether the loop breaks is a
boolean returned beside the response. `respond_connection` shows that they agree on every
path of the dispatch, and `Orderly` follows the events of a whole connection, so that the
header of each response can be compared with what happens after it.
-/

namespace HttpReactor
open ListSearch Connection

def connectionValues (buf : Bytes) : List Bytes :=
  ((messageHeaders buf).filter fun h => h.key = kHeaderConnection).map Header.value

def connectionValue (close : Bool) : Bytes :=
  if close then kConnectionClose else kConnectionKeepAlive

namespace Response

theorem connectionValues_head {r : Response} (hp : r.Plain) (body : Bytes) :
    connectionValues (r.head ++ body) = r.valuesOf kHeaderConnection := by
  rw [connectionValues, messageHeaders_head hp]
  rfl

theorem withResource_connection (status : Bytes) (close : Bool) (url : Bytes) (n : ℕ) :
    (withResource status close url n).valuesOf kHeaderConnection = [connectionValue close] := by
  have hct : (contentTypeHeader url).filter (fun h => h.key = kHeaderConnection) = [] := by
    rw [List.filter_eq_nil_iff]
    intro h hm
    rw [contentTypeHeader_key hm]
    decide
  have hlength : ¬ kHeaderContentLength = kHeaderConnection := by decide
  have hcommon : (commonHeaders close).filter (fun h => h.key = kHeaderConnection) =
      [{ key := kHeaderConnection, value := connectionValue close }] := by
    cases close <;> decide
  simp [valuesOf, withResource, hct, hcommon, hlength]

theorem withoutResource_connection (status : Bytes) (close : Bool) :
    (withoutResource status close).valuesOf kHeaderConnection = [connectionValue close] := by
  cases close <;> rfl

end Response

theorem cgiResponse_connection (close : Bool) (n : ℕ) :
    (cgiResponse close n).valuesOf kHeaderConnection = [connectionValue close] := by
  cases close <;> rfl

def Handled.Announces (handled : Handled) : Prop :=
  connectionValues handled.responseBuf = [connectionValue handled.shouldFinish]

theorem announces_head {r : Response} (hp : r.Plain) {body : Bytes} {close : Bool}
    (hv : r.valuesOf kHeaderConnection = [connectionValue close]) :
    Handled.Announces ⟨r.serialize [] ++ body, close⟩ := by
  rw [Handled.Announces, Response.serialize, List.nil_append, Response.connectionValues_head hp]
  exact hv

theorem announces_withoutResource {status : Bytes} (hs : 13 ∉ status) :
    Handled.Announces ⟨(Response.withoutResource status true).serialize [], true⟩ := by
  have ha : Handled.Announces ⟨(Response.withoutResource status true).serialize [] ++ [], true⟩ :=
    announces_head (Response.plain_withoutResource hs true)
      (Response.withoutResource_connection status true)
  rwa [List.append_nil] at ha

theorem respond_announces {dir : Bytes} {world world' : World} {env : RequestEnv}
    {requestStr : Bytes} {handled : Handled}
    (h : respond dir world env requestStr = .ok (handled, world')) : handled.Announces := by
  cases responded_of_respond h with
  | invalid hv => exact announces_withoutResource (by decide)
  | cgi handled fs hv hc hh =>
    cases cgiHandled_of_handleCGIRequest hh with
    | invalid hc => exact announces_withoutResource (by decide)
    | missing hc hp => exact announces_withoutResource (by decide)
    | ran fs' result hc he hrun =>
      exact announces_head (plain_cgiResponse _ _) (cgiResponse_connection _ _)
  | static handled store hv hc hh =>
    cases hp : world.fs.at (dir ++ (Request.ofString requestStr).resourceUrl) with
    | missing =>
      rw [handleStaticResourceRequest_missing hp] at hh
      cases hh
      exact announces_withoutResource (by decide)
    | regular content readable =>
      rw [handleStaticResourceRequest_regular hp] at hh
      cases hh
      exact announces_head (Response.plain_withResource (by decide) _ _ _)
        (Response.withResource_connection _ _ _ _)
    | directory | special | refused =>
      have hfile := fileOrNothing_of_handleStaticResourceRequest hh
      rw [hp] at hfile
      exact hfile.elim

section Events

/-- When an event may follow the ones before it: `Receive` is called with no complete request
left, a request is served in its turn, neither after a closing response, and the connection is
deleted right after such a response. -/
def Admissible (es : List Event) : Event → Prop
  | .received _ =>
    (frames kRequestEnd (receivedBytes es)).1 = (exchanges es).map Exchange.requestStr ∧
      (∀ y ∈ exchanges es, y.handled.shouldFinish = false) ∧ .deleteConnection ∉ es
  | .served x =>
    (exchanges es).map Exchange.requestStr ++ [x.requestStr] <+:
        (frames kRequestEnd (receivedBytes es)).1 ∧
      (∀ y ∈ exchanges es, y.handled.shouldFinish = false) ∧ .deleteConnection ∉ es
  | .deleteConnection => ∃ es' x, es = es' ++ [.served x] ∧ x.handled.shouldFinish = true

def Orderly (events : List Event) : Prop :=
  ∀ pre e post, events = pre ++ e :: post → Admissible pre e

theorem Orderly.snoc {es : List Event} (h : Orderly es) {e : Event} (he : Admissible es e) :
    Orderly (es ++ [e]) := by
  intro pre e' post heq
  rcases List.eq_nil_or_concat post with rfl | ⟨post', last, rfl⟩
  · obtain ⟨rfl, hlast⟩ := List.append_inj' heq rfl
    cases hlast
    exact he
  · have hsplit : es ++ [e] = (pre ++ e' :: post') ++ [last] := by
      simpa [List.concat_eq_append] using heq
    exact h pre e' post' (List.append_inj' hsplit rfl).1

theorem Orderly.serves {es : List Event} (h : Orderly es) {xs : List Exchange}
    (hnext : (exchanges es).map Exchange.requestStr ++ xs.map Exchange.requestStr <+:
      (frames kRequestEnd (receivedBytes es)).1)
    (hes : ∀ y ∈ exchanges es, y.handled.shouldFinish = false)
    (hxs : ∀ y ∈ xs, y.handled.shouldFinish = false) (hp : .deleteConnection ∉ es) :
    Orderly (es ++ xs.map .served) := by
  induction xs generalizing es with
  | nil => simpa using h
  | cons x xs ih =>
    obtain ⟨hx, hxs⟩ := List.forall_mem_cons.mp hxs
    have hone : (exchanges es).map Exchange.requestStr ++ [x.requestStr] <+:
        (frames kRequestEnd (receivedBytes es)).1 := by
      refine List.IsPrefix.trans ?_ hnext
      exact (List.prefix_append_right_inj _).mpr (by simp)
    have hsnoc : Orderly (es ++ [.served x]) := h.snoc ⟨hone, hes, hp⟩
    have hexchanges : exchanges (es ++ [.served x]) = exchanges es ++ [x] := by
      simpa using exchanges_served [x]
    have hreceived : receivedBytes (es ++ [.served x]) = receivedBytes es := by
      simpa using receivedBytes_served [x]
    have hrest := ih hsnoc (by simpa [hexchanges, hreceived] using hnext)
      (by rw [hexchanges]; exact List.forall_mem_append.mpr ⟨hes, by simpa using hx⟩) hxs
      (by simp [hp])
    simpa using hrest

end Events

section Runs

variable {σ : Type} {dispatch : σ → Bytes → Except Terminate (Handled × σ)}

theorem announced_invariant (hd : ∀ server requestStr handled server',
      dispatch server requestStr = .ok (handled, server') → handled.Announces) :
    SessionInvariant dispatch fun s => ∀ x ∈ exchanges s.events, x.handled.Announces where
  receive outs h := by simpa [Session.receive] using h
  answer {s conn requestStr handled server} h _ _ hok := by
    intro x hx
    rw [Session.answer, exchanges_append, List.mem_append] at hx
    rcases hx with hx | hx
    · exact h x hx
    · have hone := exchanges_served
        [⟨requestStr, handled, s.sends, ((conn.write handled.responseBuf).send s.sends).2.1⟩]
      simp only [List.map_singleton] at hone
      rw [hone, List.mem_singleton] at hx
      subst hx
      exact hd _ _ _ _ hok
  terminate h _ _ _ := h
  delete h := by simpa [Session.deleteConnection] using h

theorem Orderly.of_loop {s s' : Session σ} {outs : List RecvOutcome} {finished : Bool}
    {xs : List Exchange} (h : s.Open) (ho : Orderly s.events)
    (hspec : LoopSpec (s.receive outs) s' finished xs)
    (ht : (if finished then s'.deleteConnection else s').status ≠ .terminated) :
    Orderly (if finished then s'.deleteConnection else s').events := by
  have hrecv : Orderly (s.events ++ [.received (delivered outs)]) :=
    ho.snoc ⟨by rw [h.asked], h.kept, h.present⟩
  have hexchanges : exchanges (s.events ++ [.received (delivered outs)]) = exchanges s.events := by
    simp
  have hframes := h.frames_received outs
  have hevents : s'.events = s.events ++ [.received (delivered outs)] ++ xs.map .served :=
    hspec.events
  have hpresent : .deleteConnection ∉ s.events ++ [.received (delivered outs)] := by
    simp [h.present]
  cases hspec.ending with
  | drained hs hf hx =>
    rw [if_neg Bool.false_ne_true, hevents]
    apply hrecv.serves ?_ (hexchanges ▸ h.kept) hx hpresent
    rw [hframes, hexchanges, hf]
  | finished ys x hxs hs hf hy hx =>
    rw [hxs, List.map_append] at hf
    have hys : Orderly (s.events ++ [.received (delivered outs)] ++ ys.map .served) := by
      apply hrecv.serves ?_ (hexchanges ▸ h.kept) hy hpresent
      rw [hframes, hexchanges]
      exact (List.prefix_append_right_inj _).mpr ((List.prefix_append _ _).trans hf)
    have hx' : Orderly (s.events ++ [.received (delivered outs)] ++ ys.map .served ++
        [.served x]) := by
      apply hys.snoc
      refine ⟨?_, ?_, by simp [h.present]⟩
      · have hreceived : receivedBytes (s.events ++ [.received (delivered outs)] ++
            ys.map .served) = receivedBytes (s.events ++ [.received (delivered outs)]) := by
          simp
        rw [hreceived, hframes]
        simpa using hf
      · simpa [or_imp, forall_and] using ⟨h.kept, hy⟩
    have hlast : s'.events = s.events ++ [.received (delivered outs)] ++ ys.map .served ++
        [.served x] := by
      rw [hevents, hxs]
      simp
    rw [if_pos rfl, Session.deleteConnection]
    simp only [hlast]
    exact hx'.snoc ⟨_, x, rfl, hx⟩
  | terminated hs =>
    rw [if_neg Bool.false_ne_true] at ht
    exact absurd hs ht

theorem orderly_process {s : Session σ} (h : s.Open) (ho : Orderly s.events)
    {outs : List RecvOutcome} (he : exits outs = false)
    (ht : (processHttpRequest dispatch s outs).status ≠ .terminated) :
    Orderly (processHttpRequest dispatch s outs).events := by
  unfold processHttpRequest at ht ⊢
  obtain ⟨xs, hspec⟩ := requestLoop_spec dispatch (s := s.receive outs) (Nat.lt_succ_self _)
    h.writeBuffer
  rw [receive_eq, he] at ht ⊢
  simp only [Bool.false_eq_true, ↓reduceIte] at ht ⊢
  exact Orderly.of_loop h ho hspec ht

theorem orderly_run {s : Session σ} (h : s.Open) (ho : Orderly s.events)
    {rounds : List (List RecvOutcome)} (hr : ∀ outs ∈ rounds, exits outs = false)
    (ht : (runSession dispatch s rounds).status ≠ .terminated) :
    Orderly (runSession dispatch s rounds).events ∧
      ((runSession dispatch s rounds).Open ∨
        ∃ es, (runSession dispatch s rounds).events = es ++ [.deleteConnection]) := by
  induction rounds generalizing s with
  | nil => exact ⟨ho, .inl h⟩
  | cons outs rounds ih =>
    obtain ⟨he, hrs⟩ := List.forall_mem_cons.mp hr
    rw [runSession, if_pos h.status] at ht ⊢
    cases processHttpRequest_spec dispatch h outs with
    | stays _ hopen hrecv =>
      exact ih hopen (orderly_process h ho he (by simp [hopen.status])) hrs ht
    | exited he' => simp [he] at he'
    | finished evs ys x _ hs hev hd hc hrecv =>
      have hne : (processHttpRequest dispatch s outs).status ≠ .connected := by simp [hs]
      rw [runSession_of_ne dispatch hne] at ht ⊢
      exact ⟨orderly_process h ho he ht, .inr ⟨evs, hev⟩⟩
    | terminated _ hs hd =>
      have hne : (processHttpRequest dispatch s outs).status ≠ .connected := by simp [hs]
      rw [runSession_of_ne dispatch hne] at ht
      exact absurd hs ht

end Runs

def nextBuffered (es : List Event) : Option Bytes :=
  (frames kRequestEnd (receivedBytes es)).1[(exchanges es).length + 1]?

theorem nextBuffered_eq_none {es : List Event} {x : Exchange}
    (h : (frames kRequestEnd (receivedBytes (es ++ [.served x]))).1 =
      (exchanges (es ++ [.served x])).map Exchange.requestStr) : nextBuffered es = none := by
  have hexchanges := exchanges_served [x]
  have hreceived := receivedBytes_served [x]
  simp only [List.map_singleton] at hexchanges hreceived
  rw [exchanges_append, receivedBytes_append, hexchanges, hreceived, List.append_nil] at h
  rw [nextBuffered, h]
  simp

theorem Orderly.eq_nil_of_deleted {events pre post : List Event} (ho : Orderly events)
    (h : events = pre ++ .deleteConnection :: post) : post = [] := by
  cases post with
  | nil => rfl
  | cons e post =>
    have hafter := ho (pre ++ [.deleteConnection]) e post (by simpa using h)
    cases e with
    | received bytes => exact absurd (by simp) hafter.2.2
    | served y => exact absurd (by simp) hafter.2.2
    | deleteConnection =>
      obtain ⟨es, y, heq, -⟩ := hafter
      cases (List.append_inj' heq rfl).2

theorem Orderly.after_served {σ : Type} {s : Session σ} (ho : Orderly s.events)
    (hend : s.Open ∨ ∃ es, s.events = es ++ [.deleteConnection]) {pre post : List Event}
    {x : Exchange} (h : s.events = pre ++ .served x :: post) :
    x.handled.shouldFinish = true ∧ post = [.deleteConnection] ∨
      x.handled.shouldFinish = false ∧ post.head? ≠ some .deleteConnection ∧
        ∀ requestStr, nextBuffered pre = some requestStr →
          ∃ y, post.head? = some (.served y) ∧ y.requestStr = requestStr := by
  have hone := exchanges_served [x]
  have hnone := receivedBytes_served [x]
  simp only [List.map_singleton] at hone hnone
  have hmem : x ∈ exchanges (pre ++ [.served x]) := by simp [hone]
  cases post with
  | nil =>
    rcases hend with hopen | ⟨es, hes⟩
    · have hasked := congrArg Prod.fst hopen.asked
      have hkept := hopen.kept
      rw [h] at hasked hkept
      exact .inr ⟨hkept x hmem, by simp, by simp [nextBuffered_eq_none hasked]⟩
    · rw [hes] at h
      cases (List.append_inj' h rfl).2
  | cons e post =>
    have hnext := ho (pre ++ [.served x]) e post (by simpa using h)
    cases e with
    | received bytes =>
      obtain ⟨hdrained, hkept, -⟩ := hnext
      exact .inr ⟨hkept x hmem, by simp, by simp [nextBuffered_eq_none hdrained]⟩
    | served y =>
      obtain ⟨⟨rest, hturn⟩, hkept, -⟩ := hnext
      refine .inr ⟨hkept x hmem, by simp, ?_⟩
      intro requestStr hrequest
      rw [receivedBytes_append, hnone, List.append_nil] at hturn
      rw [nextBuffered, ← hturn] at hrequest
      refine ⟨y, rfl, ?_⟩
      simpa [hone] using hrequest
    | deleteConnection =>
      obtain ⟨es, x', heq, hx⟩ := hnext
      cases (List.append_inj' heq rfl).2
      have h' : s.events = pre ++ [.served x] ++ .deleteConnection :: post := by simpa using h
      exact .inl ⟨hx, by rw [ho.eq_nil_of_deleted h']⟩

theorem exists_served_of_exchanges {events : List Event} {xs ys : List Exchange} {x : Exchange}
    (h : exchanges events = xs ++ x :: ys) :
    ∃ pre post, events = pre ++ .served x :: post ∧ exchanges post = ys := by
  obtain ⟨pre, rest, rfl, -, hrest⟩ := List.filterMap_eq_append_iff.mp h
  obtain ⟨others, e, post, rfl, -, he, hpost⟩ := List.filterMap_eq_cons_iff.mp hrest
  cases e with
  | served y =>
    cases he
    exact ⟨pre ++ others, post, by simp, hpost⟩
  | received bytes => cases he
  | deleteConnection => cases he

theorem mem_exchanges {events pre post : List Event} {x : Exchange}
    (h : events = pre ++ .served x :: post) : x ∈ exchanges events := by
  rw [h, exchanges, List.mem_filterMap]
  exact ⟨.served x, by simp, rfl⟩

theorem serve_announces {dir : Bytes} {around : Surroundings} (server : Service)
    (requestStr : Bytes) (handled : Handled) (server' : Service)
    (h : serve dir around server requestStr = .ok (handled, server')) : handled.Announces := by
  obtain ⟨q, hh, h⟩ := Refinement.bind_eq_ok h
  cases h
  exact respond_announces hh

theorem announced_after_served {dir : Bytes} {around : Surroundings} {server : Service}
    {sends : List SendOutcome} {rounds : List (List RecvOutcome)} {pre post : List Event}
    {x : Exchange} (hexit : ∀ outs ∈ rounds, exits outs = false)
    (hterm : (runSession (serve dir around) (.start server sends) rounds).status ≠ .terminated)
    (h : (runSession (serve dir around) (.start server sends) rounds).events =
      pre ++ .served x :: post) :
    connectionValues x.handled.responseBuf = [kConnectionClose] ∧ post = [.deleteConnection] ∨
      connectionValues x.handled.responseBuf = [kConnectionKeepAlive] ∧
        post.head? ≠ some .deleteConnection ∧
          ∀ requestStr, nextBuffered pre = some requestStr →
            ∃ y, post.head? = some (.served y) ∧ y.requestStr = requestStr := by
  have hstart : Orderly (Session.start server sends).events := by
    intro pre e post h
    simp [Session.start] at h
  obtain ⟨ho, hend⟩ := orderly_run (Session.start_open server sends) hstart hexit hterm
  have hvalue : x.handled.Announces :=
    (announced_invariant serve_announces).run (by simp [Session.start]) rounds x (mem_exchanges h)
  rw [Handled.Announces] at hvalue
  rcases ho.after_served hend h with ⟨hx, hpost⟩ | ⟨hx, hopen, hnext⟩
  · rw [hx] at hvalue
    exact .inl ⟨hvalue, hpost⟩
  · rw [hx] at hvalue
    exact .inr ⟨hvalue, hopen, hnext⟩

theorem keepAlive_ne_close {values : List Bytes} (h : values = [kConnectionKeepAlive]) :
    values ≠ [kConnectionClose] := by
  rw [h]
  decide

/-- In every run of a connection in which `Receive` reports no exit and no helper terminates the
process, each response has one `Connection` header. It says `Close` exactly when the next thing
that happens to the connection is its deletion, after which there is nothing more, and
`Keep-Alive` exactly when the connection stays and the next request in the buffer, if there is
one, is served next; so only the last response can say `Close`. -/
theorem connection_header_agrees (dir : Bytes) (around : Surroundings) (server : Service)
    (sends : List SendOutcome) (rounds : List (List RecvOutcome))
    (hexit : ∀ outs ∈ rounds, exits outs = false)
    (hterm : (runSession (serve dir around) (.start server sends) rounds).status ≠ .terminated) :
    let events := (runSession (serve dir around) (.start server sends) rounds).events
    (∀ pre x post, events = pre ++ .served x :: post →
      (connectionValues x.handled.responseBuf).length = 1 ∧
      (connectionValues x.handled.responseBuf = [kConnectionClose] ↔
        post = [.deleteConnection]) ∧
      (connectionValues x.handled.responseBuf = [kConnectionKeepAlive] ↔
        post.head? ≠ some .deleteConnection ∧
          ∀ requestStr, nextBuffered pre = some requestStr →
            ∃ y, post.head? = some (.served y) ∧ y.requestStr = requestStr)) ∧
    ∀ xs x ys, exchanges events = xs ++ x :: ys →
      connectionValues x.handled.responseBuf = [kConnectionClose] → ys = [] := by
  intro events
  constructor
  · intro pre x post h
    rcases announced_after_served hexit hterm h with ⟨hvalue, hpost⟩ | ⟨hvalue, hopen, hnext⟩
    · refine ⟨by rw [hvalue]; rfl, iff_of_true hvalue hpost, iff_of_false ?_ ?_⟩
      · intro hkeep
        exact keepAlive_ne_close hkeep hvalue
      · intro hopen
        simp [hpost] at hopen
    · refine ⟨by rw [hvalue]; rfl, iff_of_false (keepAlive_ne_close hvalue) ?_,
        iff_of_true hvalue ⟨hopen, hnext⟩⟩
      intro hpost
      simp [hpost] at hopen
  · intro xs x ys h hclose
    obtain ⟨pre, post, hevents, hys⟩ := exists_served_of_exchanges h
    rcases announced_after_served hexit hterm hevents with ⟨-, hpost⟩ | ⟨hvalue, -⟩
    · rw [← hys, hpost]
      rfl
    · exact absurd hclose (keepAlive_ne_close hvalue)

theorem connection_header_agrees_pipelined :
    let fs : FileSystem := fun path =>
      if path = ascii "/srv/a" then .regular (ascii "xy") true else .missing
    let around : Surroundings :=
      ⟨fun _ _ => ⟨1, 2, .writes (ascii "1") []⟩, fun _ world => world⟩
    let keep := ascii "GET /a HTTP/1.1" ++ kCRLF ++ ascii "Connection:Keep-Alive" ++ kRequestEnd
    let close := ascii "GET /a HTTP/1.1" ++ kRequestEnd
    let chunk : Chunk := ⟨keep ++ close, by decide, by decide⟩
    let xs := exchanges (runSession (serve (ascii "/srv") around)
      (.start ⟨0, ⟨fs, Store.new 0 100⟩⟩ []) [[.data chunk]]).events
    xs.length = 2 ∧ ∀ ys x zs, xs = ys ++ x :: zs →
      connectionValues x.handled.responseBuf = [kConnectionClose] → zs = [] := by
  intro fs around keep close chunk xs
  refine ⟨by decide +kernel, ?_⟩
  exact (connection_header_agrees (ascii "/srv") around ⟨0, ⟨fs, Store.new 0 100⟩⟩ []
    [[.data chunk]] (by simp [exits]) (by decide +kernel)).2

end HttpReactor
