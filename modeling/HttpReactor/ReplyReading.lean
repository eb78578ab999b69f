import HttpReactor.ClientIsolation
import HttpReactor.StreamReading

/-!
# A client reads its replies back

The client cuts what it receives into responses: a head up to the first empty line and as many
bytes as the head promises, none when it asked with HEAD. Its cuts are those of the server:
each response it reads is what the server wrote for that request, whatever part of the stream
it has seen. A CGI program asked for with HEAD would write a body that the client does not expect.
-/

namespace HttpReactor
open ListSearch Connection Refinement StreamReading

def bodyLength (head : Bytes) : ℕ := ((contentLengths head).head?.bind decimalValue).getD 0

def readReply (requestStr stream : Bytes) : Option ((Bytes × Bytes) × Bytes) :=
  match cut kRequestEnd stream with
  | none => none
  | some (head, rest) =>
    let length := if (Request.ofString requestStr).method = .kHEAD then 0 else bodyLength head
    if rest.length < length then none else some ((head, rest.take length), rest.drop length)

theorem readReply_stable : Stable readReply := by
  intro requestStr stream reply r h x
  unfold readReply at h
  cases hc : cut kRequestEnd stream with
  | none =>
    rw [hc] at h
    cases h
  | some q =>
    obtain ⟨head, rest⟩ := q
    simp only [hc] at h
    generalize hn : (if (Request.ofString requestStr).method = .kHEAD then 0
      else bodyLength head) = length at h
    split_ifs at h with hlt
    cases h
    have hle : length ≤ rest.length := by omega
    simp only [readReply, cut_append kRequestEnd_ne_nil hc x, hn]
    rw [if_neg (by rw [List.length_append]; omega), List.take_append_of_le_length hle,
      List.drop_append_of_le_length hle]

theorem readReply_nil (requestStr : Bytes) : readReply requestStr [] = none := by
  have hc : cut kRequestEnd [] = none := by decide
  simp only [readReply, hc]

/-- A response with one length header, which gives the length of the body unless the request
was made with HEAD, and no body then. -/
def Delimited (requestStr buf : Bytes) : Prop :=
  ∃ (r : Response) (body v : Bytes), buf = r.head ++ body ∧ r.Plain ∧
    r.valuesOf kHeaderContentLength = [v] ∧
    if (Request.ofString requestStr).method = .kHEAD then body = []
    else decimalValue v = some body.length

theorem Delimited.read {requestStr buf : Bytes} (h : Delimited requestStr buf) :
    ∃ reply, readReply requestStr buf = some (reply, []) ∧ reply.1 ++ reply.2 = buf := by
  obtain ⟨r, body, v, rfl, hp, hv, hbody⟩ := h
  have hlength : bodyLength r.head = (decimalValue v).getD 0 := by
    have hc : contentLengths (r.head ++ []) = [v] := by
      rw [contentLengths, Response.messageHeaders_head hp]
      exact hv
    rw [List.append_nil] at hc
    rw [bodyLength, hc]
    rfl
  refine ⟨(r.head, body), ?_, rfl⟩
  simp only [readReply, Response.cut_head hp]
  split_ifs at hbody ⊢ with hm hlt hlt
  · rw [hbody] at hlt
    cases hlt
  · rw [hbody]
    rfl
  · rw [hlength, hbody, Option.getD_some] at hlt
    omega
  · rw [hlength, hbody, Option.getD_some, List.take_length, List.drop_length]

theorem delimited_withoutResource {status : Bytes} (hs : 13 ∉ status) (close : Bool)
    (requestStr : Bytes) :
    Delimited requestStr (Response.withoutResource status close).head := by
  refine ⟨_, [], _, (List.append_nil _).symm, Response.plain_withoutResource hs close,
    Response.withoutResource_contentLength status close, ?_⟩
  split_ifs
  · rfl
  · decide

theorem delimited_static (requestStr path content : Bytes) (readable : Bool)
    (hv : (Request.ofString requestStr).isValid = true) :
    Delimited requestStr (fileHead (Request.ofString requestStr) path content ++
      if (Request.ofString requestStr).method = .kGET then fileBytes content readable else []) := by
  refine ⟨_, _, _, rfl, Response.plain_withResource (by decide) _ _ _,
    Response.withResource_contentLength _ _ _ _, ?_⟩
  split_ifs with hh hg
  · rw [hh] at hg
    cases hg
  · rfl
  · rw [decimalValue_toDecimal, ServerState.fileBytes_length]
  · next hg =>
    obtain ⟨a, u, v, trail, hs, ht⟩ := exists_requestText hv
    have hm := ht.method
    rw [← ht.fields.1] at hm
    exact absurd (hm.resolve_left hg) hh

theorem handleCGIRequest_delimited {fs fs' : FileSystem} {os : CGIOutcome} {requestStr path : Bytes}
    {handled : Handled} (hm : (Request.ofString requestStr).method ≠ .kHEAD)
    (h : handleCGIRequest fs os (Request.ofString requestStr) path [] = .ok (handled, fs')) :
    Delimited requestStr handled.responseBuf := by
  cases cgiHandled_of_handleCGIRequest h with
  | invalid hc => exact delimited_withoutResource (by decide) true _
  | missing hc hp => exact delimited_withoutResource (by decide) true _
  | ran fs' body hc he hrun =>
    refine ⟨_, body, _, rfl, plain_cgiResponse _ _, Response.changeHeader_contentLength _ _ _, ?_⟩
    rw [if_neg hm, decimalValue_toDecimal]

theorem respondUncached_delimited {dir : Bytes} {fs : FileSystem} {cgi : CGIOutcome}
    {requestStr : Bytes} {handled : Handled}
    (hm : (Request.ofString requestStr).method = .kHEAD →
      isCGIRequest (dir ++ (Request.ofString requestStr).resourceUrl) = false)
    (h : respondUncached dir fs cgi requestStr = .ok handled) :
    Delimited requestStr handled.responseBuf := by
  simp only [respondUncached, pure_eq_ok] at h
  split_ifs at h with hv hc
  · cases h
    exact delimited_withoutResource (by decide) true _
  · obtain ⟨q, hh, hq⟩ := bind_eq_ok h
    cases hq
    refine handleCGIRequest_delimited (fun hhead => ?_) hh
    rw [hm hhead] at hc
    cases hc
  · rw [Bool.not_eq_false] at hv
    cases hp : fs.at (dir ++ (Request.ofString requestStr).resourceUrl) with
    | missing =>
      rw [handleStaticUncached_missing hp] at h
      cases h
      exact delimited_withoutResource (by decide) true _
    | regular content readable =>
      rw [handleStaticUncached_regular hp] at h
      cases h
      exact delimited_static _ _ _ _ hv
    | directory | special | refused =>
      have hfile := fileOrNothing_of_handleStaticUncached h
      rw [hp] at hfile
      exact hfile.elim

theorem exists_answered_eq (result : Bytes → Handled) (ps : List Bytes) :
    ∃ qs more, ps = qs ++ more ∧ answered result ps = qs.map result := by
  induction ps with
  | nil => exact ⟨[], [], rfl, rfl⟩
  | cons p ps ih =>
    by_cases hp : (result p).shouldFinish = true
    · exact ⟨[p], ps, rfl, by simp [answered, hp]⟩
    · obtain ⟨qs, more, rfl, h⟩ := ih
      exact ⟨p :: qs, more, rfl, by simp [answered, hp, h]⟩

def NoHeadToCGI (dir : Bytes) (requests : List Bytes) : Prop :=
  ∀ t ∈ requests, (Request.ofString t).method = .kHEAD →
    isCGIRequest (dir ++ (Request.ofString t).resourceUrl) = false

instance (dir : Bytes) (requests : List Bytes) : Decidable (NoHeadToCGI dir requests) :=
  inferInstanceAs (Decidable (∀ t ∈ requests, _ → _))

theorem readAll_replies {dir : Bytes} {fs : FileSystem} {cgi : Bytes → CGIOutcome}
    {result : Bytes → Handled} {stream : Bytes}
    (hreturns : ∀ t ∈ (frames kRequestEnd stream).1,
      respondUncached dir fs (cgi t) t = .ok (result t))
    (hhead : NoHeadToCGI dir (frames kRequestEnd stream).1) :
    let requests := (frames kRequestEnd stream).1
    let read := readAll readReply requests (replies result stream)
    (read.1.map fun reply => reply.1 ++ reply.2) =
      (answered result requests).map Handled.responseBuf ∧ read.2 = [] := by
  intro requests read
  obtain ⟨qs, more, hqs, hans⟩ := exists_answered_eq result requests
  have hread : ∀ t ∈ qs, ∃ reply, readReply t (result t).responseBuf = some (reply, []) ∧
      reply.1 ++ reply.2 = (result t).responseBuf := by
    intro t ht
    have hmem : t ∈ requests := hqs ▸ List.mem_append_left more ht
    exact (respondUncached_delimited (hhead t hmem) (hreturns t hmem)).read
  let message := fun t => ((readReply t (result t).responseBuf).map Prod.fst).getD ([], [])
  have hmessage : ∀ t ∈ qs, readReply t (result t).responseBuf = some (message t, []) ∧
      (message t).1 ++ (message t).2 = (result t).responseBuf := by
    intro t ht
    obtain ⟨reply, hr, hb⟩ := hread t ht
    simp [message, hr, hb]
  have hall : read = (qs.map message, []) := by
    have hr := readAll_answers (fun t ht => (hmessage t ht).1) readReply_stable readReply_nil more
    rw [← hqs] at hr
    have hstream : replies result stream =
        (qs.map fun t => (result t).responseBuf).flatten := by
      change ((answered result requests).map _).flatten = _
      rw [hans, List.map_map]
      rfl
    simp only [read, hstream, hr]
  refine ⟨?_, by rw [hall]⟩
  rw [hall, hans, List.map_map, List.map_map]
  exact List.map_congr_left fun t ht => (hmessage t ht).2

/-- Whatever part of its replies a client has seen, it cuts them where the server does. A client
that has not ended its side has all of them and nothing else once the loop is idle. -/
theorem Reactor.client_reads_replies {κ : Type} [DecidableEq κ] {dir : Bytes} {fs : FileSystem}
    {cgi : Bytes → CGIOutcome} {result : Bytes → Handled} (clock : ℕ → Int × Int)
    {disturb : ℕ → World → World}
    (hdisturb : ∀ n store, Store.Coherent fs store →
      Service.Unchanged fs ⟨n, disturb n ⟨fs, store⟩⟩)
    {server : Service} (hserver : server.Unchanged fs) {events : List (ReactorEvent κ Service)}
    (hevents : ∀ e ∈ events, Outside (Service.Unchanged fs) e) {s : Reactor κ Service}
    (h : run (serve dir ⟨fun n t => ⟨(clock n).1, (clock n).2, cgi t⟩, disturb⟩) (start server)
      events = some s) (hsteady : Steady dir fs cgi s.Asks result) {c : κ} {x : Session Service}
    (hx : s.sessions c = some x)
    (hhead : NoHeadToCGI dir (frames kRequestEnd (s.arrived c)).1) :
    let requests := (frames kRequestEnd (s.arrived c)).1
    let written := (answered result requests).map Handled.responseBuf
    (∀ seen, seen <+: acceptedBytes x.events →
      ((readAll readReply requests seen).1.map fun reply => reply.1 ++ reply.2) <+: written) ∧
    (s.Idle → (s.inbox c).ending = none →
      let read := readAll readReply requests (acceptedBytes x.events)
      (read.1.map fun reply => reply.1 ++ reply.2) = written ∧ read.2 = []) := by
  intro requests written
  have hiso := isolated_run (serve_fixes hsteady clock hdisturb) hserver hevents h fun _ ht => ht
  obtain ⟨hwritten, hrest⟩ := readAll_replies (fun t ht => hsteady.returns t ⟨c, ht⟩) hhead
  refine ⟨fun seen hseen => ?_, fun hidle hend => ?_⟩
  · have hpre := readAll_prefix readReply_stable requests
      (hseen.trans (hiso.clients c x hx).accepted)
    have hmap := hpre.map fun reply => reply.1 ++ reply.2
    rwa [hwritten] at hmap
  · have hl := (live_run h).resolve_left (by simp [hidle.1])
    rw [(hiso.idle hl hidle hx hend).1]
    exact ⟨hwritten, hrest⟩

theorem Reactor.client_reads_replies_pipelined :
    let fs : FileSystem := fun path =>
      if path = ascii "/srv" then .directory
      else if path = ascii "/srv/a" then .regular (ascii "xy") true else .missing
    let cgi : CGIOutcome := .writes (ascii "1") (ascii "out")
    let clock : ℕ → Int × Int := fun n => (n, n)
    let result := fun t => Store.okOr (respondUncached (ascii "/srv") fs cgi t) ⟨[], true⟩
    let keep := ascii " /a HTTP/1.1" ++ kCRLF ++ ascii "Connection: Keep-Alive" ++ kRequestEnd
    let requests := [ascii "HEAD" ++ keep, ascii "GET" ++ keep]
    let events : List (ReactorEvent ℕ Service) :=
      [.arrive 5 requests.flatten, .register 5 [.took 3], .poll, .start, .recv 400, .recv 0,
        .handle, .poll]
    ∃ s x, run (serve (ascii "/srv")
        ⟨fun n _ => ⟨(clock n).1, (clock n).2, cgi⟩, fun _ world => world⟩)
        (start ⟨0, ⟨fs, Store.new 0 100⟩⟩) events = some s ∧ s.sessions 5 = some x ∧
      ((readAll readReply requests (acceptedBytes x.events)).1.map
        fun reply => reply.1 ++ reply.2) = requests.map fun t => (result t).responseBuf := by
  intro fs cgi clock result keep requests events
  have hnew : Store.Coherent fs (Store.new 0 100) := by simp [Store.Coherent]
  have hevents : ∀ e ∈ events, Outside (Service.Unchanged fs) e := by
    simp [events, Outside, Delivers]
  have hfacts : ((run (serve (ascii "/srv")
      ⟨fun n _ => ⟨(clock n).1, (clock n).2, cgi⟩, fun _ world => world⟩)
      (start ⟨0, ⟨fs, Store.new 0 100⟩⟩) events).map fun s => decide (s.Idle ∧
        (s.inbox 5).ending = none ∧ (frames kRequestEnd (s.arrived 5)).1 = requests ∧
        ((askedTexts s.arrived (senders events)).all fun t =>
          (respondUncached (ascii "/srv") fs cgi t).isOk) = true) && (s.sessions 5).isSome) =
      some true := by
    decide +kernel
  obtain ⟨s, h, hs⟩ := Option.map_eq_some_iff.mp hfacts
  rw [Bool.and_eq_true, decide_eq_true_iff, Option.isSome_iff_exists] at hs
  obtain ⟨⟨hidle, hend, hreq, hok⟩, x, hx⟩ := hs
  have hsteady : Steady (ascii "/srv") fs (fun _ => cgi) s.Asks result :=
    steady_of_writes (ascii "out") (by decide) fun t ht =>
      List.all_eq_true.mp hok t (asks_of_run h ht)
  have hhead : NoHeadToCGI (ascii "/srv") (frames kRequestEnd (s.arrived 5)).1 := by
    rw [hreq]
    decide +kernel
  have hreads := (client_reads_replies clock (fun _ _ hst => ⟨rfl, hst⟩) ⟨rfl, hnew⟩ hevents h
    hsteady hx hhead).2 hidle hend
  have hans : answered result requests = requests.map result := answered_of_kept (by decide +kernel)
  simp only [hreq, hans, List.map_map] at hreads
  exact ⟨s, x, h, hx, hreads.1⟩

end HttpReactor
