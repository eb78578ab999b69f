import HttpReactor.Session

/-!
# What a connection sends

`Send` gives up on an errno it does not retry: it drops the rest of the response and
reports nothing, and the loop goes on with the next request. The stream the client gets
is then a prefix of the responses only if the kernel takes nothing more
(`outgoing_not_spliced_iff`).
-/

namespace HttpReactor
open Connection

structure Exchange.Sent (x : Exchange) : Prop where
  accepted : x.accepted =
    (sendLoop x.handled.responseBuf x.handled.responseBuf.length x.sends 0).1
  nonempty : x.handled.responseBuf ≠ []

namespace Exchange.Sent

variable {x : Exchange}

theorem isPrefix (h : x.Sent) : x.accepted <+: x.handled.responseBuf := by
  rw [h.accepted]
  exact sendLoop_prefix _ _ 0

theorem ne_iff (h : x.Sent) : x.accepted ≠ x.handled.responseBuf ↔
    sendAborts x.handled.responseBuf.length x.sends = true := by
  cases ha : sendAborts x.handled.responseBuf.length x.sends with
  | false =>
    have hs : sendAborts (x.handled.responseBuf.length - 0) x.sends = false := ha
    have hc := sendLoop_complete hs
    rw [← h.accepted] at hc
    simpa using hc
  | true =>
    have hs : sendAborts (x.handled.responseBuf.length - 0) x.sends = true := ha
    have hl := sendLoop_aborted hs
    rw [← h.accepted] at hl
    refine iff_of_true (fun he => ?_) rfl
    rw [he] at hl
    omega

theorem eq_nil_iff (h : x.Sent) : x.accepted = [] ↔ sendRefused x.sends = true := by
  rw [h.accepted]
  exact sendLoop_eq_nil_iff (List.length_pos_iff.mpr h.nonempty)

end Exchange.Sent

def NotSpliced (xs : List Exchange) : Prop :=
  xs.Pairwise fun x y => x.accepted ≠ x.handled.responseBuf → y.accepted = []

/-- After a `Send` that met an errno it does not retry with bytes still to go, every later one
meets such an errno before the kernel takes a byte. -/
def SendsGiveUp (xs : List Exchange) : Prop :=
  xs.Pairwise fun x y => sendAborts x.handled.responseBuf.length x.sends = true →
    sendRefused y.sends = true

theorem notSpliced_iff {xs : List Exchange} (h : ∀ x ∈ xs, x.Sent) :
    NotSpliced xs ↔ SendsGiveUp xs :=
  List.Pairwise.iff_of_mem fun {x y} hx hy => by rw [(h x hx).ne_iff, (h y hy).eq_nil_iff]

theorem flatten_prefix_of_notSpliced {xs : List Exchange} (h : ∀ x ∈ xs, x.Sent)
    (hn : NotSpliced xs) : (xs.map Exchange.accepted).flatten <+:
      (xs.map fun x => x.handled.responseBuf).flatten := by
  induction xs with
  | nil => exact List.prefix_rfl
  | cons x xs ih =>
    obtain ⟨hx, hxs⟩ := List.forall_mem_cons.mp h
    obtain ⟨hhead, htail⟩ := List.pairwise_cons.mp hn
    simp only [List.map_cons, List.flatten_cons]
    by_cases heq : x.accepted = x.handled.responseBuf
    · rw [heq]
      exact (List.prefix_append_right_inj _).mpr (ih hxs htail)
    · -- after a dropped rest nothing more is taken
      have hnil : (xs.map Exchange.accepted).flatten = [] := by
        rw [List.flatten_eq_nil_iff]
        intro l hl
        obtain ⟨y, hy, rfl⟩ := List.mem_map.mp hl
        exact hhead y hy heq
      rw [hnil, List.append_nil]
      exact hx.isPrefix.trans (List.prefix_append _ _)

section Runs

variable {σ : Type} {dispatch : σ → Bytes → Except Terminate (Handled × σ)}

structure Session.Sends (s : Session σ) : Prop where
  writeBuffer : s.conn.writeBuffer = []
  sent : ∀ x ∈ exchanges s.events, x.Sent

theorem sends_invariant (hne : ∀ server requestStr handled server',
    dispatch server requestStr = .ok (handled, server') → handled.responseBuf ≠ []) :
    SessionInvariant dispatch Session.Sends where
  receive outs h := ⟨h.writeBuffer, by simpa [Session.receive] using h.sent⟩
  answer {s conn requestStr handled server} h hw _ hd := by
    refine ⟨rfl, fun x hx => ?_⟩
    simp only [Session.answer, exchanges_append] at hx
    rcases List.mem_append.mp hx with hx | hx
    · exact h.sent x hx
    · obtain rfl := List.mem_singleton.mp hx
      refine ⟨?_, hne _ _ _ _ hd⟩
      simp [Connection.send, Connection.write, Buffer.pushBackUnsafe, hw, h.writeBuffer]
  terminate h hw _ _ := ⟨hw.trans h.writeBuffer, h.sent⟩
  delete h := ⟨h.writeBuffer, by simpa [Session.deleteConnection] using h.sent⟩

end Runs

/-- Over every run of a connection, the accepted bytes are a prefix of the responses written,
with nothing sent after a dropped rest, exactly when a `Send` that gives up is followed by
none that gets a byte through. -/
theorem outgoing_not_spliced_iff (dir : Bytes) (around : Surroundings) (server : Service)
    (sends : List SendOutcome) (rounds : List (List RecvOutcome)) :
    let xs := exchanges (runSession (serve dir around) (.start server sends) rounds).events
    ((xs.map Exchange.accepted).flatten <+: (xs.map fun x => x.handled.responseBuf).flatten ∧
      NotSpliced xs) ↔ SendsGiveUp xs := by
  intro xs
  have hinv : SessionInvariant (serve dir around) Session.Sends :=
    sends_invariant fun _ _ _ _ h => serve_nonempty h
  have hstart : (Session.start server sends).Sends := ⟨rfl, by simp [Session.start]⟩
  have hsent : ∀ x ∈ xs, x.Sent := (hinv.run hstart rounds).sent
  rw [← notSpliced_iff hsent]
  exact ⟨fun h => h.2, fun h => ⟨flatten_prefix_of_notSpliced hsent h, h⟩⟩

theorem spliced_after_enobufs :
    let fs : FileSystem := fun path =>
      if path = ascii "/srv/a" then .regular (ascii "xy") true else .missing
    let around : Surroundings :=
      ⟨fun _ _ => ⟨1, 2, .writes (ascii "1") []⟩, fun _ world => world⟩
    let get := ascii "GET /a HTTP/1.1" ++ kCRLF ++ ascii "Connection:Keep-Alive" ++ kRequestEnd
    let chunk : Chunk := ⟨get ++ get, by decide, by decide⟩
    let xs := exchanges (runSession (serve (ascii "/srv") around)
      (.start ⟨0, ⟨fs, Store.new 0 100⟩⟩ [.took 3, .failed (.other 105)]) [[.data chunk]]).events
    xs.length = 2 ∧ ¬ (xs.map Exchange.accepted).flatten <+:
      (xs.map fun x => x.handled.responseBuf).flatten := by
  decide +kernel

end HttpReactor
