import HttpReactor.CacheContents
import HttpReactor.ClientIsolation

/-!
# The handling of requests, step by step

Once `Receive` has returned, the callback takes the requests off the read buffer one at a time.
What it does with one is cut here at the accesses to the cache, and `TryLoad` at its calls, so
that the threads of several reactors interleave between any two of them. A CGI program, whose
output file is named after the thread, runs in one step.
-/

namespace HttpReactor
open ListSearch Connection Refinement

section Sessions

variable {σ : Type}

/-- What is left of the callback when it comes to the next `FindAndPopTill`. -/
def Session.drain (dispatch : σ → Bytes → Except Terminate (Handled × σ)) (s : Session σ) :
    Session σ :=
  let handled := requestLoop dispatch (s.conn.readBuffer.length + 1) s
  if handled.2 then handled.1.deleteConnection else handled.1

def Session.settle (dispatch : σ → Bytes → Except Terminate (Handled × σ)) (s : Session σ)
    (requestStr : Bytes) (handled : Handled) (server : σ) : Session σ :=
  let answered := s.answer s.conn requestStr handled server
  if handled.shouldFinish then answered.deleteConnection else answered.drain dispatch

variable {dispatch : σ → Bytes → Except Terminate (Handled × σ)} {s : Session σ}

theorem process_of_exits {outs : List RecvOutcome} (h : (s.conn.receive outs).2.2 = true) :
    processHttpRequest dispatch s outs = (s.receive outs).deleteConnection :=
  if_pos h

theorem process_eq_drain {outs : List RecvOutcome} (h : (s.conn.receive outs).2.2 = false) :
    processHttpRequest dispatch s outs = (s.receive outs).drain dispatch :=
  if_neg (by simp [h])

theorem requestLoop_fuel {fuel : ℕ} (h : s.conn.readBuffer.length < fuel) :
    requestLoop dispatch fuel s = requestLoop dispatch (s.conn.readBuffer.length + 1) s := by
  induction hn : s.conn.readBuffer.length using Nat.strongRecOn generalizing s fuel with
  | ind n ih =>
    cases fuel with
    | zero => omega
    | succ fuel =>
      cases hc : cut kRequestEnd s.conn.readBuffer with
      | none => simp only [requestLoop, findAndPopTill_of_cut_none hc]
      | some q =>
        obtain ⟨p, r⟩ := q
        have hlt : r.length < n := hn ▸ cut_length_lt kRequestEnd_ne_nil hc
        simp only [requestLoop, findAndPopTill_of_cut_some hc]
        cases hd : dispatch s.server p with
        | error t => rfl
        | ok res =>
          obtain ⟨handled, server⟩ := res
          simp only []
          split_ifs
          · rfl
          · have hread : (s.answer { s.conn with readBuffer := r } p handled
                server).conn.readBuffer.length = r.length := rfl
            have hfuel : r.length < fuel := by omega
            rw [ih r.length hlt hfuel hread, ih r.length hlt hlt hread]

theorem drain_of_cut_none (h : cut kRequestEnd s.conn.readBuffer = none) :
    s.drain dispatch = s := by
  simp [Session.drain, requestLoop, findAndPopTill_of_cut_none h]

theorem drain_of_cut_some {p r : Bytes} {handled : Handled} {server : σ}
    (h : cut kRequestEnd s.conn.readBuffer = some (p, r))
    (hd : dispatch s.server p = .ok (handled, server)) :
    s.drain dispatch = ({ s with conn := { s.conn with readBuffer := r } } : Session σ).settle
      dispatch p handled server := by
  have hlt := cut_length_lt kRequestEnd_ne_nil h
  have hloop : requestLoop dispatch (s.conn.readBuffer.length + 1) s =
      if handled.shouldFinish then
        (s.answer { s.conn with readBuffer := r } p handled server, true)
      else
        requestLoop dispatch (r.length + 1)
          (s.answer { s.conn with readBuffer := r } p handled server) := by
    simp only [requestLoop, findAndPopTill_of_cut_some h, hd]
    exact ite_congr rfl (fun _ => rfl) fun _ => requestLoop_fuel (by exact hlt)
  unfold Session.drain
  rw [hloop]
  unfold Session.settle
  cases handled.shouldFinish <;> rfl

theorem events_invariant (events : List Event) :
    SessionInvariant dispatch fun s => events <+: s.events where
  receive := fun _ h => h.trans (List.prefix_append _ _)
  answer := fun h _ _ _ => h.trans (List.prefix_append _ _)
  terminate := fun h _ _ _ => h
  delete := fun h => h.trans (List.prefix_append _ _)

theorem events_drain (dispatch : σ → Bytes → Except Terminate (Handled × σ)) (s : Session σ) :
    s.events <+: (s.drain dispatch).events := by
  have hI : SessionInvariant dispatch _ := events_invariant s.events
  unfold Session.drain
  dsimp only
  split_ifs
  · exact hI.delete (hI.requestLoop _ List.prefix_rfl)
  · exact hI.requestLoop _ List.prefix_rfl

theorem events_settle (dispatch : σ → Bytes → Except Terminate (Handled × σ)) (s : Session σ)
    (requestStr : Bytes) (handled : Handled) (server : σ) :
    s.events <+: (s.settle dispatch requestStr handled server).events := by
  have hs : s.events <+: (s.answer s.conn requestStr handled server).events :=
    List.prefix_append _ _
  unfold Session.settle
  dsimp only
  split_ifs
  · exact hs.trans (List.prefix_append _ _)
  · exact hs.trans (events_drain dispatch _)

end Sessions

namespace Cache

def HoldsFiles (fs : FileSystem) (c : Cache) : Prop :=
  ∀ e ∈ c.mapping, ∃ content readable, fs.at e.1 = .regular content readable ∧
    c.payload e.2 = some (e.1, fileBytes content readable)

variable {fs : FileSystem} {c c' : Cache}

theorem HoldsFiles.relink (h : c.HoldsFiles fs) (hr : c.Relinks c') : c'.HoldsFiles fs := by
  have hmap : c'.mapping = c.mapping := by rw [hr.rest_eq]
  intro e he
  rw [hr.payload_eq]
  exact h e (hmap ▸ he)

theorem HoldsFiles.tryInsert (h : c.HoldsFiles fs) (hf : c.Filed) {now : Int}
    {path content : Bytes} {readable stored : Bool} (hat : fs.at path = .regular content readable)
    (hok : c.tryInsert now path (fileBytes content readable) = .ok (stored, c')) :
    c'.Filed ∧ c'.HoldsFiles fs := by
  cases stored with
  | false =>
    rcases tryInsert_ok hok with ⟨-, rfl⟩ | ⟨hs, -⟩
    · exact ⟨hf, h⟩
    · cases hs
  | true =>
    obtain ⟨hf', hmem⟩ := hf.tryInsert hok
    refine ⟨hf', fun e he => ?_⟩
    rcases hmem e he with ⟨hkey, hpay⟩ | ⟨-, he', hpay⟩
    · exact ⟨content, readable, hkey ▸ hat, hkey ▸ hpay⟩
    · obtain ⟨content', readable', hat', hpay'⟩ := h e he'
      exact ⟨content', readable', hat', hpay.trans hpay'⟩

theorem new_holdsFiles (fs : FileSystem) (now : Int) (capacity : UInt64) :
    (Cache.new now capacity).HoldsFiles fs :=
  nofun

end Cache

/-- Where the handling of a request stands: before `IsValid`, before an access, or inside
`TryLoad` on a node that it has found. -/
inductive RequestPhase
  | parsing
  | accessing (r : InFlight)
  | loading (r : InFlight) (responseBuf : DynamicByteArray) (l : Loading)
deriving DecidableEq, Repr

inductive RequestProgress
  | done (handled : Handled)
  | more (phase : RequestPhase)

inductive Accident
  | terminate (t : Terminate)
  | fault (f : CacheFault)

namespace RequestPhase

def Inserting : RequestPhase → Prop
  | accessing ⟨_, _, .tryInsert _ _⟩ => True
  | _ => False

instance : DecidablePred Inserting
  | accessing ⟨_, _, .tryInsert _ _⟩ => inferInstanceAs (Decidable True)
  | accessing ⟨_, _, .tryLoad _⟩ => inferInstanceAs (Decidable False)
  | accessing ⟨_, _, .loadFile _ _⟩ => inferInstanceAs (Decidable False)
  | parsing => inferInstanceAs (Decidable False)
  | loading _ _ _ => inferInstanceAs (Decidable False)

def Loads : RequestPhase → Prop
  | loading _ _ _ => True
  | _ => False

instance : DecidablePred Loads
  | loading _ _ _ => inferInstanceAs (Decidable True)
  | parsing => inferInstanceAs (Decidable False)
  | accessing _ => inferInstanceAs (Decidable False)

/-- The next step; the mutex is the caller's concern. -/
def proceed (dir : Bytes) (fs : FileSystem) (cgi : Bytes → CGIOutcome) (now : Int)
    (requestStr : Bytes) (c : Cache) : RequestPhase → Except Accident (RequestProgress × Cache)
  | .parsing =>
    let request := Request.ofString requestStr
    let path := dir ++ request.resourceUrl
    if request.isValid = false then
      .ok (.done ⟨Response.make400Response.serialize [], true⟩, c)
    else if isCGIRequest path then
      -- a run that ends well removes its output file, so that the files are as before
      match handleCGIRequest fs (cgi requestStr) request path [] with
      | .error t => .error (.terminate t)
      | .ok (handled, _) => .ok (.done handled, c)
    else
      match beginStatic fs request path [] with
      | .error t => .error (.terminate t)
      | .ok (.done handled) => .ok (.done handled, c)
      | .ok (.more phase) => .ok (.more (.accessing ⟨request, path, phase⟩), c)
  | .accessing ⟨request, path, .tryLoad responseBuf⟩ =>
    match c.mapping.lookup path with
    | some node =>
      .ok (.more (.loading ⟨request, path, .tryLoad responseBuf⟩ responseBuf
        ⟨node, [], .serialize⟩), c)
    | none => .ok (.more (.accessing ⟨request, path, .loadFile responseBuf []⟩), c)
  | .accessing ⟨request, path, .loadFile responseBuf cacheBuf⟩ =>
    match loadFile fs path cacheBuf with
    | .error t => .error (.terminate t)
    | .ok cacheBuf => .ok (.more (.accessing ⟨request, path, .tryInsert responseBuf cacheBuf⟩), c)
  | .accessing ⟨request, path, .tryInsert responseBuf cacheBuf⟩ =>
    match c.tryInsert now path cacheBuf with
    | .error f => .error (.fault f)
    | .ok (_, c) => .ok (.done ⟨responseBuf ++ cacheBuf, request.shouldClose⟩, c)
  | .loading r responseBuf l =>
    match l.proceed now c with
    | .error f => .error (.fault f)
    | .ok (some l, c) => .ok (.more (.loading r responseBuf l), c)
    | .ok (none, c) => .ok (.done ⟨responseBuf ++ l.destination, r.request.shouldClose⟩, c)

end RequestPhase

structure FileResponse (fs : FileSystem) (request : Request) (path : Bytes) (handled : Handled)
    (head file : Bytes) : Prop where
  regular : ∃ content readable, fs.at path = .regular content readable ∧
    head = fileHead request path content ∧ file = fileBytes content readable
  whole : handled = ⟨head ++ file, request.shouldClose⟩

/-- The request will be answered with `handled`, whatever happens to the cache meanwhile. -/
def RequestPhase.Promises (dir : Bytes) (fs : FileSystem) (cgi : Bytes → CGIOutcome)
    (requestStr : Bytes) (handled : Handled) (c : Cache) : RequestPhase → Prop
  | .parsing => respondUncached dir fs (cgi requestStr) requestStr = .ok handled
  | .accessing r => ∃ head file, FileResponse fs r.request r.path handled head file ∧
      r.phase.Holds head file
  | .loading r responseBuf l => CacheHistory.Asked c (r.path, []) l ∧
      ∃ file, FileResponse fs r.request r.path handled responseBuf file

def RequestProgress.Promises (dir : Bytes) (fs : FileSystem) (cgi : Bytes → CGIOutcome)
    (requestStr : Bytes) (handled : Handled) (c : Cache) : RequestProgress → Prop
  | .done h => h = handled
  | .more phase => phase.Promises dir fs cgi requestStr handled c

namespace RequestPhase

variable {dir : Bytes} {fs : FileSystem} {cgi : Bytes → CGIOutcome} {requestStr : Bytes}
  {handled : Handled} {c c' : Cache} {phase : RequestPhase} {progress : RequestProgress}
  {now : Int}

theorem Promises.relink (h : phase.Promises dir fs cgi requestStr handled c)
    (hr : c.Relinks c') : phase.Promises dir fs cgi requestStr handled c' := by
  cases phase with
  | parsing => exact h
  | accessing r => exact h
  | loading r responseBuf l => exact ⟨h.1.relink hr, h.2⟩

theorem Promises.of_not_loads (h : phase.Promises dir fs cgi requestStr handled c)
    (hl : ¬ phase.Loads) (c' : Cache) : phase.Promises dir fs cgi requestStr handled c' := by
  cases phase with
  | parsing => exact h
  | accessing r => exact h
  | loading r responseBuf l => exact absurd trivial hl

theorem promises_of_parsing (h : respondUncached dir fs (cgi requestStr) requestStr = .ok handled)
    (hstep : parsing.proceed dir fs cgi now requestStr c = .ok (progress, c')) :
    c' = c ∧ progress.Promises dir fs cgi requestStr handled c := by
  simp only [respondUncached, pure_eq_ok] at h
  simp only [proceed] at hstep
  split_ifs at h hstep with hv hc
  · cases h
    cases hstep
    exact ⟨rfl, rfl⟩
  · obtain ⟨r, hh, hr⟩ := bind_eq_ok h
    rw [hh] at hstep
    cases hr
    cases hstep
    exact ⟨rfl, rfl⟩
  · cases hp : fs.at (dir ++ (Request.ofString requestStr).resourceUrl) with
    | missing =>
      rw [handleStaticUncached_missing hp] at h
      rw [beginStatic_missing hp] at hstep
      cases h
      cases hstep
      exact ⟨rfl, rfl⟩
    | regular content readable =>
      rw [handleStaticUncached_regular hp] at h
      rw [beginStatic_regular hp] at hstep
      cases h
      by_cases hg : (Request.ofString requestStr).method = .kGET
      · rw [if_pos hg] at hstep
        cases hstep
        exact ⟨rfl, _, _, ⟨⟨content, readable, hp, rfl, rfl⟩, by rw [if_pos hg]⟩, rfl⟩
      · rw [if_neg hg] at hstep
        cases hstep
        rw [if_neg hg, List.append_nil]
        exact ⟨rfl, rfl⟩
    | directory | special | refused =>
      have hfile := fileOrNothing_of_handleStaticUncached h
      rw [hp] at hfile
      exact hfile.elim

theorem promises_of_loading {r : InFlight} {responseBuf : DynamicByteArray} {l : Loading}
    (hf : c.Filed) (hc : c.HoldsFiles fs)
    (h : (loading r responseBuf l).Promises dir fs cgi requestStr handled c)
    (hstep : (loading r responseBuf l).proceed dir fs cgi now requestStr c = .ok (progress, c')) :
    c.Relinks c' ∧ progress.Promises dir fs cgi requestStr handled c' := by
  obtain ⟨hasked, file, hresponse⟩ := h
  simp only [proceed] at hstep
  split at hstep
  · cases hstep
  · next l' c₁ hl =>
    cases hstep
    obtain ⟨hp, hr⟩ := Loading.proceeded hl
    exact ⟨hr, (hasked.proceed hf hp).relink hr, file, hresponse⟩
  · next c₁ hl =>
    cases hstep
    obtain ⟨hp, hr⟩ := Loading.proceeded hl
    refine ⟨hr, ?_⟩
    obtain ⟨data, hpay, hdest⟩ : ∃ data, c.payload l.node = some (r.path, data) ∧
        l.destination = [] ++ data := by
      cases hp with
      | finished hs => exact hasked.copied hs
    obtain ⟨content, readable, hat, hhead, hfile⟩ := hresponse.regular
    obtain ⟨content', readable', hat', hpay'⟩ := hc _ hasked.found
    rw [hat] at hat'
    cases hat'
    rw [hpay] at hpay'
    cases hpay'
    change _ = handled
    rw [hdest, List.nil_append, ← hfile]
    exact hresponse.whole.symm

theorem promises_of_accessing {r : InFlight} (hf : c.Filed) (hc : c.HoldsFiles fs)
    (h : (accessing r).Promises dir fs cgi requestStr handled c)
    (hstep : (accessing r).proceed dir fs cgi now requestStr c = .ok (progress, c')) :
    c'.Filed ∧ c'.HoldsFiles fs ∧ progress.Promises dir fs cgi requestStr handled c' ∧
      ((accessing r).Inserting ∨ c' = c) := by
  obtain ⟨head, file, hresponse, hholds⟩ := h
  obtain ⟨request, path, phase⟩ := r
  obtain ⟨content, readable, hat, hhead, hfile⟩ := hresponse.regular
  cases phase with
  | tryLoad responseBuf =>
    obtain rfl : responseBuf = head := hholds
    simp only [proceed] at hstep
    split at hstep
    · next node hlook =>
      cases hstep
      have hfound := (Cache.lookup_eq_some_iff_mem hf.keys).mp hlook
      exact ⟨hf, hc, ⟨⟨hfound, fun _ => rfl, fun hne => absurd rfl hne⟩, file, hresponse⟩,
        Or.inr rfl⟩
    · cases hstep
      exact ⟨hf, hc, ⟨_, file, hresponse, rfl, rfl⟩, Or.inr rfl⟩
  | loadFile responseBuf cacheBuf =>
    obtain ⟨rfl, rfl⟩ : responseBuf = head ∧ cacheBuf = [] := hholds
    simp only [proceed, loadFile_regular hat] at hstep
    cases hstep
    exact ⟨hf, hc, ⟨_, file, hresponse, rfl, hfile ▸ rfl⟩, Or.inr rfl⟩
  | tryInsert responseBuf cacheBuf =>
    obtain ⟨rfl, rfl⟩ : responseBuf = head ∧ cacheBuf = file := hholds
    simp only [proceed] at hstep
    split at hstep
    · cases hstep
    · next stored c₁ hok =>
      cases hstep
      obtain ⟨hf', hc'⟩ := hc.tryInsert hf hat (hfile ▸ hok)
      exact ⟨hf', hc', hresponse.whole.symm, Or.inl trivial⟩

theorem Promises.proceed (hf : c.Filed) (hc : c.HoldsFiles fs)
    (h : phase.Promises dir fs cgi requestStr handled c)
    (hstep : phase.proceed dir fs cgi now requestStr c = .ok (progress, c')) :
    c'.Filed ∧ c'.HoldsFiles fs ∧ progress.Promises dir fs cgi requestStr handled c' ∧
      (phase.Inserting ∨ c.Relinks c') := by
  cases phase with
  | parsing =>
    obtain ⟨rfl, hp⟩ := promises_of_parsing h hstep
    exact ⟨hf, hc, hp, Or.inr (.refl _)⟩
  | accessing r =>
    obtain ⟨hf', hc', hp, hi⟩ := promises_of_accessing hf hc h hstep
    refine ⟨hf', hc', hp, hi.imp_right fun he => ?_⟩
    rw [he]
    exact .refl c
  | loading r responseBuf l =>
    obtain ⟨hr, hp⟩ := promises_of_loading hf hc h hstep
    exact ⟨hf.relink hr, hc.relink hr, hp, Or.inr hr⟩

theorem Promises.not_terminated (h : phase.Promises dir fs cgi requestStr handled c)
    (t : Terminate) : phase.proceed dir fs cgi now requestStr c ≠ .error (.terminate t) := by
  intro hstep
  cases phase with
  | parsing =>
    simp only [RequestPhase.Promises, respondUncached, pure_eq_ok] at h
    simp only [RequestPhase.proceed] at hstep
    split_ifs at h hstep with hv hc
    · obtain ⟨r, hh, -⟩ := bind_eq_ok h
      rw [hh] at hstep
      cases hstep
    · cases hp : fs.at (dir ++ (Request.ofString requestStr).resourceUrl) with
      | missing =>
        rw [beginStatic_missing hp] at hstep
        cases hstep
      | regular content readable =>
        rw [beginStatic_regular hp] at hstep
        split_ifs at hstep
      | directory | special | refused =>
        have hfile := fileOrNothing_of_handleStaticUncached h
        rw [hp] at hfile
        exact hfile.elim
  | accessing r =>
    obtain ⟨head, file, hresponse, -⟩ := h
    obtain ⟨request, path, phase⟩ := r
    obtain ⟨content, readable, hat, -, -⟩ := hresponse.regular
    cases phase with
    | tryLoad responseBuf =>
      simp only [RequestPhase.proceed] at hstep
      split at hstep <;> cases hstep
    | loadFile responseBuf cacheBuf =>
      simp only [RequestPhase.proceed, loadFile_regular hat] at hstep
      cases hstep
    | tryInsert responseBuf cacheBuf =>
      simp only [RequestPhase.proceed] at hstep
      split at hstep <;> cases hstep
  | loading r responseBuf l =>
    simp only [RequestPhase.proceed] at hstep
    split at hstep <;> cases hstep

def work : RequestPhase → ℕ
  | parsing => 9
  | accessing ⟨_, _, .tryLoad _⟩ => 8
  | accessing ⟨_, _, .loadFile _ _⟩ => 4
  | accessing ⟨_, _, .tryInsert _ _⟩ => 3
  | loading _ _ l => l.rank + 2

end RequestPhase

def RequestProgress.work : RequestProgress → ℕ
  | .done _ => 2
  | .more phase => phase.work

theorem Loading.rank_proceed {l l' : Loading} {now : Int} {c c' : Cache}
    (h : l.proceed now c = .ok (some l', c')) : l'.rank < l.rank := by
  obtain ⟨node, destination, pending⟩ := l
  cases pending with
  | serialize | detach | appendToListTail =>
    obtain ⟨a, -, h⟩ := bind_eq_ok h
    cases h
    simp [rank]
  | updateTimestamp =>
    obtain ⟨a, -, h⟩ := bind_eq_ok h
    cases h

theorem RequestPhase.work_proceed {dir : Bytes} {fs : FileSystem} {cgi : Bytes → CGIOutcome}
    {now : Int} {requestStr : Bytes} {c c' : Cache} {phase : RequestPhase}
    {progress : RequestProgress}
    (h : phase.proceed dir fs cgi now requestStr c = .ok (progress, c')) :
    progress.work < phase.work := by
  cases phase with
  | parsing =>
    simp only [proceed] at h
    split_ifs at h
    · cases h
      simp [RequestProgress.work, work]
    · split at h
      · cases h
      · cases h
        simp [RequestProgress.work, work]
    · split at h
      · cases h
      · cases h
        simp [RequestProgress.work, work]
      · next phase _ =>
        cases h
        cases phase <;> simp [RequestProgress.work, work]
  | accessing r =>
    obtain ⟨request, path, phase⟩ := r
    cases phase with
    | tryLoad responseBuf =>
      simp only [proceed] at h
      split at h
      · cases h
        simp [RequestProgress.work, work, Loading.rank]
      · cases h
        simp [RequestProgress.work, work]
    | loadFile responseBuf cacheBuf =>
      simp only [proceed] at h
      split at h
      · cases h
      · cases h
        simp [RequestProgress.work, work]
    | tryInsert responseBuf cacheBuf =>
      simp only [proceed] at h
      split at h
      · cases h
      · cases h
        simp [RequestProgress.work, work]
  | loading r responseBuf l =>
    simp only [proceed] at h
    split at h
    · cases h
    · next l' c₁ hl =>
      cases h
      have := Loading.rank_proceed hl
      simp only [RequestProgress.work, work]
      omega
    · cases h
      have : 0 < l.rank := by
        obtain ⟨node, destination, pending⟩ := l
        cases pending <;> simp [Loading.rank]
      simp only [RequestProgress.work, work]
      omega

end HttpReactor
