import HttpReactor.Message
import HttpReactor.ServerMachine

/-!
# What the shared cache does to responses

The length of a static response is the size of the file on disk, its body comes from
the cache if the path is there. Over a file system that changes, a response is framed
exactly when the two agree at the moment of the hit (`gets_framed_iff`). Over one that
does not, the cache holds the files' bytes and no response can be told from one made
without a cache (`cache_transparent`).
-/

namespace HttpReactor
open LruStore Refinement

section Framing

theorem framed_withoutResource {status : Bytes} (hs : 13 ∉ status) (close : Bool) :
    Framed (Response.withoutResource status close).head := by
  have h := Response.framed_head_iff (Response.plain_withoutResource hs close)
    (Response.withoutResource_contentLength status close) []
  rw [List.append_nil] at h
  exact h.mpr (by decide)

theorem plain_cgiResponse (close : Bool) (n : ℕ) : (cgiResponse close n).Plain := by
  have hp : (Response.withoutResource kResponseStatusOK close).Plain :=
    Response.plain_withoutResource (by decide) close
  have hh : (cgiResponse close n).headers = Response.commonHeaders close ++
      [{ key := kHeaderContentLength, value := toDecimal n }] := by
    cases close <;> rfl
  refine ⟨hp.statusLine_cr, hp.statusLine_ne, fun h hm => ?_⟩
  rw [hh] at hm
  rcases List.mem_append.mp hm with hm | hm
  · exact Response.plain_commonHeaders close h hm
  · rw [List.mem_singleton.mp hm]
    exact plain_contentLength n

theorem handleCGIRequest_framed {fs fs' : FileSystem} {os : CGIOutcome} {request : Request}
    {path : Bytes} {handled : Handled}
    (h : handleCGIRequest fs os request path [] = .ok (handled, fs')) :
    Framed handled.responseBuf := by
  cases cgiHandled_of_handleCGIRequest h with
  | invalid hc => exact framed_withoutResource (by decide) true
  | missing hc hp => exact framed_withoutResource (by decide) true
  | ran fs' result hc he hrun =>
    have hf := Response.framed_head_iff (plain_cgiResponse request.shouldClose result.length)
      (Response.changeHeader_contentLength _ _ _) result
    exact hf.mpr (decimalValue_toDecimal _)

variable {κ : Type}

namespace ServerState

def GetsFramed (s : ServerState κ) : Prop :=
  ∀ e ∈ s.log, e.request.method = .kGET → IsOK e.handled.responseBuf →
    Framed e.handled.responseBuf

instance (s : ServerState κ) : Decidable s.GetsFramed :=
  inferInstanceAs (Decidable (∀ e ∈ s.log, _ → _ → _))

theorem getsFramed_append {s : ServerState κ} {world : World} {fl : List (κ × InFlight)}
    {e : Served} :
    GetsFramed ⟨world, fl, s.log ++ [e]⟩ ↔ s.GetsFramed ∧ (e.request.method = .kGET →
      IsOK e.handled.responseBuf → Framed e.handled.responseBuf) := by
  simp [GetsFramed, or_imp, forall_and]

variable [DecidableEq κ]

/-- If the action is a lookup that finds its path in the cache, the file on disk has the size
of the cached bytes. -/
def hitSizeAgrees (s : ServerState κ) : Action κ → Bool
  | .advance conn _ =>
    match s.current conn with
    | some ⟨_, path, .tryLoad _⟩ =>
      match load path s.world.store.entries with
      | some (bytes, _) => stdFileSize (s.world.fs.at path) = some bytes.length
      | none => true
    | _ => true
  | _ => true

theorem fileBytes_length (content : Bytes) (readable : Bool) :
    (fileBytes content readable).length = content.length := readInto_length

theorem hitSizeAgrees_advance {s : ServerState κ} {conn : κ} {r : InFlight}
    (hf : s.current conn = some r) {buf : Bytes} (hp : r.phase = .tryLoad buf) (now : Int) :
    s.hitSizeAgrees (.advance conn now) = match load r.path s.world.store.entries with
      | some (bytes, _) => decide (stdFileSize (s.world.fs.at r.path) = some bytes.length)
      | none => true := by
  obtain ⟨request, path, phase⟩ := r
  cases hp
  simp only [hitSizeAgrees, hf]

theorem hitSizeAgrees_advance_of_ne {s : ServerState κ} {conn : κ} {r : InFlight}
    (hf : s.current conn = some r) (hp : ∀ buf, r.phase ≠ .tryLoad buf) (now : Int) :
    s.hitSizeAgrees (.advance conn now) = true := by
  obtain ⟨request, path, phase⟩ := r
  cases phase with
  | tryLoad buf => exact absurd rfl (hp buf)
  | loadFile buf cacheBuf => simp only [hitSizeAgrees, hf]
  | tryInsert buf cacheBuf => simp only [hitSizeAgrees, hf]

theorem getsFramed_step_iff {dir : Bytes} {s s' : ServerState κ} {a : Action κ}
    (hc : s.Consistent) (hs : step dir s a = some s') :
    s'.GetsFramed ↔ s.GetsFramed ∧ s.hitSizeAgrees a = true := by
  cases stepped_of_step hs with
  | invalid conn requestStr cgi request hr hv =>
    rw [proceed, getsFramed_append]
    exact and_congr_right fun _ =>
      iff_of_true (fun _ _ => framed_withoutResource (by decide) true) rfl
  | cgi conn requestStr cgi request handled fs hr hv hcgi hh hk =>
    rw [proceed, getsFramed_append]
    exact and_congr_right fun _ => iff_of_true (fun _ _ => handleCGIRequest_framed hh) rfl
  | begun conn requestStr cgi request progress hr hv hcgi hh =>
    rcases beginStatic_eq_ok hh with ⟨-, rfl⟩ | ⟨content, readable, hat, rfl⟩
    · rw [proceed, getsFramed_append]
      exact and_congr_right fun _ =>
        iff_of_true (fun _ _ => framed_withoutResource (by decide) true) rfl
    · split_ifs with hg
      · exact ⟨fun h => ⟨h, rfl⟩, fun h => h.1⟩
      · rw [proceed, getsFramed_append]
        exact and_congr_right fun _ => iff_of_true (fun hget => absurd hget hg) rfl
  | advanced conn now r progress store hf hh =>
    obtain ⟨hg, content, readable, hat, hold⟩ := hc.current hf
    cases advanced_of_advanceStatic hat hold hh with
    | hit store' bytes es hp hl hes =>
      rw [proceed, getsFramed_append, hitSizeAgrees_advance hf hp, hl]
      refine and_congr_right fun _ => ?_
      simp only [decide_eq_true_eq, hat, stdFileSize, Option.some_inj]
      rw [← Response.framed_withResource_iff r.request.shouldClose r.path content.length bytes]
      exact ⟨fun h => h hg (Response.isOK_withResource _ _ _ _), fun h _ _ => h⟩
    | miss hp hl =>
      rw [hitSizeAgrees_advance hf hp, hl]
      exact ⟨fun h => ⟨h, rfl⟩, fun h => h.1⟩
    | loaded hp =>
      rw [hitSizeAgrees_advance_of_ne hf (by simp [hp])]
      exact ⟨fun h => ⟨h, rfl⟩, fun h => h.1⟩
    | inserted hp =>
      rw [proceed, getsFramed_append, hitSizeAgrees_advance_of_ne hf (by simp [hp])]
      refine and_congr_right fun _ => iff_of_true (fun _ _ => ?_) rfl
      exact (Response.framed_withResource_iff _ _ _ _).mpr (fileBytes_length content readable).symm
  | changed fs hk => exact ⟨fun h => ⟨h, rfl⟩, fun h => h.1⟩

/-- In every run, from any file system and cache, the responses to GET requests are framed
exactly when every lookup that hits finds the file on disk as long as the cached bytes. -/
theorem gets_framed_iff {dir : Bytes} {world : World} {actions : List (Action κ)}
    {s : ServerState κ} (h : run dir (start world) actions = some s) :
    s.GetsFramed ↔
      Along (step dir) (fun s a => s.hitSizeAgrees a = true) (start world) actions := by
  have hiff := runGuarded_iff_along (G := GetsFramed)
    (P := fun s a => hitSizeAgrees s a = true) (fun s i s' hc hs => Consistent.step hc hs)
    (fun s i s' hc hs => getsFramed_step_iff hc hs) (s := start world) nofun h
  have hstart : GetsFramed (start world : ServerState κ) := nofun
  exact hiff.trans (and_iff_right hstart)

theorem gets_framed_two_hits :
    let fs : FileSystem := fun path =>
      if path = ascii "/srv/a" then .regular (ascii "xy") true else .missing
    let get := ascii "GET /a HTTP/1.1" ++ kRequestEnd
    let cgi : CGIOutcome := .writes (ascii "1") []
    ∃ s : ServerState ℕ, run (ascii "/srv") (start ⟨fs, Store.new 0 100⟩)
      [.arrive 5 get cgi, .advance 5 1, .advance 5 2, .advance 5 3, .arrive 6 get cgi,
        .advance 6 4] = some s ∧ s.log.length = 2 ∧ s.GetsFramed := by
  intro fs get cgi
  have h : ((run (ascii "/srv") (start ⟨fs, Store.new 0 100⟩)
      [.arrive 5 get cgi, .advance 5 1, .advance 5 2, .advance 5 3, .arrive 6 get cgi,
        .advance 6 4]).map fun s : ServerState ℕ => s.log.length) = some 2 := by
    decide +kernel
  obtain ⟨s, hs, hlen⟩ := Option.map_eq_some_iff.mp h
  exact ⟨s, hs, hlen, (gets_framed_iff hs).mpr (by decide +kernel)⟩

theorem stale_length :
    let before : FileSystem := fun path =>
      if path = ascii "/srv/a" then .regular (ascii "xy") true else .missing
    let after : FileSystem := fun path =>
      if path = ascii "/srv/a" then .regular (ascii "xyz") true else .missing
    let get := ascii "GET /a HTTP/1.1" ++ kRequestEnd
    let cgi : CGIOutcome := .writes (ascii "1") []
    ∃ s : ServerState ℕ, run (ascii "/srv") (start ⟨before, Store.new 0 100⟩)
      [.arrive 5 get cgi, .advance 5 1, .advance 5 2, .advance 5 3, .change after,
        .arrive 5 get cgi, .advance 5 4] = some s ∧ ¬ s.GetsFramed := by
  intro before after get cgi
  have h : ((run (ascii "/srv") (start ⟨before, Store.new 0 100⟩)
      [.arrive 5 get cgi, .advance 5 1, .advance 5 2, .advance 5 3, .change after,
        .arrive 5 get cgi, .advance 5 4]).map fun s : ServerState ℕ => decide s.GetsFramed) =
      some false := by
    decide +kernel
  obtain ⟨s, hs, hf⟩ := Option.map_eq_some_iff.mp h
  exact ⟨s, hs, of_decide_eq_false hf⟩

end ServerState

end Framing

section Transparency

def handleStaticUncached (fs : FileSystem) (request : Request) (resourceFullPath : Bytes)
    (responseBuf : DynamicByteArray) : Except Terminate Handled := do
  if ← isFileExists fs resourceFullPath then
    let response ← Response.make200Response fs request.shouldClose (some resourceFullPath)
    let responseBuf := response.serialize responseBuf
    if request.method = .kGET then
      let fileBuf ← loadFile fs resourceFullPath []
      return ⟨responseBuf ++ fileBuf, request.shouldClose⟩
    return ⟨responseBuf, request.shouldClose⟩
  else
    return ⟨Response.make404Response.serialize responseBuf, true⟩

variable {fs : FileSystem} {path : Bytes}

theorem handleStaticUncached_missing (h : fs.at path = .missing) (request : Request) :
    handleStaticUncached fs request path [] =
      .ok ⟨Response.make404Response.head, true⟩ := by
  simp [handleStaticUncached, isFileExists_missing h, Response.serialize]

theorem handleStaticUncached_regular {content : Bytes} {readable : Bool}
    (h : fs.at path = .regular content readable) (request : Request) :
    handleStaticUncached fs request path [] = .ok ⟨fileHead request path content ++
      if request.method = .kGET then fileBytes content readable else [],
        request.shouldClose⟩ := by
  simp only [handleStaticUncached, isFileExists_regular h, Response.make200Response_regular h,
    loadFile_regular h, Response.serialize, fileHead, fileBytes, ok_bind,
    pure_eq_ok, if_true, List.nil_append]
  split_ifs <;> simp

theorem fileOrNothing_of_handleStaticUncached {request : Request} {handled : Handled}
    (h : handleStaticUncached fs request path [] = .ok handled) : (fs.at path).FileOrNothing := by
  cases hp : fs.at path with
  | missing | regular => trivial
  | directory | special =>
    have hless : (fs.at path).Sizeless := by
      rw [hp]
      trivial
    simp [handleStaticUncached, isFileExists_sizeless hless,
      Response.make200Response_sizeless hless] at h
  | refused => simp [handleStaticUncached, isFileExists_refused hp] at h

def Store.Coherent (fs : FileSystem) (store : Store) : Prop :=
  ∀ e ∈ store.entries, ∃ content readable, fs.at e.1 = .regular content readable ∧
    e.2 = fileBytes content readable

theorem Store.Coherent.tryInsert {store : Store} (h : store.Coherent fs) {content : Bytes}
    {readable : Bool} (hat : fs.at path = .regular content readable) (now : Int) :
    (store.tryInsert now path (fileBytes content readable)).2.Coherent fs := by
  intro e he
  rcases Store.mem_tryInsert_entries he with he | rfl
  · exact h e he
  · exact ⟨content, readable, hat, rfl⟩

theorem Store.Coherent.load {store store' : Store} (h : store.Coherent fs) {content bytes : Bytes}
    {readable : Bool} {es : Entries Bytes Bytes} (hat : fs.at path = .regular content readable)
    (hl : load path store.entries = some (bytes, es)) (hes : store'.entries = es) :
    bytes = fileBytes content readable ∧ store'.Coherent fs := by
  obtain ⟨hmem, hsub⟩ := mem_of_load hl
  obtain ⟨content', readable', hat', hb⟩ := h _ hmem
  rw [hat] at hat'
  cases hat'
  exact ⟨hb, fun e he => h e (hsub e (hes ▸ he))⟩

theorem staticBody_coherent {world : World} (h : world.store.Coherent world.fs) {content : Bytes}
    {readable : Bool} (hat : world.fs.at path = .regular content readable) (env : RequestEnv)
    (request : Request) :
    (staticBody world env request path content.length).1 =
      (if request.method = .kGET then fileBytes content readable else []) ∧
    (staticBody world env request path content.length).2.Coherent world.fs := by
  unfold staticBody
  by_cases hg : request.method = .kGET
  · simp only [if_pos hg]
    cases hl : LruStore.load path world.store.entries with
    | none =>
      rw [Store.tryLoad_miss hl, hat]
      exact ⟨rfl, h.tryInsert hat env.insertTime⟩
    | some q =>
      obtain ⟨bytes, es⟩ := q
      obtain ⟨h₁, h₂⟩ := Store.tryLoad_hit hl env.loadTime []
      obtain ⟨hb, hst⟩ := h.load hat hl h₂
      rw [h₁]
      exact ⟨hb, hst⟩
  · simp only [if_neg hg]
    exact ⟨trivial, h⟩

theorem handleStaticResourceRequest_uncached {world : World} (h : world.store.Coherent world.fs)
    (env : RequestEnv) (request : Request) {handled : Handled}
    (hu : handleStaticUncached world.fs request path [] = .ok handled) :
    ∃ store, handleStaticResourceRequest world env request path [] = .ok (handled, store) ∧
      store.Coherent world.fs := by
  cases hp : world.fs.at path with
  | missing =>
    rw [handleStaticUncached_missing hp] at hu
    cases hu
    exact ⟨world.store, handleStaticResourceRequest_missing hp env request [], h⟩
  | regular content readable =>
    rw [handleStaticUncached_regular hp] at hu
    cases hu
    obtain ⟨hb, hst⟩ := staticBody_coherent h hp env request
    refine ⟨_, ?_, hst⟩
    rw [handleStaticResourceRequest_regular hp, hb]
    rfl
  | directory | special | refused =>
    have hfile := fileOrNothing_of_handleStaticUncached hu
    rw [hp] at hfile
    exact hfile.elim

/-- The body of the loop of `ProcessHttpRequest` without a cache, over files that stay and CGI
programs whose runs leave them as they are. -/
def respondUncached (dir : Bytes) (fs : FileSystem) (cgi : CGIOutcome) (requestStr : Bytes) :
    Except Terminate Handled := do
  let request := Request.ofString requestStr
  if request.isValid = false then
    return ⟨Response.make400Response.serialize [], true⟩
  let resourceFullPath := dir ++ request.resourceUrl
  if isCGIRequest resourceFullPath then
    let handled ← handleCGIRequest fs cgi request resourceFullPath []
    return handled.1
  else handleStaticUncached fs request resourceFullPath []

theorem handleCGIRequest_keeps {os : CGIOutcome} (hkeep : CGIRunner.KeepsFiles fs os)
    {request : Request} {handled : Handled} {fs' : FileSystem}
    (h : handleCGIRequest fs os request path [] = .ok (handled, fs')) : fs' = fs := by
  cases cgiHandled_of_handleCGIRequest h with
  | invalid hc => rfl
  | missing hc hp => rfl
  | ran fs' result hc he hrun => exact hkeep fs' result hrun

theorem respond_uncached {world : World} (hst : world.store.Coherent world.fs) (env : RequestEnv)
    (hkeep : CGIRunner.KeepsFiles world.fs env.cgi) {dir requestStr : Bytes} {handled : Handled}
    (hu : respondUncached dir world.fs env.cgi requestStr = .ok handled) :
    ∃ store, respond dir world env requestStr = .ok (handled, ⟨world.fs, store⟩) ∧
      store.Coherent world.fs := by
  simp only [respondUncached, pure_eq_ok] at hu
  simp only [respond, pure_eq_ok]
  split_ifs at hu ⊢ with hv hc
  · cases hu
    exact ⟨world.store, rfl, hst⟩
  · obtain ⟨r, hh, hr⟩ := bind_eq_ok hu
    have hfs := handleCGIRequest_keeps hkeep hh
    cases hr
    exact ⟨world.store, by rw [hh, ok_bind, hfs], hst⟩
  · obtain ⟨store, hh, hst'⟩ := handleStaticResourceRequest_uncached hst env _ hu
    exact ⟨store, by rw [hh, ok_bind], hst'⟩

variable {κ : Type}

def Action.IsStatic (dir : Bytes) : Action κ → Prop
  | .arrive _ requestStr _ =>
    (Request.ofString requestStr).isValid = true ∧
      isCGIRequest (dir ++ (Request.ofString requestStr).resourceUrl) = false
  | .advance _ _ => True
  | .change _ => False

instance (dir : Bytes) : ∀ a : Action κ, Decidable (a.IsStatic dir)
  | .arrive _ _ _ => inferInstanceAs (Decidable (_ ∧ _))
  | .advance _ _ => inferInstanceAs (Decidable True)
  | .change _ => inferInstanceAs (Decidable False)

namespace ServerState

structure Coherent (dir : Bytes) (fs : FileSystem) (s : ServerState κ) : Prop where
  fs_eq : s.world.fs = fs
  consistent : s.Consistent
  paths : ∀ e ∈ s.inFlight, e.2.path = dir ++ e.2.request.resourceUrl
  store : s.world.store.Coherent fs
  log : ∀ e ∈ s.log, e.path = dir ++ e.request.resourceUrl ∧
    handleStaticUncached fs e.request e.path [] = .ok e.handled

variable [DecidableEq κ] {dir : Bytes} {s s' : ServerState κ}

theorem Coherent.proceed (h : s.Coherent dir fs) {world : World} (hfs : world.fs = fs)
    (hst : world.store.Coherent fs) {conn : κ} {request : Request}
    (hpath : path = dir ++ request.resourceUrl) {progress : Progress}
    (hm : ∀ phase, progress = .more phase → InFlight.Consistent fs ⟨request, path, phase⟩)
    (hd : ∀ handled, progress = .done handled →
      handleStaticUncached fs request path [] = .ok handled) :
    (s.proceed world conn request path progress).Coherent dir fs := by
  have hk : s.Keeps world.fs := fun e _ => by rw [hfs, h.fs_eq]
  have hc : (s.proceed world conn request path progress).Consistent :=
    h.consistent.proceed hk (hfs ▸ hm)
  have hold : ∀ e ∈ s.inFlight.filter (fun e => e.1 ≠ conn),
      e.2.path = dir ++ e.2.request.resourceUrl :=
    fun e he => h.paths e (List.mem_filter.mp he).1
  cases progress with
  | done handled =>
    refine ⟨hfs, hc, hold, hst, fun e he => ?_⟩
    rcases List.mem_append.mp he with he | he
    · exact h.log e he
    · rw [List.mem_singleton.mp he]
      exact ⟨hpath, hd handled rfl⟩
  | more phase =>
    refine ⟨hfs, hc, fun e he => ?_, hst, h.log⟩
    rcases List.mem_cons.mp he with rfl | he
    · exact hpath
    · exact hold e he

theorem Coherent.step {a : Action κ} (h : s.Coherent dir fs) (ha : a.IsStatic dir)
    (hs : step dir s a = some s') : s'.Coherent dir fs := by
  cases stepped_of_step hs with
  | invalid conn requestStr cgi request hr hv =>
    rw [Action.IsStatic, hr, hv] at ha
    cases ha.1
  | cgi conn requestStr cgi request handled fs' hr hv hc hh hk =>
    rw [Action.IsStatic, hr, hc] at ha
    cases ha.2
  | begun conn requestStr cgi request progress hr hv hc hh =>
    rw [h.fs_eq] at hh
    rcases beginStatic_eq_ok hh with ⟨hat, rfl⟩ | ⟨content, readable, hat, rfl⟩
    · refine h.proceed h.fs_eq h.store rfl nofun fun handled hd => ?_
      cases hd
      exact handleStaticUncached_missing hat request
    · have hu := handleStaticUncached_regular hat request
      refine h.proceed h.fs_eq h.store rfl (fun phase hp => ?_) fun handled hd => ?_
      · split_ifs at hp with hg
        cases hp
        exact ⟨hg, content, readable, hat, rfl⟩
      · split_ifs at hd with hg
        cases hd
        rw [hu, if_neg hg, List.append_nil]
  | advanced conn now r progress store hf hh =>
    obtain ⟨hg, content, readable, hat, hold⟩ := h.consistent.current hf
    have hpath := h.paths _ (mem_inFlight_of_current hf)
    have hadv := advanced_of_advanceStatic hat hold hh
    have hfs : ∀ st, World.fs { s.world with store := st } = fs := fun _ => h.fs_eq
    rw [h.fs_eq] at hat
    have hu := handleStaticUncached_regular hat r.request
    rw [if_pos hg] at hu
    cases hadv with
    | hit store' bytes es hp hl hes =>
      obtain ⟨hb, hst⟩ := h.store.load hat hl hes
      refine h.proceed (hfs store) hst hpath nofun fun handled hd => ?_
      cases hd
      rw [hu, ← hb]
    | miss hp hl =>
      exact h.proceed h.fs_eq h.store hpath
        (fun phase hp => by cases hp; exact ⟨hg, content, readable, hat, rfl, rfl⟩) nofun
    | loaded hp =>
      exact h.proceed h.fs_eq h.store hpath
        (fun phase hp => by cases hp; exact ⟨hg, content, readable, hat, rfl, rfl⟩) nofun
    | inserted hp =>
      refine h.proceed (hfs _) (h.store.tryInsert hat now) hpath nofun fun handled hd => ?_
      cases hd
      exact hu
  | changed fs' hk => exact ha.elim

/-- Over an unchanging file system, whatever the capacity and however the static requests of
the connections interleave, every response is the one made without a cache. -/
theorem cache_transparent (dir : Bytes) (fs : FileSystem) (now : Int) (capacity : UInt64)
    {actions : List (Action κ)} (ha : ∀ a ∈ actions, a.IsStatic dir) {s : ServerState κ}
    (h : run dir (start ⟨fs, Store.new now capacity⟩) actions = some s) :
    ∀ e ∈ s.log, e.path = dir ++ e.request.resourceUrl ∧
      handleStaticUncached fs e.request e.path [] = .ok e.handled := by
  have hstart : (start ⟨fs, Store.new now capacity⟩ : ServerState κ).Coherent dir fs := by
    refine ⟨rfl, nofun, nofun, fun e he => ?_, nofun⟩
    simp [start] at he
  exact (runGuarded_invariant (fun s a hm s' hc hs => hc.step (ha a hm) hs) hstart h).log

theorem cache_transparent_double_miss :
    let fs : FileSystem := fun path =>
      if path = ascii "/srv/a" then .regular (ascii "xy") true
      else if path = ascii "/srv/b" then .regular (ascii "z") true else .missing
    let cgi : CGIOutcome := .writes (ascii "1") []
    let getA := ascii "GET /a HTTP/1.1" ++ kRequestEnd
    let getB := ascii "GET /b HTTP/1.1" ++ kRequestEnd
    ∃ s : ServerState ℕ, run (ascii "/srv") (start ⟨fs, Store.new 0 2⟩)
      [.arrive 5 getA cgi, .arrive 6 getA cgi, .advance 5 1, .advance 6 2, .advance 6 3,
        .advance 5 4, .advance 6 5, .advance 5 6, .arrive 7 getB cgi, .advance 7 7, .advance 7 8,
        .advance 7 9] = some s ∧ s.log.length = 3 ∧
      ∀ e ∈ s.log, e.path = ascii "/srv" ++ e.request.resourceUrl ∧
        handleStaticUncached fs e.request e.path [] = .ok e.handled := by
  intro fs cgi getA getB
  have h : ((run (ascii "/srv") (start ⟨fs, Store.new 0 2⟩)
      [.arrive 5 getA cgi, .arrive 6 getA cgi, .advance 5 1, .advance 6 2, .advance 6 3,
        .advance 5 4, .advance 6 5, .advance 5 6, .arrive 7 getB cgi, .advance 7 7, .advance 7 8,
        .advance 7 9]).map fun s : ServerState ℕ => s.log.length) = some 3 := by
    decide +kernel
  obtain ⟨s, hs, hlen⟩ := Option.map_eq_some_iff.mp h
  exact ⟨s, hs, hlen, cache_transparent (ascii "/srv") fs 0 2 (by decide +kernel) hs⟩

end ServerState

end Transparency

end HttpReactor
