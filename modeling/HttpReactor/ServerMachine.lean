import HttpReactor.HttpServer
import HttpReactor.Refinement

/-!
# Many connections sharing one cache

`HandleStaticResourceRequest` is cut at its accesses to the cache and the disk, so
that requests of different connections interleave between any two of them. A CGI
request, which touches neither the cache nor a file of another request, is one step.
The file system may change at any time, but not at a path that a request in flight
is working on.
-/

namespace HttpReactor
open LruStore Refinement

inductive StaticPhase
  | tryLoad (responseBuf : DynamicByteArray)
  | loadFile (responseBuf cacheBuf : DynamicByteArray)
  | tryInsert (responseBuf cacheBuf : DynamicByteArray)
deriving DecidableEq, Repr

structure InFlight where
  request : Request
  path : Bytes
  phase : StaticPhase
deriving DecidableEq, Repr

inductive Progress
  | done (handled : Handled)
  | more (phase : StaticPhase)
deriving DecidableEq, Repr

def beginStatic (fs : FileSystem) (request : Request) (path : Bytes)
    (responseBuf : DynamicByteArray) : Except Terminate Progress := do
  if ← isFileExists fs path then
    let response ← Response.make200Response fs request.shouldClose (some path)
    let responseBuf := response.serialize responseBuf
    if request.method = .kGET then
      return .more (.tryLoad responseBuf)
    return .done ⟨responseBuf, request.shouldClose⟩
  else
    return .done ⟨Response.make404Response.serialize responseBuf, true⟩

def advanceStatic (world : World) (now : Int) (r : InFlight) :
    Except Terminate (Progress × Store) :=
  match r.phase with
  | .tryLoad responseBuf =>
    let loaded := world.store.tryLoad now r.path []
    if loaded.1.1 then
      return (.done ⟨responseBuf ++ loaded.1.2, r.request.shouldClose⟩, loaded.2)
    else
      return (.more (.loadFile responseBuf loaded.1.2), loaded.2)
  | .loadFile responseBuf cacheBuf => do
    let cacheBuf ← loadFile world.fs r.path cacheBuf
    return (.more (.tryInsert responseBuf cacheBuf), world.store)
  | .tryInsert responseBuf cacheBuf =>
    return (.done ⟨responseBuf ++ cacheBuf, r.request.shouldClose⟩,
      (world.store.tryInsert now r.path cacheBuf).2)

structure Served where
  request : Request
  path : Bytes
  handled : Handled
deriving DecidableEq, Repr

variable {κ : Type} [DecidableEq κ]

structure ServerState (κ : Type) where
  world : World
  inFlight : List (κ × InFlight)
  log : List Served

inductive Action (κ : Type)
  | arrive (conn : κ) (requestStr : Bytes) (cgi : CGIOutcome)
  | advance (conn : κ) (now : Int)
  | change (fs : FileSystem)

namespace ServerState

def start (world : World) : ServerState κ := ⟨world, [], []⟩

def current (s : ServerState κ) (conn : κ) : Option InFlight := s.inFlight.lookup conn

/-- The file system may become `fs` without changing a path in flight. -/
def Keeps (s : ServerState κ) (fs : FileSystem) : Prop :=
  ∀ e ∈ s.inFlight, fs.at e.2.path = s.world.fs.at e.2.path

instance (s : ServerState κ) (fs : FileSystem) : Decidable (s.Keeps fs) :=
  inferInstanceAs (Decidable (∀ e ∈ s.inFlight, _))

def proceed (s : ServerState κ) (world : World) (conn : κ) (request : Request) (path : Bytes) :
    Progress → ServerState κ
  | .done handled =>
    { world := world
      inFlight := s.inFlight.filter fun e => e.1 ≠ conn
      log := s.log ++ [⟨request, path, handled⟩] }
  | .more phase =>
    { world := world
      inFlight := (conn, ⟨request, path, phase⟩) :: s.inFlight.filter fun e => e.1 ≠ conn
      log := s.log }

def step (dir : Bytes) (s : ServerState κ) : Action κ → Option (ServerState κ)
  | .arrive conn requestStr cgi =>
    match s.current conn with
    | some _ => none
    | none =>
      let request := Request.ofString requestStr
      let path := dir ++ request.resourceUrl
      if request.isValid = false then
        some (s.proceed s.world conn request path
          (.done ⟨Response.make400Response.serialize [], true⟩))
      else if isCGIRequest path then
        match handleCGIRequest s.world.fs cgi request path [] with
        | .error _ => none
        | .ok (handled, fs) =>
          if s.Keeps fs then
            some (s.proceed { s.world with fs := fs } conn request path (.done handled))
          else none
      else
        match beginStatic s.world.fs request path [] with
        | .error _ => none
        | .ok progress => some (s.proceed s.world conn request path progress)
  | .advance conn now =>
    match s.current conn with
    | none => none
    | some r =>
      match advanceStatic s.world now r with
      | .error _ => none
      | .ok (progress, store) =>
        some (s.proceed { s.world with store := store } conn r.request r.path progress)
  | .change fs =>
    if s.Keeps fs then some { s with world := { s.world with fs := fs } } else none

def run (dir : Bytes) (s : ServerState κ) (actions : List (Action κ)) : Option (ServerState κ) :=
  runGuarded (step dir) s actions

inductive Stepped (dir : Bytes) (s : ServerState κ) : Action κ → ServerState κ → Prop
  | invalid (conn : κ) (requestStr : Bytes) (cgi : CGIOutcome) (request : Request)
      (hr : Request.ofString requestStr = request) (hv : request.isValid = false) :
      Stepped dir s (.arrive conn requestStr cgi)
        (s.proceed s.world conn request (dir ++ request.resourceUrl)
          (.done ⟨Response.make400Response.serialize [], true⟩))
  | cgi (conn : κ) (requestStr : Bytes) (cgi : CGIOutcome) (request : Request) (handled : Handled)
      (fs : FileSystem) (hr : Request.ofString requestStr = request)
      (hv : request.isValid = true) (hc : isCGIRequest (dir ++ request.resourceUrl) = true)
      (hh : handleCGIRequest s.world.fs cgi request (dir ++ request.resourceUrl) [] =
        .ok (handled, fs))
      (hk : s.Keeps fs) :
      Stepped dir s (.arrive conn requestStr cgi)
        (s.proceed { s.world with fs := fs } conn request (dir ++ request.resourceUrl)
          (.done handled))
  | begun (conn : κ) (requestStr : Bytes) (cgi : CGIOutcome) (request : Request)
      (progress : Progress) (hr : Request.ofString requestStr = request)
      (hv : request.isValid = true) (hc : isCGIRequest (dir ++ request.resourceUrl) = false)
      (hh : beginStatic s.world.fs request (dir ++ request.resourceUrl) [] = .ok progress) :
      Stepped dir s (.arrive conn requestStr cgi)
        (s.proceed s.world conn request (dir ++ request.resourceUrl) progress)
  | advanced (conn : κ) (now : Int) (r : InFlight) (progress : Progress) (store : Store)
      (hf : s.current conn = some r) (hh : advanceStatic s.world now r = .ok (progress, store)) :
      Stepped dir s (.advance conn now)
        (s.proceed { s.world with store := store } conn r.request r.path progress)
  | changed (fs : FileSystem) (hk : s.Keeps fs) :
      Stepped dir s (.change fs) { s with world := { s.world with fs := fs } }

theorem stepped_of_step {dir : Bytes} {s s' : ServerState κ} {a : Action κ}
    (h : step dir s a = some s') : Stepped dir s a s' := by
  cases a with
  | arrive conn requestStr cgi =>
    simp only [step] at h
    split at h
    · cases h
    · split_ifs at h with hv hc
      · cases h
        exact .invalid conn requestStr cgi _ rfl hv
      · rw [Bool.not_eq_false] at hv
        split at h
        · cases h
        · next handled fs hh =>
          split_ifs at h with hk
          cases h
          exact .cgi conn requestStr cgi _ handled fs rfl hv hc hh hk
      · rw [Bool.not_eq_false] at hv
        rw [Bool.not_eq_true] at hc
        split at h
        · cases h
        · next progress hh =>
          cases h
          exact .begun conn requestStr cgi _ progress rfl hv hc hh
  | advance conn now =>
    simp only [step] at h
    split at h
    · cases h
    · next r hf =>
      split at h
      · cases h
      · next progress store hh =>
        cases h
        exact .advanced conn now r progress store hf hh
  | change fs =>
    simp only [step] at h
    split_ifs at h with hk
    cases h
    exact .changed fs hk

theorem mem_inFlight_of_current {s : ServerState κ} {conn : κ} {r : InFlight}
    (h : s.current conn = some r) : (conn, r) ∈ s.inFlight := by
  obtain ⟨l₁, l₂, he, -⟩ := List.lookup_eq_some_iff.mp h
  rw [he]
  exact List.mem_append_right _ List.mem_cons_self

end ServerState

section Spec

variable {fs : FileSystem} {path : Bytes}

def fileHead (request : Request) (path content : Bytes) : Bytes :=
  (Response.withResource kResponseStatusOK request.shouldClose path content.length).head

def fileBytes (content : Bytes) (readable : Bool) : Bytes :=
  readInto (.regular content readable) content.length

theorem beginStatic_missing (h : fs.at path = .missing) (request : Request) :
    beginStatic fs request path [] = .ok (.done ⟨Response.make404Response.head, true⟩) := by
  simp [beginStatic, isFileExists_missing h, Response.serialize]

theorem beginStatic_regular {content : Bytes} {readable : Bool}
    (h : fs.at path = .regular content readable) (request : Request) :
    beginStatic fs request path [] =
      .ok (if request.method = .kGET then .more (.tryLoad (fileHead request path content))
        else .done ⟨fileHead request path content, request.shouldClose⟩) := by
  simp only [beginStatic, isFileExists_regular h, Response.make200Response_regular h,
    ok_bind, pure_eq_ok, if_true, Response.serialize, List.nil_append,
    fileHead]
  split_ifs <;> rfl

theorem beginStatic_eq_ok {request : Request} {progress : Progress}
    (h : beginStatic fs request path [] = .ok progress) :
    fs.at path = .missing ∧ progress = .done ⟨Response.make404Response.head, true⟩ ∨
      ∃ content readable, fs.at path = .regular content readable ∧
        progress = if request.method = .kGET then .more (.tryLoad (fileHead request path content))
          else .done ⟨fileHead request path content, request.shouldClose⟩ := by
  cases hp : fs.at path with
  | missing =>
    rw [beginStatic_missing hp] at h
    exact Or.inl ⟨rfl, (Except.ok.inj h).symm⟩
  | regular content readable =>
    rw [beginStatic_regular hp] at h
    exact Or.inr ⟨content, readable, rfl, (Except.ok.inj h).symm⟩
  | directory | special =>
    have hs : (fs.at path).Sizeless := by
      rw [hp]
      trivial
    simp [beginStatic, isFileExists_sizeless hs, Response.make200Response_sizeless hs] at h
  | refused => simp [beginStatic, isFileExists_refused hp] at h

end Spec

inductive Accessed (world : World) (now : Int) (r : InFlight) : Progress → Store → Prop
  | hit (store : Store) (responseBuf bytes : Bytes) (es : Entries Bytes Bytes)
      (hp : r.phase = .tryLoad responseBuf)
      (hl : load r.path world.store.entries = some (bytes, es)) (hs : store.entries = es) :
      Accessed world now r (.done ⟨responseBuf ++ bytes, r.request.shouldClose⟩) store
  | miss (responseBuf : Bytes) (hp : r.phase = .tryLoad responseBuf)
      (hl : load r.path world.store.entries = none) :
      Accessed world now r (.more (.loadFile responseBuf [])) world.store
  | loaded (responseBuf cacheBuf file : Bytes) (hp : r.phase = .loadFile responseBuf cacheBuf)
      (hl : loadFile world.fs r.path cacheBuf = .ok file) :
      Accessed world now r (.more (.tryInsert responseBuf file)) world.store
  | inserted (responseBuf cacheBuf : Bytes) (hp : r.phase = .tryInsert responseBuf cacheBuf) :
      Accessed world now r (.done ⟨responseBuf ++ cacheBuf, r.request.shouldClose⟩)
        (world.store.tryInsert now r.path cacheBuf).2

theorem accessed_of_advanceStatic {world : World} {now : Int} {r : InFlight} {progress : Progress}
    {store : Store} (h : advanceStatic world now r = .ok (progress, store)) :
    Accessed world now r progress store := by
  unfold advanceStatic at h
  split at h
  · next responseBuf hp =>
    cases hl : load r.path world.store.entries with
    | none =>
      rw [Store.tryLoad_miss hl] at h
      cases h
      exact .miss responseBuf hp hl
    | some q =>
      obtain ⟨bytes, es⟩ := q
      obtain ⟨h₁, h₂⟩ := Store.tryLoad_hit hl now []
      simp only [h₁, if_true, List.nil_append] at h
      cases h
      exact .hit _ responseBuf bytes es hp hl h₂
  · next responseBuf cacheBuf hp =>
    obtain ⟨file, hl, h⟩ := bind_eq_ok h
    cases h
    exact .loaded responseBuf cacheBuf file hp hl
  · next responseBuf cacheBuf hp =>
    cases h
    exact .inserted responseBuf cacheBuf hp

def StaticPhase.Holds (head file : Bytes) : StaticPhase → Prop
  | .tryLoad responseBuf => responseBuf = head
  | .loadFile responseBuf cacheBuf => responseBuf = head ∧ cacheBuf = []
  | .tryInsert responseBuf cacheBuf => responseBuf = head ∧ cacheBuf = file

/-- A request in flight is a GET of an existing file and holds that file's head, and its bytes
once they have been loaded. -/
def InFlight.Consistent (fs : FileSystem) (r : InFlight) : Prop :=
  r.request.method = .kGET ∧ ∃ content readable, fs.at r.path = .regular content readable ∧
    r.phase.Holds (fileHead r.request r.path content) (fileBytes content readable)

inductive Advanced (store : Store) (now : Int) (r : InFlight) (head file : Bytes) :
    Progress → Store → Prop
  | hit (store' : Store) (bytes : Bytes) (es : Entries Bytes Bytes)
      (hp : r.phase = .tryLoad head) (hl : load r.path store.entries = some (bytes, es))
      (hs : store'.entries = es) :
      Advanced store now r head file (.done ⟨head ++ bytes, r.request.shouldClose⟩) store'
  | miss (hp : r.phase = .tryLoad head) (hl : load r.path store.entries = none) :
      Advanced store now r head file (.more (.loadFile head [])) store
  | loaded (hp : r.phase = .loadFile head []) :
      Advanced store now r head file (.more (.tryInsert head file)) store
  | inserted (hp : r.phase = .tryInsert head file) :
      Advanced store now r head file (.done ⟨head ++ file, r.request.shouldClose⟩)
        (store.tryInsert now r.path file).2

theorem advanced_of_advanceStatic {world : World} {now : Int} {r : InFlight} {progress : Progress}
    {store : Store} {content : Bytes} {readable : Bool}
    (hat : world.fs.at r.path = .regular content readable)
    (hold : r.phase.Holds (fileHead r.request r.path content) (fileBytes content readable))
    (h : advanceStatic world now r = .ok (progress, store)) :
    Advanced world.store now r (fileHead r.request r.path content) (fileBytes content readable)
      progress store := by
  cases accessed_of_advanceStatic h with
  | hit store' responseBuf bytes es hp hl hs =>
    rw [hp] at hold
    exact hold ▸ .hit _ bytes es (hold ▸ hp) hl hs
  | miss responseBuf hp hl =>
    rw [hp] at hold
    exact hold ▸ .miss (hold ▸ hp) hl
  | loaded responseBuf cacheBuf file hp hl =>
    rw [hp] at hold
    obtain ⟨rfl, rfl⟩ := hold
    rw [loadFile_regular hat] at hl
    cases hl
    exact .loaded hp
  | inserted responseBuf cacheBuf hp =>
    rw [hp] at hold
    obtain ⟨rfl, rfl⟩ := hold
    exact .inserted hp

namespace ServerState

variable {dir : Bytes} {s s' : ServerState κ} {a : Action κ}

def Consistent (s : ServerState κ) : Prop := ∀ e ∈ s.inFlight, e.2.Consistent s.world.fs

theorem Consistent.current {conn : κ} {r : InFlight} (h : s.Consistent)
    (hf : s.current conn = some r) : r.Consistent s.world.fs :=
  h _ (mem_inFlight_of_current hf)

theorem Consistent.proceed (h : s.Consistent) {world : World} (hk : s.Keeps world.fs) {conn : κ}
    {request : Request} {path : Bytes} {progress : Progress}
    (hp : ∀ phase, progress = .more phase → InFlight.Consistent world.fs ⟨request, path, phase⟩) :
    (s.proceed world conn request path progress).Consistent := by
  have hold : ∀ e ∈ s.inFlight.filter (fun e => e.1 ≠ conn), e.2.Consistent world.fs := by
    intro e he
    have he := (List.mem_filter.mp he).1
    have hc := h e he
    rwa [InFlight.Consistent, ← hk e he] at hc
  cases progress with
  | done handled => exact hold
  | more phase =>
    intro e he
    rcases List.mem_cons.mp he with rfl | he
    · exact hp phase rfl
    · exact hold e he

theorem Consistent.step (h : s.Consistent) (hs : step dir s a = some s') : s'.Consistent := by
  have hrefl : s.Keeps s.world.fs := fun _ _ => rfl
  cases stepped_of_step hs with
  | invalid conn requestStr cgi request hr hv => exact h.proceed hrefl nofun
  | cgi conn requestStr cgi request handled fs hr hv hc hh hk => exact h.proceed hk nofun
  | begun conn requestStr cgi request progress hr hv hc hh =>
    refine h.proceed hrefl fun phase hp => ?_
    subst hp
    rcases beginStatic_eq_ok hh with ⟨-, hm⟩ | ⟨content, readable, hat, hm⟩
    · cases hm
    · split_ifs at hm with hg
      cases hm
      exact ⟨hg, content, readable, hat, rfl⟩
  | advanced conn now r progress store hf hh =>
    have hk : s.Keeps (World.fs { s.world with store := store }) := hrefl
    refine h.proceed hk fun phase hp => ?_
    subst hp
    obtain ⟨hg, content, readable, hat, hold⟩ := h.current hf
    refine ⟨hg, content, readable, hat, ?_⟩
    cases advanced_of_advanceStatic hat hold hh with
    | miss hp hl => exact ⟨rfl, rfl⟩
    | loaded hp => exact ⟨rfl, rfl⟩
  | changed fs hk =>
    intro e he
    have hc := h e he
    rwa [InFlight.Consistent, ← hk e he] at hc

theorem step_arrive_static {conn : κ} {requestStr : Bytes} (cgi : CGIOutcome)
    {progress : Progress} (hi : s.current conn = none)
    (hv : (Request.ofString requestStr).isValid = true)
    (hc : isCGIRequest (dir ++ (Request.ofString requestStr).resourceUrl) = false)
    (hh : beginStatic s.world.fs (Request.ofString requestStr)
      (dir ++ (Request.ofString requestStr).resourceUrl) [] = .ok progress) :
    step dir s (.arrive conn requestStr cgi) =
      some (s.proceed s.world conn (Request.ofString requestStr)
        (dir ++ (Request.ofString requestStr).resourceUrl) progress) := by
  simp [step, hi, hv, hc, hh]

theorem run_get (dir : Bytes) {world : World} (env : RequestEnv) {request : Request}
    {path content : Bytes} {readable : Bool} (hat : world.fs.at path = .regular content readable)
    (hg : request.method = .kGET) (conn : κ) (log : List Served) :
    ∃ actions : List (Action κ),
      run dir ⟨world, [(conn, ⟨request, path, .tryLoad (fileHead request path content)⟩)], log⟩
        actions = some ⟨{ world with store :=
          (staticBody world env request path content.length).2 }, [], log ++ [⟨request, path,
            ⟨fileHead request path content ++ (staticBody world env request path content.length).1,
              request.shouldClose⟩⟩]⟩ := by
  cases hl : (world.store.tryLoad env.loadTime path []).1.1 with
  | true =>
    refine ⟨[.advance conn env.loadTime], ?_⟩
    simp [run, runGuarded, step, current, advanceStatic, proceed, staticBody, hg, hl]
  | false =>
    refine ⟨[.advance conn env.loadTime, .advance conn env.loadTime,
      .advance conn env.insertTime], ?_⟩
    simp [run, runGuarded, step, current, advanceStatic, proceed, staticBody, hg, hl, hat,
      loadFile_regular hat]

/-- A request served while no other is in flight is served as `respond` serves it: the loop
body of `ProcessHttpRequest` is a run of the machine. -/
theorem respond_run {world world' : World} {env : RequestEnv} {requestStr : Bytes}
    {handled : Handled} (h : respond dir world env requestStr = .ok (handled, world'))
    (conn : κ) (log : List Served) :
    ∃ actions : List (Action κ), run dir ⟨world, [], log⟩ actions = some ⟨world', [],
      log ++ [⟨Request.ofString requestStr, dir ++ (Request.ofString requestStr).resourceUrl,
        handled⟩]⟩ := by
  have hidle : (ServerState.mk world [] log).current conn = none := rfl
  cases responded_of_respond h with
  | invalid hv =>
    exact ⟨[.arrive conn requestStr env.cgi], by simp [run, runGuarded, step, hidle, hv, proceed]⟩
  | cgi handled fs hv hc hh =>
    refine ⟨[.arrive conn requestStr env.cgi], ?_⟩
    simp [run, runGuarded, step, hidle, hv, hc, hh, Keeps, proceed]
  | static handled store hv hc hh =>
    cases hp : world.fs.at (dir ++ (Request.ofString requestStr).resourceUrl) with
    | missing =>
      rw [handleStaticResourceRequest_missing hp] at hh
      cases hh
      refine ⟨[.arrive conn requestStr env.cgi], ?_⟩
      rw [run, runGuarded, step_arrive_static env.cgi hidle hv hc (beginStatic_missing hp _)]
      simp [runGuarded, proceed, Response.serialize]
    | regular content readable =>
      rw [handleStaticResourceRequest_regular hp] at hh
      cases hh
      have harr := step_arrive_static env.cgi hidle hv hc (beginStatic_regular hp _)
      by_cases hg : (Request.ofString requestStr).method = .kGET
      · obtain ⟨actions, hrun⟩ := run_get dir env hp hg conn log
        refine ⟨.arrive conn requestStr env.cgi :: actions, ?_⟩
        rw [if_pos hg] at harr
        rw [run, runGuarded, harr]
        simpa [proceed, run, fileHead, Response.serialize] using hrun
      · refine ⟨[.arrive conn requestStr env.cgi], ?_⟩
        rw [if_neg hg] at harr
        rw [run, runGuarded, harr]
        simp [runGuarded, proceed, staticBody, hg, fileHead, Response.serialize]
    | directory | special | refused =>
      have hfile := fileOrNothing_of_handleStaticResourceRequest hh
      rw [hp] at hfile
      exact hfile.elim

end ServerState

end HttpReactor
