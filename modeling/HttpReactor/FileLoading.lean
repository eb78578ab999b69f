import HttpReactor.ServerMachine

/-!
# What `LoadFile` leaves in the buffer, and where it ends up

`LoadFile` takes the address of the first byte that `resize` added and lets `read` fill the
rest. In a release build nothing checks that there is such a byte, or that the file has been
opened: of an empty file the access is out of range, and of a file that cannot be opened the
zeros of `resize` stay (`LoadFileCall.faithful_iff`).

The zeros go into the response and into the cache. A history beside the server keeps the
calls of `LoadFile`. The file system may change at any time, also at the paths in flight: a
cached entry or a response then holds bytes that the file had when it was loaded, if every
call so far found a file that `LoadFile` loads whole (`HoldsFiles.step`).
-/

namespace HttpReactor
open LruStore Refinement

section Loading

def ifstreamRead : PathState → ℕ → Bytes
  | .regular content true, count => content.take count
  | _, _ => []

structure LoadFileCall where
  fs : FileSystem
  filePath : Bytes
  buffer : DynamicByteArray

def LoadFileCall.file (c : LoadFileCall) : PathState := c.fs.at c.filePath

structure FileLoad where
  bufferOldSize : ℕ
  resized : DynamicByteArray
  delivered : Bytes
deriving DecidableEq, Repr

/-- `file_size` and `read` see the same file: a call is one look at one file system. -/
def LoadFileCall.load (c : LoadFileCall) : Except Terminate FileLoad := do
  let fileSize ← checkFileSize c.fs c.filePath
  -- nothing asks whether the file is open
  return { bufferOldSize := c.buffer.length
           resized := c.buffer ++ List.replicate fileSize 0
           delivered := ifstreamRead c.file fileSize }

namespace FileLoad

def InRange (l : FileLoad) : Prop := l.bufferOldSize < l.resized.length

instance : DecidablePred InRange := fun _ => Nat.decLt _ _

def buffer (l : FileLoad) : DynamicByteArray :=
  l.resized.take l.bufferOldSize ++ l.delivered ++
    l.resized.drop (l.bufferOldSize + l.delivered.length)

end FileLoad

/-- The access is in range, and the buffer is the old one followed by `content`. -/
def LoadFileCall.Faithful (c : LoadFileCall) (content : Bytes) : Prop :=
  ∃ l, c.load = .ok l ∧ l.InRange ∧ l.buffer = c.buffer ++ content

def PathState.bytes : PathState → Option Bytes
  | .regular content _ => some content
  | _ => none

/-- A file that is not empty, and that can be opened or is all zeros. -/
def PathState.LoadsWhole : PathState → Prop
  | .regular content readable => content ≠ [] ∧ (readable = true ∨ ∀ b ∈ content, b = 0)
  | _ => False

instance : DecidablePred PathState.LoadsWhole
  | .regular _ _ => inferInstanceAs (Decidable (_ ∧ _))
  | .missing | .directory | .special | .refused => isFalse id

theorem PathState.bytes_eq_some {file : PathState} {content : Bytes}
    (h : file.bytes = some content) : ∃ readable, file = .regular content readable := by
  cases file with
  | regular content' readable =>
    cases h
    exact ⟨readable, rfl⟩
  | missing | directory | special | refused => cases h

theorem PathState.LoadsWhole.regular {file : PathState} (h : file.LoadsWhole) :
    ∃ content readable, file = .regular content readable := by
  cases file with
  | regular content readable => exact ⟨content, readable, rfl⟩
  | missing | directory | special | refused => exact h.elim

theorem fileBytes_eq_iff {content : Bytes} {readable : Bool} :
    fileBytes content readable = content ↔ readable = true ∨ ∀ b ∈ content, b = 0 := by
  cases readable with
  | true => exact iff_of_true rfl (.inl rfl)
  | false =>
    have hz : fileBytes content false = List.replicate content.length 0 := rfl
    rw [hz, eq_comm, List.eq_replicate_iff]
    simp

namespace LoadFileCall

variable {c : LoadFileCall} {content : Bytes} {readable : Bool}

theorem load_regular (h : c.file = .regular content readable) :
    c.load = .ok ⟨c.buffer.length, c.buffer ++ List.replicate content.length 0,
      ifstreamRead (.regular content readable) content.length⟩ := by
  rw [load, checkFileSize_regular h, h]
  rfl

theorem buffer_regular (content buffer : Bytes) (readable : Bool) :
    FileLoad.buffer ⟨buffer.length, buffer ++ List.replicate content.length 0,
      ifstreamRead (.regular content readable) content.length⟩ =
        buffer ++ fileBytes content readable := by
  rw [FileLoad.buffer, List.take_left, List.append_assoc, List.drop_append,
    Nat.add_sub_cancel_left]
  cases readable with
  | true => simp [ifstreamRead, fileBytes, readInto]
  | false => simp [ifstreamRead, fileBytes, readInto]

theorem loadFile_eq_load (c : LoadFileCall) :
    loadFile c.fs c.filePath c.buffer = c.load.map FileLoad.buffer := by
  cases h : c.file with
  | regular content readable =>
    rw [load_regular h, loadFile_regular h, Except.map, buffer_regular]
    rfl
  | missing | directory | special | refused =>
    have hat : c.fs.at c.filePath = _ := h
    simp [loadFile, load, checkFileSize, noexceptCall, stdFileSize, hat, Except.map]

theorem inRange_iff (h : c.file = .regular content readable) {l : FileLoad}
    (hl : c.load = .ok l) : l.InRange ↔ content ≠ [] := by
  rw [load_regular h] at hl
  cases hl
  rw [FileLoad.InRange, List.length_append, List.length_replicate, ← List.length_pos_iff]
  exact Nat.lt_add_right_iff_pos

theorem buffer_eq_iff (h : c.file = .regular content readable) {l : FileLoad}
    (hl : c.load = .ok l) :
    l.buffer = c.buffer ++ content ↔ readable = true ∨ ∀ b ∈ content, b = 0 := by
  rw [load_regular h] at hl
  cases hl
  rw [buffer_regular, List.append_cancel_left_eq, fileBytes_eq_iff]

theorem faithful_iff (h : c.file = .regular content readable) :
    c.Faithful content ↔ c.file.LoadsWhole := by
  rw [h, PathState.LoadsWhole]
  have hl := load_regular h
  constructor
  · intro hf
    obtain ⟨l, hl', hrange, hbuf⟩ := hf
    exact ⟨(inRange_iff h hl').mp hrange, (buffer_eq_iff h hl').mp hbuf⟩
  · intro hw
    obtain ⟨hne, hread⟩ := hw
    exact ⟨_, hl, (inRange_iff h hl).mpr hne, (buffer_eq_iff h hl).mpr hread⟩

theorem Faithful.loadFile_eq (h : c.Faithful content) :
    loadFile c.fs c.filePath c.buffer = .ok (c.buffer ++ content) := by
  obtain ⟨l, hl, -, hbuf⟩ := h
  rw [loadFile_eq_load, hl, Except.map, hbuf]

def LoadsFile (c : LoadFileCall) : Prop :=
  ∃ content, c.file.bytes = some content ∧ c.Faithful content

theorem loadsFile_iff (c : LoadFileCall) : c.LoadsFile ↔ c.file.LoadsWhole := by
  constructor
  · intro h
    obtain ⟨content, hbytes, hf⟩ := h
    obtain ⟨readable, hfile⟩ := PathState.bytes_eq_some hbytes
    exact (faithful_iff hfile).mp hf
  · intro h
    obtain ⟨content, readable, hfile⟩ := h.regular
    exact ⟨content, by rw [hfile]; rfl, (faithful_iff hfile).mpr h⟩

end LoadFileCall

end Loading

namespace CGIRunner

def loadCall (fs : FileSystem) (os : CGIOutcome) : Option LoadFileCall :=
  (whenLoaded fs os).map fun left => ⟨left, sharedFileName os.threadId, []⟩

theorem run_loads {fs fs' : FileSystem} {os : CGIOutcome} {result : Bytes}
    (h : run fs os = .ok (fs', result)) :
    (∃ c content readable, loadCall fs os = some c ∧
        c.filePath = sharedFileName os.threadId ∧ c.file = .regular content readable ∧
          result = fileBytes content readable) ∨
      loadCall fs os = none ∧ result ∈ errorTexts os.threadId := by
  cases returned_of_run h with
  | failed fs' text hl ht => exact .inr ⟨by simp [loadCall, hl], ht⟩
  | loaded left content readable hl hc hr =>
    have hcall : loadCall fs os = some ⟨left, sharedFileName os.threadId, []⟩ := by
      rw [loadCall, hl]
      rfl
    exact .inl ⟨_, content, readable, hcall, rfl, hc, rfl⟩

end CGIRunner

def arrival (dir : Bytes) (fs : FileSystem) (cgi : CGIOutcome) (request : Request) :
    Except Terminate (Progress × FileSystem) := do
  if request.isValid = false then
    return (.done ⟨Response.make400Response.serialize [], true⟩, fs)
  let path := dir ++ request.resourceUrl
  if isCGIRequest path then
    let handled ← handleCGIRequest fs cgi request path []
    return (.done handled.1, handled.2)
  else
    let progress ← beginStatic fs request path []
    return (progress, fs)

def arrivalCall (dir : Bytes) (fs : FileSystem) (cgi : CGIOutcome) (request : Request) :
    Option LoadFileCall :=
  let path := dir ++ request.resourceUrl
  if request.isValid = true ∧ isCGIRequest path = true ∧
      isFileExists fs (CGIRunner.parseCGIRunner path).cgiProgramPath = .ok true then
    CGIRunner.loadCall fs cgi
  else none

def InFlight.loadCall (fs : FileSystem) (r : InFlight) : Option LoadFileCall :=
  match r.phase with
  | .loadFile _ cacheBuf => some ⟨fs, r.path, cacheBuf⟩
  | _ => none

variable {κ : Type} [DecidableEq κ]

namespace ServerState

/-- A step at which the file system may also change under the requests in flight. -/
def freeStep (dir : Bytes) (s : ServerState κ) : Action κ → Option (ServerState κ)
  | .arrive conn requestStr cgi =>
    let request := Request.ofString requestStr
    match s.current conn, arrival dir s.world.fs cgi request with
    | none, .ok (progress, fs) =>
      some (s.proceed { s.world with fs := fs } conn request (dir ++ request.resourceUrl) progress)
    | _, _ => none
  | .advance conn now => step dir s (.advance conn now)
  | .change fs => some { s with world := { s.world with fs := fs } }

def loadCall (dir : Bytes) (s : ServerState κ) : Action κ → Option LoadFileCall
  | .arrive _ requestStr cgi => arrivalCall dir s.world.fs cgi (Request.ofString requestStr)
  | .advance conn _ => (s.current conn).bind (InFlight.loadCall s.world.fs)
  | .change _ => none

theorem current_of_step_arrive {dir : Bytes} {s s' : ServerState κ} {conn : κ}
    {requestStr : Bytes} {cgi : CGIOutcome}
    (h : step dir s (.arrive conn requestStr cgi) = some s') : s.current conn = none := by
  simp only [step] at h
  split at h
  · cases h
  · next hidle => exact hidle

theorem freeStep_of_step {dir : Bytes} {s s' : ServerState κ} {a : Action κ}
    (h : step dir s a = some s') : freeStep dir s a = some s' := by
  cases stepped_of_step h with
  | invalid conn requestStr cgi request hr hv =>
    simp [freeStep, arrival, current_of_step_arrive h, hr, hv]
  | cgi conn requestStr cgi request handled fs hr hv hc hh hk =>
    simp [freeStep, arrival, current_of_step_arrive h, hr, hv, hc, hh]
  | begun conn requestStr cgi request progress hr hv hc hh =>
    simp [freeStep, arrival, current_of_step_arrive h, hr, hv, hc, hh]
  | advanced conn now r progress store hf hh => exact h
  | changed fs hk => rfl

end ServerState

structure LoadHistory (κ : Type) where
  server : ServerState κ
  calls : List LoadFileCall

namespace LoadHistory

def start (world : World) : LoadHistory κ := ⟨.start world, []⟩

def step (dir : Bytes) (h : LoadHistory κ) (a : Action κ) : Option (LoadHistory κ) :=
  (h.server.freeStep dir a).map fun s => ⟨s, h.calls ++ (h.server.loadCall dir a).toList⟩

def run (dir : Bytes) (h : LoadHistory κ) (actions : List (Action κ)) : Option (LoadHistory κ) :=
  runGuarded (step dir) h actions

theorem step_eq_some {dir : Bytes} {h h' : LoadHistory κ} {a : Action κ}
    (hs : step dir h a = some h') :
    h.server.freeStep dir a = some h'.server ∧
      h'.calls = h.calls ++ (h.server.loadCall dir a).toList := by
  obtain ⟨s, hfree, rfl⟩ := Option.map_eq_some_iff.mp hs
  exact ⟨hfree, rfl⟩

theorem calls_of_step {dir : Bytes} {h h' : LoadHistory κ} {a : Action κ}
    (hs : step dir h a = some h') :
    h.calls ⊆ h'.calls ∧ ∀ c ∈ h.server.loadCall dir a, c ∈ h'.calls := by
  rw [(step_eq_some hs).2]
  exact ⟨List.subset_append_left _ _,
    fun c hc => List.mem_append_right _ (Option.mem_toList.mpr hc)⟩

theorem run_of_run {dir : Bytes} {s s' : ServerState κ} {actions : List (Action κ)}
    (h : ServerState.run dir s actions = some s') (calls : List LoadFileCall) :
    ∃ calls', run dir ⟨s, calls⟩ actions = some ⟨s', calls'⟩ := by
  induction actions generalizing s calls with
  | nil =>
    cases h
    exact ⟨calls, rfl⟩
  | cons a as ih =>
    obtain ⟨s₁, h₁, hrest⟩ := runGuarded_cons_eq_some h
    obtain ⟨calls', hrun⟩ := ih hrest (calls ++ (s.loadCall dir a).toList)
    refine ⟨calls', ?_⟩
    rw [run, runGuarded, step, ServerState.freeStep_of_step h₁]
    exact hrun

end LoadHistory

section Contents

variable {calls calls' : List LoadFileCall}

def LoadedBytes (calls : List LoadFileCall) (path bytes : Bytes) : Prop :=
  ∃ c ∈ calls, c.filePath = path ∧ c.file.bytes = some bytes

instance (calls : List LoadFileCall) (path bytes : Bytes) :
    Decidable (LoadedBytes calls path bytes) :=
  inferInstanceAs (Decidable (∃ c ∈ calls, _))

theorem LoadedBytes.mono (hsub : calls ⊆ calls') {path bytes : Bytes}
    (h : LoadedBytes calls path bytes) : LoadedBytes calls' path bytes := by
  obtain ⟨c, hc, hpath, hbytes⟩ := h
  exact ⟨c, hsub hc, hpath, hbytes⟩

def Store.HoldsFiles (calls : List LoadFileCall) (store : Store) : Prop :=
  ∀ e ∈ store.entries, LoadedBytes calls e.1 e.2

instance (calls : List LoadFileCall) : DecidablePred (Store.HoldsFiles calls) :=
  fun store => inferInstanceAs (Decidable (∀ e ∈ store.entries, _))

theorem Store.HoldsFiles.mono (hsub : calls ⊆ calls') {store : Store}
    (h : store.HoldsFiles calls) : store.HoldsFiles calls' :=
  fun e he => (h e he).mono hsub

/-- A response that refuses the request, or the head of a 200 response and a body: none, the
bytes of the requested file or of a CGI program's file, or an error text of `Run`. -/
inductive Served.HoldsFiles (calls : List LoadFileCall) (e : Served) : Prop
  | refused (h : e.handled.responseBuf ∈
      [Response.make400Response.head, Response.make404Response.head])
  | headOnly (disk : Bytes) (hc : isCGIRequest e.path = false) (hm : e.request.method ≠ .kGET)
      (h : e.handled.responseBuf = fileHead e.request e.path disk)
  | file (disk bytes : Bytes) (hc : isCGIRequest e.path = false) (hm : e.request.method = .kGET)
      (hb : LoadedBytes calls e.path bytes)
      (h : e.handled.responseBuf = fileHead e.request e.path disk ++ bytes)
  | result (threadId bytes : Bytes) (hc : isCGIRequest e.path = true)
      (hb : LoadedBytes calls (CGIRunner.sharedFileName threadId) bytes)
      (h : e.handled.responseBuf =
        (cgiResponse e.request.shouldClose bytes.length).head ++ bytes)
  | failure (threadId text : Bytes) (hc : isCGIRequest e.path = true)
      (ht : text ∈ CGIRunner.errorTexts threadId)
      (h : e.handled.responseBuf = (cgiResponse e.request.shouldClose text.length).head ++ text)

theorem Served.HoldsFiles.mono (hsub : calls ⊆ calls') {e : Served} (h : e.HoldsFiles calls) :
    e.HoldsFiles calls' := by
  cases h with
  | refused h => exact .refused h
  | headOnly disk hc hm h => exact .headOnly disk hc hm h
  | file disk bytes hc hm hb h => exact .file disk bytes hc hm (hb.mono hsub) h
  | result threadId bytes hc hb h => exact .result threadId bytes hc (hb.mono hsub) h
  | failure threadId text hc ht h => exact .failure threadId text hc ht h

def StaticPhase.HoldsFiles (calls : List LoadFileCall) (head path : Bytes) : StaticPhase → Prop
  | .tryLoad responseBuf => responseBuf = head
  | .loadFile responseBuf cacheBuf => responseBuf = head ∧ cacheBuf = []
  | .tryInsert responseBuf cacheBuf => responseBuf = head ∧ LoadedBytes calls path cacheBuf

theorem StaticPhase.HoldsFiles.mono (hsub : calls ⊆ calls') {head path : Bytes}
    {phase : StaticPhase} (h : phase.HoldsFiles calls head path) :
    phase.HoldsFiles calls' head path := by
  cases phase with
  | tryLoad responseBuf => exact h
  | loadFile responseBuf cacheBuf => exact h
  | tryInsert responseBuf cacheBuf => exact ⟨h.1, h.2.mono hsub⟩

structure InFlight.HoldsFiles (calls : List LoadFileCall) (r : InFlight) : Prop where
  static : isCGIRequest r.path = false
  method : r.request.method = .kGET
  phase : ∃ disk, r.phase.HoldsFiles calls (fileHead r.request r.path disk) r.path

theorem InFlight.HoldsFiles.mono (hsub : calls ⊆ calls') {r : InFlight} (h : r.HoldsFiles calls) :
    r.HoldsFiles calls' := by
  obtain ⟨hc, hm, disk, hp⟩ := h
  exact ⟨hc, hm, disk, hp.mono hsub⟩

def Progress.HoldsFiles (calls : List LoadFileCall) (request : Request) (path : Bytes) :
    Progress → Prop
  | .done handled => Served.HoldsFiles calls ⟨request, path, handled⟩
  | .more phase => InFlight.HoldsFiles calls ⟨request, path, phase⟩

theorem handleCGIRequest_holdsFiles {fs fs' : FileSystem} {cgi : CGIOutcome} {request : Request}
    {path : Bytes} {handled : Handled} (hc : isCGIRequest path = true)
    (hcall : isFileExists fs (CGIRunner.parseCGIRunner path).cgiProgramPath = .ok true →
      ∀ c, CGIRunner.loadCall fs cgi = some c → c ∈ calls ∧ c.file.LoadsWhole)
    (h : handleCGIRequest fs cgi request path [] = .ok (handled, fs')) :
    Served.HoldsFiles calls ⟨request, path, handled⟩ := by
  cases cgiHandled_of_handleCGIRequest h with
  | invalid _ => exact .refused List.mem_cons_self
  | missing _ _ => exact .refused (List.mem_cons_of_mem _ List.mem_cons_self)
  | ran fs' result _ he hrun =>
    rcases CGIRunner.run_loads hrun with
      ⟨c, content, readable, hload, hpath, hfile, rfl⟩ | ⟨-, htext⟩
    · obtain ⟨hmem, hwhole⟩ := hcall he c hload
      rw [hfile] at hwhole
      have hb : LoadedBytes calls (CGIRunner.sharedFileName cgi.threadId)
          (fileBytes content readable) :=
        ⟨c, hmem, hpath, by rw [fileBytes_eq_iff.mpr hwhole.2, hfile]; rfl⟩
      exact .result cgi.threadId _ hc hb rfl
    · exact .failure cgi.threadId result hc htext rfl

theorem beginStatic_holdsFiles {fs : FileSystem} {request : Request} {path : Bytes}
    {progress : Progress} (hc : isCGIRequest path = false)
    (h : beginStatic fs request path [] = .ok progress) :
    progress.HoldsFiles calls request path := by
  rcases beginStatic_eq_ok h with ⟨-, rfl⟩ | ⟨content, readable, -, rfl⟩
  · exact .refused (List.mem_cons_of_mem _ List.mem_cons_self)
  · split_ifs with hg
    · exact ⟨hc, hg, content, rfl⟩
    · exact .headOnly content hc hg rfl

theorem arrival_holdsFiles {dir : Bytes} {fs fs' : FileSystem} {cgi : CGIOutcome}
    {request : Request} {progress : Progress}
    (hcall : ∀ c, arrivalCall dir fs cgi request = some c → c ∈ calls ∧ c.file.LoadsWhole)
    (h : arrival dir fs cgi request = .ok (progress, fs')) :
    progress.HoldsFiles calls request (dir ++ request.resourceUrl) := by
  simp only [arrival, pure_eq_ok] at h
  split_ifs at h with hv hc
  · cases h
    exact .refused List.mem_cons_self
  · rw [Bool.not_eq_false] at hv
    obtain ⟨⟨handled, fs₁⟩, hh, h⟩ := bind_eq_ok h
    cases h
    refine handleCGIRequest_holdsFiles hc (fun hx c hload => hcall c ?_) hh
    rw [arrivalCall, if_pos ⟨hv, hc, hx⟩, hload]
  · rw [Bool.not_eq_true] at hc
    obtain ⟨progress₁, hh, h⟩ := bind_eq_ok h
    cases h
    exact beginStatic_holdsFiles hc hh

theorem advanceStatic_holdsFiles {world : World} {now : Int} {r : InFlight} {progress : Progress}
    {store : Store} (hr : r.HoldsFiles calls) (hst : world.store.HoldsFiles calls)
    (hsub : calls ⊆ calls')
    (hcall : ∀ c, r.loadCall world.fs = some c → c ∈ calls' ∧ c.file.LoadsWhole)
    (h : advanceStatic world now r = .ok (progress, store)) :
    progress.HoldsFiles calls' r.request r.path ∧ store.HoldsFiles calls' := by
  -- Only a load can bring in bytes that no earlier call has loaded, and they are the file's if it
  -- is loaded whole.
  obtain ⟨hc, hm, disk, hphase⟩ := hr
  cases accessed_of_advanceStatic h with
  | hit store responseBuf bytes es hp hl hs =>
    rw [hp] at hphase
    obtain ⟨hmem, hes⟩ := mem_of_load hl
    have hbytes := (hst _ hmem).mono hsub
    refine ⟨.file disk bytes hc hm hbytes (by rw [hphase]), fun e he => ?_⟩
    rw [hs] at he
    exact (hst e (hes e he)).mono hsub
  | miss responseBuf hp hl =>
    rw [hp] at hphase
    exact ⟨⟨hc, hm, disk, hphase, rfl⟩, hst.mono hsub⟩
  | loaded responseBuf cacheBuf file hp hl =>
    rw [hp] at hphase
    obtain ⟨hbuf, rfl⟩ := hphase
    have hload : r.loadCall world.fs = some ⟨world.fs, r.path, []⟩ := by
      rw [InFlight.loadCall, hp]
    obtain ⟨hmem, hwhole⟩ := hcall _ hload
    obtain ⟨content, hfile, hfaithful⟩ := (LoadFileCall.loadsFile_iff _).mpr hwhole
    have hbytes : LoadedBytes calls' r.path content := ⟨_, hmem, rfl, hfile⟩
    have hread : loadFile world.fs r.path [] = .ok content := hfaithful.loadFile_eq
    rw [hread] at hl
    cases hl
    exact ⟨⟨hc, hm, disk, hbuf, hbytes⟩, hst.mono hsub⟩
  | inserted responseBuf cacheBuf hp =>
    rw [hp] at hphase
    obtain ⟨hbuf, hbytes⟩ := hphase
    refine ⟨.file disk cacheBuf hc hm (hbytes.mono hsub) (by rw [hbuf]), fun e he => ?_⟩
    rcases Store.mem_tryInsert_entries he with he | rfl
    · exact (hst e he).mono hsub
    · exact hbytes.mono hsub

end Contents

namespace LoadHistory

structure HoldsFiles (h : LoadHistory κ) : Prop where
  inFlight : ∀ e ∈ h.server.inFlight, e.2.HoldsFiles h.calls
  store : h.server.world.store.HoldsFiles h.calls
  log : ∀ e ∈ h.server.log, e.HoldsFiles h.calls

variable {dir : Bytes} {h h' : LoadHistory κ} {a : Action κ}

theorem HoldsFiles.proceed {s : ServerState κ} {calls calls' : List LoadFileCall}
    (hh : HoldsFiles ⟨s, calls⟩) (hsub : calls ⊆ calls') {world : World}
    (hst : world.store.HoldsFiles calls') (conn : κ) {request : Request} {path : Bytes}
    {progress : Progress} (hp : progress.HoldsFiles calls' request path) :
    HoldsFiles ⟨s.proceed world conn request path progress, calls'⟩ := by
  have hold : ∀ e ∈ s.inFlight.filter (fun e => e.1 ≠ conn), e.2.HoldsFiles calls' :=
    fun e he => (hh.inFlight e (List.mem_filter.mp he).1).mono hsub
  have hlog : ∀ e ∈ s.log, e.HoldsFiles calls' := fun e he => (hh.log e he).mono hsub
  cases progress with
  | done handled =>
    refine ⟨hold, hst, fun e he => ?_⟩
    rcases List.mem_append.mp he with he | he
    · exact hlog e he
    · rw [List.mem_singleton.mp he]
      exact hp
  | more phase =>
    refine ⟨fun e he => ?_, hst, hlog⟩
    rcases List.mem_cons.mp he with rfl | he
    · exact hp
    · exact hold e he

theorem HoldsFiles.step (hh : h.HoldsFiles)
    (hw : ∀ c ∈ h.server.loadCall dir a, c.file.LoadsWhole)
    (hs : LoadHistory.step dir h a = some h') : h'.HoldsFiles := by
  obtain ⟨s, calls⟩ := h
  obtain ⟨s', calls'⟩ := h'
  obtain ⟨hsub, hmem⟩ := calls_of_step hs
  have hfree : s.freeStep dir a = some s' := (step_eq_some hs).1
  cases a with
  | arrive conn requestStr cgi =>
    simp only [ServerState.freeStep] at hfree
    split at hfree
    · next progress fs hidle harr =>
      cases hfree
      have hst : (World.store { s.world with fs := fs }).HoldsFiles calls' := hh.store.mono hsub
      exact hh.proceed hsub hst conn
        (arrival_holdsFiles (fun c hc => ⟨hmem c hc, hw c hc⟩) harr)
    · cases hfree
  | advance conn now =>
    have hadvance : ServerState.step dir s (.advance conn now) = some s' := hfree
    cases ServerState.stepped_of_step hadvance with
    | advanced conn now r progress store hf hadv =>
      have hr : r.HoldsFiles calls := hh.inFlight _ (ServerState.mem_inFlight_of_current hf)
      have hcall : ∀ c, r.loadCall s.world.fs = some c → c ∈ calls' ∧ c.file.LoadsWhole := by
        intro c hc
        have hc' : c ∈ s.loadCall dir (.advance conn now) := by
          rw [ServerState.loadCall, hf]
          exact hc
        exact ⟨hmem c hc', hw c hc'⟩
      obtain ⟨hp, hst⟩ := advanceStatic_holdsFiles hr hh.store hsub hcall hadv
      exact hh.proceed hsub hst conn hp
  | change fs =>
    cases hfree
    exact ⟨fun e he => (hh.inFlight e he).mono hsub, hh.store.mono hsub,
      fun e he => (hh.log e he).mono hsub⟩

theorem calls_step_iff (hs : LoadHistory.step dir h a = some h') :
    (∀ c ∈ h'.calls, c.LoadsFile) ↔
      (∀ c ∈ h.calls, c.LoadsFile) ∧ ∀ c ∈ h.server.loadCall dir a, c.file.LoadsWhole := by
  rw [(step_eq_some hs).2, List.forall_mem_append]
  simp only [Option.mem_toList, Option.mem_def, LoadFileCall.loadsFile_iff]

/-- `LoadFile` is faithful exactly to the regular files that are not empty and can be opened or
are all zeros. In every run, over any changes of the file system, all calls have been faithful
and all that the cache and the responses hold are bytes of files as they were when loaded,
exactly when all calls have found such files. -/
theorem loadFile_faithful_iff (dir : Bytes) (fs : FileSystem) (now : Int) (capacity : UInt64)
    {actions : List (Action κ)} {h : LoadHistory κ}
    (hrun : run dir (start ⟨fs, Store.new now capacity⟩) actions = some h) :
    (∀ (c : LoadFileCall) (content : Bytes) (readable : Bool), c.file = .regular content readable →
        (c.Faithful content ↔ content ≠ [] ∧ (readable = true ∨ ∀ b ∈ content, b = 0))) ∧
      ((∀ c ∈ h.calls, c.LoadsFile) ∧ h.server.world.store.HoldsFiles h.calls ∧
          (∀ e ∈ h.server.log, e.HoldsFiles h.calls) ↔
        Along (step dir) (fun h a => ∀ c ∈ h.server.loadCall dir a, c.file.LoadsWhole)
          (start ⟨fs, Store.new now capacity⟩) actions) := by
  have hcall : ∀ (c : LoadFileCall) (content : Bytes) (readable : Bool),
      c.file = .regular content readable →
        (c.Faithful content ↔ content ≠ [] ∧ (readable = true ∨ ∀ b ∈ content, b = 0)) := by
    intro c content readable hfile
    rw [LoadFileCall.faithful_iff hfile, hfile, PathState.LoadsWhole]
  have hstart : (start ⟨fs, Store.new now capacity⟩ : LoadHistory κ).HoldsFiles := by
    refine ⟨nofun, fun e he => ?_, nofun⟩
    simp [start, ServerState.start] at he
  have hcalls := runGuarded_iff_along (G := fun h : LoadHistory κ => ∀ c ∈ h.calls, c.LoadsFile)
    (P := fun h a => ∀ c ∈ h.server.loadCall dir a, c.file.LoadsWhole)
    (fun _ _ _ (_ : True) _ => trivial) (fun _ _ _ _ hs => calls_step_iff hs) trivial hrun
  refine ⟨hcall, fun hall => (hcalls.mp hall.1).2, fun halong => ?_⟩
  have hholds : h.HoldsFiles := runGuarded_invariant_of_along
    (fun _ _ _ hh hw hs => hh.step hw hs) hstart halong hrun
  exact ⟨hcalls.mpr ⟨nofun, halong⟩, hholds.store, hholds.log⟩

theorem loadFile_faithful_rewritten :
    let before : FileSystem := fun path =>
      if path = ascii "/srv/a" then .regular (ascii "xy") true
      else if path = ascii "/srv/cgi-bin/p" then .regular (ascii "elf") true else .missing
    let after : FileSystem := fun path =>
      if path = ascii "/srv/a" then .regular [0, 0, 0] false else before path
    let cgi : CGIOutcome := .writes (ascii "1") (ascii "out")
    let getA := ascii "GET /a HTTP/1.1" ++ kRequestEnd
    let getP := ascii "GET /cgi-bin/p HTTP/1.1" ++ kRequestEnd
    ∃ h : LoadHistory ℕ, run (ascii "/srv") (start ⟨before, Store.new 0 100⟩)
      [.arrive 5 getA cgi, .advance 5 1, .change after, .advance 5 2, .arrive 6 getP cgi,
        .advance 5 3] = some h ∧ h.calls.length = 2 ∧ h.server.log.length = 2 ∧
      (∀ c ∈ h.calls, c.LoadsFile) ∧ h.server.world.store.HoldsFiles h.calls ∧
      ∀ e ∈ h.server.log, e.HoldsFiles h.calls := by
  intro before after cgi getA getP
  have hlen : ((run (ascii "/srv") (start ⟨before, Store.new 0 100⟩)
      [.arrive 5 getA cgi, .advance 5 1, .change after, .advance 5 2, .arrive 6 getP cgi,
        .advance 5 3]).map fun h : LoadHistory ℕ => (h.calls.length, h.server.log.length)) =
      some (2, 2) := by
    decide +kernel
  obtain ⟨h, hrun, hlen⟩ := Option.map_eq_some_iff.mp hlen
  have hiff := (loadFile_faithful_iff (ascii "/srv") before 0 100 hrun).2
  exact ⟨h, hrun, congrArg Prod.fst hlen, congrArg Prod.snd hlen, hiff.mpr (by decide +kernel)⟩

theorem loadFile_zeros :
    let fs : FileSystem := fun path =>
      if path = ascii "/srv/e" then .regular [] true
      else if path = ascii "/srv/a" then .regular (ascii "xy") false else .missing
    let cgi : CGIOutcome := .writes (ascii "1") []
    let get := ascii "GET /a HTTP/1.1" ++ kRequestEnd
    (∃ l, LoadFileCall.load ⟨fs, ascii "/srv/e", ascii "old"⟩ = .ok l ∧ ¬ l.InRange) ∧
      (∃ l, LoadFileCall.load ⟨fs, ascii "/srv/a", ascii "old"⟩ = .ok l ∧
        l.buffer = ascii "old" ++ [0, 0] ∧ l.buffer ≠ ascii "old" ++ ascii "xy") ∧
      ∃ h : LoadHistory ℕ, run (ascii "/srv") (start ⟨fs, Store.new 0 100⟩)
        [.arrive 5 get cgi, .advance 5 1, .advance 5 2, .advance 5 3] = some h ∧
        (∃ e ∈ h.server.log, e.path = ascii "/srv/a" ∧
          e.handled.responseBuf = fileHead e.request e.path (ascii "xy") ++ [0, 0]) ∧
        (ascii "/srv/a", [0, 0]) ∈ h.server.world.store.entries ∧
        ¬ h.server.world.store.HoldsFiles h.calls := by
  intro fs cgi get
  have hempty : LoadFileCall.file ⟨fs, ascii "/srv/e", ascii "old"⟩ = .regular [] true := rfl
  have hclosed : LoadFileCall.file ⟨fs, ascii "/srv/a", ascii "old"⟩ =
      .regular (ascii "xy") false := rfl
  refine ⟨⟨_, LoadFileCall.load_regular hempty, by decide⟩,
    ⟨_, LoadFileCall.load_regular hclosed, by decide, by decide⟩, ?_⟩
  have h : ((run (ascii "/srv") (start ⟨fs, Store.new 0 100⟩)
      [.arrive 5 get cgi, .advance 5 1, .advance 5 2, .advance 5 3]).map
        fun h : LoadHistory ℕ => decide ((∃ e ∈ h.server.log, e.path = ascii "/srv/a" ∧
          e.handled.responseBuf = fileHead e.request e.path (ascii "xy") ++ [0, 0]) ∧
            (ascii "/srv/a", [0, 0]) ∈ h.server.world.store.entries ∧
              ¬ h.server.world.store.HoldsFiles h.calls)) = some true := by
    decide +kernel
  obtain ⟨h, hrun, hd⟩ := Option.map_eq_some_iff.mp h
  exact ⟨h, hrun, of_decide_eq_true hd⟩

end LoadHistory

end HttpReactor
