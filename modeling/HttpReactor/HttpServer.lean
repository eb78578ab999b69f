import HttpReactor.CacheStore
import HttpReactor.CGIRunner
import HttpReactor.Response

/-!
# The request handlers of the HTTP server

The handlers read the file system and share the cache. A helper that terminates the
process terminates the handler that called it, so every handler returns in
`Except Terminate`.
-/

namespace HttpReactor
open ListSearch LruStore

structure World where
  fs : FileSystem
  store : Store

structure RequestEnv where
  loadTime : Int
  insertTime : Int
  cgi : CGIOutcome
deriving DecidableEq, Repr

structure Handled where
  responseBuf : DynamicByteArray
  shouldFinish : Bool
deriving DecidableEq, Repr

def handleStaticResourceRequest (world : World) (env : RequestEnv) (request : Request)
    (resourceFullPath : Bytes) (responseBuf : DynamicByteArray) :
    Except Terminate (Handled × Store) := do
  if ← isFileExists world.fs resourceFullPath then
    let response ← Response.make200Response world.fs request.shouldClose (some resourceFullPath)
    let responseBuf := response.serialize responseBuf
    if request.method = .kGET then
      let loaded := world.store.tryLoad env.loadTime resourceFullPath []
      if loaded.1.1 then
        return (⟨responseBuf ++ loaded.1.2, request.shouldClose⟩, loaded.2)
      let cacheBuf ← loadFile world.fs resourceFullPath loaded.1.2
      let inserted := loaded.2.tryInsert env.insertTime resourceFullPath cacheBuf
      return (⟨responseBuf ++ cacheBuf, request.shouldClose⟩, inserted.2)
    return (⟨responseBuf, request.shouldClose⟩, world.store)
  else
    return (⟨Response.make404Response.serialize responseBuf, true⟩, world.store)

def handleCGIRequest (fs : FileSystem) (os : CGIOutcome) (request : Request)
    (resourceFullPath : Bytes) (responseBuf : DynamicByteArray) :
    Except Terminate (Handled × FileSystem) := do
  let cgiRunner := CGIRunner.parseCGIRunner resourceFullPath
  if cgiRunner.valid = false then
    return (⟨Response.make400Response.serialize responseBuf, true⟩, fs)
  if ← isFileExists fs cgiRunner.cgiProgramPath then
    let ran ← CGIRunner.run fs os
    let response ← Response.make200Response ran.1 request.shouldClose none
    let changed := response.changeHeader kHeaderContentLength (toDecimal ran.2.length)
    return (⟨changed.1.serialize responseBuf ++ ran.2, request.shouldClose⟩, ran.1)
  else
    return (⟨Response.make404Response.serialize responseBuf, true⟩, fs)

/-- The body of the loop of `ProcessHttpRequest`, up to the response. -/
def respond (servingDirectory : Bytes) (world : World) (env : RequestEnv) (requestStr : Bytes) :
    Except Terminate (Handled × World) := do
  let request := Request.ofString requestStr
  if request.isValid = false then
    return (⟨Response.make400Response.serialize [], true⟩, world)
  let resourceFullPath := servingDirectory ++ request.resourceUrl
  if isCGIRequest resourceFullPath then
    let handled ← handleCGIRequest world.fs env.cgi request resourceFullPath []
    return (handled.1, { world with fs := handled.2 })
  else
    let handled ← handleStaticResourceRequest world env request resourceFullPath []
    return (handled.1, { world with store := handled.2 })

/-- What the world outside one connection does: the clock and the system calls during its
`n`-th request, and what other connections and programs do to the files and the cache before it. -/
structure Surroundings where
  env : ℕ → Bytes → RequestEnv
  disturb : ℕ → World → World

structure Service where
  served : ℕ
  world : World

def serve (servingDirectory : Bytes) (around : Surroundings) (s : Service) (requestStr : Bytes) :
    Except Terminate (Handled × Service) := do
  let r ← respond servingDirectory (around.disturb s.served s.world)
    (around.env s.served requestStr) requestStr
  return (r.1, ⟨s.served + 1, r.2⟩)

def staticBody (world : World) (env : RequestEnv) (request : Request) (path : Bytes)
    (size : ℕ) : Bytes × Store :=
  if request.method = .kGET then
    let loaded := world.store.tryLoad env.loadTime path []
    if loaded.1.1 then (loaded.1.2, loaded.2)
    else
      let cacheBuf := loaded.1.2 ++ readInto (world.fs.at path) size
      (cacheBuf, (loaded.2.tryInsert env.insertTime path cacheBuf).2)
  else ([], world.store)

section Static

variable {world : World} {path : Bytes}

theorem handleStaticResourceRequest_congr {fs fs' : FileSystem} (h : fs.at path = fs'.at path)
    (store : Store) (env : RequestEnv) (request : Request) (buf : DynamicByteArray) :
    handleStaticResourceRequest ⟨fs, store⟩ env request path buf =
      handleStaticResourceRequest ⟨fs', store⟩ env request path buf := by
  simp only [handleStaticResourceRequest, isFileExists, Response.make200Response, Response.make,
    checkFileSize, loadFile, h]

theorem handleStaticResourceRequest_missing (h : world.fs.at path = .missing) (env : RequestEnv)
    (request : Request) (buf : DynamicByteArray) :
    handleStaticResourceRequest world env request path buf =
      .ok (⟨Response.make404Response.serialize buf, true⟩, world.store) := by
  simp [handleStaticResourceRequest, isFileExists_missing h]

theorem handleStaticResourceRequest_regular {content : Bytes} {readable : Bool}
    (h : world.fs.at path = .regular content readable) (env : RequestEnv) (request : Request)
    (buf : DynamicByteArray) :
    handleStaticResourceRequest world env request path buf =
      .ok (⟨(Response.withResource kResponseStatusOK request.shouldClose path
        content.length).serialize buf ++ (staticBody world env request path content.length).1,
          request.shouldClose⟩, (staticBody world env request path content.length).2) := by
  simp only [handleStaticResourceRequest, isFileExists_regular h,
    Response.make200Response_regular h, loadFile_regular h, staticBody, h, Refinement.ok_bind,
    Refinement.pure_eq_ok, if_true]
  split_ifs <;> simp

theorem handleStaticResourceRequest_sizeless (h : (world.fs.at path).Sizeless)
    (env : RequestEnv) (request : Request) (buf : DynamicByteArray) :
    handleStaticResourceRequest world env request path buf = .error ⟨.checkFileSize⟩ := by
  simp [handleStaticResourceRequest, isFileExists_sizeless h,
    Response.make200Response_sizeless h]

theorem handleStaticResourceRequest_refused (h : world.fs.at path = .refused)
    (env : RequestEnv) (request : Request) (buf : DynamicByteArray) :
    handleStaticResourceRequest world env request path buf = .error ⟨.isFileExists⟩ := by
  simp [handleStaticResourceRequest, isFileExists_refused h]

theorem fileOrNothing_of_handleStaticResourceRequest {env : RequestEnv} {request : Request}
    {buf : DynamicByteArray} {handled : Handled × Store}
    (h : handleStaticResourceRequest world env request path buf = .ok handled) :
    (world.fs.at path).FileOrNothing := by
  cases hp : world.fs.at path with
  | missing | regular => trivial
  | directory | special =>
    rw [handleStaticResourceRequest_sizeless (by rw [hp]; trivial)] at h
    cases h
  | refused =>
    rw [handleStaticResourceRequest_refused hp] at h
    cases h

end Static

section CGI

variable {fs : FileSystem} {path : Bytes}

theorem handleCGIRequest_invalid (h : isCGIRequest path = false) (os : CGIOutcome)
    (request : Request) (buf : DynamicByteArray) :
    handleCGIRequest fs os request path buf =
      .ok (⟨Response.make400Response.serialize buf, true⟩, fs) := by
  simp [handleCGIRequest, CGIRunner.parseCGIRunner_valid, h]

theorem handleCGIRequest_missing (h : isCGIRequest path = true)
    (hm : fs.at (CGIRunner.parseCGIRunner path).cgiProgramPath = .missing) (os : CGIOutcome)
    (request : Request) (buf : DynamicByteArray) :
    handleCGIRequest fs os request path buf =
      .ok (⟨Response.make404Response.serialize buf, true⟩, fs) := by
  simp [handleCGIRequest, CGIRunner.parseCGIRunner_valid, h, isFileExists_missing hm]

theorem handleCGIRequest_refused (h : isCGIRequest path = true)
    (hr : fs.at (CGIRunner.parseCGIRunner path).cgiProgramPath = .refused) (os : CGIOutcome)
    (request : Request) (buf : DynamicByteArray) :
    handleCGIRequest fs os request path buf = .error ⟨.isFileExists⟩ := by
  simp [handleCGIRequest, CGIRunner.parseCGIRunner_valid, h, isFileExists_refused hr]

def cgiResponse (shouldClose : Bool) (n : ℕ) : Response :=
  ((Response.withoutResource kResponseStatusOK shouldClose).changeHeader kHeaderContentLength
    (toDecimal n)).1

theorem handleCGIRequest_ran (h : isCGIRequest path = true)
    (he : isFileExists fs (CGIRunner.parseCGIRunner path).cgiProgramPath = .ok true)
    {os : CGIOutcome} {fs' : FileSystem} {result : Bytes}
    (hrun : CGIRunner.run fs os = .ok (fs', result)) (request : Request)
    (buf : DynamicByteArray) :
    handleCGIRequest fs os request path buf =
      .ok (⟨(cgiResponse request.shouldClose result.length).serialize buf ++ result,
        request.shouldClose⟩, fs') := by
  simp [handleCGIRequest, CGIRunner.parseCGIRunner_valid, h, he, hrun,
    Response.make200Response_none, cgiResponse]

theorem handleCGIRequest_terminates (h : isCGIRequest path = true)
    (he : isFileExists fs (CGIRunner.parseCGIRunner path).cgiProgramPath = .ok true)
    {os : CGIOutcome} {t : Terminate} (hrun : CGIRunner.run fs os = .error t) (request : Request)
    (buf : DynamicByteArray) : handleCGIRequest fs os request path buf = .error t := by
  simp [handleCGIRequest, CGIRunner.parseCGIRunner_valid, h, he, hrun]

inductive CGIHandled (fs : FileSystem) (os : CGIOutcome) (request : Request) (path : Bytes) :
    Handled → FileSystem → Prop
  | invalid (hc : isCGIRequest path = false) :
      CGIHandled fs os request path ⟨Response.make400Response.head, true⟩ fs
  | missing (hc : isCGIRequest path = true)
      (hp : fs.at (CGIRunner.parseCGIRunner path).cgiProgramPath = .missing) :
      CGIHandled fs os request path ⟨Response.make404Response.head, true⟩ fs
  | ran (fs' : FileSystem) (result : Bytes) (hc : isCGIRequest path = true)
      (he : isFileExists fs (CGIRunner.parseCGIRunner path).cgiProgramPath = .ok true)
      (hrun : CGIRunner.run fs os = .ok (fs', result)) :
      CGIHandled fs os request path
        ⟨(cgiResponse request.shouldClose result.length).head ++ result, request.shouldClose⟩ fs'

theorem cgiHandled_of_handleCGIRequest {fs' : FileSystem} {os : CGIOutcome} {request : Request}
    {handled : Handled} (h : handleCGIRequest fs os request path [] = .ok (handled, fs')) :
    CGIHandled fs os request path handled fs' := by
  cases hc : isCGIRequest path with
  | false =>
    rw [handleCGIRequest_invalid hc] at h
    cases h
    exact .invalid hc
  | true =>
    have existing : isFileExists fs (CGIRunner.parseCGIRunner path).cgiProgramPath = .ok true →
        CGIHandled fs os request path handled fs' := by
      intro he
      cases hrun : CGIRunner.run fs os with
      | error t =>
        rw [handleCGIRequest_terminates hc he hrun] at h
        cases h
      | ok q =>
        rw [handleCGIRequest_ran hc he hrun] at h
        cases h
        exact .ran q.1 q.2 hc he hrun
    cases hp : fs.at (CGIRunner.parseCGIRunner path).cgiProgramPath with
    | missing =>
      rw [handleCGIRequest_missing hc hp] at h
      cases h
      exact .missing hc hp
    | regular content readable => exact existing (isFileExists_regular hp)
    | directory | special => exact existing (isFileExists_sizeless (by rw [hp]; trivial))
    | refused =>
      rw [handleCGIRequest_refused hc hp] at h
      cases h

end CGI

/-- A handler returns, and what it appended to the buffer is a response with status 200, 400
or 404, followed by its body. -/
def Answers {α : Type} (handled : Except Terminate (Handled × α)) (buf : DynamicByteArray) : Prop :=
  ∃ (r : Response) (body : Bytes) (shouldFinish : Bool) (a : α),
    handled = .ok (⟨r.serialize buf ++ body, shouldFinish⟩, a) ∧
    ∃ status ∈ [kResponseStatusOK, kResponseStatusBadRequest, kResponseStatusNotFound],
      r.statusLine = kHTTPVersion ++ kSpace ++ status

theorem not_answers_error {α : Type} {t : Terminate} {buf : DynamicByteArray} :
    ¬ Answers (.error t : Except Terminate (Handled × α)) buf := by
  intro he
  obtain ⟨r, body, finish, a, h, -⟩ := he
  cases h

theorem handleStaticResourceRequest_answers_iff {world : World} {path : Bytes} (env : RequestEnv)
    (request : Request) (buf : DynamicByteArray) :
    Answers (handleStaticResourceRequest world env request path buf) buf ↔
      (world.fs.at path).FileOrNothing := by
  cases h : world.fs.at path with
  | missing =>
    rw [handleStaticResourceRequest_missing h]
    refine iff_of_true ?_ trivial
    exact ⟨_, [], true, _, by rw [List.append_nil], kResponseStatusNotFound, by simp, rfl⟩
  | regular content readable =>
    rw [handleStaticResourceRequest_regular h]
    refine iff_of_true ?_ trivial
    exact ⟨_, _, _, _, rfl, kResponseStatusOK, by simp, rfl⟩
  | directory | special =>
    rw [handleStaticResourceRequest_sizeless (by rw [h]; trivial)]
    exact iff_of_false not_answers_error id
  | refused =>
    rw [handleStaticResourceRequest_refused h]
    exact iff_of_false not_answers_error id

/-- Either there is nothing at the path of the program, or the system answers for the path and the
run of the program ends well. -/
def ProgramServed (fs : FileSystem) (os : CGIOutcome) (path : Bytes) : Prop :=
  fs.at path = .missing ∨ fs.at path ≠ .refused ∧ CGIRunner.Collects fs os

theorem handleCGIRequest_existing_answers_iff {fs : FileSystem} {path : Bytes}
    (hc : isCGIRequest path = true)
    (he : isFileExists fs (CGIRunner.parseCGIRunner path).cgiProgramPath = .ok true)
    (os : CGIOutcome) (request : Request) (buf : DynamicByteArray) :
    Answers (handleCGIRequest fs os request path buf) buf ↔ CGIRunner.Collects fs os := by
  constructor
  · intro ha
    by_contra hnot
    obtain ⟨t, hrun⟩ := CGIRunner.not_collects hnot
    rw [handleCGIRequest_terminates hc he hrun] at ha
    exact not_answers_error ha
  · intro hcollects
    obtain ⟨fs', result, hrun, -⟩ := CGIRunner.run_returns hcollects
    exact ⟨_, _, _, _, handleCGIRequest_ran hc he hrun request buf, kResponseStatusOK, by simp,
      rfl⟩

theorem handleCGIRequest_answers_iff {fs : FileSystem} {path : Bytes} (os : CGIOutcome)
    (request : Request) (buf : DynamicByteArray) :
    Answers (handleCGIRequest fs os request path buf) buf ↔
      (isCGIRequest path = true →
        ProgramServed fs os (CGIRunner.parseCGIRunner path).cgiProgramPath) := by
  cases hc : isCGIRequest path with
  | false =>
    rw [handleCGIRequest_invalid hc]
    refine iff_of_true ?_ (by simp)
    exact ⟨_, [], true, _, by rw [List.append_nil], kResponseStatusBadRequest, by simp, rfl⟩
  | true =>
    rw [forall_prop_of_true rfl, ProgramServed]
    cases h : fs.at (CGIRunner.parseCGIRunner path).cgiProgramPath with
    | missing =>
      rw [handleCGIRequest_missing hc h]
      refine iff_of_true ?_ (Or.inl rfl)
      exact ⟨_, [], true, _, by rw [List.append_nil], kResponseStatusNotFound, by simp, rfl⟩
    | regular content readable =>
      rw [handleCGIRequest_existing_answers_iff hc (isFileExists_regular h)]
      simp
    | directory | special =>
      -- something is there: the child fails to execute it and the server goes on
      rw [handleCGIRequest_existing_answers_iff hc (isFileExists_sizeless (by rw [h]; trivial))]
      simp
    | refused =>
      rw [handleCGIRequest_refused hc h]
      exact iff_of_false not_answers_error (by simp)

theorem Answers.nonempty {α : Type} {handled : Handled} {a : α} {buf : DynamicByteArray}
    (h : Answers (.ok (handled, a)) buf) : handled.responseBuf ≠ [] := by
  obtain ⟨r, body, finish, a', he, -⟩ := h
  cases he
  simp [Response.serialize, Response.head, kCRLF]

inductive Responded (dir : Bytes) (world : World) (env : RequestEnv) (request : Request) :
    Handled → World → Prop
  | invalid (hv : request.isValid = false) :
      Responded dir world env request ⟨Response.make400Response.serialize [], true⟩ world
  | cgi (handled : Handled) (fs : FileSystem) (hv : request.isValid = true)
      (hc : isCGIRequest (dir ++ request.resourceUrl) = true)
      (hh : handleCGIRequest world.fs env.cgi request (dir ++ request.resourceUrl) [] =
        .ok (handled, fs)) :
      Responded dir world env request handled { world with fs := fs }
  | static (handled : Handled) (store : Store) (hv : request.isValid = true)
      (hc : isCGIRequest (dir ++ request.resourceUrl) = false)
      (hh : handleStaticResourceRequest world env request (dir ++ request.resourceUrl) [] =
        .ok (handled, store)) :
      Responded dir world env request handled { world with store := store }

theorem responded_of_respond {dir : Bytes} {world world' : World} {env : RequestEnv}
    {requestStr : Bytes} {handled : Handled}
    (h : respond dir world env requestStr = .ok (handled, world')) :
    Responded dir world env (Request.ofString requestStr) handled world' := by
  simp only [respond, Refinement.pure_eq_ok] at h
  split_ifs at h with hv hc
  · cases h
    exact .invalid hv
  · rw [Bool.not_eq_false] at hv
    obtain ⟨q, hh, h⟩ := Refinement.bind_eq_ok h
    cases h
    exact .cgi q.1 q.2 hv hc hh
  · rw [Bool.not_eq_false] at hv
    rw [Bool.not_eq_true] at hc
    obtain ⟨q, hh, h⟩ := Refinement.bind_eq_ok h
    cases h
    exact .static q.1 q.2 hv hc hh

theorem respond_nonempty {dir : Bytes} {world world' : World} {env : RequestEnv}
    {requestStr : Bytes} {handled : Handled}
    (h : respond dir world env requestStr = .ok (handled, world')) :
    handled.responseBuf ≠ [] := by
  cases responded_of_respond h with
  | invalid hv => simp [Response.serialize, Response.head, kCRLF]
  | cgi handled fs hv hc hh =>
    cases cgiHandled_of_handleCGIRequest hh with
    | invalid | missing | ran => simp [Response.head, kCRLF]
  | static handled store hv hc hh =>
    have ha := (handleStaticResourceRequest_answers_iff env (Request.ofString requestStr) []).mpr
      (fileOrNothing_of_handleStaticResourceRequest hh)
    rw [hh] at ha
    exact ha.nonempty

theorem serve_nonempty {dir : Bytes} {around : Surroundings} {s s' : Service} {requestStr : Bytes}
    {handled : Handled} (h : serve dir around s requestStr = .ok (handled, s')) :
    handled.responseBuf ≠ [] := by
  obtain ⟨q, hh, h⟩ := Refinement.bind_eq_ok h
  cases h
  exact respond_nonempty hh

/-- Exactly when the two handlers finish with a response, whatever the request, the serving
directory, the file system, the cache and the outcomes of the system calls. -/
theorem handlers_answer_iff (dir : Bytes) (request : Request) (world : World) (env : RequestEnv)
    (buf : DynamicByteArray) :
    (Answers (handleStaticResourceRequest world env request (dir ++ request.resourceUrl) buf) buf ↔
      (world.fs.at (dir ++ request.resourceUrl)).FileOrNothing) ∧
    (Answers (handleCGIRequest world.fs env.cgi request (dir ++ request.resourceUrl) buf) buf ↔
      (isCGIRequest (dir ++ request.resourceUrl) = true →
        ProgramServed world.fs env.cgi
          (CGIRunner.parseCGIRunner (dir ++ request.resourceUrl)).cgiProgramPath)) :=
  ⟨handleStaticResourceRequest_answers_iff env request buf,
    handleCGIRequest_answers_iff env.cgi request buf⟩

theorem directory_request_terminates :
    let request := Request.ofString (ascii "GET /sub HTTP/1.1" ++ kRequestEnd)
    let fs : FileSystem := fun path =>
      if path = ascii "/srv" ∨ path = ascii "/srv/sub" then .directory else .missing
    let env : RequestEnv := ⟨1, 2, .writes (ascii "1") []⟩
    request.isValid = true ∧
      ¬ Answers (handleStaticResourceRequest ⟨fs, Store.new 0 100⟩ env request
        (ascii "/srv" ++ request.resourceUrl) []) [] := by
  intro request fs env
  have hurl : request.resourceUrl = ascii "/sub" := by decide
  have hat : (fs.at (ascii "/srv" ++ request.resourceUrl)).Sizeless := by
    rw [hurl]
    trivial
  refine ⟨by decide, ?_⟩
  rw [handleStaticResourceRequest_sizeless hat]
  exact not_answers_error

end HttpReactor
