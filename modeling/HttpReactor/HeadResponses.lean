import HttpReactor.CacheCoherence

/-!
# Responses to HEAD

`HandleStaticResourceRequest` appends the file only for GET; `HandleCGIRequest` appends what
the program wrote whatever the method. The two runs compared here differ in the method
alone.
-/

namespace HttpReactor
open ListSearch

def respondTo (servingDirectory : Bytes) (world : World) (env : RequestEnv) (request : Request) :
    Except Terminate (Handled × World) := do
  if request.isValid = false then
    return (⟨Response.make400Response.serialize [], true⟩, world)
  let resourceFullPath := servingDirectory ++ request.resourceUrl
  if isCGIRequest resourceFullPath then
    let handled ← handleCGIRequest world.fs env.cgi request resourceFullPath []
    return (handled.1, { world with fs := handled.2 })
  else
    let handled ← handleStaticResourceRequest world env request resourceFullPath []
    return (handled.1, { world with store := handled.2 })

theorem respond_eq_respondTo (dir : Bytes) (world : World) (env : RequestEnv)
    (requestStr : Bytes) :
    respond dir world env requestStr = respondTo dir world env (Request.ofString requestStr) :=
  rfl

def messageHead (buf : Bytes) : Option Bytes := (cut kRequestEnd buf).map Prod.fst

/-- The response, if there is one, ends with its head, and the same request with method GET
gets the same head in the same state. -/
def HeadLikeGet (dir : Bytes) (world : World) (env : RequestEnv) (request : Request) : Prop :=
  ∀ handled world', respondTo dir world env request = .ok (handled, world') →
    messageHead handled.responseBuf = some handled.responseBuf ∧
      ∃ got world'', respondTo dir world env { request with method := .kGET } =
          .ok (got, world'') ∧
        messageHead got.responseBuf = messageHead handled.responseBuf

/-- If a CGI program is run for the request, it gives nothing back or takes the process down
with it. -/
def NoCGIOutput (dir : Bytes) (world : World) (env : RequestEnv) (request : Request) : Prop :=
  isCGIRequest (dir ++ request.resourceUrl) = true →
    isFileExists world.fs
        (CGIRunner.parseCGIRunner (dir ++ request.resourceUrl)).cgiProgramPath = .ok true →
      CGIRunner.Collects world.fs env.cgi → CGIRunner.LoadsNothing world.fs env.cgi

theorem messageHead_serialize {r : Response} (hp : r.Plain) (body : Bytes) :
    messageHead (r.serialize [] ++ body) = some (r.serialize []) := by
  rw [messageHead, Response.serialize, List.nil_append, Response.cut_head hp]
  rfl

theorem messageHead_withoutResource {status : Bytes} (hs : 13 ∉ status) (close : Bool) :
    messageHead ((Response.withoutResource status close).serialize []) =
      some ((Response.withoutResource status close).serialize []) := by
  have hhead := messageHead_serialize (Response.plain_withoutResource hs close) []
  rwa [List.append_nil] at hhead

section Dispatch

variable {dir : Bytes} {world : World} {env : RequestEnv} {request : Request}

theorem respondTo_cgi (hv : request.isValid = true)
    (hc : isCGIRequest (dir ++ request.resourceUrl) = true) :
    respondTo dir world env request =
      (handleCGIRequest world.fs env.cgi request (dir ++ request.resourceUrl) [] >>=
        fun handled => .ok (handled.1, { world with fs := handled.2 })) := by
  simp [respondTo, hv, hc]

theorem respondTo_static (hv : request.isValid = true)
    (hc : isCGIRequest (dir ++ request.resourceUrl) = false) :
    respondTo dir world env request =
      (handleStaticResourceRequest world env request (dir ++ request.resourceUrl) [] >>=
        fun handled => .ok (handled.1, { world with store := handled.2 })) := by
  simp [respondTo, hv, hc]

theorem handleCGIRequest_method (fs : FileSystem) (os : CGIOutcome) (path : Bytes)
    (buf : DynamicByteArray) (method : Method) :
    handleCGIRequest fs os { request with method := method } path buf =
      handleCGIRequest fs os request path buf := rfl

def EndsAtHead (answer : Except Terminate (Handled × World)) : Prop :=
  ∀ handled world', answer = .ok (handled, world') →
    messageHead handled.responseBuf = some handled.responseBuf

theorem respondTo_cgi_get (hv : request.isValid = true)
    (hc : isCGIRequest (dir ++ request.resourceUrl) = true) :
    respondTo dir world env { request with method := .kGET } = respondTo dir world env request := by
  have hget : respondTo dir world env { request with method := .kGET } =
      (handleCGIRequest world.fs env.cgi { request with method := .kGET }
        (dir ++ request.resourceUrl) [] >>=
          fun handled => .ok (handled.1, { world with fs := handled.2 })) :=
    respondTo_cgi hv hc
  rw [hget, handleCGIRequest_method, respondTo_cgi hv hc]

theorem headLikeGet_iff_endsAtHead (hv : request.isValid = true)
    (hc : isCGIRequest (dir ++ request.resourceUrl) = true) :
    HeadLikeGet dir world env request ↔ EndsAtHead (respondTo dir world env request) := by
  constructor
  · intro h handled world' hr
    exact (h handled world' hr).1
  · intro h handled world' hr
    exact ⟨h handled world' hr, handled, world', by rw [respondTo_cgi_get hv hc, hr], rfl⟩

theorem endsAtHead_existing_iff (hv : request.isValid = true)
    (hc : isCGIRequest (dir ++ request.resourceUrl) = true)
    (he : isFileExists world.fs
      (CGIRunner.parseCGIRunner (dir ++ request.resourceUrl)).cgiProgramPath = .ok true) :
    EndsAtHead (respondTo dir world env request) ↔
      (CGIRunner.Collects world.fs env.cgi → CGIRunner.LoadsNothing world.fs env.cgi) := by
  by_cases hcollect : CGIRunner.Collects world.fs env.cgi
  · obtain ⟨fs', result, hrun, -⟩ := CGIRunner.run_returns hcollect
    have hhead :=
      messageHead_serialize (plain_cgiResponse request.shouldClose result.length) result
    rw [forall_prop_of_true hcollect, respondTo_cgi hv hc, handleCGIRequest_ran hc he hrun,
      ← CGIRunner.run_eq_nil_iff hrun]
    constructor
    · intro h
      have hend := h _ _ rfl
      rw [hhead] at hend
      simpa using Option.some.inj hend
    · intro hnil handled world' hr
      cases hr
      rw [hhead, hnil, List.append_nil]
  · obtain ⟨t, hrun⟩ := CGIRunner.not_collects hcollect
    rw [respondTo_cgi hv hc, handleCGIRequest_terminates hc he hrun]
    exact iff_of_true nofun fun h => absurd h hcollect

theorem headLikeGet_cgi_iff (hv : request.isValid = true)
    (hc : isCGIRequest (dir ++ request.resourceUrl) = true) :
    HeadLikeGet dir world env request ↔ NoCGIOutput dir world env request := by
  rw [headLikeGet_iff_endsAtHead hv hc, NoCGIOutput, forall_prop_of_true hc]
  cases hp : world.fs.at
      (CGIRunner.parseCGIRunner (dir ++ request.resourceUrl)).cgiProgramPath with
  | missing =>
    rw [respondTo_cgi hv hc, handleCGIRequest_missing hc hp, isFileExists_missing hp]
    refine iff_of_true ?_ (fun he => by cases he)
    intro handled world' hr
    cases hr
    exact messageHead_withoutResource (by decide) true
  | refused =>
    rw [respondTo_cgi hv hc, handleCGIRequest_refused hc hp, isFileExists_refused hp]
    exact iff_of_true (fun handled world' hr => by cases hr) (fun he => by cases he)
  | regular content readable =>
    have he := isFileExists_regular hp
    rw [forall_prop_of_true he]
    exact endsAtHead_existing_iff hv hc he
  | directory | special =>
    have he := @isFileExists_sizeless world.fs _ (by rw [hp]; trivial)
    rw [forall_prop_of_true he]
    exact endsAtHead_existing_iff hv hc he

theorem headLikeGet_static (hv : request.isValid = true) (hm : request.method = .kHEAD)
    (hc : isCGIRequest (dir ++ request.resourceUrl) = false) :
    HeadLikeGet dir world env request := by
  have hget : respondTo dir world env { request with method := .kGET } =
      (handleStaticResourceRequest world env { request with method := .kGET }
        (dir ++ request.resourceUrl) [] >>=
          fun handled => .ok (handled.1, { world with store := handled.2 })) :=
    respondTo_static hv hc
  intro handled world' hr
  rw [respondTo_static hv hc] at hr
  rw [hget]
  cases hp : world.fs.at (dir ++ request.resourceUrl) with
  | missing =>
    rw [handleStaticResourceRequest_missing hp] at hr ⊢
    cases hr
    exact ⟨messageHead_withoutResource (by decide) true, _, _, rfl, rfl⟩
  | regular content readable =>
    have hplain : (Response.withResource kResponseStatusOK request.shouldClose
        (dir ++ request.resourceUrl) content.length).Plain :=
      Response.plain_withResource (by decide) _ _ _
    have hbody : (staticBody world env request (dir ++ request.resourceUrl) content.length).1 =
        [] := by
      simp [staticBody, hm]
    rw [handleStaticResourceRequest_regular hp] at hr ⊢
    cases hr
    refine ⟨?_, _, _, rfl, ?_⟩
    · rw [messageHead_serialize hplain, hbody, List.append_nil]
    · rw [messageHead_serialize hplain, messageHead_serialize hplain]
  | directory | special | refused =>
    obtain ⟨q, hh, -⟩ := Refinement.bind_eq_ok hr
    have hfile := fileOrNothing_of_handleStaticResourceRequest hh
    rw [hp] at hfile
    exact hfile.elim

end Dispatch

/-- For a valid HEAD request the dispatch meets both halves exactly when no CGI program is run
for it, or one that gives nothing back. -/
theorem head_like_get_iff (dir : Bytes) (world : World) (env : RequestEnv) (request : Request)
    (hv : request.isValid = true) (hm : request.method = .kHEAD) :
    HeadLikeGet dir world env request ↔ NoCGIOutput dir world env request := by
  cases hc : isCGIRequest (dir ++ request.resourceUrl) with
  | true => exact headLikeGet_cgi_iff hv hc
  | false =>
    refine iff_of_true (headLikeGet_static hv hm hc) ?_
    intro hcgi
    rw [hc] at hcgi
    cases hcgi

theorem head_cgi_has_body :
    let request := Request.ofString (ascii "HEAD /cgi-bin/p HTTP/1.1" ++ kRequestEnd)
    let fs : FileSystem := fun path =>
      if path = ascii "/srv/cgi-bin/p" then .regular [] true else .missing
    request.isValid = true ∧ request.method = .kHEAD ∧
      ¬ HeadLikeGet (ascii "/srv") ⟨fs, Store.new 0 100⟩
        ⟨1, 2, .writes (ascii "1") (ascii "hi")⟩ request := by
  intro request fs
  have hv : request.isValid = true := by decide
  have hc : isCGIRequest (ascii "/srv" ++ request.resourceUrl) = true := by decide
  refine ⟨hv, by decide, ?_⟩
  rw [headLikeGet_cgi_iff hv hc]
  intro h
  have hrun := @CGIRunner.run_writes fs (ascii "1") (ascii "hi") (by decide)
  have hnothing := h hc (by decide) (CGIRunner.collects_of_run hrun)
  exact absurd ((CGIRunner.run_eq_nil_iff hrun).mpr hnothing) (by decide)

theorem head_like_get_iff_static :
    let request := Request.ofString (ascii "HEAD /a HTTP/1.1" ++ kRequestEnd)
    let fs : FileSystem := fun path =>
      if path = ascii "/srv/a" then .regular (ascii "xy") true else .missing
    HeadLikeGet (ascii "/srv") ⟨fs, Store.new 0 100⟩ ⟨1, 2, .writes (ascii "1") []⟩
      request := by
  intro request fs
  exact (head_like_get_iff (ascii "/srv") _ _ request (by decide) (by decide)).mpr
    (fun hcgi => absurd hcgi (by decide))

end HttpReactor
