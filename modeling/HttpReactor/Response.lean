import HttpReactor.Request
import HttpReactor.FileSystem

/-!
# Responses

The constructor looks at the file system when a resource is named, so it may
terminate the process; the factories without a resource cannot.
-/

namespace HttpReactor

structure Response where
  statusLine : Bytes
  shouldClose : Bool
  headers : List Header
  resourceUrl : Option Bytes
deriving DecidableEq, Repr

namespace Response

def contentTypeHeader (url : Bytes) : List Header :=
  match findLastOf url kDot with
  | some lastDot =>
    let extension := toExtension (.ofString (url.drop (lastDot + 1)))
    [{ key := kHeaderContentType, value := extensionToMime extension }]
  | none => []

def commonHeaders (shouldClose : Bool) : List Header :=
  [{ key := kHeaderServer, value := kServerName },
    { key := kHeaderConnection,
      value := if shouldClose then kConnectionClose else kConnectionKeepAlive }]

def withoutResource (statusCode : Bytes) (shouldClose : Bool) : Response :=
  { statusLine := kHTTPVersion ++ kSpace ++ statusCode
    shouldClose := shouldClose
    headers := commonHeaders shouldClose ++
      [{ key := kHeaderContentLength, value := kContentLengthZero }]
    resourceUrl := none }

def withResource (statusCode : Bytes) (shouldClose : Bool) (url : Bytes) (contentLength : ℕ) :
    Response :=
  { statusLine := kHTTPVersion ++ kSpace ++ statusCode
    shouldClose := shouldClose
    headers := commonHeaders shouldClose ++
      { key := kHeaderContentLength, value := toDecimal contentLength } :: contentTypeHeader url
    resourceUrl := some url }

def make (fs : FileSystem) (statusCode : Bytes) (shouldClose : Bool)
    (resourceUrl : Option Bytes) : Except Terminate Response :=
  match resourceUrl with
  | none => return withoutResource statusCode shouldClose
  | some url => do
    if ← isFileExists fs url then
      let contentLength ← checkFileSize fs url
      return withResource statusCode shouldClose url contentLength
    else
      return withoutResource statusCode shouldClose

def make200Response (fs : FileSystem) (shouldClose : Bool) (resourceUrl : Option Bytes) :
    Except Terminate Response :=
  make fs kResponseStatusOK shouldClose resourceUrl

def make400Response : Response := withoutResource kResponseStatusBadRequest true

def make404Response : Response := withoutResource kResponseStatusNotFound true

def make503Response : Response := withoutResource kResponseStatusServiceUnavailable true

def head (r : Response) : Bytes :=
  r.statusLine ++ kCRLF ++ (r.headers.map Header.serialize).flatten ++ kCRLF

def serialize (r : Response) (buffer : DynamicByteArray) : DynamicByteArray := buffer ++ r.head

def changeHeaderIn (key newValue : Bytes) : List Header → List Header × Bool
  | [] => ([], false)
  | h :: hs =>
    if h.key = key then ({ h with value := newValue } :: hs, true)
    else
      let r := changeHeaderIn key newValue hs
      (h :: r.1, r.2)

def changeHeader (r : Response) (key newValue : Bytes) : Response × Bool :=
  let c := changeHeaderIn key newValue r.headers
  ({ r with headers := c.1 }, c.2)

def valuesOf (r : Response) (key : Bytes) : List Bytes :=
  (r.headers.filter fun h => h.key = key).map Header.value

theorem make200Response_none (fs : FileSystem) (close : Bool) :
    make200Response fs close none = .ok (withoutResource kResponseStatusOK close) := rfl

theorem make200Response_regular {fs : FileSystem} {url content : Bytes} {readable : Bool}
    (h : fs.at url = .regular content readable) (close : Bool) :
    make200Response fs close (some url) =
      .ok (withResource kResponseStatusOK close url content.length) := by
  simp [make200Response, make, isFileExists_regular h, checkFileSize_regular h]

theorem make200Response_sizeless {fs : FileSystem} {url : Bytes} (h : (fs.at url).Sizeless)
    (close : Bool) : make200Response fs close (some url) = .error ⟨.checkFileSize⟩ := by
  simp [make200Response, make, isFileExists_sizeless h, checkFileSize_sizeless h]

theorem contentTypeHeader_key {url : Bytes} {h : Header} (hm : h ∈ contentTypeHeader url) :
    h.key = kHeaderContentType := by
  unfold contentTypeHeader at hm
  split at hm
  · rw [List.mem_singleton.mp hm]
  · cases hm

theorem withResource_contentLength (status : Bytes) (close : Bool) (url : Bytes) (n : ℕ) :
    (withResource status close url n).valuesOf kHeaderContentLength = [toDecimal n] := by
  have hct : (contentTypeHeader url).filter (fun h => h.key = kHeaderContentLength) = [] := by
    rw [List.filter_eq_nil_iff]
    intro h hm
    rw [contentTypeHeader_key hm]
    decide
  have hcommon : (commonHeaders close).filter (fun h => h.key = kHeaderContentLength) = [] := by
    cases close <;> decide
  simp [valuesOf, withResource, hct, hcommon]

theorem withoutResource_contentLength (status : Bytes) (close : Bool) :
    (withoutResource status close).valuesOf kHeaderContentLength = [kContentLengthZero] := by
  cases close <;> rfl

theorem changeHeader_contentLength (status : Bytes) (close : Bool) (v : Bytes) :
    ((withoutResource status close).changeHeader kHeaderContentLength v).1.valuesOf
      kHeaderContentLength = [v] := by
  cases close <;> rfl

end Response

end HttpReactor
