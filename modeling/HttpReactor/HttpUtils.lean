import HttpReactor.Bytes
import HttpReactor.ListSearch

/-!
# String helpers of the HTTP layer

`Split` is the source's loop over a cursor `curr`; a nonempty delimiter makes the
cursor grow, so the number of characters plus one bounds its iterations
(`splitLoop_eq`). Its result is the framing of the string by the delimiter, with
the delimiters removed and an empty last token dropped (`split_eq`).

`Trim` and `ToUpper` read their view through `data()`: a trimmed string runs up to
the next NUL of the buffer, not to the last character found.
-/

namespace HttpReactor
open ListSearch

def kCGIFolderName : Bytes := ascii "cgi-bin"
def kCGIPrefix : Bytes := ascii "cgi_temp"
def kSeparator : Bytes := ascii "&"
def kUnderscore : Bytes := ascii "_"
def kSpace : Bytes := ascii " "
def kDot : Bytes := ascii "."
def kCRLF : Bytes := [13, 10]
def kColon : Bytes := ascii ":"
def kDefaultRoute : Bytes := ascii "index.html"

def kHeaderServer : Bytes := ascii "Server"
def kServerName : Bytes := ascii "longlp/1.0"
def kHeaderContentLength : Bytes := ascii "Content-Length"
def kHeaderContentType : Bytes := ascii "Content-Type"
def kContentLengthZero : Bytes := ascii "0"
def kHeaderConnection : Bytes := ascii "Connection"
def kConnectionClose : Bytes := ascii "Close"
def kConnectionKeepAlive : Bytes := ascii "Keep-Alive"
def kHTTPVersion : Bytes := ascii "HTTP/1.1"

def kMimeTypeHTML : Bytes := ascii "text/html"
def kMimeTypeCSS : Bytes := ascii "text/css"
def kMimeTypePNG : Bytes := ascii "image/png"
def kMimeTypeJPG : Bytes := ascii "image/jpg"
def kMimeTypeJPEG : Bytes := ascii "image/jpeg"
def kMimeTypeGIF : Bytes := ascii "image/gif"
def kMimeTypeOCTET : Bytes := ascii "application/octet-stream"

def kResponseStatusOK : Bytes := ascii "200 OK"
def kResponseStatusBadRequest : Bytes := ascii "400 Bad Request"
def kResponseStatusNotFound : Bytes := ascii "404 Not Found"
def kResponseStatusServiceUnavailable : Bytes := ascii "503 Service Unavailable"

inductive Method
  | kGET
  | kHEAD
  | kUnsupported
deriving DecidableEq, Repr

inductive Version
  | kHTTP_1_1
  | kUnsupported
deriving DecidableEq, Repr

inductive Extension
  | kHTML
  | kCSS
  | kPNG
  | kJPG
  | kJPEG
  | kGIF
  | kOCTET
deriving DecidableEq, Repr

def findFrom (str pat : Bytes) (pos : ℕ) : Option ℕ :=
  if pos ≤ str.length then (find pat (str.drop pos)).map (pos + ·) else none

def substr (str : Bytes) (pos count : ℕ) : Bytes := (str.drop pos).take count

def findFirstNotOf (str delim : Bytes) : Option ℕ := str.findIdx? fun b => b ∉ delim

def findLastNotOf (str delim : Bytes) : Option ℕ :=
  (str.reverse.findIdx? fun b => b ∉ delim).map fun i => str.length - 1 - i

def findLastOf (str set : Bytes) : Option ℕ :=
  (str.reverse.findIdx? fun b => b ∈ set).map fun i => str.length - 1 - i

/-- The loop of `Split`; `none` while the loop has not ended within the fuel. -/
def splitLoop (str delim : Bytes) : ℕ → ℕ → List Bytes → Option (List Bytes)
  | 0, _, _ => none
  | fuel + 1, curr, tokens =>
    match findFrom str delim curr with
    | some next =>
      splitLoop str delim fuel (next + delim.length) (tokens ++ [substr str curr (next - curr)])
    | none =>
      some (if curr ≠ str.length then tokens ++ [substr str curr (str.length - curr)] else tokens)

def split (str delim : Bytes) : List Bytes :=
  if str = [] then [] else (splitLoop str delim (str.length + 1) 0 []).getD []

def join (tokens : List Bytes) (delim : Bytes) : Bytes :=
  match tokens with
  | [] => []
  | [t] => t
  | _ => (tokens.dropLast.map (· ++ delim)).flatten ++ tokens.getLastD []

def trim (str : StringView) (delim : Bytes) : Bytes :=
  match findLastNotOf str.bytes delim, findFirstNotOf str.bytes delim with
  | some rFound, some lFound =>
    -- the view returned by substr(l, r - l + 1) still points into the whole buffer
    StringView.data ⟨substr str.bytes lFound (rFound - lFound + 1),
      str.bytes.drop (rFound + 1) ++ str.rest⟩
  | _, _ => []

def toUpperByte (b : Byte) : Byte := if 97 ≤ b ∧ b ≤ 122 then b - 32 else b

def toUpper (str : StringView) : Bytes := str.data.map toUpperByte

def format (str : StringView) : Bytes := toUpper (.ofString (trim str kSpace))

def toMethod (methodStr : StringView) : Method :=
  let table := [(ascii "GET", Method.kGET), (ascii "HEAD", .kHEAD),
    (ascii "UNSUPPORTED", .kUnsupported)]
  (table.lookup (format methodStr)).getD .kUnsupported

def toVersion (versionStr : StringView) : Version :=
  let table := [(ascii "HTTP/1.1", Version.kHTTP_1_1), (ascii "UNSUPPORTED", .kUnsupported)]
  (table.lookup (format versionStr)).getD .kUnsupported

def toExtension (extensionStr : StringView) : Extension :=
  let table := [(ascii "HTML", Extension.kHTML), (ascii "CSS", .kCSS), (ascii "PNG", .kPNG),
    (ascii "JPG", .kJPG), (ascii "JPEG", .kJPEG), (ascii "GIF", .kGIF), (ascii "OCTET", .kOCTET)]
  (table.lookup (format extensionStr)).getD .kOCTET

def extensionToMime : Extension → Bytes
  | .kHTML => kMimeTypeHTML
  | .kCSS => kMimeTypeCSS
  | .kPNG => kMimeTypePNG
  | .kJPG => kMimeTypeJPG
  | .kJPEG => kMimeTypeJPEG
  | .kGIF => kMimeTypeGIF
  | .kOCTET => kMimeTypeOCTET

/-- `std::search` for the folder name finds a match before the end. -/
def isCGIRequest (resourceUrl : Bytes) : Bool := (find kCGIFolderName resourceUrl).isSome

theorem isCGIRequest_iff {url : Bytes} : isCGIRequest url = true ↔ kCGIFolderName <:+: url :=
  find_isSome_iff

theorem kCRLF_ne_nil : kCRLF ≠ [] := by decide
theorem kSpace_ne_nil : kSpace ≠ [] := by decide
theorem kColon_ne_nil : kColon ≠ [] := by decide
theorem kCRLF_borderless : Borderless kCRLF := by decide
theorem kSpace_borderless : Borderless kSpace := by decide

def tokens (delim str : Bytes) : List Bytes :=
  (frames delim str).1.map (fun p => p.take (p.length - delim.length)) ++
    (if (frames delim str).2 = [] then [] else [(frames delim str).2])

theorem splitLoop_eq {str delim : Bytes} (hd : delim ≠ []) {fuel curr : ℕ} {acc : List Bytes}
    (hc : curr ≤ str.length) (hf : str.length < curr + fuel) :
    splitLoop str delim fuel curr acc = some (acc ++ tokens delim (str.drop curr)) := by
  induction fuel generalizing curr acc with
  | zero => omega
  | succ fuel ih =>
    simp only [splitLoop, findFrom, if_pos hc]
    cases hfind : find delim (str.drop curr) with
    | none =>
      have hcut := cut_eq_none_iff.mpr (find_eq_none_iff.mp hfind)
      have hrest : substr str curr (str.length - curr) = str.drop curr := by
        rw [substr, ← List.length_drop, List.take_length]
      simp only [Option.map_none, hrest, tokens, frames_of_cut_none hcut, List.map_nil,
        List.nil_append, ne_eq, Option.some.injEq, List.drop_eq_nil_iff]
      split_ifs with h₁ h₂ <;> first | omega | simp
    | some i =>
      have hle := find_add_length_le hd hfind
      have hpos : 0 < delim.length := List.length_pos_iff.mpr hd
      rw [List.length_drop] at hle
      have hcut := cut_eq_some_iff.mpr ⟨i, hfind, rfl, rfl⟩
      have htake : ((str.drop curr).take i ++ delim).take
          (((str.drop curr).take i ++ delim).length - delim.length) = (str.drop curr).take i := by
        rw [List.length_append, Nat.add_sub_cancel, List.take_left]
      simp only [Option.map_some]
      rw [ih (by omega) (by omega), show curr + i - curr = i by omega,
        show (curr + i + delim.length) = curr + (i + delim.length) by omega, ← List.drop_drop]
      simp only [substr, tokens, frames_of_cut_some hd hcut, List.map_cons, htake,
        List.append_assoc, List.cons_append, List.nil_append]

theorem split_eq {str delim : Bytes} (hd : delim ≠ []) : split str delim = tokens delim str := by
  unfold split
  split_ifs with h
  · subst h
    have hcut : cut delim ([] : Bytes) = none :=
      cut_eq_none_iff.mpr fun hi => hd (List.infix_nil.mp hi)
    simp [tokens, frames_of_cut_none hcut]
  · rw [splitLoop_eq hd (Nat.zero_le _) (by omega)]
    simp

theorem tokens_of_lines {delim : Bytes} (hd : delim ≠ []) (hb : Borderless delim)
    {ls : List Bytes} (hls : ∀ l ∈ ls, ¬ delim <:+: l) {r : Bytes} (hr : ¬ delim <:+: r) :
    tokens delim ((ls.map (· ++ delim)).flatten ++ r) = ls ++ if r = [] then [] else [r] := by
  rw [tokens, frames_lines hd hb hls hr, List.map_map]
  congr 1
  refine (List.map_congr_left fun l _ => ?_).trans (List.map_id ls)
  simp

theorem split_frames {delim : Bytes} (hd : delim ≠ []) (str : Bytes) :
    ∃ ls r, (∀ l ∈ ls, ¬ delim <:+: l) ∧ ¬ delim <:+: r ∧
      frames delim str = (ls.map (· ++ delim), r) ∧
      split str delim = ls ++ if r = [] then [] else [r] := by
  obtain ⟨ls, hls, he⟩ := frames_eq_map_lines hd str
  have hfree : ∀ l ∈ ls, ¬ delim <:+: l := by
    intro l hl hin
    obtain ⟨i, hi⟩ := infix_iff_exists_drop.mp hin
    have hlen := hi.length_le
    rw [List.length_drop] at hlen
    have hpos : 0 < delim.length := List.length_pos_iff.mpr hd
    apply (find_eq_some_iff.mp (hls l hl)).2 i (by omega)
    rw [List.drop_append_of_le_length (by omega)]
    exact hi.trans (List.prefix_append _ _)
  have hr := cut_eq_none_iff.mp (frames_remainder hd str)
  refine ⟨ls, (frames delim str).2, hfree, hr, Prod.ext he rfl, ?_⟩
  rw [split_eq hd, tokens, he, List.map_map]
  congr 1
  refine (List.map_congr_left fun l _ => ?_).trans (List.map_id ls)
  simp

theorem split_lines {delim : Bytes} (hd : delim ≠ []) (str : Bytes) :
    ∃ ls r, (∀ l ∈ ls, ¬ delim <:+: l) ∧ ¬ delim <:+: r ∧
      str = (ls.map (· ++ delim)).flatten ++ r ∧
      split str delim = ls ++ if r = [] then [] else [r] := by
  obtain ⟨ls, r, hfree, hr, hframes, hsplit⟩ := split_frames hd str
  have hflatten := frames_flatten hd str
  rw [hframes] at hflatten
  exact ⟨ls, r, hfree, hr, hflatten.symm, hsplit⟩

theorem split_of_lines {delim : Bytes} (hd : delim ≠ []) (hb : Borderless delim)
    {ls : List Bytes} (hls : ∀ l ∈ ls, ¬ delim <:+: l) {r : Bytes} (hr : ¬ delim <:+: r) :
    split ((ls.map (· ++ delim)).flatten ++ r) delim = ls ++ if r = [] then [] else [r] := by
  rw [split_eq hd, tokens_of_lines hd hb hls hr]

end HttpReactor
