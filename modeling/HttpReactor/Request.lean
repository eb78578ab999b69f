import HttpReactor.HttpUtils
import HttpReactor.Connection

/-!
# Header lines and the request parser

The constructors that parse a text keep the source's order of checks, the fields
they have already assigned when a check fails, and the reasons they record. The
accepted texts are those of an explicit grammar (`request_accepts_grammar`).
-/

namespace HttpReactor
open ListSearch

structure Header where
  key : Bytes
  value : Bytes
  valid : Bool := true
deriving DecidableEq, Repr

def Header.ofLine (line : Bytes) : Header :=
  match split line kColon with
  | key :: v :: vs => { key := key, value := if vs = [] then v else join (v :: vs) kColon }
  | _ => { key := [], value := [], valid := false }

def Header.serialize (h : Header) : Bytes := h.key ++ kColon ++ h.value ++ kCRLF

structure Request where
  method : Method := .kUnsupported
  version : Version := .kUnsupported
  resourceUrl : Bytes := []
  headers : List Header := []
  shouldClose : Bool := true
  isValid : Bool := false
  invalidReason : Bytes := []
deriving DecidableEq, Repr

namespace Request

def routed (url : Bytes) : Bytes :=
  if url = [] ∨ url.getLast? = some 47 then url ++ kDefaultRoute else url

def parseRequestLine (r : Request) (requestLine : Bytes) : Bool × Request :=
  match split requestLine kSpace with
  | [t₀, t₁, t₂] =>
    let method := toMethod (.ofString t₀)
    if method = .kUnsupported then
      (false, { r with method := method, invalidReason := ascii "Unsupported method: " ++ t₀ })
    else
      let version := toVersion (.ofString t₂)
      if version = .kUnsupported then
        (false, { r with
          method := method, version := version,
          invalidReason := ascii "Unsupported version: " ++ t₂ })
      else
        (true, { r with
          method := method, version := version, resourceUrl := routed t₁ })
  | _ =>
    (false, { r with invalidReason := ascii "Invalid first request headline: " ++ requestLine })

def scanHeader (r : Request) (header : Header) : Request :=
  if format (.ofString header.key) = format (.ofString kHeaderConnection) then
    if format (.ofString header.value) = format (.ofString kConnectionKeepAlive) then
      { r with shouldClose := false }
    else r
  else r

def parseHeaders (r : Request) : List Bytes → Request
  | [] => { r with isValid := true }
  | line :: lines =>
    let header := Header.ofLine line
    if header.valid = false then
      { r with invalidReason := ascii "Fail to parse header line: " ++ line }
    else parseHeaders { scanHeader r header with headers := r.headers ++ [header] } lines

def formatOk (lines : List Bytes) : Bool := ¬ (lines.length < 2 ∨ lines.getLast? ≠ some [])

def ofString (requestStr : Bytes) : Request :=
  let lines := split requestStr kCRLF
  if ¬ formatOk lines then { invalidReason := ascii "Request format is wrong." }
  else if lines.getLast? ≠ some [] then
    { invalidReason := ascii "Ending of the request is not " ++ kCRLF ++ kCRLF }
  else
    match lines.dropLast with
    | [] => {}
    | line :: rest =>
      let r := parseRequestLine {} line
      if r.1 then parseHeaders r.2 rest else r.2

end Request

def kRequestEnd : Bytes := kCRLF ++ kCRLF

theorem kRequestEnd_ne_nil : kRequestEnd ≠ [] := by decide

/-- The grammar of accepted requests: request line `a SP u SP v`, possibly followed by one
more space, and header lines `hs`. -/
structure RequestText (s a u v trail : Bytes) (hs : List Bytes) : Prop where
  text : s = (a ++ kSpace ++ u ++ kSpace ++ v ++ trail) ++ kCRLF ++
    (hs.map (· ++ kCRLF)).flatten ++ kCRLF
  trailing : trail = [] ∨ trail = kSpace
  line_free : ¬ kCRLF <:+: a ++ kSpace ++ u ++ kSpace ++ v ++ trail
  headers_free : ∀ h ∈ hs, ¬ kCRLF <:+: h
  a_free : ¬ kSpace <:+: a
  u_free : ¬ kSpace <:+: u
  v_free : ¬ kSpace <:+: v
  method : toMethod (.ofString a) = .kGET ∨ toMethod (.ofString a) = .kHEAD
  version : toVersion (.ofString v) = .kHTTP_1_1
  headers_valid : ∀ h ∈ hs, (Header.ofLine h).valid = true

theorem toVersion_nil : toVersion (.ofString []) = .kUnsupported := by decide

theorem method_supported_iff {m : Method} : m ≠ .kUnsupported ↔ m = .kGET ∨ m = .kHEAD := by
  cases m <;> simp

theorem version_supported_iff {v : Version} : v ≠ .kUnsupported ↔ v = .kHTTP_1_1 := by
  cases v <;> simp

theorem crlf_free_nil : ¬ kCRLF <:+: ([] : Bytes) := by decide

theorem split_space_eq_three_iff {line a u v : Bytes} : split line kSpace = [a, u, v] ↔
    (¬ kSpace <:+: a ∧ ¬ kSpace <:+: u ∧ ¬ kSpace <:+: v) ∧
      ∃ trail, (trail = kSpace ∨ trail = [] ∧ v ≠ []) ∧
        line = a ++ kSpace ++ u ++ kSpace ++ v ++ trail := by
  constructor
  · intro h
    obtain ⟨ls, r, hls, hr, rfl, hsplit⟩ := split_lines kSpace_ne_nil line
    rw [h] at hsplit
    split_ifs at hsplit with hnil
    · rw [List.append_nil] at hsplit
      subst hsplit hnil
      refine ⟨⟨hls a (by simp), hls u (by simp), hls v (by simp)⟩, kSpace, Or.inl rfl, by simp⟩
    · have hlen := congrArg List.length hsplit
      simp only [List.length_cons, List.length_nil, List.length_append] at hlen
      obtain ⟨l₀, l₁, rfl⟩ := List.length_eq_two.mp (show ls.length = 2 by omega)
      simp only [List.cons_append, List.nil_append, List.cons.injEq, and_true] at hsplit
      obtain ⟨rfl, rfl, rfl⟩ := hsplit
      exact ⟨⟨hls a (by simp), hls u (by simp), hr⟩, [], Or.inr ⟨rfl, hnil⟩, by simp⟩
  · intro he
    rcases he with ⟨⟨ha, hu, hv⟩, trail, rfl | ⟨rfl, hne⟩, rfl⟩
    · have hls : ∀ l ∈ [a, u, v], ¬ kSpace <:+: l := by simp [ha, hu, hv]
      have h := split_of_lines kSpace_ne_nil kSpace_borderless hls (r := []) (by decide)
      simpa using h
    · have hls : ∀ l ∈ [a, u], ¬ kSpace <:+: l := by simp [ha, hu]
      have h := split_of_lines kSpace_ne_nil kSpace_borderless hls hv
      simpa [hne] using h

theorem parseRequestLine_eq_true_iff {r : Request} {line : Bytes} :
    (r.parseRequestLine line).1 = true ↔
      ∃ a u v, split line kSpace = [a, u, v] ∧ toMethod (.ofString a) ≠ .kUnsupported ∧
        toVersion (.ofString v) ≠ .kUnsupported := by
  unfold Request.parseRequestLine
  split
  · next a u v h =>
    constructor
    · intro ht
      dsimp only at ht
      split_ifs at ht with hm hv
      exact ⟨a, u, v, h, hm, hv⟩
    · intro he
      obtain ⟨a', u', v', h', hm, hv⟩ := he
      simp only [h, List.cons.injEq, and_true] at h'
      obtain ⟨rfl, rfl, rfl⟩ := h'
      simp [hm, hv]
  · next h =>
    simp only [Bool.false_eq_true, false_iff]
    intro he
    obtain ⟨a, u, v, h', -⟩ := he
    exact h a u v h'

theorem parseRequestLine_snd {r : Request} {line a u v : Bytes}
    (h : split line kSpace = [a, u, v]) (hm : toMethod (.ofString a) ≠ .kUnsupported)
    (hv : toVersion (.ofString v) ≠ .kUnsupported) :
    (r.parseRequestLine line).2 = { r with
      method := toMethod (.ofString a), version := toVersion (.ofString v),
      resourceUrl := Request.routed u } := by
  simp [Request.parseRequestLine, h, hm, hv]

theorem parseRequestLine_isValid (r : Request) (line : Bytes) :
    (r.parseRequestLine line).2.isValid = r.isValid := by
  unfold Request.parseRequestLine
  split
  · dsimp only
    split_ifs <;> rfl
  · rfl

theorem scanHeader_eq (r : Request) (h : Header) :
    r.scanHeader h = { r with shouldClose := (r.scanHeader h).shouldClose } := by
  unfold Request.scanHeader
  split_ifs <;> rfl

theorem parseHeaders_isValid_iff {r : Request} (hr : r.isValid = false) (lines : List Bytes) :
    (r.parseHeaders lines).isValid = true ↔ ∀ l ∈ lines, (Header.ofLine l).valid = true := by
  induction lines generalizing r with
  | nil => simp [Request.parseHeaders]
  | cons line lines ih =>
    simp only [Request.parseHeaders, List.forall_mem_cons]
    split_ifs with h
    · simp [h, hr]
    · have hs : (r.scanHeader (Header.ofLine line)).isValid = false := by
        rw [scanHeader_eq]; exact hr
      have ht := ih (r := { r.scanHeader (Header.ofLine line) with
        headers := r.headers ++ [Header.ofLine line] }) hs
      simpa [h] using ht

theorem parseHeaders_fields {r : Request} {lines : List Bytes}
    (h : ∀ l ∈ lines, (Header.ofLine l).valid = true) :
    (r.parseHeaders lines).method = r.method ∧ (r.parseHeaders lines).version = r.version ∧
      (r.parseHeaders lines).resourceUrl = r.resourceUrl ∧
      (r.parseHeaders lines).headers = r.headers ++ lines.map Header.ofLine := by
  induction lines generalizing r with
  | nil => simp [Request.parseHeaders]
  | cons line lines ih =>
    have hl := h line List.mem_cons_self
    obtain ⟨h₁, h₂, h₃, h₄⟩ := ih
      (r := { r.scanHeader (Header.ofLine line) with headers := r.headers ++ [Header.ofLine line] })
      fun l hm => h l (List.mem_cons_of_mem _ hm)
    simp only [Request.parseHeaders, hl, Bool.true_eq_false, if_false]
    rw [h₁, h₂, h₃, h₄, scanHeader_eq]
    simp

theorem split_request_lines {line : Bytes} {rest : List Bytes}
    (hls : ∀ l ∈ line :: rest, ¬ kCRLF <:+: l) :
    split (((line :: rest).map (· ++ kCRLF)).flatten ++ kCRLF) kCRLF = line :: rest ++ [[]] := by
  have hfree : ∀ l ∈ line :: rest ++ [[]], ¬ kCRLF <:+: l := by
    intro l hl
    rcases List.mem_append.mp hl with hl | hl
    · exact hls l hl
    · rw [List.mem_singleton.mp hl]; exact crlf_free_nil
  have h := split_of_lines kCRLF_ne_nil kCRLF_borderless hfree crlf_free_nil
  rw [List.map_append, List.flatten_append] at h
  simpa using h

theorem formatOk_split_iff_lines {s : Bytes} : Request.formatOk (split s kCRLF) = true ↔
    ∃ line rest, (∀ l ∈ line :: rest, ¬ kCRLF <:+: l) ∧
      s = ((line :: rest).map (· ++ kCRLF)).flatten ++ kCRLF := by
  simp only [Request.formatOk, decide_eq_true_eq, not_or, not_lt, ne_eq, not_not]
  constructor
  · intro h
    obtain ⟨hlen, hlast⟩ := h
    obtain ⟨ls, r, hls, hr, rfl, hsplit⟩ := split_lines kCRLF_ne_nil s
    rw [hsplit] at hlen hlast
    split_ifs at hlen hlast with hnil
    · rw [List.append_nil] at hlen hlast
      obtain ⟨ls, rfl⟩ := List.getLast?_eq_some_iff.mp hlast
      cases ls with
      | nil => simp at hlen
      | cons line rest =>
        refine ⟨line, rest, fun l hl => hls l (List.mem_append_left _ hl), ?_⟩
        simp [hnil]
    · rw [List.getLast?_concat] at hlast
      exact absurd (Option.some.inj hlast) hnil
  · intro h
    obtain ⟨line, rest, hls, rfl⟩ := h
    rw [split_request_lines hls, List.getLast?_concat]
    simp

theorem formatOk_split_iff_suffix {s : Bytes} :
    Request.formatOk (split s kCRLF) = true ↔ kRequestEnd <:+ s := by
  rw [formatOk_split_iff_lines]
  constructor
  · intro h
    obtain ⟨line, rest, -, rfl⟩ := h
    obtain ⟨init, last, he⟩ : ∃ init last, line :: rest = init ++ [last] :=
      ⟨_, _, (List.dropLast_append_getLast (List.cons_ne_nil line rest)).symm⟩
    rw [he]
    exact ⟨(init.map (· ++ kCRLF)).flatten ++ last, by simp [kRequestEnd]⟩
  · intro h
    obtain ⟨x, rfl⟩ := h
    obtain ⟨ls, r, hls, hr, rfl, -⟩ := split_lines kCRLF_ne_nil x
    obtain ⟨line, rest, he⟩ : ∃ line rest, ls ++ [r] = line :: rest :=
      List.exists_cons_of_ne_nil (by simp)
    refine ⟨line, rest, fun l hl => ?_, ?_⟩
    · rw [← he] at hl
      rcases List.mem_append.mp hl with hl | hl
      · exact hls l hl
      · rw [List.mem_singleton.mp hl]; exact hr
    · rw [← he]
      simp [kRequestEnd]

theorem ofString_of_not_formatOk {s : Bytes} (h : Request.formatOk (split s kCRLF) = false) :
    (Request.ofString s).isValid = false := by
  simp [Request.ofString, h]

theorem ofString_of_lines {line : Bytes} {rest : List Bytes}
    (hls : ∀ l ∈ line :: rest, ¬ kCRLF <:+: l) :
    Request.ofString (((line :: rest).map (· ++ kCRLF)).flatten ++ kCRLF) =
      if (Request.parseRequestLine {} line).1 then
        (Request.parseRequestLine {} line).2.parseHeaders rest
      else (Request.parseRequestLine {} line).2 := by
  have hok := formatOk_split_iff_lines.mpr ⟨line, rest, hls, rfl⟩
  have hsplit := split_request_lines hls
  rw [Request.ofString]
  dsimp only
  rw [if_neg (by simpa using hok), if_neg (by rw [hsplit, List.getLast?_concat]; simp), hsplit,
    List.dropLast_concat]

theorem isValid_ofString_lines_iff {line : Bytes} {rest : List Bytes}
    (hls : ∀ l ∈ line :: rest, ¬ kCRLF <:+: l) :
    (Request.ofString (((line :: rest).map (· ++ kCRLF)).flatten ++ kCRLF)).isValid = true ↔
      (Request.parseRequestLine {} line).1 = true ∧
        ∀ l ∈ rest, (Header.ofLine l).valid = true := by
  rw [ofString_of_lines hls]
  have hinit : (Request.parseRequestLine {} line).2.isValid = false :=
    parseRequestLine_isValid {} line
  split_ifs with h
  · rw [parseHeaders_isValid_iff hinit]
    exact ⟨fun hv => ⟨h, hv⟩, fun hv => hv.2⟩
  · rw [hinit]
    simp [h]

theorem RequestText.eq_lines {s a u v trail : Bytes} {hs : List Bytes}
    (h : RequestText s a u v trail hs) :
    s = (((a ++ kSpace ++ u ++ kSpace ++ v ++ trail) :: hs).map (· ++ kCRLF)).flatten ++ kCRLF := by
  rw [h.text]
  simp

theorem RequestText.lines_free {s a u v trail : Bytes} {hs : List Bytes}
    (h : RequestText s a u v trail hs) :
    ∀ l ∈ (a ++ kSpace ++ u ++ kSpace ++ v ++ trail) :: hs, ¬ kCRLF <:+: l :=
  List.forall_mem_cons.mpr ⟨h.line_free, h.headers_free⟩

theorem RequestText.split_line {s a u v trail : Bytes} {hs : List Bytes}
    (h : RequestText s a u v trail hs) :
    split (a ++ kSpace ++ u ++ kSpace ++ v ++ trail) kSpace = [a, u, v] := by
  refine split_space_eq_three_iff.mpr ⟨⟨h.a_free, h.u_free, h.v_free⟩, trail, ?_, rfl⟩
  rcases h.trailing with ht | ht
  · refine Or.inr ⟨ht, ?_⟩
    intro he
    subst he
    have hv := h.version
    rw [toVersion_nil] at hv
    cases hv
  · exact Or.inl ht

theorem RequestText.isValid {s a u v trail : Bytes} {hs : List Bytes}
    (h : RequestText s a u v trail hs) : (Request.ofString s).isValid = true := by
  rw [h.eq_lines, isValid_ofString_lines_iff h.lines_free]
  exact ⟨parseRequestLine_eq_true_iff.mpr ⟨a, u, v, h.split_line,
    method_supported_iff.mpr h.method, version_supported_iff.mpr h.version⟩, h.headers_valid⟩

theorem RequestText.fields {s a u v trail : Bytes} {hs : List Bytes}
    (h : RequestText s a u v trail hs) :
    (Request.ofString s).method = toMethod (.ofString a) ∧
      (Request.ofString s).version = toVersion (.ofString v) ∧
      (Request.ofString s).resourceUrl = Request.routed u ∧
      (Request.ofString s).headers = hs.map Header.ofLine := by
  have hm := method_supported_iff.mpr h.method
  have hv := version_supported_iff.mpr h.version
  have ht : (Request.parseRequestLine {} (a ++ kSpace ++ u ++ kSpace ++ v ++ trail)).1 = true :=
    parseRequestLine_eq_true_iff.mpr ⟨a, u, v, h.split_line, hm, hv⟩
  obtain ⟨h₁, h₂, h₃, h₄⟩ := parseHeaders_fields h.headers_valid
    (r := (Request.parseRequestLine {} (a ++ kSpace ++ u ++ kSpace ++ v ++ trail)).2)
  rw [h.eq_lines, ofString_of_lines h.lines_free, if_pos ht, h₁, h₂, h₃, h₄,
    parseRequestLine_snd h.split_line hm hv]
  simp

theorem exists_requestText {s : Bytes} (h : (Request.ofString s).isValid = true) :
    ∃ a u v trail hs, RequestText s a u v trail hs := by
  have hok : Request.formatOk (split s kCRLF) = true := by
    by_contra hn
    rw [ofString_of_not_formatOk (Bool.eq_false_iff.mpr hn)] at h
    cases h
  obtain ⟨line, rest, hls, rfl⟩ := formatOk_split_iff_lines.mp hok
  obtain ⟨hline, hvalid⟩ := (isValid_ofString_lines_iff hls).mp h
  obtain ⟨a, u, v, hsplit, hm, hv⟩ := parseRequestLine_eq_true_iff.mp hline
  obtain ⟨⟨ha, hu, hvf⟩, trail, ht, rfl⟩ := split_space_eq_three_iff.mp hsplit
  refine ⟨a, u, v, trail, rest, ?_⟩
  exact {
    text := by simp
    trailing := ht.symm.imp_left And.left
    line_free := hls _ List.mem_cons_self
    headers_free := fun l hl => hls l (List.mem_cons_of_mem _ hl)
    a_free := ha
    u_free := hu
    v_free := hvf
    method := method_supported_iff.mp hm
    version := version_supported_iff.mp hv
    headers_valid := hvalid }

/-- The parser accepts exactly the grammar and reports what the grammar names; its format
check is the test for a final blank line, which every popped request passes. -/
theorem request_accepts_grammar (s : Bytes) :
    ((Request.ofString s).isValid = true ↔ ∃ a u v trail hs, RequestText s a u v trail hs) ∧
    (∀ a u v trail hs, RequestText s a u v trail hs →
      (Request.ofString s).method = toMethod (.ofString a) ∧
      (Request.ofString s).version = toVersion (.ofString v) ∧
      (Request.ofString s).headers = hs.map Header.ofLine ∧
      (Request.ofString s).resourceUrl =
        if u ≠ [] ∧ u.getLast? ≠ some 47 then u else u ++ kDefaultRoute) ∧
    (Request.formatOk (split s kCRLF) = true ↔ kCRLF ++ kCRLF <:+ s) ∧
    (∀ buf rest, Buffer.findAndPopTill buf (kCRLF ++ kCRLF) = (some s, rest) →
      Request.formatOk (split s kCRLF) = true) := by
  refine ⟨⟨exists_requestText, fun ⟨a, u, v, trail, hs, h⟩ => h.isValid⟩, ?_,
    formatOk_split_iff_suffix, fun buf rest h => ?_⟩
  · intro a u v trail hs h
    obtain ⟨h₁, h₂, h₃, h₄⟩ := h.fields
    refine ⟨h₁, h₂, h₄, ?_⟩
    rw [h₃, Request.routed]
    by_cases hu : u = [] ∨ u.getLast? = some 47
    · rw [if_pos hu, if_neg (by tauto)]
    · rw [if_neg hu, if_pos (by tauto)]
  · exact formatOk_split_iff_suffix.mpr (cut_suffix (Buffer.findAndPopTill_eq_some_iff.mp h))

theorem request_accepts_grammar_example :
    (Request.ofString
      (ascii "GET  HTTP/1.1 " ++ kCRLF ++ ascii "Host:a:b" ++ kCRLF ++ kCRLF)).isValid = true ∧
    (Request.ofString
      (ascii "GET  HTTP/1.1 " ++ kCRLF ++ ascii "Host:a:b" ++ kCRLF ++ kCRLF)).headers =
        [⟨ascii "Host", ascii "a:b", true⟩] ∧
    (Request.ofString
      (ascii "GET  HTTP/1.1 " ++ kCRLF ++ ascii "Host:a:b" ++ kCRLF ++ kCRLF)).resourceUrl =
        kDefaultRoute := by
  have hg : RequestText (ascii "GET  HTTP/1.1 " ++ kCRLF ++ ascii "Host:a:b" ++ kCRLF ++ kCRLF)
      (ascii "GET") [] (ascii "HTTP/1.1") kSpace [ascii "Host:a:b"] := by
    constructor <;> decide
  obtain ⟨hv, hf, -, -⟩ := request_accepts_grammar
    (ascii "GET  HTTP/1.1 " ++ kCRLF ++ ascii "Host:a:b" ++ kCRLF ++ kCRLF)
  obtain ⟨-, -, hh, hu⟩ := hf _ _ _ _ _ hg
  refine ⟨hv.mpr ⟨_, _, _, _, _, hg⟩, hh.trans (by decide), hu.trans (by decide)⟩

end HttpReactor
