import HttpReactor.Message

/-!
# Reading response heads with the parser of requests

The heads that the server writes are read back by `Split` and `Header`, the code that reads
requests. `Headed r n` is what the factories establish and `ChangeHeader` of the length keeps,
however often it is called (`headed_changeLengths`).
-/

namespace HttpReactor
open ListSearch

namespace Response

inductive Factory
  | make200 (shouldClose : Bool) (resourceUrl : Option Bytes)
  | make400
  | make404
  | make503
deriving DecidableEq, Repr

def Factory.build (fs : FileSystem) : Factory → Except Terminate Response
  | .make200 shouldClose resourceUrl => make200Response fs shouldClose resourceUrl
  | .make400 => .ok make400Response
  | .make404 => .ok make404Response
  | .make503 => .ok make503Response

/-- The size of the resource: 0 for no path or one that names nothing, and no size for a path
that names anything but a regular file. -/
def Factory.resourceSize (fs : FileSystem) : Factory → Option ℕ
  | .make200 _ (some url) =>
    match fs.at url with
    | .missing => some 0
    | .regular content _ => some content.length
    | .directory | .special | .refused => none
  | _ => some 0

def changeLength (r : Response) (n : ℕ) : Response :=
  (r.changeHeader kHeaderContentLength (toDecimal n)).1

def withLength (n : ℕ) (h : Header) : Header :=
  if h.key = kHeaderContentLength then { h with value := toDecimal n } else h

structure ReadsBack (r : Response) (n : ℕ) : Prop where
  appended : ∀ buffer, r.serialize buffer = buffer ++ r.head
  boundary : ∀ i, kRequestEnd <+: r.head.drop i ↔ i + kRequestEnd.length = r.head.length
  lines : ∃ lines, split r.head kCRLF = r.statusLine :: lines ++ [[]] ∧
    lines.map Header.ofLine = r.headers
  valid : ∀ h ∈ r.headers, h.valid = true
  server : (r.valuesOf kHeaderServer).length = 1
  connection : (r.valuesOf kHeaderConnection).length = 1
  contentLength : ∃ v, r.valuesOf kHeaderContentLength = [v] ∧ decimalValue v = some n

structure Headed (r : Response) (n : ℕ) : Prop where
  plain : r.Plain
  server : (r.valuesOf kHeaderServer).length = 1
  connection : (r.valuesOf kHeaderConnection).length = 1
  contentLength : r.valuesOf kHeaderContentLength = [toDecimal n]

theorem Headed.readsBack {r : Response} {n : ℕ} (h : r.Headed n) : r.ReadsBack n where
  appended := fun _ => rfl
  boundary := by
    have hcut := cut_head h.plain []
    rw [List.append_nil] at hcut
    exact fun i => cut_occurrence_iff kRequestEnd_ne_nil hcut
  lines := by
    refine ⟨r.headers.map fun h => h.key ++ kColon ++ h.value, ?_, ?_⟩
    · rw [head_eq_lines]
      exact split_request_lines fun l hl => (lines_free h.plain l hl).1
    · rw [List.map_map]
      exact (List.map_congr_left fun l hl => (h.plain.headers l hl).ofLine).trans (List.map_id _)
  valid := fun l hl => (h.plain.headers l hl).valid
  server := h.server
  connection := h.connection
  contentLength := ⟨toDecimal n, h.contentLength, decimalValue_toDecimal n⟩

/-! ## Changing the length -/

theorem withLength_key (n : ℕ) (h : Header) : (withLength n h).key = h.key := by
  rw [withLength]
  split_ifs <;> rfl

theorem map_withLength_of_ne {hs : List Header} (n : ℕ)
    (h : ∀ x ∈ hs, x.key ≠ kHeaderContentLength) : hs.map (withLength n) = hs := by
  refine (List.map_congr_left fun x hx => ?_).trans (List.map_id hs)
  exact if_neg (h x hx)

theorem changeHeaderIn_eq_map {hs : List Header} (n : ℕ)
    (h : (hs.filter fun x => x.key = kHeaderContentLength).length = 1) :
    (changeHeaderIn kHeaderContentLength (toDecimal n) hs).1 = hs.map (withLength n) := by
  induction hs with
  | nil => cases h
  | cons x hs ih =>
    rw [changeHeaderIn, List.map_cons, withLength]
    split_ifs with hx
    · have hrest : ∀ y ∈ hs, y.key ≠ kHeaderContentLength := by
        rw [List.filter_cons_of_pos (by simpa using hx), List.length_cons, Nat.add_eq_right,
          List.length_eq_zero_iff, List.filter_eq_nil_iff] at h
        intro y hy
        simpa using h y hy
      rw [map_withLength_of_ne n hrest]
    · rw [List.filter_cons_of_neg (by simpa using hx)] at h
      rw [← ih h]

theorem changeLength_eq {r : Response} {m : ℕ} (h : r.Headed m) (n : ℕ) :
    r.changeLength n = { r with headers := r.headers.map (withLength n) } := by
  have hone : (r.headers.filter fun x => x.key = kHeaderContentLength).length = 1 := by
    have hlen := congrArg List.length h.contentLength
    rwa [valuesOf, List.length_map] at hlen
  rw [changeLength, changeHeader, changeHeaderIn_eq_map n hone]

theorem filter_map_withLength (n : ℕ) (key : Bytes) (hs : List Header) :
    (hs.map (withLength n)).filter (fun x => x.key = key) =
      (hs.filter fun x => x.key = key).map (withLength n) := by
  rw [List.filter_map]
  simp only [Function.comp_def, withLength_key]

theorem Headed.changeLength {r : Response} {m : ℕ} (h : r.Headed m) (n : ℕ) :
    (r.changeLength n).Headed n := by
  rw [changeLength_eq h]
  refine ⟨⟨h.plain.statusLine_cr, h.plain.statusLine_ne, ?_⟩, ?_, ?_, ?_⟩
  · intro x hx
    obtain ⟨y, hy, rfl⟩ := List.mem_map.mp hx
    rw [withLength]
    split_ifs with hkey
    · have hplain := plain_contentLength n
      rw [← hkey] at hplain
      exact ⟨hplain.key_cr, hplain.value_cr, hplain.key_colon, hplain.value_colon,
        hplain.value_ne, (h.plain.headers y hy).valid⟩
    · exact h.plain.headers y hy
  · rw [valuesOf, filter_map_withLength, List.length_map, List.length_map]
    simpa [valuesOf] using h.server
  · rw [valuesOf, filter_map_withLength, List.length_map, List.length_map]
    simpa [valuesOf] using h.connection
  · rw [valuesOf, filter_map_withLength, List.map_map]
    have hone := h.contentLength
    rw [valuesOf] at hone
    obtain ⟨x, hx, -⟩ := List.map_eq_singleton_iff.mp hone
    have hkey : x.key = kHeaderContentLength := by
      have hmem : x ∈ r.headers.filter fun x => x.key = kHeaderContentLength := by simp [hx]
      simpa using (List.mem_filter.mp hmem).2
    rw [hx]
    simp [withLength, hkey]

theorem Headed.map_withLength {r : Response} {n : ℕ} (h : r.Headed n) :
    r.headers.map (withLength n) = r.headers := by
  refine (List.map_congr_left fun x hx => ?_).trans (List.map_id _)
  rw [withLength]
  split_ifs with hkey
  · have hvalue : x.value ∈ r.valuesOf kHeaderContentLength :=
      List.mem_map_of_mem (List.mem_filter.mpr ⟨hx, by simpa using hkey⟩)
    rw [h.contentLength, List.mem_singleton] at hvalue
    rw [← hvalue]
    rfl
  · rfl

theorem withLength_withLength (m n : ℕ) (h : Header) :
    withLength n (withLength m h) = withLength n h := by
  by_cases hkey : h.key = kHeaderContentLength
  · simp [withLength, hkey]
  · simp [withLength, hkey]

theorem headed_changeLengths {r : Response} {size : ℕ} (h : r.Headed size) (ns : List ℕ) :
    (ns.foldl Response.changeLength r).Headed (ns.getLastD size) ∧
      ns.foldl Response.changeLength r =
        { r with headers := r.headers.map (withLength (ns.getLastD size)) } := by
  induction ns using List.reverseRecOn with
  | nil =>
    refine ⟨h, ?_⟩
    change r = { r with headers := r.headers.map (withLength size) }
    rw [h.map_withLength]
  | append_singleton ns n ih =>
    obtain ⟨hheaded, heq⟩ := ih
    rw [List.foldl_concat, List.getLastD_concat]
    refine ⟨hheaded.changeLength n, ?_⟩
    rw [changeLength_eq hheaded, heq]
    simp only [List.map_map, Function.comp_def, withLength_withLength]

/-! ## What the factories build -/

theorem headed_withoutResource {status : Bytes} (hs : 13 ∉ status) (close : Bool) :
    (withoutResource status close).Headed 0 where
  plain := plain_withoutResource hs close
  server := by cases close <;> rfl
  connection := by cases close <;> rfl
  contentLength := by cases close <;> rfl

theorem length_valuesOf_withResource {key : Bytes} (hlength : key ≠ kHeaderContentLength)
    (htype : key ≠ kHeaderContentType) (status : Bytes) (close : Bool) (url : Bytes) (n : ℕ) :
    ((withResource status close url n).valuesOf key).length =
      ((commonHeaders close).filter fun h => h.key = key).length := by
  have hct : (contentTypeHeader url).filter (fun h => h.key = key) = [] := by
    rw [List.filter_eq_nil_iff]
    intro h hm
    rw [contentTypeHeader_key hm]
    simpa using htype.symm
  simp [valuesOf, withResource, hct, hlength.symm]

theorem headed_withResource {status : Bytes} (hs : 13 ∉ status) (close : Bool) (url : Bytes)
    (n : ℕ) : (withResource status close url n).Headed n where
  plain := plain_withResource hs close url n
  server := by
    rw [length_valuesOf_withResource (by decide) (by decide)]
    cases close <;> rfl
  connection := by
    rw [length_valuesOf_withResource (by decide) (by decide)]
    cases close <;> rfl
  contentLength := withResource_contentLength status close url n

theorem make200Response_missing {fs : FileSystem} {url : Bytes} (h : fs.at url = .missing)
    (close : Bool) :
    make200Response fs close (some url) = .ok (withoutResource kResponseStatusOK close) := by
  simp [make200Response, make, isFileExists_missing h]

theorem Factory.build_headed {fs : FileSystem} {factory : Factory} {size : ℕ}
    (h : factory.resourceSize fs = some size) :
    ∃ r, factory.build fs = .ok r ∧ r.Headed size := by
  cases factory with
  | make200 close resourceUrl =>
    cases resourceUrl with
    | none =>
      cases h
      exact ⟨_, make200Response_none fs close, headed_withoutResource (by decide) close⟩
    | some url =>
      rw [resourceSize] at h
      cases hat : fs.at url with
      | missing =>
        rw [hat] at h
        cases h
        exact ⟨_, make200Response_missing hat close, headed_withoutResource (by decide) close⟩
      | regular content readable =>
        rw [hat] at h
        cases h
        exact ⟨_, make200Response_regular hat close, headed_withResource (by decide) close url _⟩
      | directory | special | refused =>
        rw [hat] at h
        cases h
  | make400 =>
    cases h
    exact ⟨_, rfl, headed_withoutResource (by decide) true⟩
  | make404 =>
    cases h
    exact ⟨_, rfl, headed_withoutResource (by decide) true⟩
  | make503 =>
    cases h
    exact ⟨_, rfl, headed_withoutResource (by decide) true⟩

/-- Every response a factory builds, after any changes of its length, is read back by the
parser of requests with the headers it stores and the length last set. -/
theorem heads_read_back (fs : FileSystem) (factory : Factory) {size : ℕ}
    (h : factory.resourceSize fs = some size) :
    ∃ r, factory.build fs = .ok r ∧ ∀ ns : List ℕ,
      (ns.foldl changeLength r).ReadsBack (ns.getLastD size) ∧
      ns.foldl changeLength r =
        { r with headers := r.headers.map (withLength (ns.getLastD size)) } := by
  obtain ⟨r, hbuild, hheaded⟩ := Factory.build_headed h
  refine ⟨r, hbuild, fun ns => ?_⟩
  obtain ⟨hlast, heq⟩ := headed_changeLengths hheaded ns
  exact ⟨hlast.readsBack, heq⟩

def onePage : FileSystem :=
  FileSystem.set (fun _ => .missing) (ascii "/srv/a.html") (.regular (ascii "<p>") true)

theorem heads_read_back_onePage :
    (Factory.make200 false (some (ascii "/srv/a.html"))).resourceSize onePage = some 3 ∧
    ∃ r, (Factory.make200 false (some (ascii "/srv/a.html"))).build onePage = .ok r ∧
      r.ReadsBack 3 ∧ ((r.changeLength 7).changeLength 1024).ReadsBack 1024 := by
  have hsize :
      (Factory.make200 false (some (ascii "/srv/a.html"))).resourceSize onePage = some 3 := by
    decide
  obtain ⟨r, hbuild, hread⟩ := heads_read_back onePage _ hsize
  exact ⟨hsize, r, hbuild, (hread []).1, (hread [7, 1024]).1⟩

end Response
end HttpReactor
