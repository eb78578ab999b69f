import HttpReactor.HttpServer
import HttpReactor.LexicalPath

/-!
# Which files a request can reach

The path of a request is the serving directory followed by the url, with nothing in
between and nothing removed, and a request is a CGI request if that text contains the
folder name anywhere. `request_confined_iff` says for which urls the path that is served,
or the program that is executed, stays where it belongs once dots are resolved.
-/

namespace HttpReactor
open ListSearch LexicalPath

def slash : Byte := 47
def dot : Byte := 46
def ampersand : Byte := 38

structure ServingDirectory where
  bytes : Bytes
  absolute : bytes.head? = some slash
  plain : Plain dot (components slash bytes)
  nulFree : 0 ∉ bytes

/-- The path lies in the folder, or is the folder, once its dots are resolved. -/
def Within (folder : List Bytes) (path : Bytes) : Prop := folder <+: resolve slash dot path

def Below (folder : List Bytes) (path : Bytes) : Prop :=
  ∃ c rest, resolve slash dot path = folder ++ c :: rest

theorem below_iff {folder : List Bytes} {path : Bytes} :
    Below folder path ↔ Within folder path ∧ resolve slash dot path ≠ folder := by
  constructor
  · intro he
    obtain ⟨c, rest, h⟩ := he
    exact ⟨⟨c :: rest, h.symm⟩, by simp [h]⟩
  · intro he
    obtain ⟨⟨t, ht⟩, hne⟩ := he
    cases t with
    | nil => exact absurd (by simpa using ht.symm) hne
    | cons c rest => exact ⟨c, rest, ht.symm⟩

namespace ServingDirectory

variable (d : ServingDirectory)

def names : List Bytes := LexicalPath.names (components slash d.bytes)

def lastName : Bytes := (components slash d.bytes).getLastD []

def parents : List Bytes := LexicalPath.names (components slash d.bytes).dropLast

theorem exists_parent : ∃ a, d.bytes = a ++ slash :: d.lastName ∧
    components slash d.bytes = components slash a ++ [d.lastName] ∧
    d.parents = LexicalPath.names (components slash a) := by
  have hmem : slash ∈ d.bytes := List.mem_of_head? d.absolute
  obtain ⟨a, b, he, hb⟩ := exists_last_sep hmem
  have hc : components slash d.bytes = components slash a ++ [b] := by
    rw [he, components_append_sep, components_of_notMem slash hb]
  have hl : d.lastName = b := by simp [lastName, hc]
  exact ⟨a, hl ▸ he, hl ▸ hc, by rw [parents, hc, List.dropLast_concat]⟩

theorem parents_prefix_names : d.parents <+: d.names := by
  obtain ⟨a, -, hc, hp⟩ := d.exists_parent
  rw [names, hc, hp, LexicalPath.names, LexicalPath.names, List.filter_append]
  exact List.prefix_append _ _

def reduced (w : Bytes) : ℕ × List Bytes := reduce dot (components slash (d.lastName ++ w))

theorem resolve_append (w : Bytes) : resolve slash dot (d.bytes ++ w) =
    d.parents.take (d.parents.length - (d.reduced w).1) ++ (d.reduced w).2 := by
  obtain ⟨a, he, hc, hp⟩ := d.exists_parent
  have hplain : Plain dot (components slash a) := fun c hm =>
    d.plain c (by rw [hc]; exact List.mem_append_left _ hm)
  rw [resolve, he, List.append_assoc, List.cons_append, components_append_sep, resolveFrom_append,
    resolveFrom_plain dot hplain, List.nil_append, ← hp, resolveFrom_eq, reduced]

/-- The part of a folder's names that a text appended to the directory has to name, because
its climbs have left it. -/
def toName (folder : List Bytes) (w : Bytes) : List Bytes :=
  folder.drop (d.parents.length - (d.reduced w).1)

theorem take_append_toName {folder : List Bytes} (hf : d.names <+: folder) (w : Bytes) :
    d.parents.take (d.parents.length - (d.reduced w).1) ++ d.toName folder w = folder := by
  obtain ⟨t, rfl⟩ := d.parents_prefix_names.trans hf
  have htake : (d.parents ++ t).take (d.parents.length - (d.reduced w).1) =
      d.parents.take (d.parents.length - (d.reduced w).1) :=
    List.take_append_of_le_length (Nat.sub_le _ _)
  rw [toName, ← htake, List.take_append_drop]

theorem within_append_iff {folder : List Bytes} (hf : d.names <+: folder) (w : Bytes) :
    Within folder (d.bytes ++ w) ↔ d.toName folder w <+: (d.reduced w).2 := by
  rw [Within, d.resolve_append]
  conv_lhs => rw [← d.take_append_toName hf w]
  exact List.prefix_append_right_inj _

theorem below_append_iff {folder : List Bytes} (hf : d.names <+: folder) (w : Bytes) :
    Below folder (d.bytes ++ w) ↔
      d.toName folder w <+: (d.reduced w).2 ∧ (d.reduced w).2 ≠ d.toName folder w := by
  rw [below_iff, d.within_append_iff hf, d.resolve_append]
  refine and_congr_right fun _ => not_congr ?_
  conv_lhs => rhs; rw [← d.take_append_toName hf w]
  exact List.append_right_inj _

theorem cstr_append (w : Bytes) : cstr (d.bytes ++ w) = d.bytes ++ cstr w :=
  cstr_append_of_notMem d.nulFree w

end ServingDirectory

theorem cgiProgramPath_eq {path : Bytes} (h : isCGIRequest path = true) :
    ∃ pos, find kCGIFolderName path = some pos ∧
      (CGIRunner.parseCGIRunner path).cgiProgramPath =
        path.take pos ++ (path.drop pos).takeWhile (· ≠ ampersand) := by
  obtain ⟨pos, hpos⟩ := Option.isSome_iff_exists.mp h
  have hne := CGIRunner.not_invalid_of_isCGIRequest h
  have hle : pos ≤ path.length := by
    have := find_add_length_le (by decide) hpos
    omega
  refine ⟨pos, hpos, ?_⟩
  rw [takeWhile_ne_eq_find]
  simp only [CGIRunner.parseCGIRunner, if_neg hne, hpos, Option.getD_some, findFrom, if_pos hle]
  rw [show kSeparator = [ampersand] from rfl]
  cases find [ampersand] (path.drop pos) with
  | none => simp
  | some i => simp [substr, List.take_add]

/-- The part of the url that belongs to the program's path; `none` if the program's path ends
inside the directory. -/
def programUrl (dir url : Bytes) : Option Bytes :=
  let pos := (find kCGIFolderName (dir ++ url)).getD 0
  if ampersand ∈ dir.drop pos then none
  else some (url.take (pos - dir.length) ++
    (url.drop (pos - dir.length)).takeWhile (· ≠ ampersand))

theorem takeWhile_append_of_notMem {a x : Bytes} (h : ampersand ∉ a) :
    (a ++ x).takeWhile (· ≠ ampersand) = a ++ x.takeWhile (· ≠ ampersand) := by
  refine List.takeWhile_append_of_pos fun b hb => ?_
  have hne : b ≠ ampersand := fun he => h (he ▸ hb)
  simpa using hne

theorem cgiProgramPath_of_programUrl {dir url q : Bytes} (h : isCGIRequest (dir ++ url) = true)
    (hq : programUrl dir url = some q) :
    (CGIRunner.parseCGIRunner (dir ++ url)).cgiProgramPath = dir ++ q := by
  obtain ⟨pos, hpos, hp⟩ := cgiProgramPath_eq h
  simp only [programUrl, hpos, Option.getD_some] at hq
  split_ifs at hq with hamp
  obtain rfl := Option.some.inj hq
  rw [hp, List.take_append, List.drop_append, takeWhile_append_of_notMem hamp]
  by_cases hle : dir.length ≤ pos
  · rw [List.take_of_length_le hle, List.drop_of_length_le hle]
    simp
  · have hzero : pos - dir.length = 0 := by omega
    rw [hzero, List.take_zero, List.drop_zero, List.append_nil, List.nil_append,
      ← List.append_assoc, List.take_append_drop]

theorem cgiProgramPath_of_programUrl_none {dir url : Bytes}
    (h : isCGIRequest (dir ++ url) = true) (hq : programUrl dir url = none) :
    ∃ rest, dir = (CGIRunner.parseCGIRunner (dir ++ url)).cgiProgramPath ++ ampersand :: rest := by
  obtain ⟨pos, hpos, hp⟩ := cgiProgramPath_eq h
  simp only [programUrl, hpos, Option.getD_some] at hq
  split_ifs at hq with hamp
  obtain ⟨u, v, huv, hu⟩ := List.eq_append_cons_of_mem hamp
  have hle : pos ≤ dir.length := by
    by_contra hlt
    rw [List.drop_of_length_le (by omega)] at hamp
    cases hamp
  have htake : (u ++ ampersand :: v ++ url).takeWhile (· ≠ ampersand) = u := by
    rw [List.append_assoc, takeWhile_append_of_notMem hu]
    simp
  refine ⟨v, ?_⟩
  rw [hp, List.take_append_of_le_length hle, List.drop_append_of_le_length hle, huv, htake,
    List.append_assoc, ← huv, List.take_append_drop]

theorem ServingDirectory.length_resolve_le (d : ServingDirectory) {p rest : Bytes}
    (h : d.bytes = p ++ ampersand :: rest) :
    (resolve slash dot p).length ≤ d.names.length := by
  have hp : slash ∈ p := by
    have habs := d.absolute
    rw [h] at habs
    cases p with
    | nil => simp [ampersand, slash] at habs
    | cons b p =>
      obtain rfl : b = slash := by simpa using habs
      exact List.mem_cons_self
  obtain ⟨a, b, rfl, hb⟩ := exists_last_sep hp
  have hc : components slash d.bytes =
      components slash a ++ components slash (b ++ ampersand :: rest) := by
    rw [h, List.append_assoc, List.cons_append, components_append_sep]
  have hplain : Plain dot (components slash a) := fun c hm =>
    d.plain c (by rw [hc]; exact List.mem_append_left _ hm)
  have hlast : 0 < (LexicalPath.names (components slash (b ++ ampersand :: rest))).length :=
    List.length_pos_iff.mpr (names_components_ne_nil slash
      (List.mem_append_right b List.mem_cons_self) (by decide))
  have hup := length_climb_le dot (LexicalPath.names (components slash a)) b
  rw [resolve, components_append_sep, components_of_notMem slash hb, resolveFrom_append,
    resolveFrom_plain dot hplain, List.nil_append, ServingDirectory.names, hc]
  simp only [resolveFrom, List.foldl_cons, List.foldl_nil, LexicalPath.names,
    List.filter_append, List.length_append] at hup hlast ⊢
  omega

/-- The path that `HandleStaticResourceRequest` serves lies in the serving directory; the program
that `HandleCGIRequest` executes lies in its CGI folder. A HEAD request gets no content of its
path, but its existence and its size. -/
def Confined (d : ServingDirectory) (url : Bytes) : Prop :=
  (isCGIRequest (d.bytes ++ url) = false → Within d.names (cstr (d.bytes ++ url))) ∧
  (isCGIRequest (d.bytes ++ url) = true →
    Within d.names (cstr (CGIRunner.parseCGIRunner (d.bytes ++ url)).cgiProgramPath) ∧
    Below (d.names ++ [kCGIFolderName])
      (cstr (CGIRunner.parseCGIRunner (d.bytes ++ url)).cgiProgramPath))

theorem Confined.static_congr {d : ServingDirectory} {url : Bytes} (h : Confined d url)
    (hc : isCGIRequest (d.bytes ++ url) = false) {fs fs' : FileSystem}
    (hagree : ∀ path, Within d.names (cstr path) → fs.at path = fs'.at path) (store : Store)
    (env : RequestEnv) (request : Request) (buf : DynamicByteArray) :
    handleStaticResourceRequest ⟨fs, store⟩ env request (d.bytes ++ url) buf =
      handleStaticResourceRequest ⟨fs', store⟩ env request (d.bytes ++ url) buf :=
  handleStaticResourceRequest_congr (hagree _ (h.1 hc)) store env request buf

/-- Which requests stay where they belong. A static url, reduced on its own from the directory's
parent on, names again all that its climbs have left; the part of a CGI url that belongs to the
program does, and goes on into the CGI folder. -/
theorem request_confined_iff (d : ServingDirectory) (requestStr : Bytes) :
    let url := (Request.ofString requestStr).resourceUrl
    Confined d url ↔
      (isCGIRequest (d.bytes ++ url) = false →
        d.toName d.names (cstr url) <+: (d.reduced (cstr url)).2) ∧
      (isCGIRequest (d.bytes ++ url) = true →
        ∃ q, programUrl d.bytes url = some q ∧
          d.toName (d.names ++ [kCGIFolderName]) (cstr q) <+: (d.reduced (cstr q)).2 ∧
          (d.reduced (cstr q)).2 ≠ d.toName (d.names ++ [kCGIFolderName]) (cstr q)) := by
  intro url
  have hfolder : d.names <+: d.names ++ [kCGIFolderName] := List.prefix_append _ _
  refine and_congr (imp_congr_right fun _ => ?_) (imp_congr_right fun hc => ?_)
  · rw [d.cstr_append, d.within_append_iff List.prefix_rfl]
  · cases hq : programUrl d.bytes url with
    | some q =>
      rw [cgiProgramPath_of_programUrl hc hq, d.cstr_append]
      constructor
      · intro he
        obtain ⟨-, hb⟩ := he
        exact ⟨q, rfl, (d.below_append_iff hfolder _).mp hb⟩
      · intro he
        obtain ⟨q', hq', hb⟩ := he
        obtain rfl := Option.some.inj hq'
        have hbelow := (d.below_append_iff hfolder _).mpr hb
        exact ⟨hfolder.trans (below_iff.mp hbelow).1, hbelow⟩
    | none =>
      obtain ⟨rest, hrest⟩ := cgiProgramPath_of_programUrl_none hc hq
      have hnul : 0 ∉ (CGIRunner.parseCGIRunner (d.bytes ++ url)).cgiProgramPath := fun h =>
        d.nulFree (by rw [hrest]; exact List.mem_append_left _ h)
      refine iff_of_false ?_ (by simp)
      intro he
      obtain ⟨-, c, more, hr⟩ := he
      -- the program would be deeper than the directory in which its path ends
      have hle := d.length_resolve_le hrest
      rw [cstr_eq_self hnul] at hr
      rw [hr, List.length_append, List.length_cons, List.length_append] at hle
      omega

theorem traversal_not_confined :
    let d : ServingDirectory := ⟨ascii "/srv", by decide, by decide, by decide⟩
    let up := Request.ofString (ascii "GET /../etc/passwd HTTP/1.1" ++ kRequestEnd)
    let fs : FileSystem := fun path =>
      if path = ascii "/srv/../etc/passwd" then .regular (ascii "root") true else .missing
    let env : RequestEnv := ⟨1, 2, .writes (ascii "1") []⟩
    let cgi := Request.ofString (ascii "GET /a/cgi-bin-x/prog HTTP/1.1" ++ kRequestEnd)
    (up.isValid = true ∧ ¬ Confined d up.resourceUrl ∧
      ∃ head store, handleStaticResourceRequest ⟨fs, Store.new 0 100⟩ env up
        (d.bytes ++ up.resourceUrl) [] = .ok (⟨head ++ ascii "root", true⟩, store)) ∧
    (cgi.isValid = true ∧ ¬ Confined d cgi.resourceUrl ∧
      (CGIRunner.parseCGIRunner (d.bytes ++ cgi.resourceUrl)).cgiProgramPath =
        ascii "/srv/a/cgi-bin-x/prog") := by
  intro d up fs env cgi
  have hat : fs.at (d.bytes ++ up.resourceUrl) = .regular (ascii "root") true := by decide
  refine ⟨⟨by decide, fun h => ?_, ?_⟩, by decide, fun h => ?_, by decide⟩
  · exact absurd (h.1 (by decide)) (by unfold Within; decide)
  · refine ⟨_, _, handleStaticResourceRequest_regular hat env up []⟩
  · have hw := (below_iff.mp (h.2 (by decide)).2).1
    exact absurd hw (by unfold Within; decide)

end HttpReactor
