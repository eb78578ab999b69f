import HttpReactor.CGIRunner
import HttpReactor.TokenRoundTrip

/-!
# The arguments of a CGI program

`BuildArgv` copies the path and the arguments into character arrays, of which `execve` reads
each up to its first NUL. Its loop counts in `unsigned int`.

When the url has no separator after the folder name, `cgi_separator + 1` wraps around to 0 and
the whole url is split once more, so the program gets it as its arguments.
-/

namespace HttpReactor
open ListSearch

inductive ArgvEntry
  | uninitialized
  | null
  | chars (array : Bytes)
deriving DecidableEq, Repr

def uintModulus : ℕ := 4294967296

namespace CGIRunner

def buildArgvLoop (cgiArguments : List Bytes) :
    ℕ → ℕ → List ArgvEntry → Option (List ArgvEntry)
  | 0, _, _ => none
  | fuel + 1, i, argv =>
    match cgiArguments[i]? with
    | some argument =>
      buildArgvLoop cgiArguments fuel ((i + 1) % uintModulus)
        (argv.set ((i + 1) % uintModulus) (.chars (argument ++ [0])))
    | none => some argv

def buildArgv (cgiArguments : List Bytes) (cgiProgramPath : Bytes) : Option (List ArgvEntry) :=
  let argv := List.replicate (cgiArguments.length + 2) .uninitialized
  let argv := argv.set 0 (.chars (cgiProgramPath ++ [0]))
  (buildArgvLoop cgiArguments (cgiArguments.length + 1) 0 argv).map fun argv =>
    argv.set (cgiArguments.length + 1) .null

/-- What `execve` passes to the program: the texts up to the first null pointer. -/
def execArguments : List ArgvEntry → Option (List Bytes)
  | .chars array :: argv => (execArguments argv).map (cstr array :: ·)
  | .null :: _ => some []
  | _ => none

def programArguments (r : CGIRunner) : Option (List Bytes) :=
  (buildArgv r.cgiArguments r.cgiProgramPath).bind execArguments

theorem buildArgvLoop_spec (done todo : List Bytes) (first : ArgvEntry)
    (hlen : (done ++ todo).length < uintModulus) :
    buildArgvLoop (done ++ todo) (todo.length + 1) done.length
        (first :: done.map (fun a => .chars (a ++ [0])) ++
          List.replicate (todo.length + 1) .uninitialized) =
      some (first :: (done ++ todo).map (fun a => .chars (a ++ [0])) ++ [.uninitialized]) := by
  induction todo generalizing done with
  | nil => simp [buildArgvLoop]
  | cons argument todo ih =>
    have hget : (done ++ argument :: todo)[done.length]? = some argument := by simp
    have hmod : (done.length + 1) % uintModulus = (done ++ [argument]).length := by
      rw [List.length_append] at hlen ⊢
      apply Nat.mod_eq_of_lt
      simp only [List.length_cons] at hlen ⊢
      omega
    have hset : (first :: done.map (fun a => ArgvEntry.chars (a ++ [0])) ++
        List.replicate ((argument :: todo).length + 1) ArgvEntry.uninitialized).set
          (done ++ [argument]).length (.chars (argument ++ [0])) =
        first :: (done ++ [argument]).map (fun a => .chars (a ++ [0])) ++
          List.replicate (todo.length + 1) .uninitialized := by
      rw [List.set_append_right _ _ (by simp)]
      simp [List.replicate_succ]
    have happ : done ++ argument :: todo = (done ++ [argument]) ++ todo := by simp
    rw [List.length_cons, buildArgvLoop, hget]
    simp only [hmod]
    rw [← List.length_cons (a := argument), hset, happ]
    exact ih _ (by rw [← happ]; exact hlen)

theorem buildArgvLoop_unfinished {cgiArguments : List Bytes}
    (hlen : uintModulus ≤ cgiArguments.length) (fuel : ℕ) {i : ℕ} (hi : i < uintModulus)
    (argv : List ArgvEntry) : buildArgvLoop cgiArguments fuel i argv = none := by
  -- With `2 ^ 32` arguments or more the counter never reaches their number.
  induction fuel generalizing i argv with
  | zero => rfl
  | succ fuel ih =>
    rw [buildArgvLoop, List.getElem?_eq_getElem (by omega)]
    exact ih (Nat.mod_lt _ (by decide)) _

theorem execArguments_chars (texts : List Bytes) (argv : List ArgvEntry) :
    execArguments (texts.map (fun a => .chars (a ++ [0])) ++ .null :: argv) =
      some (texts.map cstr) := by
  induction texts with
  | nil => rfl
  | cons text texts ih =>
    simp only [List.map_cons, List.cons_append, execArguments, ih, Option.map_some,
      cstr_terminated]

theorem buildArgv_eq {cgiArguments : List Bytes} (hlen : cgiArguments.length < uintModulus)
    (cgiProgramPath : Bytes) :
    buildArgv cgiArguments cgiProgramPath =
      some ((cgiProgramPath :: cgiArguments).map (fun a => .chars (a ++ [0])) ++ [.null]) := by
  have hloop := buildArgvLoop_spec [] cgiArguments (.chars (cgiProgramPath ++ [0])) hlen
  rw [List.nil_append] at hloop
  simp only [List.map_nil, List.length_nil, List.cons_append, List.nil_append] at hloop
  have hset : (List.replicate (cgiArguments.length + 2) ArgvEntry.uninitialized).set 0
      (.chars (cgiProgramPath ++ [0])) = .chars (cgiProgramPath ++ [0]) ::
        List.replicate (cgiArguments.length + 1) .uninitialized := by
    simp [List.replicate_succ]
  rw [buildArgv]
  simp only [hset, hloop, Option.map_some, List.set_cons_succ]
  rw [List.set_append_right _ _ (by simp)]
  simp

theorem programArguments_eq (r : CGIRunner) :
    r.programArguments = if r.cgiArguments.length < uintModulus then
      some ((r.cgiProgramPath :: r.cgiArguments).map cstr) else none := by
  split_ifs with hlen
  · rw [programArguments, buildArgv_eq hlen, Option.bind_some]
    exact execArguments_chars _ []
  · rw [programArguments, buildArgv,
      buildArgvLoop_unfinished (not_lt.mp hlen) _ (by decide)]
    rfl

/-! ## The parsed url -/

def IsSeparator (url : Bytes) (i : ℕ) : Prop :=
  ∃ pos, find kCGIFolderName url = some pos ∧ pos ≤ i ∧ url[i]? = some 38 ∧
    ∀ j, pos ≤ j → j < i → url[j]? ≠ some 38

/-- How many arguments a text lists: the separators, and a piece after the last of them. -/
def argumentCount (rest : Bytes) : ℕ :=
  rest.count 38 + if rest = [] ∨ rest.getLast? = some 38 then 0 else 1

theorem kSeparator_eq : kSeparator = [38] := by decide

theorem isSeparator_iff {url : Bytes} {pos i : ℕ} (hpos : find kCGIFolderName url = some pos) :
    findFrom url kSeparator pos = some i ↔ IsSeparator url i := by
  have hle : pos ≤ url.length := by
    have hlen := find_add_length_le (by decide) hpos
    omega
  simp only [findFrom, if_pos hle, kSeparator_eq, Option.map_eq_some_iff,
    find_singleton_eq_some_iff, List.getElem?_drop]
  constructor
  · intro h
    obtain ⟨k, ⟨hk, hmin⟩, rfl⟩ := h
    refine ⟨pos, hpos, by omega, hk, fun j hj hlt => ?_⟩
    obtain ⟨m, rfl⟩ := Nat.exists_eq_add_of_le hj
    exact hmin m (by omega)
  · intro h
    obtain ⟨pos', hpos', hi, hsep, hmin⟩ := h
    obtain rfl : pos' = pos := Option.some.inj (hpos'.symm.trans hpos)
    obtain ⟨k, rfl⟩ := Nat.exists_eq_add_of_le hi
    exact ⟨k, ⟨hsep, fun j hj => hmin (pos' + j) (by omega) (by omega)⟩, rfl⟩

theorem count_lines {c : Byte} {ls : List Bytes} (h : ∀ l ∈ ls, c ∉ l) :
    (ls.map (· ++ [c])).flatten.count c = ls.length := by
  induction ls with
  | nil => rfl
  | cons l ls ih =>
    obtain ⟨hl, hls⟩ := List.forall_mem_cons.mp h
    rw [List.map_cons, List.flatten_cons, List.count_append, List.count_append, ih hls,
      List.count_eq_zero.mpr hl, List.count_singleton_self, List.length_cons]
    omega

theorem length_split_separator (rest : Bytes) :
    (split rest kSeparator).length = argumentCount rest := by
  rw [kSeparator_eq]
  obtain ⟨ls, r, hls, hr, hrest, hsplit⟩ := split_lines (List.cons_ne_nil 38 []) rest
  simp only [singleton_infix_iff] at hls hr
  have hcount : rest.count 38 = ls.length := by
    rw [hrest, List.count_append, count_lines hls, List.count_eq_zero.mpr hr, Nat.add_zero]
  rw [hsplit, List.length_append, argumentCount, hcount]
  have hend := lines_end_iff ls hr
  rw [← hrest] at hend
  simp only [hend]
  split_ifs <;> rfl

theorem parse_separated {url : Bytes} {i : ℕ} (hi : IsSeparator url i) :
    parseCGIRunner url =
      { cgiProgramPath := url.take i
        cgiArguments := split (url.drop (i + 1)) kSeparator } := by
  obtain ⟨pos, hpos, -⟩ := id hi
  have hfound : isCGIRequest url = true := by rw [isCGIRequest, hpos]; rfl
  have hne := not_invalid_of_isCGIRequest hfound
  have hsep := (isSeparator_iff hpos).mpr hi
  simp only [parseCGIRunner, if_neg hne, hpos, Option.getD_some, hsep]
  simp [substr]

theorem parse_whole {url : Bytes} (hfound : kCGIFolderName <:+: url)
    (hnone : ∀ i, ¬ IsSeparator url i) :
    parseCGIRunner url = { cgiProgramPath := url, cgiArguments := split url kSeparator } := by
  have hcgi := isCGIRequest_iff.mpr hfound
  obtain ⟨pos, hpos⟩ := Option.isSome_iff_exists.mp hcgi
  have hne := not_invalid_of_isCGIRequest hcgi
  have hsep : findFrom url kSeparator pos = none := by
    cases hf : findFrom url kSeparator pos with
    | none => rfl
    | some i => exact absurd ((isSeparator_iff hpos).mp hf) (hnone i)
  simp only [parseCGIRunner, if_neg hne, hpos, Option.getD_some, hsep]

/-- What the url asks for: the program before the separator, and after it the arguments, which
the program gets as they are. -/
structure Listed (url : Bytes) (r : CGIRunner) : Prop where
  valid : r.valid = true
  separated : ∀ i, IsSeparator url i → r.cgiProgramPath = url.take i ∧
    r.cgiArguments = split (url.drop (i + 1)) kSeparator
  whole : (∀ i, ¬ IsSeparator url i) → r.cgiProgramPath = url ∧ r.cgiArguments = []
  pieces : ∀ a ∈ r.cgiArguments, 38 ∉ a
  joined : join (r.cgiProgramPath :: r.cgiArguments) kSeparator = url ∨
    join (r.cgiProgramPath :: r.cgiArguments) kSeparator ++ kSeparator = url
  argv : r.programArguments = some (r.cgiProgramPath :: r.cgiArguments)

theorem IsSeparator.unique {url : Bytes} {i j : ℕ} (hi : IsSeparator url i)
    (hj : IsSeparator url j) : i = j := by
  obtain ⟨pos, hpos, -⟩ := id hi
  have h := ((isSeparator_iff hpos).mpr hi).symm.trans ((isSeparator_iff hpos).mpr hj)
  exact Option.some.inj h

theorem IsSeparator.eq_append {url : Bytes} {i : ℕ} (hi : IsSeparator url i) :
    url = url.take i ++ kSeparator ++ url.drop (i + 1) := by
  obtain ⟨pos, -, -, hsep, -⟩ := hi
  obtain ⟨hlt, hget⟩ := List.getElem?_eq_some_iff.mp hsep
  have hdrop := List.drop_eq_getElem_cons hlt
  rw [hget] at hdrop
  calc url = url.take i ++ url.drop i := (List.take_append_drop i url).symm
    _ = url.take i ++ kSeparator ++ url.drop (i + 1) := by rw [hdrop, kSeparator_eq]; simp

theorem joined_of_separated {url : Bytes} {i : ℕ} (hi : IsSeparator url i) :
    join (url.take i :: split (url.drop (i + 1)) kSeparator) kSeparator = url ∨
      join (url.take i :: split (url.drop (i + 1)) kSeparator) kSeparator ++ kSeparator = url := by
  have hd : kSeparator ≠ [] := by decide
  have hurl := hi.eq_append
  generalize url.take i = path at hurl ⊢
  generalize url.drop (i + 1) = rest at hurl ⊢
  by_cases hrest : rest = []
  · right
    rw [(split_eq_nil_iff hd).mpr hrest, hurl, hrest]
    simp [join]
  · rw [join_cons (fun h => hrest ((split_eq_nil_iff hd).mp h)), hurl]
    by_cases hscan : scanEnd kSeparator rest = rest.length
    · right
      rw [List.append_assoc, join_split_of_end hd hrest hscan]
    · left
      rw [join_split_of_rest hd (fun h => hscan h.2)]

theorem map_cstr_eq_self_iff {texts : List Bytes} :
    texts.map cstr = texts ↔ ∀ t ∈ texts, (0 : Byte) ∉ t := by
  induction texts with
  | nil => simp
  | cons t ts ih => simp only [List.map_cons, List.cons.injEq, cstr_eq_self_iff, ih,
      List.forall_mem_cons]

theorem mem_join_iff {ts : List Bytes} {d : Bytes} {b : Byte} (hb : b ∉ d) :
    b ∈ join ts d ↔ ∃ t ∈ ts, b ∈ t := by
  rcases List.eq_nil_or_concat ts with rfl | ⟨init, last, rfl⟩
  · simp [join]
  · rw [List.concat_eq_append, join_concat]
    simp only [List.mem_append, List.mem_flatten, List.mem_map, List.mem_singleton]
    constructor
    · intro h
      rcases h with ⟨l, ⟨t, ht, rfl⟩, hbt⟩ | h
      · exact ⟨t, .inl ht, (List.mem_append.mp hbt).resolve_right hb⟩
      · exact ⟨last, .inr rfl, h⟩
    · intro h
      obtain ⟨t, ht | rfl, hbt⟩ := h
      · exact .inl ⟨t ++ d, ⟨t, ht, rfl⟩, List.mem_append_left _ hbt⟩
      · exact .inr hbt

theorem mem_pieces_iff {url : Bytes} {i : ℕ} (hi : IsSeparator url i) {b : Byte}
    (hb : b ∉ kSeparator) :
    b ∈ url ↔ ∃ t ∈ url.take i :: split (url.drop (i + 1)) kSeparator, b ∈ t := by
  rw [← mem_join_iff hb]
  rcases joined_of_separated hi with h | h
  · rw [h]
  · conv_lhs => rw [← h]
    rw [List.mem_append]
    exact or_iff_left hb

theorem programArguments_separated_iff {url : Bytes} {i : ℕ} (hi : IsSeparator url i) :
    (parseCGIRunner url).programArguments =
        some ((parseCGIRunner url).cgiProgramPath :: (parseCGIRunner url).cgiArguments) ↔
      0 ∉ url ∧ argumentCount (url.drop (i + 1)) < uintModulus := by
  rw [parse_separated hi, programArguments_eq]
  simp only [length_split_separator]
  split_ifs with hlen
  · rw [Option.some_inj, map_cstr_eq_self_iff, mem_pieces_iff hi (by decide)]
    simp [hlen]
  · simp [hlen]

/-- The runner is what the url asks for exactly when there is a separator after the folder name,
no NUL in the url and fewer than `2 ^ 32` arguments; a url without the folder name is always
refused. What `BuildArgv` returns is meant: that `execve` bounds its arguments too is left out. -/
theorem listed_iff (url : Bytes) :
    ((kCGIFolderName <:+: url → Listed url (parseCGIRunner url)) ∧
        (¬ kCGIFolderName <:+: url → (parseCGIRunner url).valid = false)) ↔
      (kCGIFolderName <:+: url → ∃ i, IsSeparator url i ∧ 0 ∉ url ∧
        argumentCount (url.drop (i + 1)) < uintModulus) := by
  have hvalid := parseCGIRunner_valid url
  constructor
  · intro h hfound
    have hlisted := h.1 hfound
    by_cases hsep : ∃ i, IsSeparator url i
    · obtain ⟨i, hi⟩ := hsep
      exact ⟨i, hi, (programArguments_separated_iff hi).mp hlisted.argv⟩
    · -- the whole url is split, and what is not empty has a piece
      have hnone := not_exists.mp hsep
      have hargs := (hlisted.whole hnone).2
      rw [parse_whole hfound hnone] at hargs
      have hnil := (split_eq_nil_iff (by decide)).mp hargs
      rw [hnil] at hfound
      exact absurd hfound (by decide)
  · intro h
    constructor
    · intro hfound
      obtain ⟨i, hi, hrest⟩ := h hfound
      have hargv := (programArguments_separated_iff hi).mpr hrest
      have heq := parse_separated hi
      refine ⟨?_, ?_, fun hnone => absurd hi (hnone i), ?_, ?_, hargv⟩
      · rw [hvalid]
        exact isCGIRequest_iff.mpr hfound
      · intro j hj
        rw [hj.unique hi, heq]
        exact ⟨rfl, rfl⟩
      · rw [heq]
        intro a ha
        have hfree := split_free (by decide) a ha
        rwa [kSeparator_eq, singleton_infix_iff] at hfree
      · rw [heq]
        exact joined_of_separated hi
    · intro hfound
      rw [hvalid, Bool.eq_false_iff]
      exact fun hcgi => hfound (isCGIRequest_iff.mp hcgi)

theorem not_listed_without_separator :
    kCGIFolderName <:+: ascii "/srv/cgi-bin/p" ∧
      (parseCGIRunner (ascii "/srv/cgi-bin/p")).programArguments =
        some [ascii "/srv/cgi-bin/p", ascii "/srv/cgi-bin/p"] ∧
      ¬ Listed (ascii "/srv/cgi-bin/p") (parseCGIRunner (ascii "/srv/cgi-bin/p")) := by
  refine ⟨by decide, by decide, ?_⟩
  intro h
  have hnone : ∀ i, ¬ IsSeparator (ascii "/srv/cgi-bin/p") i := by
    intro i hi
    obtain ⟨pos, -, -, hsep, -⟩ := hi
    exact absurd (List.mem_of_getElem? hsep) (by decide)
  exact absurd (h.whole hnone).2 (by decide)

end CGIRunner
end HttpReactor
