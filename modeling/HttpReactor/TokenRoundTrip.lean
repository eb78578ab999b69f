import HttpReactor.HttpUtils

/-!
# Splitting and joining

`Split` drops an empty last token, so `Join` gives a string back up to a delimiter at its
very end. The delimiter may overlap itself: what counts is where the left-to-right scan for
it ends, not whether the string ends in it.
-/

namespace HttpReactor
open ListSearch

/-- Where the left-to-right scan of `str` for `delim` stands after its last match, and 0 if
there is none. -/
def scanEnd (delim str : Bytes) : ℕ := (frames delim str).1.flatten.length

theorem join_concat (ls : List Bytes) (r delim : Bytes) :
    join (ls ++ [r]) delim = (ls.map (· ++ delim)).flatten ++ r := by
  cases ls with
  | nil => simp [join]
  | cons l ls =>
    obtain ⟨b, rest, he⟩ : ∃ b rest, ls ++ [r] = b :: rest :=
      List.exists_cons_of_ne_nil (by simp)
    have hlast : (l :: b :: rest).getLastD [] = r := by
      rw [← he, ← List.cons_append, List.getLastD_concat]
    have hinit : (l :: b :: rest).dropLast = l :: ls := by
      rw [← he, ← List.cons_append, List.dropLast_concat]
    rw [List.cons_append, he]
    simp only [join, hlast, hinit]

theorem join_cons {ts : List Bytes} (hne : ts ≠ []) (t delim : Bytes) :
    join (t :: ts) delim = t ++ delim ++ join ts delim := by
  rw [← List.dropLast_append_getLast hne, ← List.cons_append, join_concat, join_concat]
  simp

theorem join_append_delim {ls : List Bytes} (hne : ls ≠ []) (delim : Bytes) :
    join ls delim ++ delim = (ls.map (· ++ delim)).flatten := by
  rw [← List.dropLast_append_getLast hne, join_concat]
  simp

theorem lines_eq_nil {ls : List Bytes} {delim : Bytes} (hd : delim ≠ [])
    (h : (ls.map (· ++ delim)).flatten = []) : ls = [] := by
  cases ls with
  | nil => rfl
  | cons l ls =>
    rw [List.map_cons, List.flatten_cons, List.append_assoc] at h
    exact absurd (List.append_eq_nil_iff.mp (List.append_eq_nil_iff.mp h).2).1 hd

theorem scanEnd_eq_iff {delim : Bytes} (hd : delim ≠ []) (str : Bytes) :
    scanEnd delim str = str.length ↔ (frames delim str).2 = [] := by
  have hlen := congrArg List.length (frames_flatten hd str)
  rw [List.length_append] at hlen
  rw [scanEnd, ← List.length_eq_zero_iff]
  omega

theorem lines_end_iff {c : Byte} (ls : List Bytes) {r : Bytes} (hr : c ∉ r) :
    ((ls.map (· ++ [c])).flatten ++ r = [] ∨
        ((ls.map (· ++ [c])).flatten ++ r).getLast? = some c) ↔ r = [] := by
  constructor
  · intro h
    by_contra hne
    rcases h with h | h
    · exact hne (List.append_eq_nil_iff.mp h).2
    · rw [List.getLast?_append_of_ne_nil _ hne] at h
      exact hr (List.mem_of_mem_getLast? h)
  · intro h
    rw [h]
    rcases List.eq_nil_or_concat ls with rfl | ⟨init, last, rfl⟩
    · exact .inl rfl
    · exact .inr (by simp)

section Split

variable {s d : Bytes}

theorem scanEnd_singleton_iff {c : Byte} (hne : s ≠ []) :
    scanEnd [c] s = s.length ↔ s.getLast? = some c := by
  have hd : [c] ≠ [] := List.cons_ne_nil c []
  obtain ⟨ls, r, -, hr, hframes, -⟩ := split_frames hd s
  have hflatten := frames_flatten hd s
  rw [hframes] at hflatten
  rw [singleton_infix_iff] at hr
  rw [scanEnd_eq_iff hd, hframes, ← lines_end_iff ls hr, hflatten]
  exact or_iff_right hne

theorem split_line (hd : d ≠ []) (hb : Borderless d) {l : Bytes} (hl : ¬ d <:+: l) (x : Bytes) :
    split (l ++ (d ++ x)) d = l :: split x d := by
  rw [split_eq hd, split_eq hd, tokens, tokens, frames_of_cut_some hd (cut_line hb hl x)]
  simp

theorem split_of_free (hd : d ≠ []) (hs : ¬ d <:+: s) : split s d = if s = [] then [] else [s] := by
  rw [split_eq hd, tokens, frames_of_cut_none (cut_eq_none_iff.mpr hs)]
  rfl

theorem splitLoop_finishes (hd : d ≠ []) {fuel : ℕ} (hfuel : s.length < fuel) :
    splitLoop s d fuel 0 [] = some (split s d) := by
  rw [splitLoop_eq hd (Nat.zero_le _) (by omega), split_eq hd]
  simp

theorem split_free (hd : d ≠ []) : ∀ t ∈ split s d, ¬ d <:+: t := by
  obtain ⟨ls, r, hls, hr, -, hsplit⟩ := split_frames hd s
  intro t ht
  rw [hsplit] at ht
  split_ifs at ht with hnil
  · rw [List.append_nil] at ht
    exact hls t ht
  · rcases List.mem_append.mp ht with ht | ht
    · exact hls t ht
    · rw [List.mem_singleton.mp ht]
      exact hr

theorem split_eq_nil_iff (hd : d ≠ []) : split s d = [] ↔ s = [] := by
  obtain ⟨ls, r, -, -, hs, hsplit⟩ := split_lines hd s
  constructor
  · intro h
    rw [hsplit, List.append_eq_nil_iff] at h
    obtain ⟨rfl, hr⟩ := h
    split_ifs at hr with hnil
    rw [hs, hnil]
    rfl
  · intro h
    rw [h]
    rfl

theorem join_split_of_rest (hd : d ≠ []) (hscan : ¬ (s ≠ [] ∧ scanEnd d s = s.length)) :
    join (split s d) d = s := by
  obtain ⟨ls, r, -, -, hframes, hsplit⟩ := split_frames hd s
  rw [scanEnd_eq_iff hd, hframes] at hscan
  have hflatten := frames_flatten hd s
  rw [hframes] at hflatten
  rw [hsplit]
  split_ifs with hnil
  · have hs : s = [] := by_contra fun hs => hscan ⟨hs, hnil⟩
    rw [hs, hnil, List.append_nil] at hflatten
    rw [lines_eq_nil hd hflatten, hs]
    rfl
  · rw [join_concat]
    exact hflatten

theorem join_split_of_end (hd : d ≠ []) (hne : s ≠ []) (hscan : scanEnd d s = s.length) :
    join (split s d) d ++ d = s := by
  obtain ⟨ls, r, -, -, hframes, hsplit⟩ := split_frames hd s
  rw [scanEnd_eq_iff hd, hframes] at hscan
  have hflatten := frames_flatten hd s
  rw [hframes, hscan, List.append_nil] at hflatten
  rw [hsplit, if_pos hscan, List.append_nil]
  have hls : ls ≠ [] := by
    intro hls
    rw [hls] at hflatten
    exact hne hflatten.symm
  rw [join_append_delim hls]
  exact hflatten

end Split

/-- The loop of `Split` ends, no token holds the delimiter, and `Join` gives the string back,
but for the last delimiter when the scan for it ends with the string. -/
theorem join_split (s d : Bytes) (hd : d ≠ []) :
    (∀ fuel, s.length < fuel → splitLoop s d fuel 0 [] = some (split s d)) ∧
      (∀ t ∈ split s d, ¬ d <:+: t) ∧
      (¬ (s ≠ [] ∧ scanEnd d s = s.length) → join (split s d) d = s) ∧
      (s ≠ [] ∧ scanEnd d s = s.length → join (split s d) d ++ d = s) :=
  ⟨fun _ hfuel => splitLoop_finishes hd hfuel, split_free hd, join_split_of_rest hd,
    fun hscan => join_split_of_end hd hscan.1 hscan.2⟩

theorem join_split_overlapping :
    split (ascii "xaaaya") (ascii "aa") = [ascii "x", ascii "aya"] ∧
      join (split (ascii "xaaaya") (ascii "aa")) (ascii "aa") = ascii "xaaaya" ∧
      join (split (ascii "xaaaa") (ascii "aa")) (ascii "aa") ++ ascii "aa" = ascii "xaaaa" :=
  ⟨by decide, (join_split (ascii "xaaaya") (ascii "aa") (by decide)).2.2.1 (by decide),
    (join_split (ascii "xaaaa") (ascii "aa") (by decide)).2.2.2 (by decide)⟩

section Join

variable {d : Bytes} {tokens : List Bytes}

theorem split_join_tokens (hd : d ≠ []) (hb : Borderless d) (hfree : ∀ t ∈ tokens, ¬ d <:+: t)
    (hlast : tokens.getLast? ≠ some []) : split (join tokens d) d = tokens := by
  -- A delimiter that began earlier, in the token, would overlap the one that `Join` has put in.
  induction tokens with
  | nil => rfl
  | cons t ts ih =>
    have ht : ¬ d <:+: t := hfree t List.mem_cons_self
    by_cases hts : ts = []
    · subst hts
      have hne : t ≠ [] := by
        intro hnil
        rw [hnil] at hlast
        exact hlast rfl
      rw [join, split_of_free hd ht, if_neg hne]
    · rw [List.getLast?_cons_of_ne_nil hts] at hlast
      have hrest := ih (fun u hu => hfree u (List.mem_cons_of_mem t hu)) hlast
      rw [join_cons hts, List.append_assoc, split_line hd hb ht, hrest]

end Join

/-- `Split` undoes `Join` when the delimiter has no border, is in no token and the last token
is not empty. The delimiters of the program are such. -/
theorem split_join {tokens : List Bytes} {d : Bytes} (hd : d ≠ []) (hb : Borderless d)
    (hfree : ∀ t ∈ tokens, ¬ d <:+: t) (hlast : tokens.getLast? ≠ some []) :
    (∀ fuel, (join tokens d).length < fuel →
        splitLoop (join tokens d) d fuel 0 [] = some tokens) ∧
      split (join tokens d) d = tokens ∧
      ∀ c ∈ [kCRLF, kSpace, kColon, kSeparator], c ≠ [] ∧ Borderless c := by
  have hsplit : split (join tokens d) d = tokens := split_join_tokens hd hb hfree hlast
  refine ⟨fun fuel hfuel => ?_, hsplit, by decide⟩
  rw [splitLoop_finishes hd hfuel, hsplit]

theorem split_join_parts :
    join [ascii "a" ++ [13], [], [10] ++ ascii "b"] kCRLF =
        ascii "a" ++ [13, 13, 10, 13, 10, 10] ++ ascii "b" ∧
      split (join [ascii "a" ++ [13], [], [10] ++ ascii "b"] kCRLF) kCRLF =
        [ascii "a" ++ [13], [], [10] ++ ascii "b"] :=
  ⟨by decide, (split_join kCRLF_ne_nil kCRLF_borderless (by decide) (by decide)).2.1⟩

end HttpReactor
