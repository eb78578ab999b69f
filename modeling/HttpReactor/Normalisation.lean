import HttpReactor.HttpUtils
import HttpReactor.ListStrip

/-!
# Normalising texts

`Trim` finds the first and the last character to keep, and then builds its result from
`data()`, so that it runs from the first one up to the next NUL of the buffer: the trailing
delimiters stay, and so does what follows the view. `Format` and the three tables that look
up a formatted text inherit this.
-/

namespace HttpReactor
open ListSearch ListStrip

def isDelim (delim : Bytes) (b : Byte) : Bool := b ∈ delim

def stripped (delim s : Bytes) : Bytes := strip (isDelim delim) s

def following (v : StringView) (delim : Bytes) : Bytes :=
  trailing (isDelim delim) v.bytes ++ v.rest

def upper (s : Bytes) : Bytes := s.map toUpperByte

theorem view_eq (s delim : Bytes) : s =
    s.takeWhile (isDelim delim) ++ (stripped delim s ++ trailing (isDelim delim) s) :=
  (takeWhile_append_strip s).symm

theorem not_mem_delim (delim : Bytes) :
    (fun a : Byte => decide (a ∉ delim)) = fun a => !isDelim delim a := by
  funext a
  simp [isDelim]

theorem findFirstNotOf_eq {lead rest delim : Bytes} {b : Byte}
    (hlead : ∀ a ∈ lead, isDelim delim a = true) (hb : isDelim delim b = false) :
    findFirstNotOf (lead ++ b :: rest) delim = some lead.length := by
  rw [findFirstNotOf, not_mem_delim, findIdx?_not hlead hb]

theorem findLastNotOf_eq {init trail delim : Bytes} {b : Byte}
    (htrail : ∀ a ∈ trail, isDelim delim a = true) (hb : isDelim delim b = false) :
    findLastNotOf (init ++ [b] ++ trail) delim = some init.length := by
  have hrev : (init ++ [b] ++ trail).reverse = trail.reverse ++ b :: init.reverse := by simp
  rw [findLastNotOf, not_mem_delim, hrev,
    findIdx?_not (fun a ha => htrail a (List.mem_reverse.mp ha)) hb, Option.map_some]
  simp only [List.length_append, List.length_reverse, List.length_singleton]
  congr 1
  omega

theorem trim_of_all {v : StringView} {delim : Bytes}
    (h : ∀ a ∈ v.bytes, isDelim delim a = true) : trim v delim = [] := by
  have hlast : findLastNotOf v.bytes delim = none := by
    rw [findLastNotOf, not_mem_delim, Option.map_eq_none_iff, List.findIdx?_eq_none_iff]
    intro a ha
    rw [h a (List.mem_reverse.mp ha)]
    rfl
  rw [trim, hlast]

theorem trim_parts {lead core trail delim : Bytes} (hne : core ≠ [])
    (hlead : ∀ a ∈ lead, isDelim delim a = true) (htrail : ∀ a ∈ trail, isDelim delim a = true)
    (hhead : ∀ a t, core = a :: t → isDelim delim a = false)
    (hlast : ∀ a t, core = t ++ [a] → isDelim delim a = false) (rest : Bytes) :
    trim ⟨lead ++ core ++ trail, rest⟩ delim = cstr (core ++ (trail ++ rest)) := by
  obtain ⟨a, t, hcons⟩ := List.exists_cons_of_ne_nil hne
  obtain ⟨init, b, hconcat⟩ : ∃ init b, core = init ++ [b] :=
    ⟨_, _, (List.dropLast_append_getLast hne).symm⟩
  have hfirst : findFirstNotOf (lead ++ core ++ trail) delim = some lead.length := by
    rw [hcons, List.append_assoc, List.cons_append]
    exact findFirstNotOf_eq hlead (hhead a t hcons)
  have hfound : findLastNotOf (lead ++ core ++ trail) delim =
      some (lead.length + init.length) := by
    rw [hconcat, ← List.append_assoc, findLastNotOf_eq htrail (hlast b init hconcat),
      List.length_append]
  have hlen : lead.length + init.length - lead.length + 1 = core.length := by
    rw [hconcat, List.length_append, List.length_singleton]
    omega
  have hend : lead.length + init.length + 1 = (lead ++ core).length := by
    rw [hconcat, List.length_append, List.length_append, List.length_singleton]
    omega
  simp only [trim, hfirst, hfound, hlen, hend, substr, List.drop_left]
  rw [List.append_assoc lead core trail, List.drop_left, List.take_left]
  rfl

theorem trim_eq (v : StringView) (delim : Bytes) :
    trim v delim = if stripped delim v.bytes = [] then []
      else cstr (stripped delim v.bytes ++ following v delim) := by
  split_ifs with hnil
  · exact trim_of_all (strip_eq_nil_iff.mp hnil)
  · have hparts := trim_parts hnil (forall_mem_takeWhile (p := isDelim delim) (s := v.bytes))
      (forall_mem_trailing (s := v.bytes)) (fun a t => head_strip) (fun a t => last_strip) v.rest
    rw [List.append_assoc, ← view_eq] at hparts
    exact hparts

/-! ## When the result is the stripped text -/

/-- The stripped text is empty, or it has no NUL and the next byte of the buffer is one. -/
def Terminated (v : StringView) (delim : Bytes) : Prop :=
  stripped delim v.bytes = [] ∨
    0 ∉ stripped delim v.bytes ∧ (following v delim).headD 0 = 0

/-- The stripped text is empty, or a NUL of the view ends what is read. -/
def EndsInside (v : StringView) (delim : Bytes) : Prop :=
  stripped delim v.bytes = [] ∨
    0 ∈ stripped delim v.bytes ++ trailing (isDelim delim) v.bytes

theorem cstr_eq_nil_iff {s : Bytes} : cstr s = [] ↔ s.headD 0 = 0 := by
  cases s with
  | nil => simp [cstr]
  | cons b s =>
    by_cases hb : b = 0
    · simp [cstr, hb]
    · simp [cstr, hb]

theorem cstr_append_eq_iff {s x : Bytes} : cstr (s ++ x) = s ↔ 0 ∉ s ∧ x.headD 0 = 0 := by
  rw [← cstr_eq_nil_iff]
  by_cases h : (0 : Byte) ∈ s
  · rw [cstr_append_of_mem h, cstr_eq_self_iff]
    simp [h]
  · rw [cstr_append_of_notMem h, List.append_right_eq_self]
    simp [h]

theorem trim_eq_stripped_iff (v : StringView) (delim : Bytes) :
    trim v delim = stripped delim v.bytes ↔ Terminated v delim := by
  rw [trim_eq, Terminated]
  split_ifs with hnil
  · simp [hnil]
  · rw [cstr_append_eq_iff]
    simp [hnil]

theorem trim_inside_iff (v : StringView) (delim : Bytes) :
    (∀ rest, trim ⟨v.bytes, rest⟩ delim = trim v delim) ↔ EndsInside v delim := by
  simp only [trim_eq, EndsInside, following, ← List.append_assoc]
  by_cases hnil : stripped delim v.bytes = []
  · simp [hnil]
  · simp only [hnil, if_false, false_or]
    constructor
    · intro h
      by_contra hzero
      have hempty := h []
      have hone := h [1]
      rw [← hempty, cstr_append_of_notMem hzero, cstr_append_of_notMem hzero] at hone
      exact absurd (List.append_cancel_left hone) (by decide)
    · intro hzero rest
      rw [cstr_append_of_mem hzero, cstr_append_of_mem hzero]

theorem trim_nul_free (v : StringView) (delim : Bytes) : 0 ∉ trim v delim := by
  rw [trim_eq]
  split_ifs
  · exact List.not_mem_nil
  · exact zero_notMem_cstr _

theorem format_eq (v : StringView) : format v = upper (trim v kSpace) := by
  rw [format, toUpper, StringView.data, StringView.ofString, List.append_nil,
    cstr_eq_self (trim_nul_free v kSpace), upper]

theorem format_eq_stripped_iff (v : StringView) :
    format v = upper (stripped kSpace v.bytes) ↔ Terminated v kSpace := by
  rw [← trim_eq_stripped_iff, format_eq]
  constructor
  · intro h
    -- upper-casing keeps the length, and what is read starts with the stripped text
    have hlen := congrArg List.length h
    simp only [upper, List.length_map] at hlen
    rw [trim_eq] at hlen ⊢
    split_ifs at hlen ⊢ with hnil
    · exact hnil.symm
    · rw [cstr] at hlen ⊢
      have hprefix := List.takeWhile_prefix (fun b : Byte => decide (b ≠ 0))
        (l := stripped kSpace v.bytes ++ following v kSpace)
      have heq := List.prefix_of_prefix_length_le hprefix
        (List.prefix_append (stripped kSpace v.bytes) (following v kSpace)) hlen.le
      exact heq.eq_of_length hlen
  · intro h
    rw [h]

/-! ## The tables -/

theorem byte_cases {P : Byte → Prop} (h : ∀ n < 256, P (UInt8.ofNat n)) (b : Byte) : P b := by
  have hb := h b.toNat b.toNat_lt
  rwa [UInt8.ofNat_toNat] at hb

theorem toUpperByte_eq_zero_iff (b : Byte) : toUpperByte b = 0 ↔ b = 0 :=
  byte_cases (P := fun b => toUpperByte b = 0 ↔ b = 0) (by decide +kernel) b

theorem isDelim_toUpperByte (b : Byte) : isDelim kSpace (toUpperByte b) = isDelim kSpace b :=
  byte_cases (P := fun b => isDelim kSpace (toUpperByte b) = isDelim kSpace b)
    (by decide +kernel) b

theorem zero_mem_upper_iff {s : Bytes} : 0 ∈ upper s ↔ 0 ∈ s := by
  simp only [upper, List.mem_map, toUpperByte_eq_zero_iff, exists_eq_right]

theorem cstr_upper (s : Bytes) : cstr (upper s) = upper (cstr s) := by
  have hcomp : (fun b : Byte => decide (b ≠ 0)) ∘ toUpperByte = fun b => decide (b ≠ 0) := by
    funext b
    simp [toUpperByte_eq_zero_iff]
  rw [cstr, upper, List.takeWhile_map, hcomp]
  rfl

theorem format_eq_cstr (v : StringView) : format v = if stripped kSpace v.bytes = [] then []
    else cstr (upper (stripped kSpace v.bytes) ++ upper (following v kSpace)) := by
  rw [format_eq, trim_eq]
  split_ifs
  · rfl
  · rw [← cstr_upper, upper, List.map_append]
    rfl

structure FormatTable (γ : Type) where
  entries : List (Bytes × γ)
  default : γ
  plain : ∀ e ∈ entries, upper e.1 = e.1 ∧ 0 ∉ e.1 ∧ 32 ∉ e.1 ∧ e.1 ≠ []
  prefixFree : ∀ e ∈ entries, ∀ e' ∈ entries, e.1 <+: e'.1 → e.1 = e'.1

def methodTable : FormatTable Method where
  entries := [(ascii "GET", .kGET), (ascii "HEAD", .kHEAD), (ascii "UNSUPPORTED", .kUnsupported)]
  default := .kUnsupported
  plain := by decide
  prefixFree := by decide

def versionTable : FormatTable Version where
  entries := [(ascii "HTTP/1.1", .kHTTP_1_1), (ascii "UNSUPPORTED", .kUnsupported)]
  default := .kUnsupported
  plain := by decide
  prefixFree := by decide

def extensionTable : FormatTable Extension where
  entries := [(ascii "HTML", .kHTML), (ascii "CSS", .kCSS), (ascii "PNG", .kPNG),
    (ascii "JPG", .kJPG), (ascii "JPEG", .kJPEG), (ascii "GIF", .kGIF), (ascii "OCTET", .kOCTET)]
  default := .kOCTET
  plain := by decide
  prefixFree := by decide

namespace FormatTable

variable {γ : Type} (t : FormatTable γ)

def look (v : StringView) : γ := (t.entries.lookup (format v)).getD t.default

def Supported (k : Bytes) : Prop := ∃ d, t.entries.lookup k = some d ∧ d ≠ t.default

variable {t}

theorem mem_of_lookup {k : Bytes} {d : γ} (h : t.entries.lookup k = some d) :
    (k, d) ∈ t.entries := by
  obtain ⟨l₁, l₂, he, -⟩ := List.lookup_eq_some_iff.mp h
  rw [he]
  simp

theorem Supported.plain {k : Bytes} (h : t.Supported k) :
    upper k = k ∧ 0 ∉ k ∧ 32 ∉ k ∧ k ≠ [] := by
  obtain ⟨d, hd, -⟩ := h
  exact t.plain _ (mem_of_lookup hd)

theorem look_ne_default_iff {v : StringView} : t.look v ≠ t.default ↔ t.Supported (format v) := by
  rw [look, Supported]
  cases t.entries.lookup (format v) with
  | none => simp
  | some d => simp

theorem look_eq_default {v : StringView} (h : ¬ t.Supported (format v)) : t.look v = t.default := by
  by_contra hne
  exact h (look_ne_default_iff.mp hne)

end FormatTable

/-! ## Spaces at the ends and the case of letters -/

/-- `s'` is `s` with spaces added at either end and letters in another case. -/
def Variant (s s' : Bytes) : Prop :=
  ∃ l u r, s' = List.replicate l 32 ++ u ++ List.replicate r 32 ∧ upper u = upper s

theorem isDelim_replicate (n : ℕ) :
    ∀ b ∈ List.replicate n (32 : Byte), isDelim kSpace b = true := by
  intro b hb
  rw [List.eq_of_mem_replicate hb]
  decide

theorem isDelim_space_iff {b : Byte} : isDelim kSpace b = true ↔ b = 32 := by
  simp [isDelim, kSpace, ascii]

theorem trailing_eq_cons {s : Bytes} (h : trailing (isDelim kSpace) s ≠ []) :
    ∃ rest, trailing (isDelim kSpace) s = 32 :: rest := by
  obtain ⟨b, rest, hb⟩ := List.exists_cons_of_ne_nil h
  have hspace : b = 32 := isDelim_space_iff.mp (forall_mem_trailing (s := s) b (by simp [hb]))
  exact ⟨rest, by rw [hb, hspace]⟩

theorem stripped_upper (s : Bytes) : upper (stripped kSpace s) = stripped kSpace (upper s) :=
  (strip_map isDelim_toUpperByte s).1.symm

theorem trailing_upper (s : Bytes) :
    upper (trailing (isDelim kSpace) s) = trailing (isDelim kSpace) (upper s) :=
  (strip_map isDelim_toUpperByte s).2.symm

theorem Variant.upper_stripped {s s' : Bytes} (h : Variant s s') :
    upper (stripped kSpace s') = upper (stripped kSpace s) := by
  obtain ⟨l, u, r, rfl, hu⟩ := h
  have hpad := strip_padded (isDelim_replicate l) (isDelim_replicate r) u
  calc upper (stripped kSpace _) = upper (stripped kSpace u) := congrArg upper hpad
    _ = upper (stripped kSpace s) := by rw [stripped_upper, stripped_upper, hu]

theorem upper_eq_nil_iff {s : Bytes} : upper s = [] ↔ s = [] := List.map_eq_nil_iff

theorem Variant.trailing_ne_nil {s s' : Bytes} (h : Variant s s')
    (hs : stripped kSpace s ≠ []) (htrail : trailing (isDelim kSpace) s ≠ []) :
    trailing (isDelim kSpace) s' ≠ [] := by
  obtain ⟨l, u, r, rfl, hu⟩ := h
  have hu' : stripped kSpace u ≠ [] := by
    rw [← upper_eq_nil_iff.ne, stripped_upper, hu, ← stripped_upper, upper_eq_nil_iff.ne]
    exact hs
  rw [trailing_padded (isDelim_replicate l) (isDelim_replicate r) hu']
  intro hnil
  have hnone := (List.append_eq_nil_iff.mp hnil).1
  rw [← upper_eq_nil_iff, trailing_upper, hu, ← trailing_upper, upper_eq_nil_iff] at hnone
  exact htrail hnone

theorem Variant.refl (s : Bytes) : Variant s s := ⟨0, s, 0, by simp, rfl⟩

theorem Variant.space (s : Bytes) : Variant s (s ++ [32]) := ⟨0, s, 1, by simp, rfl⟩

namespace FormatTable

variable {γ : Type} {t : FormatTable γ} {v : StringView}

theorem not_supported_of_trailing (h0 : 0 ∉ stripped kSpace v.bytes)
    (hs : stripped kSpace v.bytes ≠ []) (htrail : trailing (isDelim kSpace) v.bytes ≠ []) :
    ¬ t.Supported (format v) := by
  intro hsup
  obtain ⟨rest, hrest⟩ := trailing_eq_cons htrail
  apply hsup.plain.2.2.1
  rw [format_eq_cstr, if_neg hs, cstr_append_of_notMem (fun h => h0 (zero_mem_upper_iff.mp h)),
    following, hrest]
  exact List.mem_append_right _ List.mem_cons_self

theorem format_of_completed {x : Bytes} (hs : stripped kSpace v.bytes ≠ [])
    (htrail : trailing (isDelim kSpace) v.bytes = [])
    (hsup : t.Supported (upper (stripped kSpace v.bytes) ++ x)) :
    format ⟨v.bytes, x⟩ = upper (stripped kSpace v.bytes) ++ x := by
  obtain ⟨hupper, hzero, -, -⟩ := hsup.plain
  have hx : upper x = x := by
    rw [upper, List.map_append] at hupper
    exact (List.append_inj hupper (by simp [upper])).2
  rw [format_eq_cstr, if_neg hs]
  change cstr (_ ++ upper (trailing (isDelim kSpace) v.bytes ++ x)) = _
  rw [htrail, List.nil_append, hx]
  exact cstr_eq_self hzero

/-- The text is blank, ends in a space, has a NUL, or begins no entry of the table. -/
def Unaffected (t : FormatTable γ) (s : Bytes) : Prop :=
  stripped kSpace s = [] ∨ 0 ∈ stripped kSpace s ∨ trailing (isDelim kSpace) s ≠ [] ∨
    ∀ k, t.Supported k → ¬ upper (stripped kSpace s) <+: k

theorem unaffected_of_insensitive
    (h : ∀ v' : StringView, Variant v.bytes v'.bytes → t.look v' = t.look v) :
    t.Unaffected v.bytes := by
  by_contra hnot
  simp only [Unaffected, not_or, not_not, not_forall] at hnot
  obtain ⟨hs, h0, htrail, k, hsup, x, rfl⟩ := hnot
  have hentry := h ⟨v.bytes, x⟩ (.refl _)
  have hspace := h ⟨v.bytes ++ [32], []⟩ (.space _)
  have hpad : trailing (isDelim kSpace) (v.bytes ++ [32]) ≠ [] := by
    have hpadded := trailing_padded (isDelim_replicate 0) (isDelim_replicate 1) hs
    simp only [List.replicate_zero, List.nil_append, List.replicate_one] at hpadded
    rw [hpadded]
    simp
  have hsame : stripped kSpace (v.bytes ++ [32]) = stripped kSpace v.bytes := by
    have hpadded := strip_padded (isDelim_replicate 0) (isDelim_replicate 1) v.bytes
    simpa [stripped] using hpadded
  have hdefault : t.look ⟨v.bytes ++ [32], []⟩ = t.default :=
    look_eq_default (not_supported_of_trailing (by rwa [hsame]) (by rwa [hsame]) hpad)
  have hne : t.look ⟨v.bytes, x⟩ ≠ t.default := by
    rw [look_ne_default_iff, format_of_completed hs htrail hsup]
    exact hsup
  exact hne (by rw [hentry, ← hspace, hdefault])

theorem not_supported_of_unaffected (hs : stripped kSpace v.bytes ≠ [])
    (h0 : 0 ∉ stripped kSpace v.bytes) (h : trailing (isDelim kSpace) v.bytes ≠ [] ∨
      ∀ k, t.Supported k → ¬ upper (stripped kSpace v.bytes) <+: k) :
    ¬ t.Supported (format v) := by
  rcases h with htrail | hnone
  · exact not_supported_of_trailing h0 hs htrail
  · rw [format_eq_cstr, if_neg hs,
      cstr_append_of_notMem (fun hzero => h0 (zero_mem_upper_iff.mp hzero))]
    exact fun hsup => hnone _ hsup (List.prefix_append _ _)

theorem insensitive_of_unaffected (h : t.Unaffected v.bytes) (v' : StringView)
    (hvar : Variant v.bytes v'.bytes) : t.look v' = t.look v := by
  have hcore := hvar.upper_stripped
  by_cases hs : stripped kSpace v.bytes = []
  · have hs' : stripped kSpace v'.bytes = [] := by
      rw [← upper_eq_nil_iff, hcore, hs]
      rfl
    rw [look, look, format_eq_cstr, format_eq_cstr, if_pos hs, if_pos hs']
  · have hs' : stripped kSpace v'.bytes ≠ [] := by
      rw [← upper_eq_nil_iff.ne, hcore, upper_eq_nil_iff.ne]
      exact hs
    by_cases h0 : 0 ∈ stripped kSpace v.bytes
    · have hzero : 0 ∈ upper (stripped kSpace v.bytes) := zero_mem_upper_iff.mpr h0
      rw [look, look, format_eq_cstr, format_eq_cstr, if_neg hs, if_neg hs', hcore,
        cstr_append_of_mem hzero, cstr_append_of_mem hzero]
    · have h0' : 0 ∉ stripped kSpace v'.bytes := by
        rw [← zero_mem_upper_iff, hcore, zero_mem_upper_iff]
        exact h0
      have hrest := (h.resolve_left hs).resolve_left h0
      have hrest' := hrest.imp_left (hvar.trailing_ne_nil hs)
      rw [← hcore] at hrest'
      rw [look_eq_default (not_supported_of_unaffected hs h0 hrest),
        look_eq_default (not_supported_of_unaffected hs' h0' hrest')]

theorem insensitive_iff :
    (∀ v' : StringView, Variant v.bytes v'.bytes → t.look v' = t.look v) ↔
      t.Unaffected v.bytes :=
  ⟨unaffected_of_insensitive, insensitive_of_unaffected⟩

/-! ## What is accepted -/

/-- A NUL inside the text cuts it to a word of the table. -/
def CutShort (t : FormatTable γ) (v : StringView) : Prop :=
  0 ∈ stripped kSpace v.bytes ∧ t.Supported (upper (cstr (stripped kSpace v.bytes)))

/-- The bytes after the view, up to the next NUL, complete it to a word of the table. -/
def RunsOn (t : FormatTable γ) (v : StringView) : Prop :=
  stripped kSpace v.bytes ≠ [] ∧ 0 ∉ stripped kSpace v.bytes ∧
    trailing (isDelim kSpace) v.bytes = [] ∧ v.rest.headD 0 ≠ 0 ∧
      t.Supported (upper (stripped kSpace v.bytes ++ cstr v.rest))

def AcceptsOnly (t : FormatTable γ) (f : StringView → γ) (v : StringView) : Prop :=
  f v ≠ t.default → t.entries.lookup (upper (stripped kSpace v.bytes)) = some (f v)

theorem acceptsOnly_of_format (h : format v = upper (stripped kSpace v.bytes)) :
    t.AcceptsOnly t.look v := by
  intro hne
  rw [← h]
  obtain ⟨d, hd, -⟩ := look_ne_default_iff.mp hne
  rw [look, hd]
  rfl

theorem acceptsOnly_of_not_supported (h : ¬ t.Supported (format v)) : t.AcceptsOnly t.look v :=
  fun hne => absurd (look_ne_default_iff.mp hne) h

theorem lookup_of_nul {s : Bytes} (h : 0 ∈ s) : t.entries.lookup (upper s) = none := by
  by_contra hne
  obtain ⟨d, hd⟩ := Option.ne_none_iff_exists'.mp hne
  exact (t.plain _ (mem_of_lookup hd)).2.1 (zero_mem_upper_iff.mpr h)

theorem lookup_of_extended {s x : Bytes} (hx : x ≠ []) (h : t.Supported (s ++ x)) :
    t.entries.lookup s = none := by
  by_contra hne
  obtain ⟨d, hd⟩ := Option.ne_none_iff_exists'.mp hne
  obtain ⟨d', hd', -⟩ := h
  have heq := t.prefixFree _ (mem_of_lookup hd) _ (mem_of_lookup hd') (List.prefix_append s x)
  exact hx (List.self_eq_append_right.mp heq)

theorem not_acceptsOnly (hsup : t.Supported (format v))
    (hnone : t.entries.lookup (upper (stripped kSpace v.bytes)) = none) :
    ¬ t.AcceptsOnly t.look v := by
  intro h
  have hsome := h (look_ne_default_iff.mpr hsup)
  rw [hnone] at hsome
  cases hsome

theorem acceptsOnly_iff_of_nul (h0 : 0 ∈ stripped kSpace v.bytes) :
    t.AcceptsOnly t.look v ↔ ¬ t.CutShort v := by
  have hs : stripped kSpace v.bytes ≠ [] := List.ne_nil_of_mem h0
  have hformat : format v = upper (cstr (stripped kSpace v.bytes)) := by
    rw [format_eq_cstr, if_neg hs, cstr_append_of_mem (zero_mem_upper_iff.mpr h0), cstr_upper]
  rw [CutShort, ← hformat]
  constructor
  · intro h hcut
    exact not_acceptsOnly hcut.2 (lookup_of_nul h0) h
  · intro h
    exact acceptsOnly_of_not_supported fun hsup => h ⟨h0, hsup⟩

theorem acceptsOnly_iff_of_tight (hs : stripped kSpace v.bytes ≠ [])
    (h0 : 0 ∉ stripped kSpace v.bytes) (htrail : trailing (isDelim kSpace) v.bytes = []) :
    t.AcceptsOnly t.look v ↔ ¬ t.RunsOn v := by
  have h0' : 0 ∉ upper (stripped kSpace v.bytes) := fun h => h0 (zero_mem_upper_iff.mp h)
  have hformat : format v = upper (stripped kSpace v.bytes) ++ upper (cstr v.rest) := by
    rw [format_eq_cstr, if_neg hs, cstr_append_of_notMem h0', following, htrail,
      List.nil_append, cstr_upper]
  have happend : upper (stripped kSpace v.bytes ++ cstr v.rest) = format v := by
    rw [hformat, upper, List.map_append]
    rfl
  rw [RunsOn, happend, ne_eq (v.rest.headD 0), ← cstr_eq_nil_iff]
  constructor
  · intro h hruns
    obtain ⟨-, -, -, hrest, hsup⟩ := hruns
    have hne : upper (cstr v.rest) ≠ [] := upper_eq_nil_iff.not.mpr hrest
    refine not_acceptsOnly hsup (lookup_of_extended hne ?_) h
    rw [← hformat]
    exact hsup
  · intro h
    by_cases hrest : cstr v.rest = []
    · apply acceptsOnly_of_format
      rw [hformat, hrest]
      exact List.append_nil _
    · exact acceptsOnly_of_not_supported fun hsup => h ⟨hs, h0, htrail, hrest, hsup⟩

theorem acceptsOnly_iff : t.AcceptsOnly t.look v ↔ ¬ t.CutShort v ∧ ¬ t.RunsOn v := by
  by_cases h0 : 0 ∈ stripped kSpace v.bytes
  · have hruns : ¬ t.RunsOn v := fun h => h.2.1 h0
    rw [acceptsOnly_iff_of_nul h0]
    simp [hruns]
  · have hcut : ¬ t.CutShort v := fun h => h0 h.1
    by_cases hs : stripped kSpace v.bytes = []
    · have hformat : format v = upper (stripped kSpace v.bytes) := by
        rw [format_eq_cstr, if_pos hs, hs]
        rfl
      exact iff_of_true (acceptsOnly_of_format hformat) ⟨hcut, fun h => h.1 hs⟩
    · by_cases htrail : trailing (isDelim kSpace) v.bytes = []
      · rw [acceptsOnly_iff_of_tight hs h0 htrail]
        simp [hcut]
      · exact iff_of_true
          (acceptsOnly_of_not_supported (not_supported_of_trailing h0 hs htrail))
          ⟨hcut, fun h => htrail h.2.2.1⟩

end FormatTable

theorem toMethod_eq_look : toMethod = methodTable.look := rfl

theorem toVersion_eq_look : toVersion = versionTable.look := rfl

theorem toExtension_eq_look : toExtension = extensionTable.look := rfl

def Insensitive {γ : Type} (f : StringView → γ) (v : StringView) : Prop :=
  ∀ v' : StringView, Variant v.bytes v'.bytes → f v' = f v

/-- When each of the functions does to a view what its comment says. -/
theorem normalises_iff (v : StringView) (delim : Bytes) :
    (trim v delim = stripped delim v.bytes ↔ Terminated v delim) ∧
    ((∀ rest, trim ⟨v.bytes, rest⟩ delim = trim v delim) ↔ EndsInside v delim) ∧
    (format v = upper (stripped kSpace v.bytes) ↔ Terminated v kSpace) ∧
    (Insensitive toMethod v ↔ methodTable.Unaffected v.bytes) ∧
    (Insensitive toVersion v ↔ versionTable.Unaffected v.bytes) ∧
    (Insensitive toExtension v ↔ extensionTable.Unaffected v.bytes) ∧
    (methodTable.AcceptsOnly toMethod v ↔ ¬ methodTable.CutShort v ∧ ¬ methodTable.RunsOn v) ∧
    (versionTable.AcceptsOnly toVersion v ↔ ¬ versionTable.CutShort v ∧ ¬ versionTable.RunsOn v) ∧
    (extensionTable.AcceptsOnly toExtension v ↔
      ¬ extensionTable.CutShort v ∧ ¬ extensionTable.RunsOn v) := by
  refine ⟨trim_eq_stripped_iff v delim, trim_inside_iff v delim, format_eq_stripped_iff v, ?_⟩
  rw [toMethod_eq_look, toVersion_eq_look, toExtension_eq_look]
  exact ⟨FormatTable.insensitive_iff, FormatTable.insensitive_iff, FormatTable.insensitive_iff,
    FormatTable.acceptsOnly_iff, FormatTable.acceptsOnly_iff, FormatTable.acceptsOnly_iff⟩

theorem not_normalises_trailing_space :
    trim (.ofString (ascii "GET ")) kSpace = ascii "GET " ∧
    stripped kSpace (ascii "GET ") = ascii "GET" ∧
    trim ⟨ascii "GET", ascii " /index.html"⟩ kSpace = ascii "GET /index.html" ∧
    format (.ofString (ascii "get ")) ≠ upper (stripped kSpace (ascii "get ")) ∧
    ¬ Insensitive toMethod (.ofString (ascii "GET")) ∧
    ¬ methodTable.AcceptsOnly toMethod ⟨ascii "GE", ascii "T"⟩ := by
  refine ⟨by decide, by decide, by decide, by decide, ?_, ?_⟩
  · intro h
    have hsame := h (.ofString (ascii "GET ")) ⟨0, ascii "GET", 1, by decide, rfl⟩
    exact absurd hsame (by decide)
  · intro h
    exact absurd (h (by decide)) (by decide)

end HttpReactor
