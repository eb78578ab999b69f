import HttpReactor.HeaderLines
import HttpReactor.Normalisation

/-!
# Asking for a persistent connection

A request keeps its connection open when one of its header lines is heard as
`Connection: Keep-Alive` (`shouldClose_eq_false_iff`). A line that says so is not heard if a
space ends its key or its value. A line that does not say so is heard if a NUL follows the
word in its key or value, or if one more colon ends the line.
-/

namespace HttpReactor
open ListSearch ListStrip

def headerLines (s : Bytes) : List Bytes := (split s kCRLF).dropLast.tail

def Names (word s : Bytes) : Prop := upper (stripped kSpace s) = upper word

def CutAfter (word s : Bytes) : Prop :=
  0 ∈ stripped kSpace s ∧ upper (cstr (stripped kSpace s)) = upper word

def EndsInSpace (s : Bytes) : Prop := s.getLast? = some 32

def EndsInColon (s : Bytes) : Prop := s.getLast? = some 58

instance (word s : Bytes) : Decidable (Names word s) :=
  inferInstanceAs (Decidable (upper (stripped kSpace s) = upper word))

instance (s : Bytes) : Decidable (EndsInSpace s) :=
  inferInstanceAs (Decidable (s.getLast? = some 32))

instance (s : Bytes) : Decidable (EndsInColon s) :=
  inferInstanceAs (Decidable (s.getLast? = some 58))

/-- How a text has to be written for `Format` to take it for the word. -/
def Spelled (word s : Bytes) : Prop := Names word s ∧ ¬ EndsInSpace s ∨ CutAfter word s

def withoutColon (s : Bytes) : Bytes := if EndsInColon s then s.dropLast else s

def Asks (line : Bytes) : Prop :=
  Names kHeaderConnection (lineKey line) ∧ Names kConnectionKeepAlive (lineValue line)

def Tight (line : Bytes) : Prop :=
  ¬ EndsInSpace (lineKey line) ∧ ¬ EndsInSpace (lineValue line)

/-- The words are there, but a NUL follows one of them or a colon ends the line. -/
def Lookalike (line : Bytes) : Prop :=
  Spelled kHeaderConnection (lineKey line) ∧
    Spelled kConnectionKeepAlive (withoutColon (lineValue line)) ∧
      (CutAfter kHeaderConnection (lineKey line) ∨
        CutAfter kConnectionKeepAlive (withoutColon (lineValue line)) ∨
          EndsInColon (lineValue line))

/-! ## What is heard -/

structure PlainWord (word : Bytes) : Prop where
  nul_free : 0 ∉ upper word
  space_free : 32 ∉ upper word
  colon_free : 58 ∉ upper word
  ne_nil : upper word ≠ []

theorem plainWord_connection : PlainWord kHeaderConnection where
  nul_free := by decide
  space_free := by decide
  colon_free := by decide
  ne_nil := by decide

theorem plainWord_keepAlive : PlainWord kConnectionKeepAlive where
  nul_free := by decide
  space_free := by decide
  colon_free := by decide
  ne_nil := by decide

theorem trailing_eq_nil_iff {s : Bytes} (hs : stripped kSpace s ≠ []) :
    trailing (isDelim kSpace) s = [] ↔ ¬ EndsInSpace s := by
  have hview := view_eq s kSpace
  rw [← List.append_assoc] at hview
  rw [EndsInSpace]
  constructor
  · intro htrail hlast
    obtain ⟨core, b, hcore⟩ : ∃ core b, stripped kSpace s = core ++ [b] :=
      ⟨_, _, (List.dropLast_append_getLast hs).symm⟩
    have hb : isDelim kSpace b = false := last_strip hcore
    rw [htrail, List.append_nil, hcore, ← List.append_assoc] at hview
    rw [hview, List.getLast?_concat, Option.some.injEq] at hlast
    rw [isDelim_space_iff.mpr hlast] at hb
    cases hb
  · intro hlast
    by_contra htrail
    obtain ⟨init, b, hinit⟩ : ∃ init b, trailing (isDelim kSpace) s = init ++ [b] :=
      ⟨_, _, (List.dropLast_append_getLast htrail).symm⟩
    have hb : b = 32 :=
      isDelim_space_iff.mp (forall_mem_trailing (s := s) b (by simp [hinit]))
    rw [hinit, hb, ← List.append_assoc] at hview
    exact hlast (by rw [hview, List.getLast?_concat])

theorem format_eq_word_iff {word : Bytes} (hw : PlainWord word) (s : Bytes) :
    format (.ofString s) = upper word ↔ Spelled word s := by
  rw [format_eq_cstr, Spelled, Names, CutAfter]
  change (if stripped kSpace s = [] then [] else
    cstr (upper (stripped kSpace s) ++ upper (trailing (isDelim kSpace) s ++ []))) = _ ↔ _
  rw [List.append_nil]
  by_cases hs : stripped kSpace s = []
  · rw [if_pos hs, hs]
    simp [upper, cstr, eq_comm, upper_eq_nil_iff.not.mp hw.ne_nil]
  · rw [if_neg hs]
    by_cases h0 : 0 ∈ stripped kSpace s
    · have hnot : upper (stripped kSpace s) ≠ upper word := by
        intro he
        exact hw.nul_free (he ▸ zero_mem_upper_iff.mpr h0)
      rw [cstr_append_of_mem (zero_mem_upper_iff.mpr h0), cstr_upper]
      simp [h0, hnot]
    · rw [cstr_append_of_notMem (fun h => h0 (zero_mem_upper_iff.mp h)), cstr_upper,
        ← trailing_eq_nil_iff hs]
      simp only [h0, false_and, or_false]
      by_cases htrail : trailing (isDelim kSpace) s = []
      · simp [htrail, cstr, upper]
      · -- the space read along is not in the word
        simp only [htrail, and_false, iff_false]
        intro he
        obtain ⟨rest, hrest⟩ := trailing_eq_cons htrail
        apply hw.space_free
        rw [← he, hrest]
        exact List.mem_append_right _ List.mem_cons_self

theorem format_word {word : Bytes} (hw : PlainWord word) (hs : stripped kSpace word = word)
    (ht : ¬ EndsInSpace word) : format (.ofString word) = upper word :=
  (format_eq_word_iff hw word).mpr (.inl ⟨by rw [Names, hs], ht⟩)

theorem ofLine_of_valid {line : Bytes} (h : (Header.ofLine line).valid = true) :
    (Header.ofLine line).key = lineKey line ∧
      (Header.ofLine line).value = withoutColon (lineValue line) := by
  have hcolon : 58 ∈ line := by
    by_contra hnone
    rw [Header.ofLine_without_colon hnone] at h
    cases h
  obtain ⟨hkey, hline⟩ := Header.line_eq hcolon
  rw [hline, Header.ofLine_eq hkey] at h ⊢
  split_ifs at h ⊢ with hnil
  rw [← hline]
  exact ⟨rfl, Header.join_split_colon hnil⟩

def Heard (line : Bytes) : Prop :=
  Spelled kHeaderConnection (lineKey line) ∧
    Spelled kConnectionKeepAlive (withoutColon (lineValue line))

theorem scanHeader_shouldClose_iff (r : Request) {line : Bytes}
    (h : (Header.ofLine line).valid = true) :
    (r.scanHeader (Header.ofLine line)).shouldClose = false ↔
      r.shouldClose = false ∨ Heard line := by
  obtain ⟨hkey, hvalue⟩ := ofLine_of_valid h
  rw [Heard, ← format_eq_word_iff plainWord_connection, ← format_eq_word_iff plainWord_keepAlive,
    ← hkey, ← hvalue, Request.scanHeader,
    format_word plainWord_connection (by decide) (by decide),
    format_word plainWord_keepAlive (by decide) (by decide)]
  split_ifs with hk hv
  · simp [hk, hv]
  · simp [hv]
  · simp [hk]

theorem parseHeaders_shouldClose_iff (r : Request) {lines : List Bytes}
    (h : ∀ l ∈ lines, (Header.ofLine l).valid = true) :
    (r.parseHeaders lines).shouldClose = false ↔
      r.shouldClose = false ∨ ∃ l ∈ lines, Heard l := by
  induction lines generalizing r with
  | nil => simp [Request.parseHeaders]
  | cons line lines ih =>
    obtain ⟨hline, hlines⟩ := List.forall_mem_cons.mp h
    simp only [Request.parseHeaders, hline, Bool.true_eq_false, if_false]
    rw [ih _ hlines]
    change (r.scanHeader (Header.ofLine line)).shouldClose = false ∨ _ ↔ _
    rw [scanHeader_shouldClose_iff r hline, List.exists_mem_cons_iff, or_assoc]

theorem RequestText.headerLines_eq {s a u v trail : Bytes} {hs : List Bytes}
    (h : RequestText s a u v trail hs) : headerLines s = hs := by
  rw [headerLines, h.eq_lines, split_request_lines h.lines_free, List.dropLast_concat]
  rfl

theorem shouldClose_eq_false_iff {s : Bytes} (h : (Request.ofString s).isValid = true) :
    (Request.ofString s).shouldClose = false ↔ ∃ line ∈ headerLines s, Heard line := by
  obtain ⟨a, u, v, trail, hs, ht⟩ := exists_requestText h
  have hm := method_supported_iff.mpr ht.method
  have hv := version_supported_iff.mpr ht.version
  have hline :
      (Request.parseRequestLine {} (a ++ kSpace ++ u ++ kSpace ++ v ++ trail)).1 = true :=
    parseRequestLine_eq_true_iff.mpr ⟨a, u, v, ht.split_line, hm, hv⟩
  rw [ht.headerLines_eq, ht.eq_lines, ofString_of_lines ht.lines_free, if_pos hline,
    parseHeaders_shouldClose_iff _ ht.headers_valid, parseRequestLine_snd ht.split_line hm hv]
  simp

/-! ## When that is what the lines say -/

theorem mem_stripped {b : Byte} {s : Bytes} (hb : b ∈ s) (hne : b ≠ 32) :
    b ∈ stripped kSpace s := by
  have hnot : ¬ isDelim kSpace b = true := fun h => hne (isDelim_space_iff.mp h)
  rw [view_eq s kSpace, List.mem_append, List.mem_append] at hb
  rcases hb with hlead | hcore | htrail
  · exact absurd (forall_mem_takeWhile b hlead) hnot
  · exact hcore
  · exact absurd (forall_mem_trailing b htrail) hnot

theorem not_names_of_colon {word s : Bytes} (hw : PlainWord word) (h : EndsInColon s) :
    ¬ Names word s := by
  intro hn
  apply hw.colon_free
  rw [← hn]
  exact List.mem_map.mpr ⟨58, mem_stripped (List.mem_of_mem_getLast? h) (by decide), by decide⟩

theorem heard_iff (line : Bytes) : Heard line ↔ Asks line ∧ Tight line ∨ Lookalike line := by
  constructor
  · intro h
    by_cases hcolon : EndsInColon (lineValue line)
    · exact .inr ⟨h.1, h.2, .inr (.inr hcolon)⟩
    · rcases h.1 with hkey | hcut
      · rcases h.2 with hvalue | hcut
        · rw [withoutColon, if_neg hcolon] at hvalue
          exact .inl ⟨⟨hkey.1, hvalue.1⟩, hkey.2, hvalue.2⟩
        · exact .inr ⟨h.1, h.2, .inr (.inl hcut)⟩
      · exact .inr ⟨h.1, h.2, .inl hcut⟩
  · intro h
    rcases h with ⟨hasks, htight⟩ | hlook
    · refine ⟨.inl ⟨hasks.1, htight.1⟩, .inl ?_⟩
      have hcolon : ¬ EndsInColon (lineValue line) :=
        fun h => not_names_of_colon plainWord_keepAlive h hasks.2
      rw [withoutColon, if_neg hcolon]
      exact ⟨hasks.2, htight.2⟩
    · exact ⟨hlook.1, hlook.2.1⟩

/-- A line that asks is heard, or it is made up for by one that only looks like it. -/
def Reliable (lines : List Bytes) : Prop :=
  (∃ line ∈ lines, Asks line ∧ Tight line) ∨
    ((∃ line ∈ lines, Asks line ∧ ¬ Tight line) ↔ ∃ line ∈ lines, Lookalike line)

theorem exists_heard_iff (lines : List Bytes) : (∃ line ∈ lines, Heard line) ↔
    (∃ line ∈ lines, Asks line ∧ Tight line) ∨ ∃ line ∈ lines, Lookalike line := by
  simp only [heard_iff, and_or_left, exists_or]

theorem exists_asks_iff (lines : List Bytes) : (∃ line ∈ lines, Asks line) ↔
    (∃ line ∈ lines, Asks line ∧ Tight line) ∨ ∃ line ∈ lines, Asks line ∧ ¬ Tight line := by
  rw [← exists_or]
  refine exists_congr fun line => ?_
  by_cases ht : Tight line <;> simp [ht]

/-- The answer is what the header lines say exactly when they are reliable, and it never
depends on their order. -/
theorem keepAlive_iff {s : Bytes} (h : (Request.ofString s).isValid = true) :
    (((Request.ofString s).shouldClose = false ↔ ∃ line ∈ headerLines s, Asks line) ↔
      Reliable (headerLines s)) ∧
    ∀ s', (Request.ofString s').isValid = true → (headerLines s').Perm (headerLines s) →
      (Request.ofString s').shouldClose = (Request.ofString s).shouldClose := by
  constructor
  · rw [shouldClose_eq_false_iff h, exists_heard_iff, exists_asks_iff, Reliable]
    by_cases hheard : ∃ line ∈ headerLines s, Asks line ∧ Tight line
    · simp only [hheard, true_or]
    · simp only [hheard, false_or]
      exact Iff.comm
  · intro s' h' hperm
    have hiff : (Request.ofString s').shouldClose = false ↔
        (Request.ofString s).shouldClose = false := by
      rw [shouldClose_eq_false_iff h', shouldClose_eq_false_iff h]
      simp only [hperm.mem_iff]
    exact Bool.eq_iff_iff.mpr (by simpa using not_congr hiff)

def keepAliveText (line : Bytes) : Bytes :=
  ascii "GET /a HTTP/1.1" ++ kCRLF ++ line ++ kCRLF ++ ascii "Host:b" ++ kCRLF ++ kCRLF

theorem keepAlive_iff_tight :
    (Request.ofString (keepAliveText (ascii "CONNECTION: keep-alive"))).isValid = true ∧
    (Request.ofString (keepAliveText (ascii "CONNECTION: keep-alive"))).shouldClose = false ∧
    ∃ line ∈ headerLines (keepAliveText (ascii "CONNECTION: keep-alive")), Asks line := by
  have hvalid :
      (Request.ofString (keepAliveText (ascii "CONNECTION: keep-alive"))).isValid = true := by
    decide +kernel
  have hasks : Asks (ascii "CONNECTION: keep-alive") := ⟨by decide, by decide⟩
  have hmem : ascii "CONNECTION: keep-alive" ∈
      headerLines (keepAliveText (ascii "CONNECTION: keep-alive")) := by
    decide +kernel
  have hiff := (keepAlive_iff hvalid).1.mpr (.inl ⟨_, hmem, hasks, by decide, by decide⟩)
  exact ⟨hvalid, hiff.mpr ⟨_, hmem, hasks⟩, _, hmem, hasks⟩

theorem not_keepAlive_trailing_space :
    (Request.ofString (keepAliveText (ascii "Connection: Keep-Alive "))).isValid = true ∧
    (Request.ofString (keepAliveText (ascii "Connection: Keep-Alive "))).shouldClose = true ∧
    ∃ line ∈ headerLines (keepAliveText (ascii "Connection: Keep-Alive ")), Asks line := by
  have hmem : ascii "Connection: Keep-Alive " ∈
      headerLines (keepAliveText (ascii "Connection: Keep-Alive ")) := by
    decide +kernel
  exact ⟨by decide +kernel, by decide +kernel, _, hmem, by decide, by decide⟩

end HttpReactor
