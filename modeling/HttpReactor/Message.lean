import HttpReactor.Response

/-!
# Reading a response back

What a client sees of a response: the lines up to the first empty one and the bytes
after it. The headers and the body of a serialized response are read back unchanged
(`messageHeaders_head`, `messageBody_head`), so `Framed` can speak of the bytes alone.
-/

namespace HttpReactor
open ListSearch

def headFrames (buf : Bytes) : List Bytes := (frames kCRLF buf).1.takeWhile (· ≠ kCRLF)

def headLines (buf : Bytes) : List Bytes :=
  (headFrames buf).map fun l => l.take (l.length - kCRLF.length)

def messageHeaders (buf : Bytes) : List Header := (headLines buf).tail.map Header.ofLine

def messageBody (buf : Bytes) : Bytes :=
  buf.drop ((headFrames buf).flatten.length + kCRLF.length)

def contentLengths (buf : Bytes) : List Bytes :=
  ((messageHeaders buf).filter fun h => h.key = kHeaderContentLength).map Header.value

/-- The message has one length header, and its decimal value is the length of the body. -/
def Framed (buf : Bytes) : Prop :=
  ∃ v, contentLengths buf = [v] ∧ decimalValue v = some (messageBody buf).length

instance (buf : Bytes) : Decidable (Framed buf) :=
  decidable_of_iff (∃ v ∈ contentLengths buf, contentLengths buf = [v] ∧
    decimalValue v = some (messageBody buf).length) <| by
    constructor
    · intro he
      obtain ⟨v, -, h⟩ := he
      exact ⟨v, h⟩
    · intro he
      obtain ⟨v, h⟩ := he
      exact ⟨v, by simp [h.1], h⟩

def IsOK (buf : Bytes) : Prop :=
  (headLines buf).head? = some (kHTTPVersion ++ kSpace ++ kResponseStatusOK)

instance (buf : Bytes) : Decidable (IsOK buf) := inferInstanceAs (Decidable (_ = _))

structure Header.Plain (h : Header) : Prop where
  key_cr : 13 ∉ h.key
  value_cr : 13 ∉ h.value
  key_colon : 58 ∉ h.key
  value_colon : 58 ∉ h.value
  value_ne : h.value ≠ []
  valid : h.valid = true

instance (h : Header) : Decidable h.Plain :=
  decidable_of_iff (13 ∉ h.key ∧ 13 ∉ h.value ∧ 58 ∉ h.key ∧ 58 ∉ h.value ∧ h.value ≠ [] ∧
    h.valid = true)
    ⟨fun hp => ⟨hp.1, hp.2.1, hp.2.2.1, hp.2.2.2.1, hp.2.2.2.2.1, hp.2.2.2.2.2⟩,
      fun hp => ⟨hp.key_cr, hp.value_cr, hp.key_colon, hp.value_colon, hp.value_ne, hp.valid⟩⟩

structure Response.Plain (r : Response) : Prop where
  statusLine_cr : 13 ∉ r.statusLine
  statusLine_ne : r.statusLine ≠ []
  headers : ∀ h ∈ r.headers, h.Plain

theorem crlf_free {l : Bytes} (h : 13 ∉ l) : ¬ kCRLF <:+: l :=
  fun hi => h (hi.subset (by decide))

theorem colon_free {l : Bytes} (h : 58 ∉ l) : ¬ kColon <:+: l :=
  fun hi => h (hi.subset (by decide))

theorem Header.Plain.ofLine {h : Header} (hp : h.Plain) :
    Header.ofLine (h.key ++ kColon ++ h.value) = h := by
  have hkey : ∀ l ∈ [h.key], ¬ kColon <:+: l := by
    simpa using colon_free hp.key_colon
  have hs := split_of_lines kColon_ne_nil (by decide) hkey (colon_free hp.value_colon)
  rw [if_neg hp.value_ne] at hs
  simp only [List.map_cons, List.map_nil, List.flatten_cons, List.flatten_nil, List.append_nil,
    List.cons_append, List.nil_append] at hs
  rw [Header.ofLine, hs]
  cases h
  simpa using hp.valid.symm

namespace Response

def lines (r : Response) : List Bytes :=
  r.statusLine :: r.headers.map fun h => h.key ++ kColon ++ h.value

theorem head_eq (r : Response) :
    r.head = ((r.lines ++ [[]]).map (· ++ kCRLF)).flatten := by
  have hs : Header.serialize = fun h => h.key ++ kColon ++ h.value ++ kCRLF := rfl
  simp [head, lines, hs, Function.comp_def]

theorem head_eq_lines (r : Response) : r.head = (r.lines.map (· ++ kCRLF)).flatten ++ kCRLF := by
  rw [head_eq]
  simp

theorem lines_cr {r : Response} (hp : r.Plain) : ∀ l ∈ r.lines, 13 ∉ l ∧ l ≠ [] := by
  intro l hl
  rcases List.mem_cons.mp hl with rfl | hl
  · exact ⟨hp.statusLine_cr, hp.statusLine_ne⟩
  · obtain ⟨h, hh, rfl⟩ := List.mem_map.mp hl
    have hh := hp.headers h hh
    have hc : 13 ∉ kColon := by decide
    exact ⟨by simp [hh.key_cr, hh.value_cr, hc], by simp [kColon, ascii]⟩

theorem lines_free {r : Response} (hp : r.Plain) : ∀ l ∈ r.lines, ¬ kCRLF <:+: l ∧ l ≠ [] :=
  fun l hl => ⟨crlf_free (lines_cr hp l hl).1, (lines_cr hp l hl).2⟩

theorem cut_requestEnd_line {l : Bytes} (hl : 13 ∉ l) (s : Bytes) :
    cut kRequestEnd (l ++ s) = (cut kRequestEnd s).map fun q => (l ++ q.1, q.2) := by
  induction l with
  | nil => simp
  | cons b l ih =>
    have hb : (13 : Byte) ≠ b := fun heq => hl (heq ▸ List.mem_cons_self)
    have hnot : ¬ kRequestEnd <+: b :: (l ++ s) := by
      intro hpre
      exact hb (List.cons_prefix_cons.mp hpre).1
    rw [List.cons_append, cut_cons_of_not_prefix hnot,
      ih (fun hm => hl (List.mem_cons_of_mem _ hm)), Option.map_map]
    rfl

theorem cut_requestEnd_crlf {b : Byte} (hb : b ≠ 13) (s : Bytes) :
    cut kRequestEnd (kCRLF ++ b :: s) =
      (cut kRequestEnd (b :: s)).map fun q => (kCRLF ++ q.1, q.2) := by
  have hcr : ¬ kRequestEnd <+: 13 :: 10 :: b :: s := by
    intro hpre
    have hthird := (List.cons_prefix_cons.mp (List.cons_prefix_cons.mp hpre).2).2
    exact hb (List.cons_prefix_cons.mp hthird).1.symm
  have hlf : ¬ kRequestEnd <+: 10 :: b :: s := by
    intro hpre
    exact absurd (List.cons_prefix_cons.mp hpre).1 (by decide)
  have hcrlf : kCRLF ++ b :: s = 13 :: 10 :: b :: s := rfl
  rw [hcrlf, cut_cons_of_not_prefix hcr, cut_cons_of_not_prefix hlf, Option.map_map]
  rfl

theorem cut_requestEnd_lines {ls : List Bytes} (hne : ls ≠ [])
    (hls : ∀ l ∈ ls, 13 ∉ l ∧ l ≠ []) (x : Bytes) :
    cut kRequestEnd ((ls.map (· ++ kCRLF)).flatten ++ (kCRLF ++ x)) =
      some ((ls.map (· ++ kCRLF)).flatten ++ kCRLF, x) := by
  induction ls with
  | nil => exact absurd rfl hne
  | cons l ls ih =>
    obtain ⟨hl, hls⟩ := List.forall_mem_cons.mp hls
    simp only [List.map_cons, List.flatten_cons, List.append_assoc]
    rw [cut_requestEnd_line hl.1]
    cases ls with
    | nil =>
      have hend : cut kRequestEnd (kRequestEnd ++ x) = some (kRequestEnd, x) := by
        refine cut_eq_some_iff.mpr ⟨0, find_eq_some_iff.mpr ⟨?_, ?_⟩, ?_, ?_⟩
        · exact List.prefix_append _ _
        · simp
        · simp
        · simp
      rw [kRequestEnd, List.append_assoc] at hend
      simp [kRequestEnd, hend]
    | cons l' ls =>
      have hl' := (List.forall_mem_cons.mp hls).1
      cases l' with
      | nil => exact absurd rfl hl'.2
      | cons b l' =>
        have hb : b ≠ 13 := fun heq => hl'.1 (heq ▸ List.mem_cons_self)
        have hrest := ih (by simp) hls
        simp only [List.map_cons, List.flatten_cons, List.append_assoc, List.cons_append]
          at hrest ⊢
        rw [cut_requestEnd_crlf hb, hrest]
        simp

theorem cut_head {r : Response} (hp : r.Plain) (body : Bytes) :
    cut kRequestEnd (r.head ++ body) = some (r.head, body) := by
  have hcut := cut_requestEnd_lines (List.cons_ne_nil _ _) (lines_cr hp) body
  rw [← List.append_assoc] at hcut
  rw [head_eq_lines]
  exact hcut

theorem headFrames_head {r : Response} (hp : r.Plain) (body : Bytes) :
    headFrames (r.head ++ body) = r.lines.map (· ++ kCRLF) := by
  have hfree : ∀ l ∈ r.lines ++ [[]], ¬ kCRLF <:+: l := by
    intro l hl
    rcases List.mem_append.mp hl with hl | hl
    · exact (lines_free hp l hl).1
    · rw [List.mem_singleton.mp hl]
      exact crlf_free_nil
  have hfr := frames_lines kCRLF_ne_nil kCRLF_borderless hfree crlf_free_nil
  rw [List.append_nil, ← head_eq] at hfr
  rw [headFrames, frames_append kCRLF_ne_nil, hfr, List.map_append, List.append_assoc,
    List.takeWhile_append_of_pos]
  · simp
  · intro l hl
    obtain ⟨l', hl', rfl⟩ := List.mem_map.mp hl
    simpa using (lines_free hp l' hl').2

theorem headLines_head {r : Response} (hp : r.Plain) (body : Bytes) :
    headLines (r.head ++ body) = r.lines := by
  rw [headLines, headFrames_head hp, List.map_map]
  refine (List.map_congr_left fun l _ => ?_).trans (List.map_id _)
  simp

theorem messageHeaders_head {r : Response} (hp : r.Plain) (body : Bytes) :
    messageHeaders (r.head ++ body) = r.headers := by
  rw [messageHeaders, headLines_head hp, lines, List.tail_cons, List.map_map]
  refine (List.map_congr_left fun h hh => ?_).trans (List.map_id _)
  exact (hp.headers h hh).ofLine

theorem messageBody_head {r : Response} (hp : r.Plain) (body : Bytes) :
    messageBody (r.head ++ body) = body := by
  have hlen : r.head.length = (r.lines.map (· ++ kCRLF)).flatten.length + kCRLF.length := by
    rw [head_eq_lines, List.length_append]
  rw [messageBody, headFrames_head hp, ← hlen, List.drop_left]

theorem framed_head_iff {r : Response} (hp : r.Plain) {v : Bytes}
    (hv : r.valuesOf kHeaderContentLength = [v]) (body : Bytes) :
    Framed (r.head ++ body) ↔ decimalValue v = some body.length := by
  have hc : contentLengths (r.head ++ body) = [v] := by
    rw [contentLengths, messageHeaders_head hp]
    exact hv
  rw [Framed, messageBody_head hp, hc]
  constructor
  · intro he
    obtain ⟨w, hw, h⟩ := he
    rwa [List.singleton_injective hw]
  · exact fun h => ⟨v, rfl, h⟩

theorem isOK_head_iff {r : Response} (hp : r.Plain) (body : Bytes) :
    IsOK (r.head ++ body) ↔ r.statusLine = kHTTPVersion ++ kSpace ++ kResponseStatusOK := by
  rw [IsOK, headLines_head hp, lines, List.head?_cons, Option.some_inj]

end Response

theorem mem_toDecimalFuel {fuel n : ℕ} {b : Byte} (h : b ∈ toDecimalFuel fuel n) :
    48 ≤ b.toNat ∧ b.toNat ≤ 57 := by
  induction fuel generalizing n with
  | zero => cases h
  | succ fuel ih =>
    simp only [toDecimalFuel] at h
    split_ifs at h with hn
    · rw [List.mem_singleton.mp h, UInt8.toNat_ofNat']
      omega
    · rcases List.mem_append.mp h with h | h
      · exact ih h
      · rw [List.mem_singleton.mp h, UInt8.toNat_ofNat']
        omega

theorem plain_contentLength (n : ℕ) :
    Header.Plain { key := kHeaderContentLength, value := toDecimal n } := by
  have hd : ∀ b : Byte, b.toNat < 48 ∨ 57 < b.toNat → b ∉ toDecimal n := by
    intro b hb hm
    have hr := mem_toDecimalFuel hm
    omega
  have hkey : 13 ∉ kHeaderContentLength ∧ 58 ∉ kHeaderContentLength := by decide
  exact ⟨hkey.1, hd 13 (by decide), hkey.2, hd 58 (by decide), toDecimal_ne_nil n, rfl⟩

namespace Response

theorem plain_commonHeaders (close : Bool) : ∀ h ∈ commonHeaders close, h.Plain := by
  cases close <;> decide

theorem plain_contentTypeHeader (url : Bytes) : ∀ h ∈ contentTypeHeader url, h.Plain := by
  intro h hh
  unfold contentTypeHeader at hh
  split at hh
  · next i hi =>
    rw [List.mem_singleton.mp hh]
    cases toExtension (.ofString (url.drop (i + 1))) <;> decide
  · cases hh

theorem plain_statusLine {status : Bytes} (h : 13 ∉ status) :
    13 ∉ kHTTPVersion ++ kSpace ++ status ∧ kHTTPVersion ++ kSpace ++ status ≠ [] := by
  have hv : 13 ∉ kHTTPVersion ++ kSpace := by decide
  exact ⟨by simpa [h] using hv, by simp [kHTTPVersion, ascii]⟩

theorem plain_withResource {status : Bytes} (hs : 13 ∉ status) (close : Bool) (url : Bytes)
    (n : ℕ) : (withResource status close url n).Plain := by
  refine ⟨(plain_statusLine hs).1, (plain_statusLine hs).2, fun h hh => ?_⟩
  rcases List.mem_append.mp hh with hh | hh
  · exact plain_commonHeaders close h hh
  · rcases List.mem_cons.mp hh with rfl | hh
    · exact plain_contentLength n
    · exact plain_contentTypeHeader url h hh

theorem plain_withoutResource {status : Bytes} (hs : 13 ∉ status) (close : Bool) :
    (withoutResource status close).Plain := by
  refine ⟨(plain_statusLine hs).1, (plain_statusLine hs).2, fun h hh => ?_⟩
  rcases List.mem_append.mp hh with hh | hh
  · exact plain_commonHeaders close h hh
  · rw [List.mem_singleton.mp hh]
    exact plain_contentLength 0

theorem framed_withResource_iff (close : Bool) (url : Bytes) (n : ℕ) (body : Bytes) :
    Framed ((withResource kResponseStatusOK close url n).head ++ body) ↔ n = body.length := by
  rw [framed_head_iff (plain_withResource (by decide) close url n)
    (withResource_contentLength _ _ _ _), decimalValue_toDecimal, Option.some_inj]

theorem isOK_withResource (close : Bool) (url : Bytes) (n : ℕ) (body : Bytes) :
    IsOK ((withResource kResponseStatusOK close url n).head ++ body) :=
  (isOK_head_iff (plain_withResource (by decide) close url n) body).mpr rfl

end Response

end HttpReactor
