import HttpReactor.Request
import HttpReactor.TokenRoundTrip

/-!
# Header lines

`Header` splits a line at every colon and joins the pieces after the first again. `Split`
drops an empty last piece, so a line that ends in a colon loses it, and a line whose only
colon is its last byte is refused (`ofLine_eq`).
-/

namespace HttpReactor
open ListSearch

def lineKey (line : Bytes) : Bytes := line.takeWhile (· ≠ 58)

def lineValue (line : Bytes) : Bytes := (line.dropWhile (· ≠ 58)).drop 1

namespace Header

/-- The line is read as it stands: valid if it has a colon, and split at the first one. -/
def ReadsLine (line : Bytes) : Prop :=
  ((ofLine line).valid = true ↔ 58 ∈ line) ∧
    ((ofLine line).valid = true → (ofLine line).key = lineKey line ∧
      (ofLine line).value = lineValue line ∧ (ofLine line).serialize = line ++ kCRLF)

def serializedLine (h : Header) : Bytes := h.serialize.take (h.serialize.length - kCRLF.length)

theorem kColon_eq : kColon = [58] := by decide

theorem serializedLine_eq (h : Header) : h.serializedLine = h.key ++ kColon ++ h.value := by
  rw [serializedLine, serialize, List.length_append, Nat.add_sub_cancel, List.take_left]

theorem ofLine_without_colon {line : Bytes} (h : 58 ∉ line) : (ofLine line).valid = false := by
  have hfree : ¬ kColon <:+: line := by rwa [kColon_eq, singleton_infix_iff]
  rw [ofLine, split_of_free kColon_ne_nil hfree]
  split_ifs <;> rfl

theorem ofLine_eq {k : Bytes} (hk : 58 ∉ k) (v : Bytes) :
    ofLine (k ++ kColon ++ v) =
      if v = [] then { key := [], value := [], valid := false }
      else { key := k, value := join (split v kColon) kColon } := by
  have hfree : ¬ kColon <:+: k := by rwa [kColon_eq, singleton_infix_iff]
  rw [ofLine, List.append_assoc, split_line kColon_ne_nil (by decide) hfree]
  cases hsplit : split v kColon with
  | nil =>
    rw [if_pos ((split_eq_nil_iff kColon_ne_nil).mp hsplit)]
  | cons t ts =>
    have hne : v ≠ [] := by
      intro h
      rw [(split_eq_nil_iff kColon_ne_nil).mpr h] at hsplit
      cases hsplit
    rw [if_neg hne]
    cases ts with
    | nil => rfl
    | cons t' ts => rfl

theorem line_eq {line : Bytes} (h : 58 ∈ line) :
    58 ∉ lineKey line ∧ line = lineKey line ++ kColon ++ lineValue line := by
  have hkey : (58 : Byte) ∉ lineKey line := by
    intro hm
    exact absurd (List.mem_takeWhile_imp hm) (by decide)
  refine ⟨hkey, ?_⟩
  have hsplit := List.takeWhile_append_dropWhile (p := fun b : Byte => decide (b ≠ 58)) (l := line)
  cases hrest : line.dropWhile (· ≠ 58) with
  | nil =>
    -- the colon would be in the key
    rw [hrest, List.append_nil] at hsplit
    rw [lineKey, hsplit] at hkey
    exact absurd h hkey
  | cons b rest =>
    have hb : b = 58 := by
      have hhead := List.head?_dropWhile_not (fun b : Byte => decide (b ≠ 58)) line
      rw [hrest] at hhead
      simpa using hhead
    rw [lineValue, hrest, kColon_eq, ← hb]
    rw [hrest] at hsplit
    simpa [lineKey] using hsplit.symm

theorem join_split_colon {v : Bytes} (hne : v ≠ []) :
    join (split v kColon) kColon = if v.getLast? = some 58 then v.dropLast else v := by
  have hscan : scanEnd kColon v = v.length ↔ v.getLast? = some 58 := by
    rw [kColon_eq]
    exact scanEnd_singleton_iff hne
  split_ifs with hlast
  · have hend := congrArg List.dropLast (join_split_of_end kColon_ne_nil hne (hscan.mpr hlast))
    rw [← hend, kColon_eq, List.dropLast_concat]
  · exact join_split_of_rest kColon_ne_nil fun h => hlast (hscan.mp h.2)

theorem join_split_colon_iff {v : Bytes} (hne : v ≠ []) :
    join (split v kColon) kColon = v ↔ v.getLast? ≠ some 58 := by
  have hpos : 0 < v.length := List.length_pos_iff.mpr hne
  rw [join_split_colon hne]
  split_ifs with hlast
  · refine iff_of_false (fun h => ?_) (fun h => h hlast)
    have hlen := congrArg List.length h
    rw [List.length_dropLast] at hlen
    omega
  · exact iff_of_true rfl hlast

theorem readsLine_iff_of_value {k v : Bytes} (hk : 58 ∉ k)
    (hkey : lineKey (k ++ kColon ++ v) = k) (hvalue : lineValue (k ++ kColon ++ v) = v) :
    ReadsLine (k ++ kColon ++ v) ↔ v ≠ [] ∧ v.getLast? ≠ some 58 := by
  have hcolon : 58 ∈ k ++ kColon ++ v := by simp [kColon_eq]
  rw [ReadsLine, ofLine_eq hk, hkey, hvalue]
  split_ifs with hnil
  · refine iff_of_false (fun h => ?_) (fun h => h.1 hnil)
    exact absurd (h.1.mpr hcolon) (by decide)
  · rw [← join_split_colon_iff hnil]
    simp only [hcolon, serialize, true_and, forall_const, ne_eq, hnil, not_false_eq_true]
    constructor
    · exact fun h => h.1
    · intro h
      exact ⟨h, by rw [h]⟩

theorem getLast?_line {k v : Bytes} :
    (k ++ kColon ++ v).getLast? ≠ some 58 ↔ v ≠ [] ∧ v.getLast? ≠ some 58 := by
  by_cases hnil : v = []
  · simp [hnil, kColon_eq]
  · rw [List.getLast?_append_of_ne_nil _ hnil]
    simp [hnil]

/-- A line is read as it stands exactly when it does not end in a colon, and a header with a
colon-free key survives the round trip exactly when its value is neither empty nor ends in
a colon. -/
theorem readsLine_iff (line k v : Bytes) :
    (ReadsLine line ↔ line.getLast? ≠ some 58) ∧
      (58 ∉ k → (ofLine (serializedLine { key := k, value := v }) =
        { key := k, value := v } ↔ v ≠ [] ∧ v.getLast? ≠ some 58)) := by
  constructor
  · by_cases hcolon : 58 ∈ line
    · obtain ⟨hkey, hline⟩ := line_eq hcolon
      have hiff := readsLine_iff_of_value hkey (v := lineValue line) (by rw [← hline])
        (by rw [← hline])
      rw [← getLast?_line (k := lineKey line), ← hline] at hiff
      exact hiff
    · have hlast : line.getLast? ≠ some 58 := fun h => hcolon (List.mem_of_mem_getLast? h)
      simp [ReadsLine, ofLine_without_colon hcolon, hcolon, hlast]
  · intro hk
    rw [serializedLine_eq, ofLine_eq hk]
    change (if v = [] then _ else _) = _ ↔ _
    split_ifs with hnil
    · simp [hnil]
    · rw [← join_split_colon_iff hnil]
      simp [hnil]

theorem not_readsLine_final_colon :
    58 ∈ ascii "Accept:" ∧ (ofLine (ascii "Accept:")).valid = false ∧
      (ofLine (ascii "Via:a:")).value = ascii "a" ∧
      ¬ ReadsLine (ascii "Accept:") ∧ ¬ ReadsLine (ascii "Via:a:") ∧
      ofLine (serializedLine { key := ascii "Accept", value := [] }) ≠
        { key := ascii "Accept", value := [] } := by
  refine ⟨by decide, by decide, by decide, ?_, ?_, by decide⟩
  · intro h
    exact absurd (h.1.mpr (by decide)) (by decide)
  · intro h
    exact absurd (h.2 (by decide)).2.1 (by decide)

end Header
end HttpReactor
