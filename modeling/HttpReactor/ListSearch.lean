import Mathlib.Data.List.Infix
import Mathlib.Data.Nat.Find
import Mathlib.Tactic.Common

/-!
# First occurrences of a pattern and the frames they delimit

`find pat s` is the index of the leftmost occurrence of `pat` in `s`. Cutting a
list after every leftmost occurrence of a terminator gives its frames: the
complete pieces, each ending in the terminator, and the unfinished remainder.
The frames of a list do not depend on how the list arrived: framing a prefix
first and its remainder together with the later elements afterwards gives the
same pieces (`frames_append`).
-/

namespace HttpReactor.ListSearch

variable {α : Type*}

theorem infix_iff_exists_drop {pat s : List α} : pat <:+: s ↔ ∃ i, pat <+: s.drop i := by
  constructor
  · intro h
    obtain ⟨pre, post, rfl⟩ := h
    exact ⟨pre.length, post, by simp⟩
  · intro h
    obtain ⟨i, hi⟩ := h
    exact hi.isInfix.trans (List.drop_suffix i s).isInfix

variable [DecidableEq α]

def find (pat : List α) : List α → Option ℕ
  | [] => if pat = [] then some 0 else none
  | a :: s => if pat <+: a :: s then some 0 else (find pat s).map (· + 1)

theorem find_eq_some_iff {pat s : List α} {i : ℕ} :
    find pat s = some i ↔ pat <+: s.drop i ∧ ∀ j < i, ¬ pat <+: s.drop j := by
  induction s generalizing i with
  | nil =>
    simp only [find, List.drop_nil, List.prefix_nil]
    split_ifs with h
    · constructor
      · intro he
        cases he
        exact ⟨h, by omega⟩
      · intro he
        obtain ⟨-, hj⟩ := he
        cases i with
        | zero => rfl
        | succ i => exact absurd h (hj 0 (by omega))
    · simp [h]
  | cons a s ih =>
    by_cases h : pat <+: a :: s
    · simp only [find, h, if_true, Option.some.injEq]
      constructor
      · intro he
        subst he
        exact ⟨h, by omega⟩
      · intro he
        obtain ⟨-, hj⟩ := he
        by_contra hi
        exact hj 0 (by omega) h
    · simp only [find, h, if_false, Option.map_eq_some_iff]
      constructor
      · intro he
        obtain ⟨k, hk, rfl⟩ := he
        obtain ⟨hp, hj⟩ := ih.mp hk
        refine ⟨hp, fun j hlt => ?_⟩
        cases j with
        | zero => exact h
        | succ j => exact hj j (by omega)
      · intro he
        obtain ⟨hp, hj⟩ := he
        cases i with
        | zero => exact absurd hp h
        | succ i => exact ⟨i, ih.mpr ⟨hp, fun j hlt => hj (j + 1) (by omega)⟩, rfl⟩

theorem find_eq_none_iff {pat s : List α} : find pat s = none ↔ ¬ pat <:+: s := by
  rw [infix_iff_exists_drop]
  constructor
  · intro h he
    obtain ⟨i, hi⟩ := he
    -- the least index of an occurrence would have been found
    classical
    have hex : ∃ i, pat <+: s.drop i := ⟨i, hi⟩
    have hf : find pat s = some (Nat.find hex) :=
      find_eq_some_iff.mpr ⟨Nat.find_spec hex, fun j hj => Nat.find_min hex hj⟩
    simp [h] at hf
  · intro h
    cases hf : find pat s with
    | none => rfl
    | some i => exact absurd ⟨i, (find_eq_some_iff.mp hf).1⟩ h

theorem find_isSome_iff {pat s : List α} : (find pat s).isSome ↔ pat <:+: s := by
  rw [Option.isSome_iff_ne_none, Ne, find_eq_none_iff, not_not]

theorem takeWhile_ne_eq_find (a : α) (s : List α) :
    s.takeWhile (· ≠ a) = match find [a] s with
      | some i => s.take i
      | none => s := by
  induction s with
  | nil => rfl
  | cons b s ih =>
    by_cases hb : b = a
    · simp [find, hb]
    · have hab : ¬ a = b := fun h => hb h.symm
      rw [List.takeWhile_cons_of_pos (by simpa using hb), ih]
      simp only [find, List.cons_prefix_cons, List.nil_prefix, and_true, hab, if_false]
      cases find [a] s <;> rfl

omit [DecidableEq α] in
theorem singleton_prefix_drop_iff {a : α} {s : List α} {i : ℕ} :
    [a] <+: s.drop i ↔ s[i]? = some a := by
  rw [← List.head?_drop]
  cases s.drop i with
  | nil => simp
  | cons b t => simp [List.cons_prefix_cons, eq_comm]

theorem find_singleton_eq_some_iff {a : α} {s : List α} {i : ℕ} :
    find [a] s = some i ↔ s[i]? = some a ∧ ∀ j < i, s[j]? ≠ some a := by
  simp only [find_eq_some_iff, singleton_prefix_drop_iff, ne_eq]

omit [DecidableEq α] in
theorem singleton_infix_iff {a : α} {s : List α} : [a] <:+: s ↔ a ∈ s := by
  constructor
  · intro h
    exact h.subset List.mem_cons_self
  · intro h
    obtain ⟨pre, post, rfl⟩ := List.append_of_mem h
    exact ⟨pre, post, by simp⟩

theorem find_add_length_le {pat s : List α} {i : ℕ} (hp : pat ≠ []) (h : find pat s = some i) :
    i + pat.length ≤ s.length := by
  have hl := (find_eq_some_iff.mp h).1.length_le
  have hpos : 0 < pat.length := List.length_pos_iff.mpr hp
  rw [List.length_drop] at hl
  omega

theorem take_add_length_of_find {pat s : List α} {i : ℕ} (h : find pat s = some i) :
    s.take (i + pat.length) = s.take i ++ pat := by
  rw [List.take_add, List.prefix_iff_eq_take.mp (find_eq_some_iff.mp h).1]
  simp

theorem find_append {pat s : List α} {i : ℕ} (hp : pat ≠ []) (h : find pat s = some i)
    (x : List α) : find pat (s ++ x) = some i := by
  have hle := find_add_length_le hp h
  obtain ⟨hi, hj⟩ := find_eq_some_iff.mp h
  refine find_eq_some_iff.mpr ⟨?_, fun j hlt hpre => hj j hlt ?_⟩
  · rw [List.drop_append_of_le_length (by omega)]
    exact hi.trans (List.prefix_append _ _)
  · rw [List.drop_append_of_le_length (by omega)] at hpre
    exact List.prefix_of_prefix_length_le hpre (List.prefix_append _ _)
      (by rw [List.length_drop]; omega)

/-- `pat` has no proper nonempty prefix that is also a suffix. -/
def Borderless (pat : List α) : Prop :=
  ∀ k, 0 < k → k < pat.length → pat.take k ≠ pat.drop (pat.length - k)

instance (pat : List α) : Decidable (Borderless pat) :=
  decidable_of_iff (∀ k < pat.length, 0 < k → pat.take k ≠ pat.drop (pat.length - k))
    ⟨fun h k hp hl => h k hl hp, fun h k hl hp => h k hp hl⟩

theorem find_append_pattern {pat l : List α} (hb : Borderless pat) (hl : ¬ pat <:+: l)
    (x : List α) : find pat (l ++ (pat ++ x)) = some l.length := by
  refine find_eq_some_iff.mpr ⟨by simp, fun j hj hpre => ?_⟩
  rw [List.drop_append_of_le_length (by omega)] at hpre
  by_cases hin : j + pat.length ≤ l.length
  · apply hl
    have hp : pat <+: l.drop j := List.prefix_of_prefix_length_le hpre
      (List.prefix_append _ _) (by rw [List.length_drop]; omega)
    exact infix_iff_exists_drop.mpr ⟨j, hp⟩
  · -- the overlap would be a border of the pattern
    have hk : pat.length - (j + pat.length - l.length) = (l.drop j).length := by
      rw [List.length_drop]; omega
    apply hb (j + pat.length - l.length) (by omega) (by omega)
    rw [hk]
    have hd := hpre.drop (l.drop j).length
    rw [List.drop_left] at hd
    have he := List.prefix_of_prefix_length_le hd (List.prefix_append pat x)
      (by rw [List.length_drop]; omega)
    rw [List.prefix_iff_eq_take.mp he, List.length_drop]
    congr 1
    rw [List.length_drop]
    omega

def cut (t s : List α) : Option (List α × List α) :=
  (find t s).map fun i => (s.take (i + t.length), s.drop (i + t.length))

theorem cut_eq_none_iff {t s : List α} : cut t s = none ↔ ¬ t <:+: s := by
  rw [cut, Option.map_eq_none_iff, find_eq_none_iff]

theorem cut_eq_some_iff {t s p r : List α} : cut t s = some (p, r) ↔
    ∃ i, find t s = some i ∧ p = s.take i ++ t ∧ r = s.drop (i + t.length) := by
  simp only [cut, Option.map_eq_some_iff, Prod.mk.injEq]
  constructor
  · intro h
    obtain ⟨i, hi, rfl, rfl⟩ := h
    exact ⟨i, hi, take_add_length_of_find hi, rfl⟩
  · intro h
    obtain ⟨i, hi, rfl, rfl⟩ := h
    exact ⟨i, hi, take_add_length_of_find hi, rfl⟩

theorem cut_cons_of_not_prefix {t s : List α} {a : α} (h : ¬ t <+: a :: s) :
    cut t (a :: s) = (cut t s).map fun q => (a :: q.1, q.2) := by
  rw [cut, cut, find, if_neg h, Option.map_map, Option.map_map]
  congr 1
  funext i
  simp [Nat.add_right_comm]

theorem cut_append_eq {t s p r : List α} (h : cut t s = some (p, r)) : p ++ r = s := by
  obtain ⟨i, hi, rfl, rfl⟩ := cut_eq_some_iff.mp h
  rw [← take_add_length_of_find hi, List.take_append_drop]

theorem cut_length_lt {t s p r : List α} (ht : t ≠ []) (h : cut t s = some (p, r)) :
    r.length < s.length := by
  obtain ⟨i, hi, rfl, rfl⟩ := cut_eq_some_iff.mp h
  have hle := find_add_length_le ht hi
  have hpos : 0 < t.length := List.length_pos_iff.mpr ht
  rw [List.length_drop]
  omega

theorem cut_append {t s p r : List α} (ht : t ≠ []) (h : cut t s = some (p, r)) (x : List α) :
    cut t (s ++ x) = some (p, r ++ x) := by
  obtain ⟨i, hi, rfl, rfl⟩ := cut_eq_some_iff.mp h
  have hle := find_add_length_le ht hi
  refine cut_eq_some_iff.mpr ⟨i, find_append ht hi x, ?_, ?_⟩
  · rw [List.take_append_of_le_length (by omega)]
  · rw [List.drop_append_of_le_length (by omega)]

theorem cut_suffix {t s p r : List α} (h : cut t s = some (p, r)) : t <:+ p := by
  obtain ⟨i, -, rfl, -⟩ := cut_eq_some_iff.mp h
  exact List.suffix_append _ _

theorem cut_occurrence_iff {t s p r : List α} (ht : t ≠ []) (h : cut t s = some (p, r)) {i : ℕ} :
    t <+: p.drop i ↔ i + t.length = p.length := by
  obtain ⟨k, hk, rfl, rfl⟩ := cut_eq_some_iff.mp h
  have hle := find_add_length_le ht hk
  have hpos : 0 < t.length := List.length_pos_iff.mpr ht
  have hlen : (s.take k ++ t).length = k + t.length := by
    rw [List.length_append, List.length_take]
    omega
  rw [hlen]
  constructor
  · intro hi
    have hshort := hi.length_le
    rw [List.length_drop, hlen] at hshort
    have hnot : ¬ i < k := by
      intro hlt
      rw [← take_add_length_of_find hk] at hi
      exact (find_eq_some_iff.mp hk).2 i hlt (hi.trans ((List.take_prefix _ s).drop i))
    omega
  · intro hi
    obtain rfl : i = k := by omega
    rw [List.drop_append_of_le_length (by rw [List.length_take]; omega), List.drop_take]
    simp

theorem cut_line {t l : List α} (hb : Borderless t) (hl : ¬ t <:+: l) (x : List α) :
    cut t (l ++ (t ++ x)) = some (l ++ t, x) := by
  refine cut_eq_some_iff.mpr ⟨_, find_append_pattern hb hl x, ?_, ?_⟩
  · simp
  · rw [← List.append_assoc, ← List.length_append, List.drop_left]

def framesFuel (t : List α) : ℕ → List α → List (List α) × List α
  | 0, s => ([], s)
  | n + 1, s =>
    match cut t s with
    | none => ([], s)
    | some (p, r) => (p :: (framesFuel t n r).1, (framesFuel t n r).2)

/-- All pieces of `s` that end at a leftmost occurrence of `t`, and the remainder. -/
def frames (t s : List α) : List (List α) × List α := framesFuel t s.length s

theorem framesFuel_of_cut_none {t s : List α} (h : cut t s = none) (n : ℕ) :
    framesFuel t n s = ([], s) := by
  cases n with
  | zero => rfl
  | succ n => simp only [framesFuel, h]

theorem framesFuel_eq_frames {t : List α} (ht : t ≠ []) {n : ℕ} {s : List α}
    (hn : s.length ≤ n) : framesFuel t n s = frames t s := by
  unfold frames
  generalize hm : s.length = m at hn
  induction m using Nat.strong_induction_on generalizing n s with
  | _ m ih =>
    cases hc : cut t s with
    | none => rw [framesFuel_of_cut_none hc, framesFuel_of_cut_none hc]
    | some q =>
      obtain ⟨p, r⟩ := q
      have hlt := cut_length_lt ht hc
      obtain ⟨n, rfl⟩ : ∃ k, n = k + 1 := ⟨n - 1, by omega⟩
      obtain ⟨m, rfl⟩ : ∃ k, m = k + 1 := ⟨m - 1, by omega⟩
      have h₁ := ih r.length (by omega) rfl (show r.length ≤ n by omega)
      have h₂ := ih r.length (by omega) rfl (show r.length ≤ m by omega)
      simp only [framesFuel, hc, h₁, h₂]

theorem frames_of_cut_none {t s : List α} (h : cut t s = none) : frames t s = ([], s) :=
  framesFuel_of_cut_none h _

theorem frames_of_cut_some {t s p r : List α} (ht : t ≠ []) (h : cut t s = some (p, r)) :
    frames t s = (p :: (frames t r).1, (frames t r).2) := by
  have hlt := cut_length_lt ht h
  obtain ⟨m, hm⟩ : ∃ k, s.length = k + 1 := ⟨s.length - 1, by omega⟩
  rw [frames, hm, framesFuel, h]
  simp only [framesFuel_eq_frames ht (show r.length ≤ m by omega)]

theorem frames_induction {t : List α} (ht : t ≠ []) {motive : List α → Prop}
    (stop : ∀ s, cut t s = none → motive s)
    (step : ∀ s p r, cut t s = some (p, r) → motive r → motive s) (s : List α) : motive s := by
  generalize hn : s.length = n
  induction n using Nat.strong_induction_on generalizing s with
  | _ n ih =>
    cases hc : cut t s with
    | none => exact stop s hc
    | some q =>
      obtain ⟨p, r⟩ := q
      have hlt := cut_length_lt ht hc
      exact step s p r hc (ih r.length (by omega) r rfl)

theorem frames_flatten {t : List α} (ht : t ≠ []) (s : List α) :
    (frames t s).1.flatten ++ (frames t s).2 = s := by
  induction s using frames_induction ht with
  | stop s h => simp [frames_of_cut_none h]
  | step s p r h ih =>
    rw [frames_of_cut_some ht h, List.flatten_cons, List.append_assoc, ih, cut_append_eq h]

theorem frames_remainder {t : List α} (ht : t ≠ []) (s : List α) :
    cut t (frames t s).2 = none := by
  induction s using frames_induction ht with
  | stop s h => rw [frames_of_cut_none h]; exact h
  | step s p r h ih => rw [frames_of_cut_some ht h]; exact ih

theorem frames_append {t : List α} (ht : t ≠ []) (s x : List α) :
    frames t (s ++ x) = ((frames t s).1 ++ (frames t ((frames t s).2 ++ x)).1,
      (frames t ((frames t s).2 ++ x)).2) := by
  induction s using frames_induction ht with
  | stop s h => simp [frames_of_cut_none h]
  | step s p r h ih =>
    rw [frames_of_cut_some ht h, frames_of_cut_some ht (cut_append ht h x), ih]
    simp

theorem frames_mono {t s s' : List α} (ht : t ≠ []) (h : s <+: s') :
    (frames t s).1 <+: (frames t s').1 := by
  obtain ⟨x, rfl⟩ := h
  rw [frames_append ht]
  exact List.prefix_append _ _

theorem exists_cut_of_mem_frames {t s p : List α} (ht : t ≠ []) (hp : p ∈ (frames t s).1) :
    ∃ s' r, cut t s' = some (p, r) := by
  induction s using frames_induction ht with
  | stop s h =>
    rw [frames_of_cut_none h] at hp
    cases hp
  | step s q r h ih =>
    rw [frames_of_cut_some ht h] at hp
    rcases List.mem_cons.mp hp with rfl | hp
    · exact ⟨s, r, h⟩
    · exact ih hp

theorem frames_eq_nil_iff {t : List α} (ht : t ≠ []) {s : List α} :
    (frames t s).1 = [] ↔ ¬ t <:+: s := by
  rw [← cut_eq_none_iff]
  constructor
  · intro h
    cases hc : cut t s with
    | none => rfl
    | some q => rw [frames_of_cut_some ht hc] at h; simp at h
  · intro h
    rw [frames_of_cut_none h]

theorem frames_lines {t : List α} (ht : t ≠ []) (hb : Borderless t) {ls : List (List α)}
    (hls : ∀ l ∈ ls, ¬ t <:+: l) {r : List α} (hr : ¬ t <:+: r) :
    frames t ((ls.map (· ++ t)).flatten ++ r) = (ls.map (· ++ t), r) := by
  induction ls with
  | nil => simpa using frames_of_cut_none (cut_eq_none_iff.mpr hr)
  | cons l ls ih =>
    have hl := hls l List.mem_cons_self
    have ht' := ih fun m hm => hls m (List.mem_cons_of_mem _ hm)
    have hc := cut_line hb hl ((ls.map (· ++ t)).flatten ++ r)
    simp only [List.map_cons, List.flatten_cons, List.append_assoc]
    rw [frames_of_cut_some ht hc, ht']

theorem frames_eq_map_lines {t : List α} (ht : t ≠ []) (s : List α) :
    ∃ ls : List (List α), (∀ l ∈ ls, find t (l ++ t) = some l.length) ∧
      (frames t s).1 = ls.map (· ++ t) := by
  induction s using frames_induction ht with
  | stop s h => exact ⟨[], by simp, by rw [frames_of_cut_none h]; rfl⟩
  | step s p r h ih =>
    obtain ⟨ls, hls, he⟩ := ih
    obtain ⟨i, hi, rfl, rfl⟩ := cut_eq_some_iff.mp h
    refine ⟨s.take i :: ls, ?_, by rw [frames_of_cut_some ht h, he, List.map_cons]⟩
    intro l hl
    rcases List.mem_cons.mp hl with rfl | hl
    · have hle := find_add_length_le ht hi
      have hlen : (s.take i).length = i := by rw [List.length_take]; omega
      rw [hlen, ← take_add_length_of_find hi]
      obtain ⟨ho, hmin⟩ := find_eq_some_iff.mp hi
      refine find_eq_some_iff.mpr ⟨?_, fun j hj hp => hmin j hj ?_⟩
      · rw [List.drop_take, Nat.add_sub_cancel_left, ← List.prefix_iff_eq_take.mp ho]
      · exact hp.trans ((List.take_prefix _ s).drop j)
    · exact hls l hl

end HttpReactor.ListSearch
