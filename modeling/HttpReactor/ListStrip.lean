import Mathlib.Data.List.DropRight
import Mathlib.Tactic.Common

/-!
# Stripping both ends of a list

`strip p s` is `s` without the elements at its ends that meet `p`, and `trailing p s` what is
taken off at the right. Padding a list with such elements changes only what is taken off.
-/

namespace HttpReactor.ListStrip

variable {α : Type*} (p : α → Bool)

def strip (s : List α) : List α := (s.dropWhile p).rdropWhile p

def trailing (s : List α) : List α := (s.dropWhile p).rtakeWhile p

variable {p}

theorem takeWhile_append_strip (s : List α) :
    s.takeWhile p ++ (strip p s ++ trailing p s) = s := by
  rw [strip, trailing, List.rdropWhile_append_rtakeWhile, List.takeWhile_append_dropWhile]

theorem forall_mem_trailing {s : List α} : ∀ a ∈ trailing p s, p a = true :=
  fun _ ha => List.mem_rtakeWhile_imp ha

theorem forall_mem_takeWhile {s : List α} : ∀ a ∈ s.takeWhile p, p a = true :=
  fun _ ha => List.mem_takeWhile_imp ha

theorem strip_eq_nil_iff {s : List α} : strip p s = [] ↔ ∀ a ∈ s, p a = true := by
  rw [strip, List.rdropWhile_eq_nil_iff]
  constructor
  · intro h a ha
    rw [← List.takeWhile_append_dropWhile (p := p) (l := s), List.mem_append] at ha
    rcases ha with ha | ha
    · exact List.mem_takeWhile_imp ha
    · exact h a ha
  · intro h a ha
    exact h a ((List.dropWhile_suffix p).subset ha)

theorem head_strip {s t : List α} {a : α} (h : strip p s = a :: t) : p a = false := by
  have hhead := List.head?_dropWhile_not p s
  obtain ⟨r, hr⟩ := List.rdropWhile_prefix p (s.dropWhile p)
  have hcons : s.dropWhile p = a :: (t ++ r) := by
    rw [← hr]
    exact congrArg (· ++ r) h
  rw [hcons] at hhead
  simpa using hhead

theorem last_strip {s t : List α} {a : α} (h : strip p s = t ++ [a]) : p a = false := by
  have hne : (s.dropWhile p).rdropWhile p ≠ [] := by
    rw [show (s.dropWhile p).rdropWhile p = t ++ [a] from h]
    simp
  have hlast := List.rdropWhile_last_not p (s.dropWhile p) hne
  simpa [show (s.dropWhile p).rdropWhile p = t ++ [a] from h] using hlast

theorem rdropWhile_append_padding {s r : List α} (hr : ∀ a ∈ r, p a = true) :
    (s ++ r).rdropWhile p = s.rdropWhile p ∧ (s ++ r).rtakeWhile p = s.rtakeWhile p ++ r := by
  have hrev : ∀ a ∈ r.reverse, p a = true := fun a ha => hr a (List.mem_reverse.mp ha)
  constructor
  · rw [List.rdropWhile, List.reverse_append, List.dropWhile_append_of_pos hrev]
    rfl
  · rw [List.rtakeWhile, List.reverse_append, List.takeWhile_append_of_pos hrev]
    simp [List.rtakeWhile]

theorem strip_padded {l r : List α} (hl : ∀ a ∈ l, p a = true) (hr : ∀ a ∈ r, p a = true)
    (s : List α) : strip p (l ++ s ++ r) = strip p s := by
  rw [strip, List.append_assoc, List.dropWhile_append_of_pos hl, List.dropWhile_append]
  split_ifs with hs
  · have hnil : s.dropWhile p = [] := List.isEmpty_iff.mp hs
    rw [strip, hnil, List.dropWhile_eq_nil_iff.mpr hr]
  · rw [(rdropWhile_append_padding hr).1]
    rfl

theorem trailing_padded {l s r : List α} (hl : ∀ a ∈ l, p a = true) (hr : ∀ a ∈ r, p a = true)
    (hs : strip p s ≠ []) : trailing p (l ++ s ++ r) = trailing p s ++ r := by
  have hne : ¬ (s.dropWhile p).isEmpty = true := by
    intro h
    rw [strip, List.isEmpty_iff.mp h] at hs
    exact hs rfl
  rw [trailing, List.append_assoc, List.dropWhile_append_of_pos hl, List.dropWhile_append,
    if_neg hne, (rdropWhile_append_padding hr).2]
  rfl

theorem strip_map {f : α → α} (hf : ∀ a, p (f a) = p a) (s : List α) :
    strip p (s.map f) = (strip p s).map f ∧ trailing p (s.map f) = (trailing p s).map f := by
  have hcomp : p ∘ f = p := funext hf
  constructor
  · rw [strip, List.dropWhile_map, hcomp, List.rdropWhile, ← List.map_reverse, List.dropWhile_map,
      hcomp, ← List.map_reverse]
    rfl
  · rw [trailing, List.dropWhile_map, hcomp, List.rtakeWhile, ← List.map_reverse,
      List.takeWhile_map, hcomp, ← List.map_reverse]
    rfl

theorem findIdx?_not {l t : List α} {a : α} (hl : ∀ b ∈ l, p b = true) (ha : p a = false) :
    (l ++ a :: t).findIdx? (fun b => !p b) = some l.length := by
  induction l with
  | nil => simp [List.findIdx?_cons, ha]
  | cons b l ih =>
    obtain ⟨hb, hl⟩ := List.forall_mem_cons.mp hl
    rw [List.cons_append, List.findIdx?_cons, hb, ih hl]
    rfl

end HttpReactor.ListStrip
