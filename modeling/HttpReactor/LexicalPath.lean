import Mathlib.Data.List.Infix
import Mathlib.Tactic.Common

/-!
# Lexical resolution of paths

A path is a list over some alphabet with a separator and a dot. Resolving it walks over
its components with a stack of names: an empty component and a single dot do nothing,
two dots drop the last name (and stay at the root), any other component is a name.

A list of components can be reduced on its own, to a number of climbs and the names
that follow; resolving it from any stack is then one cut and one append
(`resolveFrom_eq`).
-/

namespace HttpReactor.LexicalPath

variable {α : Type*}

theorem dropLast_take_length_sub (stack : List (List α)) (n : ℕ) :
    (stack.take (stack.length - n)).dropLast = stack.take (stack.length - (n + 1)) := by
  rw [List.dropLast_eq_take, List.take_take, List.length_take]
  congr 1
  omega

theorem exists_last_sep {sep : α} {path : List α} (h : sep ∈ path) :
    ∃ a b, path = a ++ sep :: b ∧ sep ∉ b := by
  obtain ⟨b, a, he, hb⟩ := List.eq_append_cons_of_mem (List.mem_reverse.mpr h)
  refine ⟨a.reverse, b.reverse, ?_, by simpa using hb⟩
  have hr := congrArg List.reverse he
  simpa using hr

variable [DecidableEq α] (sep dot : α)

def components (path : List α) : List (List α) := path.splitOn sep

def climb (stack : List (List α)) (c : List α) : List (List α) :=
  if c = [] ∨ c = [dot] then stack
  else if c = [dot, dot] then stack.dropLast
  else stack ++ [c]

def resolveFrom (stack cs : List (List α)) : List (List α) := cs.foldl (climb dot) stack

def resolve (path : List α) : List (List α) := resolveFrom dot [] (components sep path)

def reduceStep (r : ℕ × List (List α)) (c : List α) : ℕ × List (List α) :=
  if c = [] ∨ c = [dot] then r
  else if c = [dot, dot] then
    if r.2 = [] then (r.1 + 1, []) else (r.1, r.2.dropLast)
  else (r.1, r.2 ++ [c])

/-- The climbs above the start and the names below it that components amount to. -/
def reduce (cs : List (List α)) : ℕ × List (List α) := cs.foldl (reduceStep dot) (0, [])

theorem resolveFrom_eq (stack cs : List (List α)) :
    resolveFrom dot stack cs =
      stack.take (stack.length - (reduce dot cs).1) ++ (reduce dot cs).2 := by
  induction cs using List.reverseRecOn with
  | nil => simp [resolveFrom, reduce]
  | append_singleton cs c ih =>
    rw [resolveFrom] at ih
    rw [resolveFrom, reduce, List.foldl_append, List.foldl_append, List.foldl_cons,
      List.foldl_nil, List.foldl_cons, List.foldl_nil, ih, climb, reduceStep, ← reduce]
    split_ifs with h₁ h₂ h₃
    · rfl
    · rw [h₃, List.append_nil, List.append_nil, dropLast_take_length_sub]
    · rw [List.dropLast_append_of_ne_nil h₃]
    · rw [List.append_assoc]

def Plain (cs : List (List α)) : Prop := ∀ c ∈ cs, c ≠ [dot] ∧ c ≠ [dot, dot]

instance (cs : List (List α)) : Decidable (Plain dot cs) :=
  inferInstanceAs (Decidable (∀ c ∈ cs, _))

def names (cs : List (List α)) : List (List α) := cs.filter (· ≠ [])

theorem resolveFrom_plain {cs : List (List α)} (h : Plain dot cs) (stack : List (List α)) :
    resolveFrom dot stack cs = stack ++ names cs := by
  induction cs generalizing stack with
  | nil => simp [resolveFrom, names]
  | cons c cs ih =>
    obtain ⟨hc, hcs⟩ := List.forall_mem_cons.mp h
    have ht := ih hcs
    simp only [resolveFrom] at ht
    rw [resolveFrom, List.foldl_cons, climb]
    by_cases he : c = []
    · simp [he, ht, names]
    · simp [he, hc.1, hc.2, ht, names]

theorem resolveFrom_append (stack cs ds : List (List α)) :
    resolveFrom dot stack (cs ++ ds) = resolveFrom dot (resolveFrom dot stack cs) ds := by
  simp [resolveFrom]

theorem length_climb_le (stack : List (List α)) (c : List α) :
    (climb dot stack c).length ≤ stack.length + 1 := by
  unfold climb
  split_ifs
  · omega
  · rw [List.length_dropLast]
    omega
  · simp

theorem components_append_sep (a b : List α) :
    components sep (a ++ sep :: b) = components sep a ++ components sep b :=
  List.splitOn_append_cons_self a b

theorem components_of_notMem {a : List α} (h : sep ∉ a) : components sep a = [a] :=
  List.splitOn_eq_singleton h

theorem exists_mem_components {x : α} {path : List α} (h : x ∈ path) (hx : x ≠ sep) :
    ∃ c ∈ components sep path, x ∈ c := by
  induction path with
  | nil => cases h
  | cons y path ih =>
    obtain ⟨c₀, cs, hcs⟩ := List.exists_cons_of_ne_nil (List.splitOn_ne_nil sep path)
    rw [components, List.splitOn_cons_eq_if_modifyHead, hcs]
    rw [components, hcs] at ih
    rcases List.mem_cons.mp h with rfl | h
    · rw [if_neg (by simpa using hx)]
      exact ⟨x :: c₀, List.mem_cons_self, List.mem_cons_self⟩
    · obtain ⟨c, hc, hxc⟩ := ih h
      split_ifs
      · exact ⟨c, List.mem_cons_of_mem _ hc, hxc⟩
      · rcases List.mem_cons.mp hc with rfl | hc
        · exact ⟨y :: c, List.mem_cons_self, List.mem_cons_of_mem _ hxc⟩
        · exact ⟨c, List.mem_cons_of_mem _ hc, hxc⟩

theorem names_components_ne_nil {x : α} {path : List α} (h : x ∈ path) (hx : x ≠ sep) :
    names (components sep path) ≠ [] := by
  obtain ⟨c, hc, hxc⟩ := exists_mem_components sep h hx
  exact List.ne_nil_of_mem (List.mem_filter.mpr ⟨hc, by simpa using List.ne_nil_of_mem hxc⟩)

end HttpReactor.LexicalPath
