import Mathlib.Tactic.Common

/-!
# Messages read off a stream

A reader takes one message off the front of a list, or waits for more of it. It knows which
question the message answers. If what follows a message does not change how it is read, the
answers to a list of questions are read back, and a part of the stream gives the first of them.
-/

namespace HttpReactor.StreamReading

variable {α β γ : Type*}

def readAll (read : β → List α → Option (γ × List α)) : List β → List α → List γ × List α
  | [], s => ([], s)
  | b :: bs, s =>
    match read b s with
    | none => ([], s)
    | some (g, r) => (g :: (readAll read bs r).1, (readAll read bs r).2)

/-- What follows a message does not change how it is read. -/
def Stable (read : β → List α → Option (γ × List α)) : Prop :=
  ∀ b s g r, read b s = some (g, r) → ∀ x, read b (s ++ x) = some (g, r ++ x)

variable {read : β → List α → Option (γ × List α)}

theorem readAll_prefix (h : Stable read) (bs : List β) {s s' : List α} (hs : s <+: s') :
    (readAll read bs s).1 <+: (readAll read bs s').1 := by
  induction bs generalizing s s' with
  | nil => exact List.prefix_rfl
  | cons b bs ih =>
    obtain ⟨x, rfl⟩ := hs
    cases hr : read b s with
    | none =>
      simp only [readAll, hr]
      exact List.nil_prefix
    | some q =>
      obtain ⟨g, r⟩ := q
      simp only [readAll, hr, h b s g r hr x]
      exact List.cons_prefix_cons.mpr ⟨rfl, ih (List.prefix_append _ _)⟩

theorem readAll_answers {answer : β → List α} {message : β → γ} {bs : List β}
    (h : ∀ b ∈ bs, read b (answer b) = some (message b, [])) (hstable : Stable read)
    (hwait : ∀ b, read b [] = none) (more : List β) :
    readAll read (bs ++ more) (bs.map answer).flatten = (bs.map message, []) := by
  induction bs with
  | nil =>
    cases more with
    | nil => rfl
    | cons b more => simp [readAll, hwait]
  | cons b bs ih =>
    obtain ⟨hb, hbs⟩ := List.forall_mem_cons.mp h
    have hrest := hstable b _ _ _ hb (bs.map answer).flatten
    simp only [List.cons_append, List.map_cons, List.flatten_cons, readAll, hrest,
      List.nil_append, ih hbs]

end HttpReactor.StreamReading
