import Mathlib.Data.List.Pairwise
import Mathlib.Tactic.Common

/-!
# Logs of accesses

Some events of a log access a key at a time. A list of stamps is in order when each stamp is the
last access of its key and the last accesses come in the order of the list. Leaving stamps out
keeps a list in order (`InOrder.sublist`), and so does the next access when its stamp goes to the
end (`InOrder.touch`).
-/

namespace HttpReactor.AccessLog

variable {ε κ τ : Type*} (access : ε → Option (κ × τ))

/-- Event `i` accesses the key of the stamp at its time, and no later one accesses that key. -/
structure LastAccess (log : List ε) (s : κ × τ) (i : ℕ) : Prop where
  accessed : (log[i]?).bind access = some s
  later : ∀ j t, i < j → (log[j]?).bind access ≠ some (s.1, t)

structure InOrder (log : List ε) (stamps : List (κ × τ)) : Prop where
  accessed : ∀ s ∈ stamps, ∃ i, LastAccess access log s i
  order : stamps.Pairwise fun s s' =>
    ∀ i j, LastAccess access log s i → LastAccess access log s' j → i < j

def Clock [LE τ] (log : List ε) : Prop :=
  (log.filterMap access).Pairwise fun s s' => s.2 ≤ s'.2

variable {access} {log : List ε} {stamps : List (κ × τ)} {e : ε} {s : κ × τ}

theorem LastAccess.lt_length {i : ℕ} (h : LastAccess access log s i) : i < log.length := by
  by_contra hle
  have hnone := h.accessed
  rw [List.getElem?_eq_none (by omega)] at hnone
  cases hnone

theorem LastAccess.unique {i j : ℕ} (hi : LastAccess access log s i)
    (hj : LastAccess access log s j) : i = j := by
  rcases Nat.lt_trichotomy i j with hlt | heq | hgt
  · exact absurd hj.accessed (hi.later j s.2 hlt)
  · exact heq
  · exact absurd hi.accessed (hj.later i s.2 hgt)

theorem bind_getElem?_concat (log : List ε) (e : ε) (j : ℕ) :
    ((log ++ [e])[j]?).bind access =
      if j = log.length then access e else (log[j]?).bind access := by
  rcases Nat.lt_trichotomy j log.length with hlt | heq | hgt
  · rw [List.getElem?_append_left hlt, if_neg (by omega)]
  · rw [List.getElem?_append_right (by omega), if_pos heq, heq]
    simp
  · rw [List.getElem?_eq_none (by simp; omega), List.getElem?_eq_none (by omega),
      if_neg (by omega)]

theorem lastAccess_concat_iff (he : ∀ t, access e ≠ some (s.1, t)) {i : ℕ} :
    LastAccess access (log ++ [e]) s i ↔ LastAccess access log s i := by
  constructor
  · intro h
    have hi := h.accessed
    rw [bind_getElem?_concat] at hi
    split_ifs at hi with hend
    · exact absurd hi (he s.2)
    · refine ⟨hi, fun j t hj hget => ?_⟩
      have hlater := h.later j t hj
      rw [bind_getElem?_concat] at hlater
      split_ifs at hlater with hlast
      · rw [List.getElem?_eq_none (by omega)] at hget
        cases hget
      · exact hlater hget
  · intro h
    refine ⟨?_, fun j t hj => ?_⟩
    · rw [bind_getElem?_concat, if_neg (by have := h.lt_length; omega)]
      exact h.accessed
    · rw [bind_getElem?_concat]
      split_ifs
      · exact he t
      · exact h.later j t hj

theorem lastAccess_concat_self (he : access e = some s) :
    LastAccess access (log ++ [e]) s log.length := by
  refine ⟨by rw [bind_getElem?_concat, if_pos rfl, he], fun j t hj => ?_⟩
  rw [List.getElem?_eq_none (by simp; omega)]
  simp

theorem InOrder.nil : InOrder access log [] where
  accessed := fun _ hs => absurd hs List.not_mem_nil
  order := .nil

theorem InOrder.sublist {kept : List (κ × τ)} (h : InOrder access log stamps)
    (hkept : kept.Sublist stamps) : InOrder access log kept :=
  ⟨fun s hs => h.accessed s (hkept.subset hs), h.order.sublist hkept⟩

theorem InOrder.keep (h : InOrder access log stamps)
    (he : ∀ s ∈ stamps, ∀ t, access e ≠ some (s.1, t)) : InOrder access (log ++ [e]) stamps := by
  refine ⟨fun s hs => ?_, h.order.imp_of_mem fun hs hs' hlt i j hi hj => ?_⟩
  · obtain ⟨i, hi⟩ := h.accessed s hs
    exact ⟨i, (lastAccess_concat_iff (he s hs)).mpr hi⟩
  · exact hlt i j ((lastAccess_concat_iff (he _ hs)).mp hi)
      ((lastAccess_concat_iff (he _ hs')).mp hj)

theorem InOrder.touch (h : InOrder access log stamps) (he : access e = some s)
    (hkeys : ∀ s' ∈ stamps, s'.1 ≠ s.1) : InOrder access (log ++ [e]) (stamps ++ [s]) := by
  have hother : ∀ s' ∈ stamps, ∀ t, access e ≠ some (s'.1, t) := by
    intro s' hs' t heq
    rw [he, Option.some_inj] at heq
    exact hkeys s' hs' (congrArg Prod.fst heq).symm
  have hkeep := h.keep hother
  refine ⟨fun s' hs' => ?_, List.pairwise_append.mpr ⟨hkeep.order, List.pairwise_singleton _ _, ?_⟩⟩
  · rcases List.mem_append.mp hs' with hs' | hs'
    · exact hkeep.accessed s' hs'
    · rw [List.mem_singleton.mp hs']
      exact ⟨_, lastAccess_concat_self he⟩
  · intro s' hs' s'' hs'' i j hi hj
    rw [List.mem_singleton] at hs''
    subst hs''
    rw [hj.unique (lastAccess_concat_self he)]
    exact ((lastAccess_concat_iff (hother s' hs')).mp hi).lt_length

theorem Clock.le [LE τ] (hclock : Clock access log) {i j : ℕ} {s s' : κ × τ}
    (hi : (log[i]?).bind access = some s) (hj : (log[j]?).bind access = some s') (hlt : i < j) :
    s.2 ≤ s'.2 := by
  obtain ⟨e, he, hs⟩ := Option.bind_eq_some_iff.mp hi
  obtain ⟨e', he', hs'⟩ := Option.bind_eq_some_iff.mp hj
  obtain ⟨hilen, rfl⟩ := List.getElem?_eq_some_iff.mp he
  obtain ⟨hjlen, rfl⟩ := List.getElem?_eq_some_iff.mp he'
  have hpair := List.pairwise_filterMap.mp hclock
  exact List.pairwise_iff_getElem.mp hpair i j hilen hjlen hlt _ hs _ hs'

end HttpReactor.AccessLog
