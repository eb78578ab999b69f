import Mathlib.Order.WellFounded
import Mathlib.Tactic.Common

/-!
# Runs of fallible machines and their refinement

A machine takes inputs one at a time, answers each with an output and may fail.
`runM_refines` lifts a simulation of single steps by a total machine to whole
runs: the fallible machine never fails and gives the same outputs.

The three equations for `Except` let `simp` run such a machine whose calls are known;
`bind_eq_ok` takes apart a run that has succeeded.

A guarded machine has steps that are not always enabled. `runGuarded_invariant` and
`runGuarded_iff_along` lift what one step preserves, or adds, to whole runs. Steps that
lower a rank bound the length of a run and, when one is always enabled, lead to rest. A
machine whose steps another one matches, or does not notice, runs as that one does, and
`Traces` says which of its steps were which. `restrict` cuts a machine down to the states that
meet a property which no step brings about.
-/

namespace HttpReactor.Refinement

section Fallible

variable {α β ε : Type}

@[simp] theorem ok_bind (a : α) (f : α → Except ε β) : (Except.ok a >>= f) = f a := rfl

@[simp] theorem error_bind (e : ε) (f : α → Except ε β) :
    (Except.error e >>= f) = Except.error e := rfl

@[simp] theorem pure_eq_ok (a : α) : (pure a : Except ε α) = .ok a := rfl

theorem bind_eq_ok {x : Except ε α} {f : α → Except ε β} {b : β} (h : (x >>= f) = .ok b) :
    ∃ a, x = .ok a ∧ f a = .ok b := by
  cases x with
  | error e => cases h
  | ok a => exact ⟨a, rfl, h⟩

end Fallible

variable {σ τ ι ο ε : Type*}

def runM (step : σ → ι → Except ε (ο × σ)) : σ → List ι → Except ε (List ο × σ)
  | s, [] => .ok ([], s)
  | s, i :: is =>
    match step s i with
    | .error e => .error e
    | .ok (o, s') =>
      match runM step s' is with
      | .error e => .error e
      | .ok (os, s'') => .ok (o :: os, s'')

def run (step : τ → ι → ο × τ) : τ → List ι → List ο × τ
  | t, [] => ([], t)
  | t, i :: is => ((step t i).1 :: (run step (step t i).2 is).1, (run step (step t i).2 is).2)

theorem runM_refines {step : σ → ι → Except ε (ο × σ)} {spec : τ → ι → ο × τ}
    {R : σ → τ → Prop}
    (hstep : ∀ s t i, R s t → ∃ s', step s i = .ok ((spec t i).1, s') ∧ R s' (spec t i).2)
    (is : List ι) {s : σ} {t : τ} (h : R s t) :
    ∃ s', runM step s is = .ok ((run spec t is).1, s') ∧ R s' (run spec t is).2 := by
  induction is generalizing s t with
  | nil => exact ⟨s, rfl, h⟩
  | cons i is ih =>
    obtain ⟨s₁, h₁, hr₁⟩ := hstep s t i h
    obtain ⟨s₂, h₂, hr₂⟩ := ih hr₁
    exact ⟨s₂, by simp only [runM, run, h₁, h₂], hr₂⟩

def runGuarded (step : σ → ι → Option σ) : σ → List ι → Option σ
  | s, [] => some s
  | s, i :: is =>
    match step s i with
    | none => none
    | some s' => runGuarded step s' is

/-- Every step of a run meets `P`, a property of the input and of the state before it. -/
def Along (step : σ → ι → Option σ) (P : σ → ι → Prop) : σ → List ι → Prop
  | _, [] => True
  | s, i :: is =>
    P s i ∧
      match step s i with
      | none => True
      | some s' => Along step P s' is

/-- Every state of a run, the first and the last included, meets `Q`. -/
def Throughout (step : σ → ι → Option σ) (Q : σ → Prop) : σ → List ι → Prop
  | s, [] => Q s
  | s, i :: is =>
    Q s ∧
      match step s i with
      | none => True
      | some s' => Throughout step Q s' is

instance decidableAlong (step : σ → ι → Option σ) (P : σ → ι → Prop)
    [∀ s i, Decidable (P s i)] : ∀ s is, Decidable (Along step P s is)
  | _, [] => inferInstanceAs (Decidable True)
  | s, i :: is =>
    have : Decidable (match step s i with
        | none => True
        | some s' => Along step P s' is) :=
      match step s i with
      | none => inferInstanceAs (Decidable True)
      | some s' => decidableAlong step P s' is
    inferInstanceAs (Decidable (_ ∧ _))

theorem Along.mono {step : σ → ι → Option σ} {P Q : σ → ι → Prop} (hPQ : ∀ s i, P s i → Q s i)
    {is : List ι} {s : σ} (h : Along step P s is) : Along step Q s is := by
  induction is generalizing s with
  | nil => trivial
  | cons i is ih =>
    obtain ⟨hi, hrest⟩ := h
    refine ⟨hPQ s i hi, ?_⟩
    cases hs : step s i with
    | none => trivial
    | some s' =>
      rw [hs] at hrest
      exact ih hrest

theorem Along.and_of_mem {step : σ → ι → Option σ} {P : σ → ι → Prop} {Q : ι → Prop} {is : List ι}
    {s : σ} (h : Along step P s is) (hQ : ∀ i ∈ is, Q i) :
    Along step (fun s i => P s i ∧ Q i) s is := by
  induction is generalizing s with
  | nil => trivial
  | cons i is ih =>
    obtain ⟨hi, hrest⟩ := h
    refine ⟨⟨hi, hQ i List.mem_cons_self⟩, ?_⟩
    cases hs : step s i with
    | none => trivial
    | some s' =>
      rw [hs] at hrest
      exact ih hrest fun j hj => hQ j (List.mem_cons_of_mem i hj)

theorem along_of_invariant {step : σ → ι → Option σ} {Inv : σ → Prop} {P : σ → ι → Prop}
    {is : List ι} (hP : ∀ s i, Inv s → P s i)
    (hstep : ∀ s, ∀ i ∈ is, ∀ s', Inv s → step s i = some s' → Inv s') {s : σ} (hs : Inv s) :
    Along step P s is := by
  induction is generalizing s with
  | nil => trivial
  | cons i is ih =>
    refine ⟨hP s i hs, ?_⟩
    cases hi : step s i with
    | none => trivial
    | some s' =>
      exact ih (fun s j hj => hstep s j (List.mem_cons_of_mem _ hj))
        (hstep s i List.mem_cons_self s' hs hi)

theorem runGuarded_cons_eq_some {step : σ → ι → Option σ} {s s' : σ} {i : ι} {is : List ι}
    (h : runGuarded step s (i :: is) = some s') :
    ∃ s₁, step s i = some s₁ ∧ runGuarded step s₁ is = some s' := by
  rw [runGuarded] at h
  split at h
  · cases h
  · next s₁ h₁ => exact ⟨s₁, h₁, h⟩

theorem runGuarded_append {step : σ → ι → Option σ} {is js : List ι} {s s₁ s₂ : σ}
    (h₁ : runGuarded step s is = some s₁) (h₂ : runGuarded step s₁ js = some s₂) :
    runGuarded step s (is ++ js) = some s₂ := by
  induction is generalizing s with
  | nil =>
    cases h₁
    exact h₂
  | cons i is ih =>
    obtain ⟨s', hs', hrest⟩ := runGuarded_cons_eq_some h₁
    simp only [List.cons_append, runGuarded, hs']
    exact ih hrest

theorem runGuarded_invariant {step : σ → ι → Option σ} {Inv : σ → Prop} {is : List ι}
    (hstep : ∀ s, ∀ i ∈ is, ∀ s', Inv s → step s i = some s' → Inv s') {s s' : σ}
    (hs : Inv s) (h : runGuarded step s is = some s') : Inv s' := by
  induction is generalizing s with
  | nil =>
    cases h
    exact hs
  | cons i is ih =>
    obtain ⟨s₁, h₁, hrest⟩ := runGuarded_cons_eq_some h
    have hi := hstep s i List.mem_cons_self s₁ hs h₁
    exact ih (fun s j hj => hstep s j (List.mem_cons_of_mem _ hj)) hi hrest

theorem runGuarded_invariant_of_along {step : σ → ι → Option σ} {Inv : σ → Prop}
    {P : σ → ι → Prop} (hstep : ∀ s i s', Inv s → P s i → step s i = some s' → Inv s')
    {is : List ι} {s s' : σ} (hs : Inv s) (halong : Along step P s is)
    (h : runGuarded step s is = some s') : Inv s' := by
  induction is generalizing s with
  | nil =>
    cases h
    exact hs
  | cons i is ih =>
    obtain ⟨s₁, h₁, hrest⟩ := runGuarded_cons_eq_some h
    simp only [Along, h₁] at halong
    exact ih (hstep s i s₁ hs halong.1 h₁) halong.2 hrest

open Classical in
noncomputable def restrict (Q : σ → Prop) (step : σ → ι → Option σ) (s : σ) (i : ι) : Option σ :=
  (step s i).filter Q

theorem restrict_eq_some_iff {step : σ → ι → Option σ} {Q : σ → Prop} {s s' : σ} {i : ι} :
    restrict Q step s i = some s' ↔ step s i = some s' ∧ Q s' := by
  simp [restrict, Option.filter_eq_some_iff]

theorem runGuarded_restrict {step : σ → ι → Option σ} {Q : σ → Prop}
    (hback : ∀ s i s', step s i = some s' → Q s' → Q s) {is : List ι} {s s' : σ}
    (h : runGuarded step s is = some s') (hQ : Q s') :
    Q s ∧ runGuarded (restrict Q step) s is = some s' := by
  induction is generalizing s with
  | nil =>
    cases h
    exact ⟨hQ, rfl⟩
  | cons i is ih =>
    obtain ⟨s₁, h₁, hrest⟩ := runGuarded_cons_eq_some h
    obtain ⟨hQ₁, hrun⟩ := ih hrest
    refine ⟨hback s i s₁ h₁ hQ₁, ?_⟩
    rw [runGuarded, restrict_eq_some_iff.mpr ⟨h₁, hQ₁⟩]
    exact hrun

theorem runGuarded_invariant_of_final {step : σ → ι → Option σ} {Inv Q : σ → Prop} {is : List ι}
    (hback : ∀ s i s', step s i = some s' → Q s' → Q s)
    (hstep : ∀ s, ∀ i ∈ is, ∀ s', Inv s → Q s' → step s i = some s' → Inv s') {s s' : σ}
    (hs : Inv s) (h : runGuarded step s is = some s') (hQ : Q s') : Inv s' := by
  refine runGuarded_invariant (fun t i hi t' ht hr => ?_) hs (runGuarded_restrict hback h hQ).2
  obtain ⟨hstep', hQ'⟩ := restrict_eq_some_iff.mp hr
  exact hstep t i hi t' ht hQ' hstep'

theorem throughout_iff_along {step : σ → ι → Option σ} {Inv Q : σ → Prop} {P : σ → ι → Prop}
    (hQ : ∀ s, Inv s → Q s) (hkeep : ∀ s i s', Inv s → P s i → step s i = some s' → Inv s')
    (hleave : ∀ s i s', Inv s → ¬ P s i → step s i = some s' → ¬ Q s') {is : List ι}
    {s s' : σ} (hs : Inv s) (h : runGuarded step s is = some s') :
    Throughout step Q s is ↔ Along step P s is := by
  induction is generalizing s with
  | nil => simp [Throughout, Along, hQ s hs]
  | cons i is ih =>
    obtain ⟨s₁, h₁, hrest⟩ := runGuarded_cons_eq_some h
    simp only [Throughout, Along, h₁, hQ s hs, true_and]
    by_cases hP : P s i
    · rw [ih (hkeep s i s₁ hs hP h₁) hrest]
      simp [hP]
    · have hout : ¬ Throughout step Q s₁ is := by
        intro hall
        apply hleave s i s₁ hs hP h₁
        cases is with
        | nil => exact hall
        | cons j is => exact hall.1
      simp [hP, hout]

theorem runGuarded_iff_along {step : σ → ι → Option σ} {Inv G : σ → Prop} {P : σ → ι → Prop}
    (hinv : ∀ s i s', Inv s → step s i = some s' → Inv s')
    (hstep : ∀ s i s', Inv s → step s i = some s' → (G s' ↔ G s ∧ P s i)) {is : List ι}
    {s s' : σ} (hs : Inv s) (h : runGuarded step s is = some s') :
    G s' ↔ G s ∧ Along step P s is := by
  induction is generalizing s with
  | nil =>
    cases h
    simp [Along]
  | cons i is ih =>
    obtain ⟨s₁, h₁, hrest⟩ := runGuarded_cons_eq_some h
    simp only [Along, h₁]
    rw [ih (hinv s i s₁ hs h₁) hrest, hstep s i s₁ hs h₁, and_assoc]

section Ranked

variable {step : σ → ι → Option σ} {Inv Rest : σ → Prop} {P : σ → ι → Prop} {rank : σ → ℕ}

theorem length_add_rank_le
    (hstep : ∀ s i s', Inv s → P s i → step s i = some s' → Inv s' ∧ rank s' < rank s)
    {is : List ι} {s s' : σ} (hs : Inv s) (hp : Along step P s is)
    (h : runGuarded step s is = some s') : is.length + rank s' ≤ rank s := by
  induction is generalizing s with
  | nil =>
    cases h
    exact Nat.le_of_eq (Nat.zero_add _)
  | cons i is ih =>
    obtain ⟨s₁, h₁, hrest⟩ := runGuarded_cons_eq_some h
    obtain ⟨hi, halong⟩ := hp
    rw [h₁] at halong
    obtain ⟨hinv, hlt⟩ := hstep s i s₁ hs hi h₁
    have := ih hinv halong hrest
    rw [List.length_cons]
    omega

theorem exists_run_to_rest_of_wellFounded {ρ : Type*} {r : ρ → ρ → Prop} (hwf : WellFounded r)
    {measure : σ → ρ}
    (hstep : ∀ s i s', Inv s → P s i → step s i = some s' → Inv s' ∧ r (measure s') (measure s))
    (hgo : ∀ s, Inv s → ¬ Rest s → ∃ i s', P s i ∧ step s i = some s') {s : σ} (hs : Inv s) :
    ∃ is s', Along step P s is ∧ runGuarded step s is = some s' ∧ Inv s' ∧ Rest s' := by
  induction hn : measure s using hwf.induction generalizing s with
  | _ n ih =>
    by_cases hrest : Rest s
    · exact ⟨[], s, trivial, rfl, hs, hrest⟩
    · obtain ⟨i, s₁, hi, h₁⟩ := hgo s hs hrest
      obtain ⟨hinv, hlt⟩ := hstep s i s₁ hs hi h₁
      obtain ⟨is, s', halong, hrun, hinv', hrest'⟩ := ih (measure s₁) (hn ▸ hlt) hinv rfl
      refine ⟨i :: is, s', ⟨hi, ?_⟩, ?_, hinv', hrest'⟩
      · rw [h₁]
        exact halong
      · rw [runGuarded, h₁]
        exact hrun

theorem exists_run_to_rest
    (hstep : ∀ s i s', Inv s → P s i → step s i = some s' → Inv s' ∧ rank s' < rank s)
    (hgo : ∀ s, Inv s → ¬ Rest s → ∃ i s', P s i ∧ step s i = some s') {s : σ} (hs : Inv s) :
    ∃ is s', Along step P s is ∧ runGuarded step s is = some s' ∧ Inv s' ∧ Rest s' :=
  exists_run_to_rest_of_wellFounded Nat.lt_wfRel.wf hstep hgo hs

theorem not_infinite_run {ρ : Type*} {r : ρ → ρ → Prop} (hwf : WellFounded r) {measure : σ → ρ}
    (hstep : ∀ s i s', Inv s → P s i → step s i = some s' → Inv s' ∧ r (measure s') (measure s))
    {states : ℕ → σ} {is : ℕ → ι} (hs : Inv (states 0)) :
    ¬ ∀ k, P (states k) (is k) ∧ step (states k) (is k) = some (states (k + 1)) := by
  intro hrun
  have hinv : ∀ k, Inv (states k) := by
    intro k
    induction k with
    | zero => exact hs
    | succ k ih => exact (hstep _ _ _ ih (hrun k).1 (hrun k).2).1
  have := IsWellFounded.mk hwf
  obtain ⟨k, hk⟩ := WellFounded.not_rel_apply_succ (r := r) fun k => measure (states k)
  exact hk (hstep _ _ _ (hinv k) (hrun k).1 (hrun k).2).2

end Ranked

section Simulation

variable {ι' : Type*}

/-- The steps `js` are what `R` makes of the steps `is`, some that meet `H` left out. -/
inductive Traces (H : ι → Prop) (R : ι → ι' → Prop) : List ι → List ι' → Prop
  | nil : Traces H R [] []
  | hidden {i : ι} {is : List ι} {js : List ι'} (hi : H i) (h : Traces H R is js) :
      Traces H R (i :: is) js
  | shown {i : ι} {j : ι'} {is : List ι} {js : List ι'} (hij : R i j) (h : Traces H R is js) :
      Traces H R (i :: is) (j :: js)

theorem exists_run_of_simulation {step : σ → ι → Option σ} {step' : τ → ι' → Option τ}
    {Inv : σ → Prop} {image : σ → τ} {H : ι → Prop} {R : ι → ι' → Prop}
    (hsim : ∀ s i s', Inv s → step s i = some s' → Inv s' ∧
      (H i ∧ image s' = image s ∨ ∃ j, R i j ∧ step' (image s) j = some (image s')))
    {is : List ι} {s s' : σ} (hs : Inv s) (h : runGuarded step s is = some s') :
    ∃ js, Traces H R is js ∧ runGuarded step' (image s) js = some (image s') := by
  induction is generalizing s with
  | nil =>
    cases h
    exact ⟨[], .nil, rfl⟩
  | cons i is ih =>
    obtain ⟨s₁, h₁, hrest⟩ := runGuarded_cons_eq_some h
    obtain ⟨hs₁, hstep⟩ := hsim s i s₁ hs h₁
    obtain ⟨js, htrace, hjs⟩ := ih hs₁ hrest
    rcases hstep with ⟨hi, heq⟩ | ⟨j, hij, hj⟩
    · exact ⟨js, .hidden hi htrace, heq ▸ hjs⟩
    · exact ⟨j :: js, .shown hij htrace, by rw [runGuarded, hj]; exact hjs⟩

end Simulation

end HttpReactor.Refinement
