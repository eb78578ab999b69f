import HttpReactor.Refinement
import Mathlib.Logic.Equiv.Basic
import Mathlib.Data.List.Nodup

/-!
# Handles owned by objects

Each live object holds a handle, or `null`. A handle is opened when an object is built on
it and closed at most once; a `close` of a handle that is not open is `stray`. A number
that was closed may be opened again. `Owned` is the discipline under which the handles are
`Safe`; it is kept by building, by renaming the objects and by destroying them.
-/

namespace HttpReactor.Ownership

variable {ι η : Type*} [DecidableEq ι] [DecidableEq η]

structure Handles (ι η : Type*) where
  objects : ι → Option η
  opened : List η
  stray : Bool

namespace Handles

def empty : Handles ι η := ⟨fun _ => none, [], false⟩

def close (h : Handles ι η) (fd : η) : Handles ι η :=
  if fd ∈ h.opened then { h with opened := h.opened.erase fd } else { h with stray := true }

def build (h : Handles ι η) (x : ι) (fd : η) : Handles ι η :=
  { h with objects := Function.update h.objects x (some fd), opened := fd :: h.opened }

def closeOwn (null : η) (h : Handles ι η) (x : ι) : Handles ι η :=
  match h.objects x with
  | none => h
  | some fd => if fd = null then h else h.close fd

def destroy (null : η) (h : Handles ι η) (x : ι) : Handles ι η :=
  { h.closeOwn null x with objects := Function.update h.objects x none }

/-- No handle was closed twice, an object holds only an open handle, no two the same one, and
without objects there is no open handle. -/
structure Safe (null : η) (h : Handles ι η) : Prop where
  noStray : h.stray = false
  holdsOpen : ∀ x fd, h.objects x = some fd → fd ≠ null → fd ∈ h.opened
  oneOwner : ∀ x y fd, h.objects x = some fd → h.objects y = some fd → fd ≠ null → x = y
  noneLeft : (∀ x, h.objects x = none) → h.opened = []

structure Owned (null : η) (h : Handles ι η) : Prop where
  noStray : h.stray = false
  holdsOpen : ∀ x fd, h.objects x = some fd → fd ≠ null → fd ∈ h.opened
  oneOwner : ∀ x y fd, h.objects x = some fd → h.objects y = some fd → fd ≠ null → x = y
  held : ∀ fd ∈ h.opened, ∃ x, h.objects x = some fd
  nodup : h.opened.Nodup
  notNull : null ∉ h.opened

variable {null : η} {h : Handles ι η} {x y : ι} {fd : η}

omit [DecidableEq ι] [DecidableEq η] in
theorem Owned.safe (ho : Owned null h) : Safe null h where
  noStray := ho.noStray
  holdsOpen := ho.holdsOpen
  oneOwner := ho.oneOwner
  noneLeft := by
    intro hnone
    apply List.eq_nil_iff_forall_not_mem.mpr
    intro fd hfd
    obtain ⟨x, hx⟩ := ho.held fd hfd
    simp [hnone x] at hx

omit [DecidableEq ι] [DecidableEq η] in
theorem Owned.empty : Owned null (empty : Handles ι η) := by
  constructor <;> simp [Handles.empty]

omit [DecidableEq ι] [DecidableEq η] in
theorem Owned.rename (ho : Owned null h) (e : ι ≃ ι) :
    Owned null { h with objects := h.objects ∘ e } where
  noStray := ho.noStray
  holdsOpen := fun x fd hx => ho.holdsOpen (e x) fd hx
  oneOwner := fun x y fd hx hy hfd => e.injective (ho.oneOwner (e x) (e y) fd hx hy hfd)
  held := by
    intro fd hfd
    obtain ⟨x, hx⟩ := ho.held fd hfd
    exact ⟨e.symm x, by simpa using hx⟩
  nodup := ho.nodup
  notNull := ho.notNull

omit [DecidableEq η] in
theorem Owned.setNull (ho : Owned null h) {o : Option η}
    (hx : ∀ fd, h.objects x = some fd → fd = null) (hnew : ∀ fd, o = some fd → fd = null) :
    Owned null { h with objects := Function.update h.objects x o } where
  noStray := ho.noStray
  holdsOpen := by
    intro y fd hy hfd
    by_cases hyx : y = x
    · subst hyx
      exact absurd (hnew fd (by simpa using hy)) hfd
    · exact ho.holdsOpen y fd (by simpa [hyx] using hy) hfd
  oneOwner := by
    intro y z fd hy hz hfd
    have hne : ∀ u, Function.update h.objects x o u = some fd → u ≠ x := by
      intro u hu heq
      subst heq
      exact hfd (hnew fd (by simpa using hu))
    have hyx := hne y hy
    have hzx := hne z hz
    exact ho.oneOwner y z fd (by simpa [hyx] using hy) (by simpa [hzx] using hz) hfd
  held := by
    intro fd hfd
    obtain ⟨y, hy⟩ := ho.held fd hfd
    have hyx : y ≠ x := by
      intro heq
      subst heq
      exact ho.notNull (hx fd hy ▸ hfd)
    exact ⟨y, by simpa [hyx] using hy⟩
  nodup := ho.nodup
  notNull := ho.notNull

omit [DecidableEq η] in
theorem Owned.build (ho : Owned null h) (hx : h.objects x = none) (hfresh : fd ∉ h.opened)
    (hfd : fd ≠ null) : Owned null (h.build x fd) where
  noStray := ho.noStray
  holdsOpen := by
    intro y fd' hy hne
    by_cases hyx : y = x
    · subst hyx
      simp only [Handles.build, Function.update_self, Option.some.injEq] at hy
      simp [Handles.build, hy]
    · have hy' := ho.holdsOpen y fd' (by simpa [Handles.build, hyx] using hy) hne
      exact List.mem_cons_of_mem _ hy'
  oneOwner := by
    have hother : ∀ y, y ≠ x → h.objects y = some fd → False := by
      intro y hyx hy
      exact hfresh (ho.holdsOpen y fd hy hfd)
    intro y z fd' hy hz hne
    have honce := ho.oneOwner y z fd'
    simp only [Handles.build, Function.update_apply] at hy hz
    grind
  held := by
    intro fd' hfd'
    rcases List.mem_cons.mp hfd' with heq | hmem
    · exact ⟨x, by simp [Handles.build, heq]⟩
    · obtain ⟨y, hy⟩ := ho.held fd' hmem
      have hyx : y ≠ x := by
        intro heq
        rw [heq, hx] at hy
        cases hy
      exact ⟨y, by simpa [Handles.build, hyx] using hy⟩
  nodup := List.nodup_cons.mpr ⟨hfresh, ho.nodup⟩
  notNull := by
    intro hmem
    rcases List.mem_cons.mp hmem with heq | hmem
    · exact hfd heq.symm
    · exact ho.notNull hmem

theorem Owned.destroy (ho : Owned null h) (hx : h.objects x = some fd) :
    Owned null (h.destroy null x) := by
  by_cases hfd : fd = null
  · have hown : h.closeOwn null x = h := by simp [closeOwn, hx, hfd]
    rw [Handles.destroy, hown]
    exact ho.setNull (by simp [hx, hfd]) (by simp)
  · have hopen := ho.holdsOpen x fd hx hfd
    have hown : h.closeOwn null x = { h with opened := h.opened.erase fd } := by
      simp [closeOwn, hx, hfd, Handles.close, hopen]
    rw [Handles.destroy, hown]
    have hother : ∀ y fd', Function.update h.objects x none y = some fd' →
        y ≠ x ∧ h.objects y = some fd' := by
      intro y fd' hy
      by_cases hyx : y = x
      · subst hyx
        simp at hy
      · exact ⟨hyx, by simpa [hyx] using hy⟩
    refine ⟨ho.noStray, ?_, ?_, ?_, ho.nodup.erase fd, ?_⟩
    · intro y fd' hy hne
      obtain ⟨hyx, hyfd⟩ := hother y fd' hy
      have hfd' : fd' ≠ fd := by
        intro heq
        subst heq
        exact hyx (ho.oneOwner y x fd' hyfd hx hne)
      exact (List.mem_erase_of_ne hfd').mpr (ho.holdsOpen y fd' hyfd hne)
    · intro y z fd' hy hz hne
      exact ho.oneOwner y z fd' (hother y fd' hy).2 (hother z fd' hz).2 hne
    · intro fd' hmem
      obtain ⟨hne, hmem⟩ := (ho.nodup.mem_erase_iff).mp hmem
      obtain ⟨y, hy⟩ := ho.held fd' hmem
      have hyx : y ≠ x := by
        intro heq
        rw [heq, hx] at hy
        exact hne (Option.some.inj hy).symm
      exact ⟨y, by simpa [hyx] using hy⟩
    · intro hmem
      exact ho.notNull (List.mem_of_mem_erase hmem)

end Handles
end HttpReactor.Ownership
