import HttpReactor.CGISharing
import Mathlib.Data.Fintype.Basic

/-!
# Outputs of CGI programs stay apart

As long as every file is new or empty when a run opens it, and no child that its run has
given up on writes to a file that a later run of the same thread collects from, a run that
succeeds returns what its own child wrote. A step that breaks this can be continued to a run
that returns something else.
-/

namespace HttpReactor
open Refinement

def RunPhase.Collecting : RunPhase → Prop
  | .opened _ | .forked _ | .harvested _ => True
  | .idle | .sized _ _ | .loaded _ _ => False

instance : DecidablePred RunPhase.Collecting
  | .opened _ | .forked _ | .harvested _ => isTrue trivial
  | .idle | .sized _ _ | .loaded _ _ => isFalse id

namespace CGIState

variable {κ : Type}

/-- A run opens its file only when that is new or empty, and a child whose own run no longer
waits for it writes to no file that another run is collecting from. -/
def Separate (s : CGIState κ) : CGIAction κ → Prop
  | .openShared k ok => ok = true →
      match s.files k with
      | some inode => s.content inode = []
      | none => True
  | .write id bytes => bytes = [] ∨ (∃ k, s.runs k = .forked id) ∨
      match s.children id with
      | some child => ∀ k, s.files k = some child.inode → ¬ (s.runs k).Collecting
      | none => True
  | _ => True

instance [Fintype κ] (s : CGIState κ) : DecidablePred s.Separate
  | .openShared k ok =>
    have : Decidable (match s.files k with
        | some inode => s.content inode = []
        | none => True) :=
      match s.files k with
      | some inode => inferInstanceAs (Decidable (s.content inode = []))
      | none => isTrue trivial
    inferInstanceAs (Decidable (ok = true → _))
  | .write id bytes =>
    have : Decidable (match s.children id with
        | some child => ∀ k, s.files k = some child.inode → ¬ (s.runs k).Collecting
        | none => True) :=
      match s.children id with
      | some child =>
        inferInstanceAs (Decidable
          (∀ k, s.files k = some child.inode → ¬ (s.runs k).Collecting))
      | none => isTrue trivial
    inferInstanceAs (Decidable (bytes = [] ∨ (∃ k, s.runs k = .forked id) ∨ _))
  | .fork _ _ | .exit _ | .waitpid _ _ | .checkFileSize _ | .read _ | .deleteFile _ =>
    isTrue trivial

def Owns (s : CGIState κ) (k : κ) (id : ℕ) (child : Child) : Prop :=
  s.children id = some child ∧ s.files k = some child.inode

def RunOk (s : CGIState κ) (k : κ) : RunPhase → Prop
  | .idle => True
  | .opened inode => s.files k = some inode ∧ s.content inode = []
  | .forked id => ∃ child, s.Owns k id child ∧ s.content child.inode = child.wrote
  | .harvested id => ∃ child, s.Owns k id child ∧ child.running = false ∧
      s.content child.inode = child.wrote
  | .sized id size => ∃ child, s.Owns k id child ∧ child.running = false ∧
      size = child.wrote.length ∧ child.wrote <+: s.content child.inode
  | .loaded id cgiResult => ∃ child, s.Owns k id child ∧ child.running = false ∧
      cgiResult = child.wrote

structure Separated (s : CGIState κ) : Prop where
  owner : ∀ k j inode, s.files k = some inode → s.files j = some inode → k = j
  file_lt : ∀ k inode, s.files k = some inode → inode < s.freshInode
  child_lt : ∀ id child, s.children id = some child → id < s.freshRun
  runs : ∀ k, s.RunOk k (s.runs k)
  returned : ∀ r ∈ s.returned, r.cgiResult = r.wrote

theorem Separated.start : Separated (start : CGIState κ) := by
  constructor <;> simp [CGIState.start, RunOk]

variable {s s' : CGIState κ} {k : κ}

theorem RunOk.congr {phase : RunPhase} (h : s.RunOk k phase) (hfile : s'.files k = s.files k)
    (hcontent : ∀ inode, s.files k = some inode → s'.content inode = s.content inode)
    (hchild : ∀ id child, s.children id = some child → s'.children id = some child) :
    s'.RunOk k phase := by
  have howns : ∀ id child, s.Owns k id child → s'.Owns k id child ∧
      s'.content child.inode = s.content child.inode := by
    intro id child ho
    exact ⟨⟨hchild id child ho.1, hfile.trans ho.2⟩, hcontent _ ho.2⟩
  cases phase with
  | idle => trivial
  | opened inode => exact ⟨hfile.trans h.1, (hcontent inode h.1).trans h.2⟩
  | forked id =>
    obtain ⟨child, ho, hc⟩ := h
    exact ⟨child, (howns id child ho).1, (howns id child ho).2.trans hc⟩
  | harvested id =>
    obtain ⟨child, ho, hr, hc⟩ := h
    exact ⟨child, (howns id child ho).1, hr, (howns id child ho).2.trans hc⟩
  | sized id size =>
    obtain ⟨child, ho, hr, hn, hc⟩ := h
    exact ⟨child, (howns id child ho).1, hr, hn, (howns id child ho).2 ▸ hc⟩
  | loaded id cgiResult =>
    obtain ⟨child, ho, hr, hc⟩ := h
    exact ⟨child, (howns id child ho).1, hr, hc⟩

theorem Separated.forked_of_write (h : Separated s) {id : ℕ} {child : Child} {bytes : Bytes}
    (hc : s.children id = some child) (hsep : s.Separate (.write id bytes)) (hbytes : bytes ≠ [])
    (hk : s.files k = some child.inode) (hcollect : (s.runs k).Collecting) :
    s.runs k = .forked id := by
  simp only [Separate, hc] at hsep
  rcases hsep with hnil | ⟨j, hj⟩ | hfree
  · exact absurd hnil hbytes
  · have hrun := h.runs j
    rw [hj] at hrun
    obtain ⟨child', ho, -⟩ := hrun
    cases Option.some.inj (ho.1.symm.trans hc)
    rw [h.owner k j child.inode hk ho.2, hj]
  · exact absurd hcollect (hfree k hk)

theorem Separated.content_write (h : Separated s) {id : ℕ} {child : Child} {bytes : Bytes}
    (hc : s.children id = some child) (hsep : s.Separate (.write id bytes)) {inode : ℕ}
    (hk : s.files k = some inode) (hcollect : (s.runs k).Collecting)
    (hne : s.runs k ≠ .forked id) :
    (s.write id child bytes).content inode = s.content inode := by
  by_cases heq : inode = child.inode
  · have hnil : bytes = [] := by
      by_contra hbytes
      exact hne (h.forked_of_write hc hsep hbytes (heq ▸ hk) hcollect)
    simp [CGIState.write, heq, hnil]
  · simp [CGIState.write, heq]

theorem Owns.write {id id' : ℕ} {child child' : Child} {bytes : Bytes} (ho : s.Owns k id' child')
    (hc : s.children id = some child) (hr : child.running = true)
    (hdone : child'.running = false) : (s.write id child bytes).Owns k id' child' := by
  have hne : id' ≠ id := by
    intro heq
    rw [heq] at ho
    cases Option.some.inj (ho.1.symm.trans hc)
    rw [hr] at hdone
    cases hdone
  exact ⟨by simpa [CGIState.write, hne] using ho.1, ho.2⟩

theorem Separated.runOk_write (h : Separated s) {id : ℕ} {child : Child} {bytes : Bytes}
    (hc : s.children id = some child) (hr : child.running = true)
    (hsep : s.Separate (.write id bytes)) (k : κ) :
    (s.write id child bytes).RunOk k (s.runs k) := by
  have hrun := h.runs k
  have hcontent : ∀ inode, s.files k = some inode → (s.runs k).Collecting →
      s.runs k ≠ .forked id → (s.write id child bytes).content inode = s.content inode :=
    fun inode hk hcollect hne => h.content_write hc hsep hk hcollect hne
  cases hp : s.runs k with
  | idle => trivial
  | opened inode =>
    rw [hp] at hrun hcontent
    exact ⟨hrun.1, (hcontent inode hrun.1 trivial (by simp)).trans hrun.2⟩
  | forked id' =>
    rw [hp] at hrun hcontent
    obtain ⟨child', ho, hwrote⟩ := hrun
    by_cases hid : id' = id
    · subst hid
      cases Option.some.inj (ho.1.symm.trans hc)
      exact ⟨{ child with wrote := child.wrote ++ bytes }, ⟨by simp [CGIState.write], ho.2⟩,
        by simp [CGIState.write, hwrote]⟩
    · exact ⟨child', ⟨by simpa [CGIState.write, hid] using ho.1, ho.2⟩,
        (hcontent _ ho.2 trivial (by simpa using hid)).trans hwrote⟩
  | harvested id' =>
    rw [hp] at hrun hcontent
    obtain ⟨child', ho, hdone, hwrote⟩ := hrun
    exact ⟨child', ho.write hc hr hdone, hdone,
      (hcontent _ ho.2 trivial (by simp)).trans hwrote⟩
  | sized id' size =>
    rw [hp] at hrun
    obtain ⟨child', ho, hdone, hsize, hwrote⟩ := hrun
    refine ⟨child', ho.write hc hr hdone, hdone, hsize, hwrote.trans ?_⟩
    by_cases heq : child'.inode = child.inode <;> simp [CGIState.write, heq]
  | loaded id' cgiResult =>
    rw [hp] at hrun
    obtain ⟨child', ho, hdone, hresult⟩ := hrun
    exact ⟨child', ho.write hc hr hdone, hdone, hresult⟩

theorem Separated.write (h : Separated s) {id : ℕ} {child : Child} {bytes : Bytes}
    (hc : s.children id = some child) (hr : child.running = true)
    (hsep : s.Separate (.write id bytes)) : Separated (s.write id child bytes) where
  owner := h.owner
  file_lt := h.file_lt
  child_lt := by
    intro id' child' hc'
    by_cases hid : id' = id
    · subst hid
      exact h.child_lt id' child hc
    · exact h.child_lt id' child' (by simpa [CGIState.write, hid] using hc')
  runs := h.runOk_write hc hr hsep
  returned := h.returned

theorem Owns.exit {id id' : ℕ} {child child' : Child} (ho : s.Owns k id' child')
    (hc : s.children id = some child) :
    ∃ child'', (s.exit id child).Owns k id' child'' ∧ child''.inode = child'.inode ∧
      child''.wrote = child'.wrote ∧ (child'.running = false → child''.running = false) := by
  by_cases hid : id' = id
  · subst hid
    cases Option.some.inj (ho.1.symm.trans hc)
    exact ⟨{ child with running := false }, ⟨by simp [CGIState.exit], ho.2⟩, rfl, rfl,
      fun _ => rfl⟩
  · exact ⟨child', ⟨by simpa [CGIState.exit, hid] using ho.1, ho.2⟩, rfl, rfl,
      fun hdone => hdone⟩

theorem RunOk.exit {phase : RunPhase} (h : s.RunOk k phase) {id : ℕ} {child : Child}
    (hc : s.children id = some child) : (s.exit id child).RunOk k phase := by
  cases phase with
  | idle => trivial
  | opened inode => exact h
  | forked id' =>
    obtain ⟨child', ho, hwrote⟩ := h
    obtain ⟨child'', ho', hinode, hsame, -⟩ := ho.exit hc
    exact ⟨child'', ho', by rw [hinode, hsame]; exact hwrote⟩
  | harvested id' =>
    obtain ⟨child', ho, hdone, hwrote⟩ := h
    obtain ⟨child'', ho', hinode, hsame, hrun⟩ := ho.exit hc
    exact ⟨child'', ho', hrun hdone, by rw [hinode, hsame]; exact hwrote⟩
  | sized id' size =>
    obtain ⟨child', ho, hdone, hsize, hwrote⟩ := h
    obtain ⟨child'', ho', hinode, hsame, hrun⟩ := ho.exit hc
    exact ⟨child'', ho', hrun hdone, by rw [hsame]; exact hsize,
      by rw [hinode, hsame]; exact hwrote⟩
  | loaded id' cgiResult =>
    obtain ⟨child', ho, hdone, hresult⟩ := h
    obtain ⟨child'', ho', hinode, hsame, hrun⟩ := ho.exit hc
    exact ⟨child'', ho', hrun hdone, by rw [hsame]; exact hresult⟩

theorem Separated.exit (h : Separated s) {id : ℕ} {child : Child}
    (hc : s.children id = some child) : Separated (s.exit id child) where
  owner := h.owner
  file_lt := h.file_lt
  child_lt := by
    intro id' child' hc'
    by_cases hid : id' = id
    · subst hid
      exact h.child_lt id' child hc
    · exact h.child_lt id' child' (by simpa [CGIState.exit, hid] using hc')
  runs := fun k => (h.runs k).exit hc
  returned := h.returned

variable [DecidableEq κ]

theorem Separated.setRun (h : Separated s) {phase : RunPhase} (hphase : s.RunOk k phase) :
    Separated (s.setRun k phase) where
  owner := h.owner
  file_lt := h.file_lt
  child_lt := h.child_lt
  runs := by
    intro j
    have hrun : s.RunOk j (Function.update s.runs k phase j) := by
      by_cases hj : j = k
      · subst hj
        simpa using hphase
      · simpa [hj] using h.runs j
    exact hrun.congr rfl (fun _ _ => rfl) (fun _ _ hc => hc)
  returned := h.returned

theorem Separated.openShared (h : Separated s)
    (hempty : ∀ inode, s.files k = some inode → s.content inode = []) :
    Separated (s.openShared k) := by
  rw [CGIState.openShared]
  cases hk : s.files k with
  | some inode => exact h.setRun ⟨hk, hempty inode hk⟩
  | none =>
    have hne : ∀ j inode, s.files j = some inode → j ≠ k ∧ inode ≠ s.freshInode := by
      intro j inode hj
      refine ⟨?_, (h.file_lt j inode hj).ne⟩
      intro heq
      rw [heq, hk] at hj
      cases hj
    have hcases : ∀ j inode, Function.update s.files k (some s.freshInode) j = some inode →
        j = k ∧ inode = s.freshInode ∨ s.files j = some inode := by
      intro j inode hj
      by_cases heq : j = k
      · subst heq
        exact .inl ⟨rfl, by simpa using hj.symm⟩
      · exact .inr (by simpa [heq] using hj)
    refine ⟨?_, ?_, h.child_lt, ?_, h.returned⟩
    · intro a b inode ha hb
      rcases hcases a inode ha with ⟨hak, hnew⟩ | hold
      · rcases hcases b inode hb with ⟨hbk, -⟩ | hold
        · rw [hak, hbk]
        · exact absurd hnew (hne b inode hold).2
      · rcases hcases b inode hb with ⟨-, hnew⟩ | hold'
        · exact absurd hnew (hne a inode hold).2
        · exact h.owner a b inode hold hold'
    · intro j inode hj
      rcases hcases j inode hj with ⟨-, hnew⟩ | hold
      · rw [hnew]
        exact Nat.lt_succ_self _
      · exact Nat.lt_succ_of_lt (h.file_lt j inode hold)
    · intro j
      by_cases hj : j = k
      · subst hj
        simp [CGIState.setRun, RunOk]
      · have hrun : s.RunOk j (s.runs j) := h.runs j
        simp only [CGIState.setRun, Function.update_of_ne hj]
        apply hrun.congr
        · simp [hj]
        · intro inode hfile
          simp [(hne j inode hfile).2]
        · exact fun _ _ hc => hc

theorem Separated.fork (h : Separated s) {inode : ℕ} (hk : s.runs k = .opened inode) :
    Separated (s.fork k inode) := by
  have hopened := h.runs k
  rw [hk] at hopened
  have hkeep : ∀ id child, s.children id = some child →
      (s.fork k inode).children id = some child := by
    intro id child hc
    have hne := (h.child_lt id child hc).ne
    simpa [CGIState.fork, hne] using hc
  refine ⟨h.owner, h.file_lt, ?_, ?_, h.returned⟩
  · intro id child hc
    by_cases hid : id = s.freshRun
    · simp [CGIState.fork, hid]
    · have hold : s.children id = some child := by simpa [CGIState.fork, hid] using hc
      exact Nat.lt_succ_of_lt (h.child_lt id child hold)
  · intro j
    by_cases hj : j = k
    · subst hj
      have hphase : (s.fork j inode).runs j = .forked s.freshRun := by
        simp [CGIState.fork, CGIState.setRun]
      rw [hphase]
      exact ⟨⟨inode, true, []⟩, ⟨by simp [CGIState.fork], hopened.1⟩, hopened.2⟩
    · have hphase : (s.fork k inode).runs j = s.runs j := by
        simp [CGIState.fork, CGIState.setRun, hj]
      rw [hphase]
      exact (h.runs j).congr rfl (fun _ _ => rfl) hkeep

theorem Separated.deleteFile (h : Separated s) {r : CGIReturn} (hr : r.cgiResult = r.wrote) :
    Separated { s.setRun k .idle with
      files := Function.update s.files k none, returned := s.returned ++ [r] } := by
  have hcases : ∀ j inode, Function.update s.files k none j = some inode →
      s.files j = some inode := by
    intro j inode hj
    by_cases heq : j = k
    · subst heq
      simp at hj
    · simpa [heq] using hj
  refine ⟨?_, ?_, h.child_lt, ?_, ?_⟩
  · intro a b inode ha hb
    exact h.owner a b inode (hcases a inode ha) (hcases b inode hb)
  · intro j inode hj
    exact h.file_lt j inode (hcases j inode hj)
  · intro j
    by_cases hj : j = k
    · subst hj
      simp [CGIState.setRun, RunOk]
    · simp only [CGIState.setRun, Function.update_of_ne hj]
      apply (h.runs j).congr
      · simp [hj]
      · exact fun _ _ => rfl
      · exact fun _ _ hc => hc
  · intro r' hr'
    rcases List.mem_append.mp hr' with hold | hnew
    · exact h.returned r' hold
    · rw [List.mem_singleton.mp hnew]
      exact hr

theorem Separated.waitpid (h : Separated s) {ok : Bool}
    (hstep : s.step (.waitpid k ok) = some s') : Separated s' := by
  simp only [CGIState.step] at hstep
  split at hstep
  · next id hk =>
    have hrun := h.runs k
    rw [hk] at hrun
    obtain ⟨child, ho, hwrote⟩ := hrun
    simp only [ho.1] at hstep
    split at hstep
    · split at hstep
      · cases hstep
      · next hdone =>
        cases hstep
        exact h.setRun ⟨child, ho, Bool.eq_false_iff.mpr hdone, hwrote⟩
    · cases hstep
      exact h.setRun trivial
  · cases hstep

theorem Separated.checkFileSize (h : Separated s)
    (hstep : s.step (.checkFileSize k) = some s') : Separated s' := by
  simp only [CGIState.step] at hstep
  split at hstep
  · next id inode hk hfile =>
    cases hstep
    have hrun := h.runs k
    rw [hk] at hrun
    obtain ⟨child, ho, hdone, hwrote⟩ := hrun
    cases Option.some.inj (ho.2.symm.trans hfile)
    exact h.setRun ⟨child, ho, hdone, by rw [hwrote], by rw [hwrote]⟩
  · cases hstep

theorem Separated.read (h : Separated s) (hstep : s.step (.read k) = some s') :
    Separated s' := by
  simp only [CGIState.step] at hstep
  split at hstep
  · next id size inode hk hfile =>
    cases hstep
    have hrun := h.runs k
    rw [hk] at hrun
    obtain ⟨child, ho, hdone, hsize, hwrote⟩ := hrun
    cases Option.some.inj (ho.2.symm.trans hfile)
    exact h.setRun ⟨child, ho, hdone, by rw [hsize, readSized_of_prefix hwrote]⟩
  · cases hstep

theorem Separated.step (h : Separated s) {action : CGIAction κ} (hsep : s.Separate action)
    (hstep : s.step action = some s') : Separated s' := by
  cases action with
  | openShared k ok =>
    simp only [CGIState.step] at hstep
    split at hstep
    · split at hstep
      · next hok =>
        cases hstep
        apply h.openShared
        intro inode hk
        have hempty := hsep hok
        simpa only [hk] using hempty
      · cases hstep
        exact h
    · cases hstep
  | fork k ok =>
    simp only [CGIState.step] at hstep
    split at hstep
    · next inode hk =>
      split at hstep
      · cases hstep
        exact h.fork hk
      · cases hstep
        exact h.setRun trivial
    · cases hstep
  | write id bytes =>
    simp only [CGIState.step] at hstep
    split at hstep
    · next child hc =>
      split at hstep
      · next hr =>
        cases hstep
        exact h.write hc hr hsep
      · cases hstep
    · cases hstep
  | exit id =>
    simp only [CGIState.step] at hstep
    split at hstep
    · next child hc =>
      split at hstep
      · cases hstep
        exact h.exit hc
      · cases hstep
    · cases hstep
  | waitpid k ok => exact h.waitpid hstep
  | checkFileSize k => exact h.checkFileSize hstep
  | read k => exact h.read hstep
  | deleteFile k =>
    simp only [CGIState.step] at hstep
    split at hstep
    · next id cgiResult hk =>
      have hrun := h.runs k
      rw [hk] at hrun
      obtain ⟨child, ho, hdone, hresult⟩ := hrun
      simp only [ho.1, Option.some.injEq] at hstep
      subst hstep
      exact h.deleteFile hresult
    · cases hstep

/-! ## What a run returns otherwise -/

/-- Some continuation lets a run end with this result beside what its own child wrote. -/
def MayReturn (s : CGIState κ) (r : CGIReturn) : Prop :=
  ∃ actions s', runGuarded step s actions = some s' ∧ r ∈ s'.returned

theorem MayReturn.cons {r : CGIReturn} {action : CGIAction κ} (hstep : s.step action = some s')
    (h : s'.MayReturn r) : s.MayReturn r := by
  obtain ⟨actions, s'', hrun, hr⟩ := h
  exact ⟨action :: actions, s'', by rw [runGuarded, hstep]; exact hrun, hr⟩

theorem mayReturn_harvested {id inode : ℕ} {child : Child} (hk : s.runs k = .harvested id)
    (hfile : s.files k = some inode) (hc : s.children id = some child) :
    s.MayReturn ⟨child.wrote, s.content inode⟩ := by
  refine ⟨[.checkFileSize k, .read k, .deleteFile k], ?_⟩
  have hread : readSized (s.content inode) (s.content inode).length = s.content inode :=
    readSized_of_prefix (List.prefix_refl _)
  refine ⟨{ s with
    runs := Function.update s.runs k .idle
    files := Function.update s.files k none
    returned := s.returned ++ [⟨child.wrote, s.content inode⟩] }, ?_, by simp⟩
  simp [runGuarded, step, hk, hfile, hc, setRun, hread]

theorem mayReturn_forked {id inode : ℕ} {child : Child} (hk : s.runs k = .forked id)
    (hfile : s.files k = some inode) (hc : s.children id = some child) :
    s.MayReturn ⟨child.wrote, s.content inode⟩ := by
  have hwait : ∀ t : CGIState κ, t.runs k = .forked id → t.files k = some inode →
      ∀ c : Child, t.children id = some c → c.running = false →
        t.MayReturn ⟨c.wrote, t.content inode⟩ := by
    intro t htk htfile c htc hdone
    have hstep : t.step (.waitpid k true) = some (t.setRun k (.harvested id)) := by
      simp [step, htk, htc, hdone]
    have hlast : (t.setRun k (.harvested id)).MayReturn ⟨c.wrote, t.content inode⟩ :=
      mayReturn_harvested (s := t.setRun k (.harvested id)) (by simp [setRun]) htfile htc
    exact hlast.cons hstep
  cases hr : child.running with
  | false => exact hwait s hk hfile child hc hr
  | true =>
    have hstep : s.step (.exit id) = some (s.exit id child) := by
      simp [step, hc, hr]
    have hlast : (s.exit id child).MayReturn ⟨child.wrote, s.content inode⟩ :=
      hwait (s.exit id child) hk hfile { child with running := false } (by simp [exit]) rfl
    exact hlast.cons hstep

theorem mayReturn_opened {inode : ℕ} (hk : s.runs k = .opened inode)
    (hfile : s.files k = some inode) : s.MayReturn ⟨[], s.content inode⟩ := by
  have hstep : s.step (.fork k true) = some (s.fork k inode) := by
    simp [step, hk]
  have hrun : (s.fork k inode).runs k = .forked s.freshRun := by simp [fork, setRun]
  have hchild : (s.fork k inode).children s.freshRun = some ⟨inode, true, []⟩ := by simp [fork]
  have hlast := mayReturn_forked hrun hfile hchild
  exact hlast.cons hstep

theorem Separated.mayReturn_write (h : Separated s) {id : ℕ} {child : Child} {bytes : Bytes}
    (hc : s.children id = some child) (hr : child.running = true) (hbytes : bytes ≠ [])
    (hown : ∀ k, s.runs k ≠ .forked id) (hfile : s.files k = some child.inode)
    (hcollect : (s.runs k).Collecting) :
    ∃ r, (s.write id child bytes).MayReturn r ∧ r.cgiResult ≠ r.wrote := by
  -- The bytes of another child end up in what a collecting run returns.
  have hrun := h.runs k
  have hcontent : (s.write id child bytes).content child.inode =
      s.content child.inode ++ bytes := by
    simp [CGIState.write]
  cases hk : s.runs k with
  | idle | sized _ _ | loaded _ _ =>
    rw [hk] at hcollect
    exact hcollect.elim
  | opened inode =>
    rw [hk] at hrun
    cases Option.some.inj (hrun.1.symm.trans hfile)
    refine ⟨_, mayReturn_opened (s := s.write id child bytes) hk hfile, ?_⟩
    simpa [hcontent, hrun.2] using hbytes
  | forked id' =>
    have hid : id' ≠ id := by
      intro heq
      exact hown k (heq ▸ hk)
    rw [hk] at hrun
    obtain ⟨child', ho, hwrote⟩ := hrun
    have hinode : child'.inode = child.inode := Option.some.inj (ho.2.symm.trans hfile)
    rw [hinode] at hwrote
    refine ⟨_, mayReturn_forked (s := s.write id child bytes) hk hfile
      (by simpa [CGIState.write, hid] using ho.1), ?_⟩
    simpa [hcontent, hwrote] using hbytes
  | harvested id' =>
    rw [hk] at hrun
    obtain ⟨child', ho, hdone, hwrote⟩ := hrun
    have hinode : child'.inode = child.inode := Option.some.inj (ho.2.symm.trans hfile)
    rw [hinode] at hwrote
    refine ⟨_, mayReturn_harvested (s := s.write id child bytes) hk hfile
      (ho.write hc hr hdone).1, ?_⟩
    simpa [hcontent, hwrote] using hbytes

theorem Separated.mayReturn_foreign (h : Separated s) {action : CGIAction κ}
    (hsep : ¬ s.Separate action) (hstep : s.step action = some s') :
    ∃ r, s'.MayReturn r ∧ r.cgiResult ≠ r.wrote := by
  cases action with
  | openShared k ok =>
    simp only [Separate] at hsep
    push Not at hsep
    obtain ⟨hok, hfull⟩ := hsep
    cases hfile : s.files k with
    | none => simp [hfile] at hfull
    | some inode =>
      simp only [hfile] at hfull
      simp only [CGIState.step, hok, ↓reduceIte, CGIState.openShared, hfile] at hstep
      split at hstep
      · cases hstep
        have hopened : (s.setRun k (.opened inode)).runs k = .opened inode := by
          simp [CGIState.setRun]
        exact ⟨_, mayReturn_opened hopened hfile, hfull⟩
      · cases hstep
  | write id bytes =>
    simp only [CGIState.step] at hstep
    split at hstep
    · next child hc =>
      split at hstep
      · next hr =>
        cases hstep
        simp only [Separate, hc] at hsep
        push Not at hsep
        obtain ⟨hbytes, hown, k, hfile, hcollect⟩ := hsep
        exact h.mayReturn_write hc hr hbytes hown hfile hcollect
      · cases hstep
    · cases hstep
  | fork k ok | exit id | waitpid k ok | checkFileSize k | read k | deleteFile k =>
    exact absurd trivial hsep

/-- In every run in which each file is new or empty when a run opens it and no abandoned child
writes to a file that a later run collects from, every successful run returns exactly what its
own child wrote. The first step that breaks the condition can be continued to a run that
returns something else. -/
theorem cgi_outputs_separate (actions : List (CGIAction κ)) (s : CGIState κ)
    (h : runGuarded step start actions = some s)
    (halong : Along step Separate start actions) :
    (∀ r ∈ s.returned, r.cgiResult = r.wrote) ∧
      ∀ action s', s.step action = some s' → ¬ s.Separate action →
        ∃ r, s'.MayReturn r ∧ r.cgiResult ≠ r.wrote := by
  have hs : Separated s :=
    runGuarded_invariant_of_along (fun _ _ _ hs hsep hstep => hs.step hsep hstep)
      Separated.start halong h
  refine ⟨hs.returned, ?_⟩
  intro action s' hstep hsep
  exact hs.mayReturn_foreign hsep hstep

def unharvestedChild : List (CGIAction ℕ) :=
  [.openShared 0 true, .fork 0 true, .write 0 (ascii "a"), .exit 0, .waitpid 0 false,
    .openShared 0 true, .fork 0 true, .write 1 (ascii "b"), .exit 1, .waitpid 0 true,
    .checkFileSize 0, .read 0, .deleteFile 0]

theorem mixed_unharvestedChild :
    ∃ s, runGuarded step start unharvestedChild = some s ∧
      s.returned = [⟨ascii "b", ascii "ab"⟩] ∧ ¬ ∀ r ∈ s.returned, r.cgiResult = r.wrote :=
  ⟨_, rfl, rfl, by decide⟩

def overlappingRuns : List (CGIAction (Fin 2)) :=
  [.openShared 0 true, .fork 0 false, .openShared 1 true, .openShared 0 true, .fork 1 true,
    .fork 0 true, .write 0 (ascii "a"), .waitpid 0 false, .write 0 (ascii "c"), .exit 0,
    .waitpid 1 true, .checkFileSize 1, .read 1, .write 1 (ascii "d"), .deleteFile 1]

theorem cgi_outputs_separate_overlapping :
    Along step Separate start overlappingRuns ∧
      ∃ s, runGuarded step start overlappingRuns = some s ∧ s.returned.length = 1 ∧
        ∀ r ∈ s.returned, r.cgiResult = r.wrote := by
  have halong : Along step Separate start overlappingRuns := by decide
  exact ⟨halong, _, rfl, rfl, (cgi_outputs_separate overlappingRuns _ rfl halong).1⟩

end CGIState
end HttpReactor
