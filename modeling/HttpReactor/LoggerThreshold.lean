import HttpReactor.Logger

/-!
# The writer does not sleep on a full queue

A `PushLog` call tests the length of the queue under `mtx_` and notifies after releasing it.
The writer may fall asleep in between, but only over a queue that is not over the threshold;
so while it sleeps over a longer one, the call that made it longer has yet to notify. A
writer at rest has thus printed everything but the messages the threshold allows for.
-/

namespace HttpReactor
open Mutex Refinement

def PushPhase.Announcing {μ : Type} : PushPhase μ → Prop
  | .appended | .decided true | .released true => True
  | _ => False

namespace Logger

variable {κ μ : Type}

structure Attended (l : Logger κ μ) : Prop where
  kept : Kept l
  blocking : l.writer = .blocking → l.queue.length ≤ kThreshold
  waiting : l.writer = .waiting → kThreshold < l.queue.length → ∃ k, (l.callers k).Announcing

theorem Attended.new (now : Int) : Attended (new now : Logger κ μ) :=
  ⟨Kept.new now, nofun, nofun⟩

variable {l l' : Logger κ μ} {k : κ}

theorem length_le_of_not_flushDue {now : Int} (h : l.flushDue now = false) :
    l.queue.length ≤ kThreshold := by
  simp only [flushDue, Bool.or_eq_false_iff, decide_eq_false_iff_not] at h
  omega

theorem Attended.notifyOne (h : Attended l) (hk : Kept l.notifyOne) : Attended l.notifyOne := by
  unfold Logger.notifyOne at hk ⊢
  split_ifs at hk ⊢
  · exact ⟨hk, nofun, nofun⟩
  · exact h

theorem Attended.writerStep (h : Attended l) {now : Int} (hkept : Kept l')
    (hstep : l.writerStep now = some l') : Attended l' := by
  cases hw : l.writer with
  | evaluating =>
    simp only [Logger.writerStep, hw, Option.some.injEq] at hstep
    subst hstep
    refine ⟨hkept, fun hb => ?_, fun hb => ?_⟩
    · by_cases hdue : l.flushDue now = true
      · simp [hdue] at hb
      · exact length_le_of_not_flushDue (Bool.eq_false_iff.mpr hdue)
    · by_cases hpred : (l.done || l.flushDue now) = true
      · simp [hpred] at hb
      · simp [hpred] at hb
  | blocking =>
    simp only [Logger.writerStep, hw, Option.some.injEq] at hstep
    subst hstep
    exact ⟨hkept, nofun, fun _ hlt => absurd (h.blocking hw) (Nat.not_le.mpr hlt)⟩
  | locking | waking | ready | swapped | printing _ | printed | stamped | checking _ | waiting
  | returned =>
    cases writerStepped hstep with
    | fails he => rw [hw] at he; cases he
    | waits he => rw [hw] at he; cases he
    | locks | passes | findsNone | swaps | unlocks | prints | finishes | stamps | clears
    | returns | continues => exact ⟨hkept, nofun, nofun⟩

variable [DecidableEq κ]

theorem Attended.moveCaller (h : Attended l) {mtx : Option (LogThread κ)} {phase : PushPhase μ}
    (took : List μ) (hkept : Kept { l.setCaller k phase with mtx := mtx, took := took })
    (hphase : (l.callers k).Announcing → kThreshold < l.queue.length → phase.Announcing) :
    Attended { l.setCaller k phase with mtx := mtx, took := took } where
  kept := hkept
  blocking := h.blocking
  waiting := fun hw hlt => by
    obtain ⟨j, hj⟩ := h.waiting hw hlt
    refine ⟨j, ?_⟩
    by_cases hjk : j = k
    · subst hjk
      simpa [setCaller] using hphase hj hlt
    · simpa [setCaller, hjk] using hj

theorem Attended.callerStep (h : Attended l) {now : Int} (hkept : Kept l')
    (hstep : l.callerStep k now = some l') : Attended l' := by
  cases hk : l.callers k with
  | idle => simp [Logger.callerStep, hk] at hstep
  | locked log =>
    simp only [Logger.callerStep, hk, Option.some.injEq] at hstep
    subst hstep
    refine ⟨hkept, fun hb => ?_, fun _ _ => ⟨k, by simp [setCaller, PushPhase.Announcing]⟩⟩
    -- the call holds the mutex, so the writer does not
    have hwriter : Inside l.writer l.callers .writer := by
      have hb' : l.writer = .blocking := hb
      simp [Inside, hb', WriterPhase.Holds]
    have hcaller : Inside l.writer l.callers (.caller k) := by
      simp [Inside, hk, PushPhase.Holds]
    cases h.kept.guarded.unique hwriter hcaller
  | appended =>
    simp only [Logger.callerStep, hk, Option.some.injEq] at hstep
    subst hstep
    refine h.moveCaller l.took hkept fun _ hlt => ?_
    by_cases hdue : l.flushDue now = true
    · rw [hdue]
      trivial
    · exact absurd (length_le_of_not_flushDue (Bool.eq_false_iff.mpr hdue)) (Nat.not_le.mpr hlt)
  | decided shouldNotify =>
    simp only [Logger.callerStep, hk, Option.some.injEq] at hstep
    subst hstep
    refine h.moveCaller l.took hkept fun ha _ => ?_
    rw [hk] at ha
    cases shouldNotify with
    | true => trivial
    | false => exact ha
  | released shouldNotify =>
    simp only [Logger.callerStep, hk, Option.some.injEq] at hstep
    subst hstep
    cases shouldNotify with
    | false => exact h.moveCaller l.took hkept fun ha _ => by rw [hk] at ha; exact ha.elim
    | true =>
      have hasleep : (l.notifyOne.setCaller k .idle).writer ≠ .waiting := by
        simp only [setCaller, Logger.notifyOne]
        split_ifs with hw
        · simp
        · exact hw
      refine ⟨hkept, fun hb => ?_, fun hw => absurd hw hasleep⟩
      simp only [if_true, setCaller, Logger.notifyOne] at hb ⊢
      split_ifs at hb ⊢ with hw
      exact h.blocking hb

theorem Attended.step (h : Attended l) {action : LogAction κ μ} (hstep : l.step action = some l') :
    Attended l' := by
  have hkept := h.kept.step hstep
  cases action with
  | pushLog k log =>
    obtain ⟨hidle, -, rfl⟩ := pushLog_eq_some hstep
    exact h.moveCaller _ hkept fun ha _ => by rw [hidle] at ha; exact ha.elim
  | caller k now => exact h.callerStep hkept hstep
  | writer now => exact h.writerStep hkept hstep
  | spuriousWakeup =>
    obtain rfl := spuriousWakeup_eq_some hstep
    exact h.notifyOne hkept
  | destructor =>
    rcases destructorStep_cases hstep with ⟨-, rfl⟩ | ⟨-, rfl⟩
    · exact ⟨hkept, h.blocking, h.waiting⟩
    · have hn := h.notifyOne h.kept.notifyOne
      exact ⟨hkept, hn.blocking, hn.waiting⟩

/-- While the writer waits, everything appended is in the file or in the queue, and a queue over
the threshold has a `PushLog` call that has yet to notify. So once no call is in progress at most
`kThreshold` messages are held back, whenever the calls and the writer's steps took place. -/
theorem waiting_writer_holds_little (now : Int) (actions : List (LogAction κ μ)) (l : Logger κ μ)
    (h : runGuarded step (new now) actions = some l) (hw : l.writer = .waiting) :
    l.pushed = l.file ++ l.queue ∧
      (l.queue.length ≤ kThreshold ∨ ∃ k, (l.callers k).Announcing) ∧
      ((∀ k, l.callers k = .idle) → l.pushed.length ≤ l.file.length + kThreshold) := by
  have hattended : Attended l :=
    runGuarded_invariant (fun _ _ _ _ ha hs => ha.step hs) (Attended.new now) h
  have hbatch : l.writerQueue = [] := hattended.kept.batch (by rw [hw]; exact id)
  have hpushed : l.pushed = l.file ++ l.queue := by
    rw [hattended.kept.pushed, unwritten, hbatch, hw]
    simp [WriterPhase.unprinted]
  have hshort : l.queue.length ≤ kThreshold ∨ ∃ k, (l.callers k).Announcing :=
    (Nat.lt_or_ge kThreshold l.queue.length).symm.imp_right (hattended.waiting hw)
  refine ⟨hpushed, hshort, fun hidle => ?_⟩
  have hle := hshort.resolve_right fun hsome => by
    obtain ⟨k, hk⟩ := hsome
    rw [hidle k] at hk
    exact hk
  rw [hpushed, List.length_append]
  omega

def pushedWhileWaiting : List (LogAction Unit ℕ) :=
  [.writer 0, .writer 1, .writer 1, .pushLog () 7, .caller () 2, .caller () 2, .caller () 2,
    .caller () 2]

theorem waiting_writer_holds_little_pushed :
    ∃ l, runGuarded step (new 0) pushedWhileWaiting = some l ∧ l.queue = [7] ∧
      l.pushed.length ≤ l.file.length + kThreshold :=
  ⟨_, rfl, rfl,
    (waiting_writer_holds_little 0 pushedWhileWaiting _ rfl rfl).2.2 fun () => rfl⟩

end Logger

end HttpReactor
