import HttpReactor.Logger

/-!
# Shutting the logger down

`LogWriting` tests `done_` after it has printed a batch without the lock, and leaves when it
is set, whatever has reached `queue_` in the meantime. A history beside the logger keeps the
places in `pushed` of the messages whose `PushLog` has returned, and which of these had
returned when `done_` was set. They are all written by the time `LogWriting` returns if the
store to `done_` does not fall between the unlock and that test while one of them is still in
`queue_` (`flushed_of_settled`).
-/

namespace HttpReactor
open Mutex Refinement

def WriterPhase.Flushing : WriterPhase → Prop
  | .printing _ | .printed | .stamped | .checking false => True
  | _ => False

instance : DecidablePred WriterPhase.Flushing
  | .printing _ | .printed | .stamped | .checking false => isTrue trivial
  | .locking | .evaluating | .blocking | .waiting | .waking | .ready | .swapped |
    .checking true | .returned => isFalse id

def PushPhase.Pushed {μ : Type} : PushPhase μ → Prop
  | .appended | .decided _ | .released _ => True
  | .idle | .locked _ => False

structure LoggerHistory (κ μ : Type) where
  logger : Logger κ μ
  place : κ → ℕ
  completed : List ℕ
  beforeDone : List ℕ

namespace LoggerHistory

variable {κ μ : Type} [DecidableEq κ]

def new (now : Int) : LoggerHistory κ μ where
  logger := .new now
  place := fun _ => 0
  completed := []
  beforeDone := []

def record (h : LoggerHistory κ μ) (action : LogAction κ μ) (l : Logger κ μ) :
    LoggerHistory κ μ :=
  match action with
  | .caller k _ =>
    match h.logger.callers k with
    | .locked _ =>
      { h with logger := l, place := Function.update h.place k h.logger.pushed.length }
    | .released _ => { h with logger := l, completed := h.completed ++ [h.place k] }
    | _ => { h with logger := l }
  | .destructor =>
    match h.logger.harvest with
    | .alive => { h with logger := l, beforeDone := h.completed }
    | _ => { h with logger := l }
  | _ => { h with logger := l }

def step (h : LoggerHistory κ μ) (action : LogAction κ μ) : Option (LoggerHistory κ μ) :=
  (h.logger.step action).map (h.record action)

/-- If `LogWriting` has returned, each message whose `PushLog` had returned when `done_` was
set is in the file. -/
def Flushed (h : LoggerHistory κ μ) : Prop :=
  h.logger.writer = .returned → ∀ i ∈ h.beforeDone, ∃ log,
    h.logger.pushed[i]? = some log ∧ h.logger.file[i]? = some log

/-- The store to `done_` finds no message of a call that has returned in `queue_` while the
writer is between its unlock and its test of `done_`. -/
def Settled (h : LoggerHistory κ μ) : LogAction κ μ → Prop
  | .destructor => h.logger.harvest = .alive → h.logger.writer.Flushing →
      ∀ i ∈ h.completed, i + h.logger.queue.length < h.logger.pushed.length
  | _ => True

instance (h : LoggerHistory κ μ) : DecidablePred h.Settled
  | .destructor => inferInstanceAs (Decidable (_ → _ → _))
  | .pushLog _ _ | .caller _ _ | .writer _ | .spuriousWakeup => isTrue trivial

theorem record_logger (h : LoggerHistory κ μ) (action : LogAction κ μ) (l : Logger κ μ) :
    (h.record action l).logger = l := by
  unfold record
  split
  · split <;> rfl
  · split <;> rfl
  · rfl

theorem run_logger {h : LoggerHistory κ μ} (actions : List (LogAction κ μ)) :
    (runGuarded step h actions).map LoggerHistory.logger =
      runGuarded Logger.step h.logger actions := by
  induction actions generalizing h with
  | nil => rfl
  | cons action actions ih =>
    simp only [runGuarded, step]
    cases hl : h.logger.step action with
    | none => rfl
    | some l =>
      simp only [Option.map_some]
      rw [ih, record_logger]

end LoggerHistory

/-! ## What holds in every run -/

namespace LoggerHistory

variable {κ μ : Type}

structure Recorded (h : LoggerHistory κ μ) : Prop where
  kept : h.logger.Kept
  places : ∀ k, (h.logger.callers k).Pushed → h.place k < h.logger.pushed.length
  completed : ∀ i ∈ h.completed, i < h.logger.pushed.length
  beforeDone : ∀ i ∈ h.beforeDone, i < h.logger.pushed.length
  alive : h.logger.harvest = .alive → h.logger.done = false
  returned : h.logger.writer = .returned → h.logger.done = true
  emptied : h.logger.writer = .swapped ∨ h.logger.writer = .checking true → h.logger.queue = []

variable {h h' : LoggerHistory κ μ} {l : Logger κ μ} {k : κ}

theorem notifyOne_eq (l : Logger κ μ) : l.notifyOne = { l with writer := l.notifyOne.writer } := by
  rw [Logger.notifyOne]
  split <;> rfl

theorem notifyOne_writer (l : Logger κ μ) :
    l.notifyOne.writer = l.writer ∨ l.notifyOne.writer = .waking := by
  rw [Logger.notifyOne]
  split
  · exact .inr rfl
  · exact .inl rfl

theorem Recorded.notifyOne (hr : Recorded h) :
    Recorded { h with logger := h.logger.notifyOne } := by
  have hkept := hr.kept.notifyOne
  rcases notifyOne_writer h.logger with hw | hw
  · have heq := notifyOne_eq h.logger
    rw [hw] at heq
    rw [heq]
    exact hr
  · have heq := notifyOne_eq h.logger
    rw [hw] at heq
    rw [heq] at hkept ⊢
    exact ⟨hkept, hr.places, hr.completed, hr.beforeDone, hr.alive, by simp, by simp⟩

theorem Recorded.writerStep (hr : Recorded h) {now : Int}
    (hstep : h.logger.writerStep now = some l) : Recorded { h with logger := l } := by
  have hkept := hr.kept.writerStep hstep
  cases Logger.writerStepped hstep with
  | findsNone hw hqueue =>
    exact ⟨hkept, hr.places, hr.completed, hr.beforeDone, hr.alive, by simp, fun _ => hqueue⟩
  | swaps hw =>
    have hempty : h.logger.writerQueue = [] := hr.kept.batch (by rw [hw]; exact id)
    exact ⟨hkept, hr.places, hr.completed, hr.beforeDone, hr.alive, by simp, fun _ => hempty⟩
  | returns _ _ hdone =>
    exact ⟨hkept, hr.places, hr.completed, hr.beforeDone, hr.alive, fun _ => hdone, by simp⟩
  | locks | passes | fails | waits | unlocks | prints | finishes | stamps | clears | continues =>
    exact ⟨hkept, hr.places, hr.completed, hr.beforeDone, hr.alive, by simp, by simp⟩

theorem Recorded.not_holds (hr : Recorded h) (hk : (h.logger.callers k).Holds) :
    ¬ h.logger.writer.Holds := by
  -- Only the caller that holds the lock pushes, so the queue that the writer has emptied stays
  -- empty until it unlocks.
  intro hw
  have hcaller := (hr.kept.guarded (.caller k)).mp hk
  have hwriter := (hr.kept.guarded .writer).mp hw
  rw [hcaller] at hwriter
  cases hwriter

variable [DecidableEq κ]

theorem places_update {place : κ → ℕ} {callers : κ → PushPhase μ} {n i : ℕ}
    {phase : PushPhase μ} (h : ∀ j, (callers j).Pushed → place j < n)
    (hphase : phase.Pushed → i < n) (j : κ)
    (hj : (Function.update callers k phase j).Pushed) : Function.update place k i j < n := by
  by_cases hjk : j = k
  · subst hjk
    simp only [Function.update_self] at hj ⊢
    exact hphase hj
  · simp only [Function.update_of_ne hjk] at hj ⊢
    exact h j hj

theorem Recorded.setCaller (hr : Recorded h) {phase : PushPhase μ} {mtx : Option (LogThread κ)}
    {took : List μ} {completed : List ℕ}
    (hkept : Logger.Kept { h.logger.setCaller k phase with mtx := mtx, took := took })
    (hphase : phase.Pushed → (h.logger.callers k).Pushed)
    (hcompleted : ∀ i ∈ completed, i < h.logger.pushed.length) :
    Recorded { h with
      logger := { h.logger.setCaller k phase with mtx := mtx, took := took }
      completed := completed } := by
  refine ⟨hkept, ?_, hcompleted, hr.beforeDone, hr.alive, hr.returned, hr.emptied⟩
  have hplace : phase.Pushed → h.place k < h.logger.pushed.length := fun hp =>
    hr.places k (hphase hp)
  intro j hj
  have hall := places_update hr.places hplace j hj
  rwa [Function.update_eq_self] at hall

theorem Recorded.append (hr : Recorded h) {log : μ} (hk : h.logger.callers k = .locked log)
    (hkept : Logger.Kept { h.logger.setCaller k .appended with
      queue := h.logger.queue ++ [log], pushed := h.logger.pushed ++ [log] }) :
    Recorded { h with
      logger := { h.logger.setCaller k .appended with
        queue := h.logger.queue ++ [log], pushed := h.logger.pushed ++ [log] }
      place := Function.update h.place k h.logger.pushed.length } := by
  have hfree : ¬ h.logger.writer.Holds := hr.not_holds (k := k) (by rw [hk]; trivial)
  have hgrow : ∀ i, i < h.logger.pushed.length → i < (h.logger.pushed ++ [log]).length := by
    intro i hi
    rw [List.length_append]
    omega
  refine ⟨hkept, ?_, fun i hi => hgrow i (hr.completed i hi),
    fun i hi => hgrow i (hr.beforeDone i hi), hr.alive, hr.returned, ?_⟩
  · exact places_update (fun j hj => hgrow _ (hr.places j hj)) (fun _ => by simp)
  · -- the writer holds the lock in both phases
    intro hw
    change h.logger.writer = .swapped ∨ h.logger.writer = .checking true at hw
    rcases hw with hw | hw
    · rw [hw] at hfree
      exact absurd trivial hfree
    · rw [hw] at hfree
      exact absurd trivial hfree

theorem Recorded.leave (hr : Recorded h) (hk : (h.logger.callers k).Pushed)
    (hkept : Logger.Kept (h.logger.setCaller k .idle)) :
    Recorded { h with
      logger := h.logger.setCaller k .idle, completed := h.completed ++ [h.place k] } := by
  apply hr.setCaller hkept
  · exact fun hp => hp.elim
  · intro i hi
    rcases List.mem_append.mp hi with hi | hi
    · exact hr.completed i hi
    · rw [List.mem_singleton.mp hi]
      exact hr.places k hk

theorem Recorded.callerStep (hr : Recorded h) {now : Int}
    (hstep : h.logger.callerStep k now = some l) : Recorded (h.record (.caller k now) l) := by
  have hkept := hr.kept.callerStep hstep
  cases Logger.callerStepped hstep with
  | appends log hk =>
    simp only [record, hk]
    exact hr.append hk hkept
  | decides _ hk | unlocks _ hk =>
    simp only [record, hk]
    exact hr.setCaller hkept (fun _ => by rw [hk]; trivial) hr.completed
  | notifies hk =>
    simp only [record, hk]
    apply hr.notifyOne.leave ?_ hkept
    change (h.logger.notifyOne.callers k).Pushed
    rw [Logger.notifyOne_callers, hk]
    trivial
  | leaves hk =>
    simp only [record, hk]
    exact hr.leave (by rw [hk]; trivial) hkept

theorem Recorded.step (hr : Recorded h) {action : LogAction κ μ}
    (hstep : h.step action = some h') : Recorded h' := by
  simp only [LoggerHistory.step, Option.map_eq_some_iff] at hstep
  obtain ⟨l, hl, rfl⟩ := hstep
  have hkept := hr.kept.step hl
  cases action with
  | pushLog k log =>
    obtain ⟨-, -, rfl⟩ := Logger.pushLog_eq_some hl
    exact hr.setCaller hkept (fun hp => hp.elim) hr.completed
  | caller k now => exact hr.callerStep hl
  | writer now => exact hr.writerStep hl
  | spuriousWakeup =>
    rw [Logger.spuriousWakeup_eq_some hl]
    exact hr.notifyOne
  | destructor =>
    rcases Logger.destructorStep_cases hl with ⟨halive, rfl⟩ | ⟨hstored, rfl⟩
    · simp only [record, halive]
      exact ⟨hkept, hr.places, hr.completed, hr.completed, by simp, fun _ => rfl, hr.emptied⟩
    · have hn := hr.notifyOne
      simp only [record, hstored]
      exact ⟨hkept, hn.places, hn.completed, hn.beforeDone, by simp, hn.returned, hn.emptied⟩

theorem recorded_of_run {now : Int} {actions : List (LogAction κ μ)}
    (hrun : runGuarded LoggerHistory.step (new now) actions = some h) : Recorded h := by
  have hnew : Recorded (new now : LoggerHistory κ μ) :=
    ⟨.new now, fun _ hk => hk.elim, by simp [new], by simp [new], fun _ => rfl, by
      simp [new, Logger.new], fun _ => rfl⟩
  exact runGuarded_invariant (fun _ _ _ _ hr hstep => hr.step hstep) hnew hrun

end LoggerHistory

/-! ## What is saved -/

def WriterPhase.Leaving : WriterPhase → Prop
  | .printing _ | .printed | .stamped | .checking _ | .returned => True
  | _ => False

theorem WriterPhase.Leaving.cases {w : WriterPhase} (h : w.Leaving) :
    w.Flushing ∨ w = .checking true ∨ w = .returned := by
  cases w with
  | printing | printed | stamped => exact .inl trivial
  | checking locked =>
    cases locked with
    | true => exact .inr (.inl rfl)
    | false => exact .inl trivial
  | returned => exact .inr (.inr rfl)
  | locking | evaluating | blocking | waiting | waking | ready | swapped => exact h.elim

namespace LoggerHistory

variable {κ μ : Type} {h h' : LoggerHistory κ μ} {l : Logger κ μ} {k : κ}

def Saved (h : LoggerHistory κ μ) : Prop :=
  h.logger.done = true → h.logger.writer.Leaving →
    ∀ i ∈ h.beforeDone, i + h.logger.queue.length < h.logger.pushed.length

theorem Saved.notifyOne (hs : Saved h) : Saved { h with logger := h.logger.notifyOne } := by
  have heq := notifyOne_eq h.logger
  rcases notifyOne_writer h.logger with hw | hw
  · rw [hw] at heq
    rw [heq]
    exact hs
  · rw [hw] at heq
    rw [heq]
    exact fun _ hleaving => hleaving.elim

theorem Recorded.lt_of_empty (hr : Recorded h) (hqueue : h.logger.queue = []) :
    ∀ i ∈ h.beforeDone, i + h.logger.queue.length < h.logger.pushed.length := by
  rw [hqueue]
  exact hr.beforeDone

theorem Saved.writerStep (hs : Saved h) (hr : Recorded h) {now : Int}
    (hstep : h.logger.writerStep now = some l) : Saved { h with logger := l } := by
  intro hdone hleaving
  cases Logger.writerStepped hstep with
  | locks | passes | fails | waits | swaps | continues => exact hleaving.elim
  | findsNone hw hqueue =>
    have hall := hr.lt_of_empty hqueue
    exact hall
  | unlocks hw =>
    have hall := hr.lt_of_empty (hr.emptied (.inl hw))
    exact hall
  | prints _ _ hw | finishes _ hw | stamps _ hw | clears hw | returns _ hw =>
    exact hs hdone (by rw [hw]; trivial)

variable [DecidableEq κ]

theorem Saved.callerStep (hs : Saved h) {now : Int} (hstep : h.logger.callerStep k now = some l) :
    Saved (h.record (.caller k now) l) := by
  cases Logger.callerStepped hstep with
  | appends log hk =>
    simp only [record, hk]
    intro hdone hleaving i hi
    have hlt := hs hdone hleaving i hi
    simp only [List.length_append]
    omega
  | decides _ hk | unlocks _ hk | leaves hk =>
    simp only [record, hk]
    exact hs
  | notifies hk =>
    simp only [record, hk]
    exact hs.notifyOne

theorem Saved.step (hs : Saved h) (hr : Recorded h) {action : LogAction κ μ}
    (hsettled : h.Settled action) (hstep : h.step action = some h') : Saved h' := by
  simp only [LoggerHistory.step, Option.map_eq_some_iff] at hstep
  obtain ⟨l, hl, rfl⟩ := hstep
  cases action with
  | pushLog k log =>
    obtain ⟨-, -, rfl⟩ := Logger.pushLog_eq_some hl
    exact hs
  | caller k now => exact hs.callerStep hl
  | writer now => exact hs.writerStep hr hl
  | spuriousWakeup =>
    rw [Logger.spuriousWakeup_eq_some hl]
    exact hs.notifyOne
  | destructor =>
    rcases Logger.destructorStep_cases hl with ⟨halive, rfl⟩ | ⟨hstored, rfl⟩
    · simp only [record, halive]
      intro _ hleaving i hi
      rcases hleaving.cases with hw | hw | hw
      · exact hsettled halive hw i hi
      · -- the writer has not unlocked since it found the queue empty
        have hlt := hr.completed i hi
        simpa [hr.emptied (.inr hw)] using hlt
      · have hdone := hr.returned hw
        rw [hr.alive halive] at hdone
        cases hdone
    · simp only [record, hstored]
      exact hs.notifyOne

omit [DecidableEq κ] in
theorem Saved.flushed (hs : Saved h) (hr : Recorded h) : h.Flushed := by
  intro hw i hi
  have hlt := hs (hr.returned hw) (by rw [hw]; trivial) i hi
  have hbatch : h.logger.writerQueue = [] := hr.kept.batch (by rw [hw]; exact id)
  have hpushed := hr.kept.pushed
  rw [Logger.unwritten, hw, hbatch] at hpushed
  have hfile : i < h.logger.file.length := by
    have hlen := congrArg List.length hpushed
    simp only [List.length_append, WriterPhase.unprinted, List.length_nil] at hlen
    omega
  refine ⟨h.logger.file[i], ?_, List.getElem?_eq_getElem hfile⟩
  rw [hpushed, List.append_assoc, List.getElem?_append_left hfile, List.getElem?_eq_getElem hfile]

/-! ## What is lost otherwise -/

def Returns (h : LoggerHistory κ μ) : Prop :=
  ∃ actions h', runGuarded LoggerHistory.step h actions = some h' ∧
    h'.logger.writer = .returned ∧ h'.beforeDone = h.beforeDone ∧
    h'.logger.file = h.logger.file ++ h.logger.unwritten

theorem Returns.cons (hl : h.logger.writerStep 0 = some l)
    (hkeep : l.file ++ l.unwritten = h.logger.file ++ h.logger.unwritten)
    (hrest : Returns { h with logger := l }) : Returns h := by
  obtain ⟨actions, h', hrun, hw, hbefore, hfile⟩ := hrest
  have hstep : h.step (.writer 0) = some { h with logger := l } := by
    simp [LoggerHistory.step, Logger.step, hl, record]
  exact ⟨.writer 0 :: actions, h', by simp only [runGuarded, hstep, hrun], hw, hbefore,
    hfile.trans hkeep⟩

theorem returns_of_checking (hw : h.logger.writer = .checking false)
    (hdone : h.logger.done = true) (hbatch : h.logger.writerQueue = []) : Returns h := by
  have hl : h.logger.writerStep 0 = some { h.logger with writer := .returned } := by
    simp [Logger.writerStep, hw, hdone]
  apply Returns.cons hl
  · simp [Logger.unwritten, hw, WriterPhase.unprinted]
  · exact ⟨[], _, rfl, rfl, rfl, by simp [Logger.unwritten, WriterPhase.unprinted, hbatch]⟩

theorem returns_of_stamped (hw : h.logger.writer = .stamped) (hdone : h.logger.done = true) :
    Returns h := by
  have hl : h.logger.writerStep 0 =
      some { h.logger with writerQueue := [], writer := .checking false } := by
    simp [Logger.writerStep, hw]
  apply Returns.cons hl
  · simp [Logger.unwritten, hw, WriterPhase.unprinted]
  · exact returns_of_checking rfl hdone rfl

theorem returns_of_printed (hw : h.logger.writer = .printed) (hdone : h.logger.done = true) :
    Returns h := by
  have hl : h.logger.writerStep 0 =
      some { h.logger with lastFlush := 0 * 1000, writer := .stamped } := by
    simp [Logger.writerStep, hw]
  apply Returns.cons hl
  · simp [Logger.unwritten, hw, WriterPhase.unprinted]
  · exact returns_of_stamped rfl hdone

theorem returns_of_printing {written : ℕ} (hw : h.logger.writer = .printing written)
    (hdone : h.logger.done = true) : Returns h := by
  generalize hn : h.logger.writerQueue.length - written = n
  induction n generalizing h written with
  | zero =>
    have hnone : h.logger.writerQueue[written]? = none := by
      rw [List.getElem?_eq_none_iff]
      omega
    have hl : h.logger.writerStep 0 = some { h.logger with writer := .printed } := by
      simp [Logger.writerStep, hw, hnone]
    apply Returns.cons hl
    · have hdrop := List.drop_eq_nil_of_le (List.getElem?_eq_none_iff.mp hnone)
      simp [Logger.unwritten, hw, WriterPhase.unprinted, hdrop]
    · exact returns_of_printed rfl hdone
  | succ n ih =>
    have hlt : written < h.logger.writerQueue.length := by omega
    have hlog := List.getElem?_eq_getElem hlt
    have hl : h.logger.writerStep 0 = some { h.logger with
        file := h.logger.file ++ [h.logger.writerQueue[written]]
        writer := .printing (written + 1) } := by
      simp [Logger.writerStep, hw, hlog]
    apply Returns.cons hl
    · simp [Logger.unwritten, hw, WriterPhase.unprinted]
    · refine ih rfl hdone ?_
      simp only
      omega

theorem returns_of_flushing (hr : Recorded h) (hdone : h.logger.done = true)
    (hw : h.logger.writer.Flushing) : Returns h := by
  have hbatch := hr.kept.batch
  cases hphase : h.logger.writer with
  | printing written => exact returns_of_printing hphase hdone
  | printed => exact returns_of_printed hphase hdone
  | stamped => exact returns_of_stamped hphase hdone
  | checking locked =>
    rw [hphase] at hw hbatch
    cases locked with
    | true => exact hw.elim
    | false => exact returns_of_checking hphase hdone (hbatch id)
  | locking | evaluating | blocking | waiting | waking | ready | swapped | returned =>
    rw [hphase] at hw
    exact hw.elim

theorem lost_of_not_settled (hr : Recorded h) {action : LogAction κ μ}
    (hsettled : ¬ h.Settled action) (hstep : h.step action = some h') :
    ∃ actions h'', runGuarded LoggerHistory.step h' actions = some h'' ∧ ¬ h''.Flushed := by
  cases action with
  | pushLog | caller | writer | spuriousWakeup => exact absurd trivial hsettled
  | destructor =>
    simp only [Settled] at hsettled
    push Not at hsettled
    obtain ⟨halive, hflushing, i, hi, hqueued⟩ := hsettled
    have hr' := hr.step hstep
    obtain ⟨l, hl, rfl⟩ := Option.map_eq_some_iff.mp hstep
    rcases Logger.destructorStep_cases hl with ⟨-, rfl⟩ | ⟨hstored, -⟩
    · simp only [record, halive] at hr' ⊢
      obtain ⟨actions, h'', hrun, hw, hbefore, hfile⟩ := returns_of_flushing hr' rfl hflushing
      refine ⟨actions, h'', hrun, fun hflushed => ?_⟩
      obtain ⟨log, -, hlog⟩ := hflushed hw i (by rw [hbefore]; exact hi)
      obtain ⟨hlt, -⟩ := List.getElem?_eq_some_iff.mp hlog
      have hpushed := congrArg List.length hr.kept.pushed
      have hlen := congrArg List.length hfile
      simp only [List.length_append, Logger.unwritten] at hpushed hlen
      omega
    · cases halive.symm.trans hstored

/-- In every run in which the store to `done_` does not find, between the writer's unlock and
its test of `done_`, a message of a call that has returned in `queue_`, each message whose
`PushLog` had returned by the store is in the file when `LogWriting` returns. After a store
that breaks the condition the writer may return without such a message. -/
theorem flushed_of_settled (now : Int) (actions : List (LogAction κ μ)) (h : LoggerHistory κ μ)
    (hrun : runGuarded LoggerHistory.step (new now) actions = some h) :
    (Along LoggerHistory.step Settled (new now) actions → h.Flushed) ∧
      ∀ action h', h.step action = some h' → ¬ h.Settled action →
        ∃ rest h'', runGuarded LoggerHistory.step h' rest = some h'' ∧ ¬ h''.Flushed := by
  have hr := recorded_of_run hrun
  refine ⟨?_, fun action h' hstep hsettled => lost_of_not_settled hr hsettled hstep⟩
  intro halong
  have hempty : runGuarded LoggerHistory.step (new now) ([] : List (LogAction κ μ)) =
      some (new now) := rfl
  have hnew : Recorded (new now : LoggerHistory κ μ) ∧ Saved (new now : LoggerHistory κ μ) :=
    ⟨recorded_of_run hempty, fun hdone => by cases hdone⟩
  have hkeep : ∀ (s : LoggerHistory κ μ) action s', Recorded s ∧ Saved s → s.Settled action →
      s.step action = some s' → Recorded s' ∧ Saved s' := by
    intro s action s' hs hsettled hstep
    exact ⟨hs.1.step hstep, hs.2.step hs.1 hsettled hstep⟩
  have hend := runGuarded_invariant_of_along hkeep hnew halong hrun
  exact hend.2.flushed hr

def loggedWhilePrinting : List (LogAction ℕ ℕ) :=
  [.pushLog 0 7, .caller 0 10, .caller 0 10, .caller 0 10, .caller 0 10, .writer 10, .writer 10,
    .writer 10, .writer 10, .pushLog 0 8, .caller 0 11, .caller 0 11, .caller 0 11, .caller 0 11,
    .destructor, .writer 12, .writer 12, .writer 12, .writer 12, .writer 12]

theorem not_flushed_loggedWhilePrinting :
    ∃ h : LoggerHistory ℕ ℕ, runGuarded LoggerHistory.step (new 0) loggedWhilePrinting = some h ∧
      h.logger.writer = .returned ∧ h.beforeDone = [0, 1] ∧ h.logger.pushed = [7, 8] ∧
      h.logger.file = [7] ∧ ¬ h.Flushed := by
  refine ⟨_, rfl, rfl, rfl, rfl, rfl, ?_⟩
  intro hflushed
  obtain ⟨log, -, hlog⟩ := hflushed rfl 1 (by decide)
  cases hlog

def loggedBeforeSwap : List (LogAction ℕ ℕ) :=
  [.pushLog 0 7, .caller 0 10, .caller 0 10, .caller 0 10, .caller 0 10, .pushLog 0 8,
    .caller 0 11, .caller 0 11, .caller 0 11, .caller 0 11, .writer 12, .writer 12, .writer 12,
    .writer 12, .destructor, .writer 12, .writer 12, .writer 12, .writer 12, .writer 12, .writer 12]

theorem flushed_of_settled_loggedBeforeSwap :
    ∃ h : LoggerHistory ℕ ℕ, Along LoggerHistory.step Settled (new 0) loggedBeforeSwap ∧
      runGuarded LoggerHistory.step (new 0) loggedBeforeSwap = some h ∧
      h.logger.writer = .returned ∧ h.beforeDone = [0, 1] ∧ h.Flushed := by
  have halong : Along LoggerHistory.step Settled (new 0) loggedBeforeSwap := by decide
  exact ⟨_, halong, rfl, rfl, rfl, (flushed_of_settled 0 loggedBeforeSwap _ rfl).1 halong⟩

end LoggerHistory
end HttpReactor
