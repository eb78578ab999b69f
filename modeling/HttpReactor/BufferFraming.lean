import HttpReactor.Connection
import HttpReactor.Refinement

/-!
# Framing the content of a buffer

A buffer is filled from the back and emptied by `FindAndPopTill` for one target. Whatever the
order of the calls, the strings popped so far are the first frames of all bytes pushed so far,
and what the buffer holds is the rest of these bytes (`run_frames`). Popping until nothing is
found gives all frames, so the result is a function of the bytes.
-/

namespace HttpReactor
open ListSearch Refinement

inductive BufferCall
  | pushBackUnsafe (data : Bytes)
  | pushBack (str : Bytes)
  | pushBackArray (otherBuffer : DynamicByteArray)
  | findAndPopTill
deriving DecidableEq, Repr

def BufferCall.bytes : BufferCall → Bytes
  | .pushBackUnsafe data => data
  | .pushBack str => str
  | .pushBackArray otherBuffer => otherBuffer
  | .findAndPopTill => []

namespace Buffer

def step (target : Bytes) (buf : Buffer) : BufferCall → Option Bytes × Buffer
  | .pushBackUnsafe data => (none, buf.pushBackUnsafe data)
  | .pushBack str => (none, buf.pushBack str)
  | .pushBackArray otherBuffer => (none, buf.pushBackArray otherBuffer)
  | .findAndPopTill => buf.findAndPopTill target

def pushed (calls : List BufferCall) : Bytes := (calls.map BufferCall.bytes).flatten

def runCalls (target : Bytes) (calls : List BufferCall) : List Bytes × Buffer :=
  let r := run (step target) [] calls
  (r.1.reduceOption, r.2)

/-- Popping until nothing is found; `none` while that has not happened within the fuel. -/
def drainLoop (target : Bytes) : ℕ → Buffer → List Bytes → Option (List Bytes × Buffer)
  | 0, _, _ => none
  | fuel + 1, buf, popped =>
    match buf.findAndPopTill target with
    | (some str, buf) => drainLoop target fuel buf (popped ++ [str])
    | (none, buf) => some (popped, buf)

theorem findAndPopTill_eq_none {buf target : Bytes} (h : (findAndPopTill buf target).1 = none) :
    (findAndPopTill buf target).2 = buf := by
  cases hc : cut target buf with
  | none => rw [findAndPopTill_of_cut_none hc]
  | some q =>
    rw [findAndPopTill_of_cut_some hc] at h
    cases h

variable {target : Bytes}

theorem step_frames (ht : target ≠ []) (buf : Buffer) (call : BufferCall) (later : Bytes) :
    frames target (buf ++ call.bytes ++ later) =
      ((step target buf call).1.toList ++ (frames target ((step target buf call).2 ++ later)).1,
        (frames target ((step target buf call).2 ++ later)).2) := by
  cases call with
  | pushBackUnsafe data => rfl
  | pushBack str => rfl
  | pushBackArray otherBuffer => rfl
  | findAndPopTill =>
    simp only [BufferCall.bytes, List.append_nil, step]
    cases hc : cut target buf with
    | none =>
      rw [findAndPopTill_of_cut_none hc]
      rfl
    | some q =>
      rw [findAndPopTill_of_cut_some hc, frames_of_cut_some ht (cut_append ht hc later)]
      rfl

theorem run_frames (ht : target ≠ []) (calls : List BufferCall) (buf : Buffer) :
    frames target (buf ++ pushed calls) =
      ((run (step target) buf calls).1.reduceOption ++
          (frames target (run (step target) buf calls).2).1,
        (frames target (run (step target) buf calls).2).2) := by
  induction calls generalizing buf with
  | nil =>
    rw [pushed, List.map_nil, List.flatten_nil, List.append_nil]
    rfl
  | cons call calls ih =>
    have hpushed : pushed (call :: calls) = call.bytes ++ pushed calls := rfl
    rw [hpushed, ← List.append_assoc, step_frames ht, ih]
    simp only [run]
    cases (step target buf call).1 with
    | none => rfl
    | some str => rfl

theorem runCalls_frames (ht : target ≠ []) (calls : List BufferCall) :
    frames target (pushed calls) =
      ((runCalls target calls).1 ++ (frames target (runCalls target calls).2).1,
        (frames target (runCalls target calls).2).2) :=
  run_frames ht calls []

theorem drainLoop_eq (ht : target ≠ []) {fuel : ℕ} {buf : Buffer} (hfuel : buf.length < fuel)
    (popped : List Bytes) :
    drainLoop target fuel buf popped =
      some (popped ++ (frames target buf).1, (frames target buf).2) := by
  induction buf using frames_induction ht generalizing fuel popped with
  | stop buf hc =>
    obtain ⟨fuel, rfl⟩ : ∃ k, fuel = k + 1 := ⟨fuel - 1, by omega⟩
    rw [drainLoop, findAndPopTill_of_cut_none hc, frames_of_cut_none hc]
    simp
  | step buf str rest hc ih =>
    obtain ⟨fuel, rfl⟩ : ∃ k, fuel = k + 1 := ⟨fuel - 1, by omega⟩
    have hlt := cut_length_lt ht hc
    rw [drainLoop, findAndPopTill_of_cut_some hc, frames_of_cut_some ht hc]
    change drainLoop target fuel rest (popped ++ [str]) = _
    rw [ih (by omega)]
    simp

/-- For every target and every sequence of calls on an empty buffer: no byte is lost, each
popped string ends with the first occurrence of the target in it, a call that finds nothing
changes nothing, and draining ends with a result that only the pushed bytes determine. -/
theorem framing_conserves (ht : target ≠ []) (calls : List BufferCall) :
    (runCalls target calls).1.flatten ++ (runCalls target calls).2 = pushed calls ∧
    (∀ str ∈ (runCalls target calls).1, target <:+ str ∧
      ∀ i, target <+: str.drop i → i + target.length = str.length) ∧
    ((findAndPopTill (runCalls target calls).2 target).1 = none →
      (findAndPopTill (runCalls target calls).2 target).2 = (runCalls target calls).2) ∧
    ∃ popped rest, findAndPopTill rest target = (none, rest) ∧
      ∀ calls', pushed calls' = pushed calls → ∀ fuel, (runCalls target calls').2.length < fuel →
        drainLoop target fuel (runCalls target calls').2 (runCalls target calls').1 =
          some (popped, rest) := by
  have hframes := runCalls_frames ht calls
  refine ⟨?_, ?_, findAndPopTill_eq_none, (frames target (pushed calls)).1,
    (frames target (pushed calls)).2, ?_, ?_⟩
  · have hall := frames_flatten ht (pushed calls)
    rw [hframes] at hall
    simp only [List.flatten_append, List.append_assoc] at hall
    rwa [frames_flatten ht] at hall
  · intro str hstr
    have hmem : str ∈ (frames target (pushed calls)).1 := by
      rw [hframes]
      exact List.mem_append_left _ hstr
    obtain ⟨s, rest, hcut⟩ := exists_cut_of_mem_frames ht hmem
    exact ⟨cut_suffix hcut, fun i => (cut_occurrence_iff ht hcut).mp⟩
  · exact findAndPopTill_of_cut_none (frames_remainder ht _)
  · intro calls' hsame fuel hfuel
    rw [drainLoop_eq ht hfuel, ← runCalls_frames ht calls', hsame]

theorem framing_conserves_overlapping :
    ascii "aa" ≠ [] ∧
    drainLoop (ascii "aa") 4 (runCalls (ascii "aa") [.pushBack (ascii "ba"), .findAndPopTill,
      .pushBackUnsafe (ascii "aa"), .findAndPopTill, .pushBackArray (ascii "ac")]).2
      (runCalls (ascii "aa") [.pushBack (ascii "ba"), .findAndPopTill,
        .pushBackUnsafe (ascii "aa"), .findAndPopTill, .pushBackArray (ascii "ac")]).1 =
      some ([ascii "baa", ascii "aa"], ascii "c") ∧
    drainLoop (ascii "aa") 7 (runCalls (ascii "aa") [.pushBack (ascii "baaaac")]).2
      (runCalls (ascii "aa") [.pushBack (ascii "baaaac")]).1 =
      some ([ascii "baa", ascii "aa"], ascii "c") := by
  obtain ⟨-, -, -, popped, rest, -, hdrain⟩ :=
    framing_conserves (show ascii "aa" ≠ [] by decide) [.pushBack (ascii "baaaac")]
  have hwhole := hdrain [.pushBack (ascii "baaaac")] rfl 7 (by decide)
  have hcut := hdrain [.pushBack (ascii "ba"), .findAndPopTill, .pushBackUnsafe (ascii "aa"),
    .findAndPopTill, .pushBackArray (ascii "ac")] (by decide) 4 (by decide)
  have hresult : drainLoop (ascii "aa") 7 (runCalls (ascii "aa") [.pushBack (ascii "baaaac")]).2
      (runCalls (ascii "aa") [.pushBack (ascii "baaaac")]).1 =
      some ([ascii "baa", ascii "aa"], ascii "c") := by decide
  exact ⟨by decide, hcut.trans (hwhole.symm.trans hresult), hresult⟩

end Buffer
end HttpReactor
