import HttpReactor.Bytes
import HttpReactor.ListSearch

/-!
# Buffers and the receive and send loops of a connection

The kernel's answers to `recv` and `send` are scripts. A `recv` past the end of its
script has nothing to read and answers EAGAIN; a `send` past the end of its script
takes all that is offered. Every finite sequence of answers is thus a script, and
both loops return on every script. A kernel that answers EAGAIN to `send`, or interrupts
either call, without end is left out: the loops then do not return.
-/

namespace HttpReactor
open ListSearch

abbrev Buffer := Bytes

namespace Buffer

def pushBackUnsafe (buf : Buffer) (data : Bytes) : Buffer := buf ++ data

def pushBack (buf : Buffer) (str : Bytes) : Buffer := buf.pushBackUnsafe str

def pushBackArray (buf : Buffer) (otherBuffer : DynamicByteArray) : Buffer := buf ++ otherBuffer

def findAndPopTill (buf : Buffer) (target : Bytes) : Option Bytes × Buffer :=
  match find target buf with
  | some pos => (some (buf.take (pos + target.length)), buf.drop (pos + target.length))
  | none => (none, buf)

theorem findAndPopTill_of_cut_none {buf target : Bytes} (h : cut target buf = none) :
    findAndPopTill buf target = (none, buf) := by
  rw [findAndPopTill, find_eq_none_iff.mpr (cut_eq_none_iff.mp h)]

theorem findAndPopTill_of_cut_some {buf target p r : Bytes} (h : cut target buf = some (p, r)) :
    findAndPopTill buf target = (some p, r) := by
  obtain ⟨i, hi, rfl, rfl⟩ := cut_eq_some_iff.mp h
  rw [findAndPopTill, hi]
  simp only [take_add_length_of_find hi]

theorem findAndPopTill_eq_some_iff {buf target p r : Bytes} :
    findAndPopTill buf target = (some p, r) ↔ cut target buf = some (p, r) := by
  constructor
  · intro h
    cases hc : cut target buf with
    | none => rw [findAndPopTill_of_cut_none hc] at h; simp at h
    | some q =>
      rw [findAndPopTill_of_cut_some hc] at h
      simpa [Prod.ext_iff] using h
  · exact findAndPopTill_of_cut_some

end Buffer

inductive Errno
  | EINTR
  | EAGAIN
  | EWOULDBLOCK
  | other (code : ℕ)
deriving DecidableEq, Repr

def Errno.retried (e : Errno) : Bool := e = .EINTR ∨ e = .EAGAIN ∨ e = .EWOULDBLOCK

def kBufferSize : ℕ := 2048

structure Chunk where
  bytes : Bytes
  nonempty : 0 < bytes.length
  fits : bytes.length ≤ kBufferSize

inductive RecvOutcome
  | data (chunk : Chunk)
  | closed
  | failed (errno : Errno)

inductive SendOutcome
  /-- The kernel takes `extra + 1` bytes, or all that is offered when that is less. -/
  | took (extra : ℕ)
  | failed (errno : Errno)
deriving DecidableEq, Repr

structure Connection where
  readBuffer : Buffer
  writeBuffer : Buffer
deriving DecidableEq, Repr

namespace Connection

def receiveLoop : List RecvOutcome → Buffer → ℕ → Buffer × ℕ × Bool
  | [], buf, read => (buf, read, false)
  | .data chunk :: outs, buf, read =>
    receiveLoop outs (buf.pushBackUnsafe chunk.bytes) (read + chunk.bytes.length)
  | .closed :: _, buf, read => (buf, read, true)
  | .failed .EINTR :: outs, buf, read => receiveLoop outs buf read
  | .failed .EAGAIN :: _, buf, read => (buf, read, false)
  | .failed .EWOULDBLOCK :: _, buf, read => (buf, read, false)
  | .failed (.other _) :: _, buf, read => (buf, read, true)

def receive (c : Connection) (outs : List RecvOutcome) : Connection × ℕ × Bool :=
  let r := receiveLoop outs c.readBuffer 0
  ({ c with readBuffer := r.1 }, r.2)

def delivered : List RecvOutcome → Bytes
  | .data chunk :: outs => chunk.bytes ++ delivered outs
  | .failed .EINTR :: outs => delivered outs
  | _ => []

def exits : List RecvOutcome → Bool
  | .data _ :: outs => exits outs
  | .failed .EINTR :: outs => exits outs
  | .closed :: _ => true
  | .failed (.other _) :: _ => true
  | _ => false

theorem receiveLoop_eq (outs : List RecvOutcome) (buf : Buffer) (read : ℕ) :
    receiveLoop outs buf read =
      (buf ++ delivered outs, read + (delivered outs).length, exits outs) := by
  induction outs generalizing buf read with
  | nil => simp [receiveLoop, delivered, exits]
  | cons out outs ih =>
    rcases out with chunk | _ | ⟨_ | _ | _ | code⟩
    · simp [receiveLoop, delivered, exits, ih, Buffer.pushBackUnsafe, Nat.add_assoc]
    · simp [receiveLoop, delivered, exits]
    · simp [receiveLoop, delivered, exits, ih]
    · simp [receiveLoop, delivered, exits]
    · simp [receiveLoop, delivered, exits]
    · simp [receiveLoop, delivered, exits]

theorem receive_eq (c : Connection) (outs : List RecvOutcome) :
    c.receive outs = ({ c with readBuffer := c.readBuffer ++ delivered outs },
      (delivered outs).length, exits outs) := by
  simp [receive, receiveLoop_eq]

def StaysConnected (outs : List RecvOutcome) : Prop :=
  ∀ out ∈ outs, (∃ chunk, out = .data chunk) ∨ out = .failed .EINTR

theorem exits_of_staysConnected {outs : List RecvOutcome} (h : StaysConnected outs) :
    exits outs = false := by
  induction outs with
  | nil => rfl
  | cons out outs ih =>
    have ht := ih fun o ho => h o (List.mem_cons_of_mem _ ho)
    rcases h out List.mem_cons_self with ⟨chunk, rfl⟩ | rfl
    · exact ht
    · exact ht

def findAndPopTill (c : Connection) (target : Bytes) : Option Bytes × Connection :=
  let r := c.readBuffer.findAndPopTill target
  (r.1, { c with readBuffer := r.2 })

def write (c : Connection) (otherBuf : DynamicByteArray) : Connection :=
  { c with writeBuffer := c.writeBuffer.pushBackUnsafe otherBuf }

/-- The loop of `Send` from offset `currWrite` on: the bytes the kernel takes and what is
left of its script. -/
def sendLoop (buf : Bytes) (toWrite : ℕ) :
    List SendOutcome → ℕ → Bytes × List SendOutcome
  | [], currWrite =>
    if currWrite < toWrite then ((buf.drop currWrite).take (toWrite - currWrite), [])
    else ([], [])
  | out :: outs, currWrite =>
    if currWrite < toWrite then
      match out with
      | .took extra =>
        let write := min (extra + 1) (toWrite - currWrite)
        let r := sendLoop buf toWrite outs (currWrite + write)
        ((buf.drop currWrite).take write ++ r.1, r.2)
      | .failed e => if e.retried then sendLoop buf toWrite outs currWrite else ([], outs)
    else ([], out :: outs)

/-- Both exits of `Send` clear the write buffer; only the bytes taken differ. -/
def send (c : Connection) (outs : List SendOutcome) : Connection × Bytes × List SendOutcome :=
  let r := sendLoop c.writeBuffer c.writeBuffer.length outs 0
  ({ c with writeBuffer := [] }, r)

/-- A `Send` with `remaining` bytes to go meets an errno it does not retry. -/
def sendAborts : ℕ → List SendOutcome → Bool
  | _, [] => false
  | 0, _ => false
  | remaining + 1, .took extra :: outs => sendAborts (remaining - extra) outs
  | remaining + 1, .failed e :: outs =>
    if e.retried then sendAborts (remaining + 1) outs else true

/-- A `Send` meets an errno it does not retry before the kernel takes a byte. -/
def sendRefused : List SendOutcome → Bool
  | .failed e :: outs => if e.retried then sendRefused outs else true
  | _ => false

theorem sendLoop_prefix (buf : Bytes) (outs : List SendOutcome) (curr : ℕ) :
    (sendLoop buf buf.length outs curr).1 <+: buf.drop curr := by
  induction outs generalizing curr with
  | nil =>
    simp only [sendLoop]
    split_ifs
    · exact List.take_prefix _ _
    · exact List.nil_prefix
  | cons out outs ih =>
    simp only [sendLoop]
    split_ifs with hlt
    · cases out with
      | took extra =>
        simp only []
        generalize min (extra + 1) (buf.length - curr) = k
        have hr := ih (curr + k)
        rw [← List.drop_drop] at hr
        conv_rhs => rw [← List.take_append_drop k (buf.drop curr)]
        exact (List.prefix_append_right_inj _).mpr hr
      | failed e =>
        simp only []
        split_ifs
        · exact ih curr
        · exact List.nil_prefix
    · exact List.nil_prefix

theorem sendLoop_complete {buf : Bytes} {outs : List SendOutcome} {curr : ℕ}
    (h : sendAborts (buf.length - curr) outs = false) :
    (sendLoop buf buf.length outs curr).1 = buf.drop curr := by
  induction outs generalizing curr with
  | nil =>
    simp only [sendLoop]
    split_ifs with hlt
    · rw [← List.length_drop, List.take_length]
    · exact (List.drop_eq_nil_of_le (by omega)).symm
  | cons out outs ih =>
    simp only [sendLoop]
    split_ifs with hlt
    · obtain ⟨n, hn⟩ : ∃ n, buf.length - curr = n + 1 := ⟨buf.length - curr - 1, by omega⟩
      rw [hn] at h ⊢
      cases out with
      | took extra =>
        simp only [sendAborts] at h
        have hrest : buf.length - (curr + min (extra + 1) (n + 1)) = n - extra := by omega
        simp only [ih (hrest ▸ h)]
        rw [← List.drop_drop, List.take_append_drop]
      | failed e =>
        simp only [sendAborts] at h ⊢
        split_ifs at h ⊢ with he
        exact ih (hn ▸ h)
    · exact (List.drop_eq_nil_of_le (by omega)).symm

theorem sendLoop_aborted {buf : Bytes} {outs : List SendOutcome} {curr : ℕ}
    (h : sendAborts (buf.length - curr) outs = true) :
    (sendLoop buf buf.length outs curr).1.length < buf.length - curr := by
  induction outs generalizing curr with
  | nil => cases hn : buf.length - curr <;> simp [sendAborts] at h
  | cons out outs ih =>
    cases hn : buf.length - curr with
    | zero => simp [hn, sendAborts] at h
    | succ n =>
      have hlt : curr < buf.length := by omega
      rw [hn] at h
      simp only [sendLoop, if_pos hlt]
      cases out with
      | took extra =>
        simp only [sendAborts] at h
        have hrest : buf.length - (curr + min (extra + 1) (n + 1)) = n - extra := by omega
        have hr := ih (hrest ▸ h)
        simp only [hn, List.length_append, List.length_take, List.length_drop]
        omega
      | failed e =>
        simp only [sendAborts] at h
        simp only []
        split_ifs at h ⊢ with he
        · exact hn ▸ ih (hn ▸ h)
        · exact Nat.succ_pos n

theorem sendLoop_eq_nil_iff {buf : Bytes} {outs : List SendOutcome} {curr : ℕ}
    (hlt : curr < buf.length) :
    (sendLoop buf buf.length outs curr).1 = [] ↔ sendRefused outs = true := by
  induction outs with
  | nil =>
    simp only [sendLoop, if_pos hlt, sendRefused, Bool.false_eq_true, iff_false]
    rw [← List.length_drop, List.take_length]
    exact fun h => absurd (List.drop_eq_nil_iff.mp h) (by omega)
  | cons out outs ih =>
    simp only [sendLoop, if_pos hlt]
    cases out with
    | took extra =>
      simp only [sendRefused, Bool.false_eq_true, iff_false]
      intro h
      have ht := congrArg List.length (List.append_eq_nil_iff.mp h).1
      simp only [List.length_take, List.length_drop, List.length_nil] at ht
      omega
    | failed e =>
      simp only [sendRefused]
      split_ifs with he
      · exact ih
      · simp

theorem send_complete {c : Connection} {outs : List SendOutcome}
    (h : sendAborts c.writeBuffer.length outs = false) : (c.send outs).2.1 = c.writeBuffer := by
  have hc : sendAborts (c.writeBuffer.length - 0) outs = false := h
  simpa [send] using sendLoop_complete hc

def Delivers (outs : List SendOutcome) : Prop :=
  ∀ out ∈ outs, ∀ e, out = .failed e → e.retried = true

theorem sendAborts_of_delivers {outs : List SendOutcome} (h : Delivers outs) (n : ℕ) :
    sendAborts n outs = false := by
  induction outs generalizing n with
  | nil => cases n <;> rfl
  | cons out outs ih =>
    have ht : Delivers outs := fun o ho => h o (List.mem_cons_of_mem _ ho)
    cases n with
    | zero => rfl
    | succ n =>
      cases out with
      | took extra => exact ih ht _
      | failed e =>
        rw [sendAborts, if_pos (h _ List.mem_cons_self e rfl)]
        exact ih ht _

theorem sendLoop_suffix (buf : Bytes) (n : ℕ) (outs : List SendOutcome) (curr : ℕ) :
    (sendLoop buf n outs curr).2 <:+ outs := by
  induction outs generalizing curr with
  | nil => simp only [sendLoop]; split_ifs <;> exact List.suffix_rfl
  | cons out outs ih =>
    simp only [sendLoop]
    split_ifs
    · cases out with
      | took extra => exact (ih _).trans (List.suffix_cons _ _)
      | failed e =>
        simp only []
        split_ifs
        · exact (ih _).trans (List.suffix_cons _ _)
        · exact List.suffix_cons _ _
    · exact List.suffix_rfl

theorem delivers_send {c : Connection} {outs : List SendOutcome} (h : Delivers outs) :
    Delivers (c.send outs).2.2 :=
  fun out ho => h out ((sendLoop_suffix _ _ outs 0).subset ho)

end Connection

end HttpReactor
