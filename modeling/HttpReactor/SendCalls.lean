import HttpReactor.Connection
import Mathlib.Data.Set.Finite.Lattice

/-!
# The calls that `Send` makes

The loop of `Send` counts in `ssize_t` and offers its slices in `size_t`. Here it runs with
both conversions written out, against a kernel that answers call after call without end, and
keeps a record of what it offered. `SentTo` is what holds between two calls: the bytes accepted
so far are those before the offset. The loop ends because the calls that make no progress are
finitely many (`sendCalls_returns`), and the bytes it gets accepted are those that
`Connection.send` says (`accepted_eq_send`).
-/

namespace HttpReactor

def ptrdiffMax : ℕ := 9223372036854775807

def toSsize (n : ℕ) : ℤ := Int.bmod n sizeModulus

def toSize (i : ℤ) : ℕ := (i % sizeModulus).toNat

/-- The content of a `std::vector` of bytes, which has at most `PTRDIFF_MAX` of them. -/
structure ByteVector where
  bytes : Bytes
  fits : bytes.length ≤ ptrdiffMax

structure SendCall where
  offset : ℤ
  length : ℕ
  outcome : SendOutcome
deriving DecidableEq, Repr

def SendOutcome.retried : SendOutcome → Bool
  | .took _ => false
  | .failed e => e.retried

namespace SendCall

def accepted (buf : Bytes) (call : SendCall) : Bytes :=
  match call.outcome with
  | .took extra => (buf.drop call.offset.toNat).take (min (extra + 1) call.length)
  | .failed _ => []

def Inside (buf : Bytes) (call : SendCall) : Prop :=
  0 ≤ call.offset ∧ 0 < call.length ∧ call.offset + call.length ≤ buf.length

def Aborts (call : SendCall) : Prop := ∃ e, call.outcome = .failed e ∧ e.retried = false

end SendCall

def accepted (buf : Bytes) (calls : List SendCall) : Bytes :=
  (calls.map (SendCall.accepted buf)).flatten

/-- The loop of `Send` from call `n` on; `none` while it has not ended within the fuel. -/
def sendCalls (toWrite : ℤ) (script : ℕ → SendOutcome) :
    ℕ → ℕ → ℤ → List SendCall → Option (List SendCall)
  | 0, _, _, _ => none
  | fuel + 1, n, currWrite, calls =>
    if currWrite < toWrite then
      let offered := toSize (toWrite - currWrite)
      let made := calls ++ [⟨currWrite, offered, script n⟩]
      match script n with
      | .took extra =>
        sendCalls toWrite script fuel (n + 1) (currWrite + ↑(min (extra + 1) offered)) made
      | .failed e =>
        if e.retried then sendCalls toWrite script fuel (n + 1) currWrite made else some made
    else some calls

namespace ByteVector

def clear : ByteVector := ⟨[], Nat.zero_le _⟩

def write (v str : ByteVector) : Option ByteVector :=
  if h : (v.bytes ++ str.bytes).length ≤ ptrdiffMax then some ⟨v.bytes ++ str.bytes, h⟩ else none

def send (v : ByteVector) (script : ℕ → SendOutcome) (fuel : ℕ) :
    Option (List SendCall × ByteVector) :=
  (sendCalls (toSsize v.bytes.length) script fuel 0 0 []).map fun calls => (calls, clear)

end ByteVector

theorem toSsize_eq {n : ℕ} (h : n ≤ ptrdiffMax) : toSsize n = n := by
  rw [ptrdiffMax] at h
  rw [toSsize, sizeModulus]
  exact Int.bmod_eq_of_le (by omega) (by omega)

theorem toSize_sub {k n : ℕ} (hk : k ≤ n) (hn : n ≤ ptrdiffMax) :
    toSize ((n : ℤ) - k) = n - k := by
  rw [ptrdiffMax] at hn
  rw [toSize, sizeModulus]
  omega

theorem accepted_append (buf : Bytes) (calls : List SendCall) (call : SendCall) :
    accepted buf (calls ++ [call]) = accepted buf calls ++ call.accepted buf := by
  simp [accepted]

variable {buf : Bytes} {script : ℕ → SendOutcome}

theorem sendCalls_round (hfits : buf.length ≤ ptrdiffMax) {k : ℕ} (hk : k < buf.length)
    (fuel n : ℕ) (calls : List SendCall) :
    sendCalls buf.length script (fuel + 1) n k calls =
      match script n with
      | .took extra =>
        sendCalls buf.length script fuel (n + 1) (k + min (extra + 1) (buf.length - k) : ℕ)
          (calls ++ [⟨k, buf.length - k, .took extra⟩])
      | .failed e =>
        if e.retried then
          sendCalls buf.length script fuel (n + 1) k (calls ++ [⟨k, buf.length - k, .failed e⟩])
        else some (calls ++ [⟨k, buf.length - k, .failed e⟩]) := by
  rw [sendCalls, if_pos (by omega)]
  simp only [toSize_sub hk.le hfits]
  cases script n with
  | took extra => simp only [Int.natCast_add]
  | failed e => rfl

theorem sendCalls_end {k : ℕ} (hk : buf.length ≤ k) (fuel n : ℕ) (calls : List SendCall) :
    sendCalls buf.length script (fuel + 1) n k calls = some calls := by
  rw [sendCalls, if_neg (by omega)]

/-! ## The loop returns -/

theorem sendCalls_ends (hfits : buf.length ≤ ptrdiffMax) {last : ℕ}
    (hlast : ∀ n, last ≤ n → (script n).retried = false) {n k fuel : ℕ}
    (hfuel : (last - n) + (buf.length - k) < fuel) (calls : List SendCall) :
    ∃ result, ∀ more, sendCalls buf.length script (fuel + more) n k calls = some result := by
  induction fuel generalizing n k calls with
  | zero => omega
  | succ fuel ih =>
    by_cases hk : k < buf.length
    · simp only [Nat.add_right_comm fuel 1, sendCalls_round hfits hk]
      cases hout : script n with
      | took extra => exact ih (by omega) _
      | failed e =>
        simp only []
        split_ifs with he
        · have hn : n < last := by
            by_contra hle
            have hnone := hlast n (by omega)
            rw [hout] at hnone
            exact absurd (he.symm.trans hnone) (by decide)
          exact ih (by omega) _
        · exact ⟨_, fun _ => rfl⟩
    · refine ⟨calls, fun more => ?_⟩
      rw [Nat.add_right_comm, sendCalls_end (by omega)]

theorem sendCalls_returns (hfits : buf.length ≤ ptrdiffMax)
    (hfinite : {n | (script n).retried = true}.Finite) :
    ∃ result enough, ∀ fuel, enough ≤ fuel →
      sendCalls buf.length script fuel 0 0 [] = some result := by
  obtain ⟨last, hlast⟩ := hfinite.bddAbove
  have hnone : ∀ n, last + 1 ≤ n → (script n).retried = false := by
    intro n hn
    by_contra hretried
    have hle := hlast (show n ∈ {n | (script n).retried = true} by simpa using hretried)
    omega
  obtain ⟨result, hresult⟩ := sendCalls_ends (n := 0) (k := 0) hfits hnone (Nat.lt_succ_self _) []
  refine ⟨result, last + 1 - 0 + (buf.length - 0) + 1, fun fuel hfuel => ?_⟩
  obtain ⟨more, rfl⟩ := Nat.exists_eq_add_of_le hfuel
  exact hresult more

/-! ## What the kernel has accepted -/

structure SentTo (buf : Bytes) (k : ℕ) (calls : List SendCall) : Prop where
  within : k ≤ buf.length
  accepted : accepted buf calls = buf.take k
  inside : ∀ call ∈ calls, call.Inside buf

theorem SentTo.start (buf : Bytes) : SentTo buf 0 [] where
  within := Nat.zero_le _
  accepted := rfl
  inside := fun _ h => by cases h

theorem SentTo.offer {k : ℕ} {calls : List SendCall} (h : SentTo buf k calls)
    (hk : k < buf.length) (out : SendOutcome) :
    ∀ call ∈ calls ++ [⟨k, buf.length - k, out⟩], call.Inside buf := by
  intro call hcall
  rcases List.mem_append.mp hcall with hold | hnew
  · exact h.inside call hold
  · rw [List.mem_singleton.mp hnew]
    rw [SendCall.Inside]
    dsimp only
    omega

theorem SentTo.took {k : ℕ} {calls : List SendCall} (h : SentTo buf k calls)
    (hk : k < buf.length) (extra : ℕ) :
    SentTo buf (k + min (extra + 1) (buf.length - k))
      (calls ++ [⟨k, buf.length - k, .took extra⟩]) where
  within := by omega
  accepted := by
    rw [accepted_append, h.accepted, List.take_add]
    rfl
  inside := h.offer hk _

theorem SentTo.failed {k : ℕ} {calls : List SendCall} (h : SentTo buf k calls)
    (hk : k < buf.length) (e : Errno) :
    SentTo buf k (calls ++ [⟨k, buf.length - k, .failed e⟩]) where
  within := h.within
  accepted := by
    rw [accepted_append, h.accepted]
    exact List.append_nil _
  inside := h.offer hk _

theorem sendCalls_sentTo (hfits : buf.length ≤ ptrdiffMax) {fuel n k : ℕ}
    {calls result : List SendCall} (h : SentTo buf k calls)
    (hrun : sendCalls buf.length script fuel n k calls = some result) :
    ∃ k', SentTo buf k' result ∧ (k' = buf.length ∨ ∃ call ∈ result, call.Aborts) := by
  induction fuel generalizing n k calls with
  | zero => cases hrun
  | succ fuel ih =>
    by_cases hk : k < buf.length
    · rw [sendCalls_round hfits hk] at hrun
      cases hout : script n with
      | took extra =>
        rw [hout] at hrun
        exact ih (h.took hk extra) hrun
      | failed e =>
        rw [hout] at hrun
        simp only [] at hrun
        split_ifs at hrun with he
        · exact ih (h.failed hk e) hrun
        · cases hrun
          exact ⟨k, h.failed hk e, .inr ⟨_, List.mem_append_right _ List.mem_cons_self, e, rfl,
            Bool.eq_false_iff.mpr he⟩⟩
    · rw [sendCalls_end (by omega)] at hrun
      cases hrun
      exact ⟨k, h, .inl (Nat.le_antisymm h.within (by omega))⟩

/-! ## The outcomes as a list -/

def scriptOf (buf : Bytes) (outs : List SendOutcome) (n : ℕ) : SendOutcome :=
  outs.getD n (.took buf.length)

theorem sendCalls_sendLoop (hfits : buf.length ≤ ptrdiffMax) {outs : List SendOutcome}
    {fuel n k : ℕ} {calls result : List SendCall}
    (hscript : ∀ i, script (n + i) = scriptOf buf outs i)
    (hrun : sendCalls buf.length script fuel n k calls = some result) :
    accepted buf result = accepted buf calls ++ (Connection.sendLoop buf buf.length outs k).1 := by
  induction fuel generalizing outs n k calls with
  | zero => cases hrun
  | succ fuel ih =>
    have hhead := hscript 0
    rw [Nat.add_zero] at hhead
    by_cases hk : k < buf.length
    · rw [sendCalls_round hfits hk, hhead] at hrun
      cases outs with
      | nil =>
        -- the kernel takes the rest, and the loop ends in the next round
        have hrest : ∀ i, script (n + 1 + i) = scriptOf buf [] i := fun i => by
          rw [Nat.add_assoc, hscript]
          rfl
        rw [ih hrest hrun, accepted_append, Connection.sendLoop, Connection.sendLoop, if_pos hk,
          if_neg (by omega), List.append_nil]
        have hmin : min (buf.length + 1) (buf.length - k) = buf.length - k := by omega
        rw [SendCall.accepted]
        simp only [hmin, Int.toNat_natCast]
      | cons out outs =>
        have hrest : ∀ i, script (n + 1 + i) = scriptOf buf outs i := fun i => by
          rw [Nat.add_assoc, hscript, Nat.add_comm 1]
          rfl
        have hout : scriptOf buf (out :: outs) 0 = out := rfl
        rw [hout] at hrun
        simp only [Connection.sendLoop, if_pos hk]
        cases out with
        | took extra =>
          rw [ih hrest hrun, accepted_append, List.append_assoc]
          rfl
        | failed e =>
          simp only [] at hrun ⊢
          split_ifs at hrun ⊢ with he
          · rw [ih hrest hrun, accepted_append, SendCall.accepted, List.append_nil]
          · cases hrun
            rw [accepted_append, SendCall.accepted]
    · rw [sendCalls_end (by omega)] at hrun
      cases hrun
      cases outs with
      | nil => rw [Connection.sendLoop, if_neg hk, List.append_nil]
      | cons out outs => simp only [Connection.sendLoop, if_neg hk, List.append_nil]

/-! ## What `Send` promises -/

theorem ByteVector.send_eq (v : ByteVector) (script : ℕ → SendOutcome) (fuel : ℕ) :
    v.send script fuel =
      (sendCalls v.bytes.length script fuel 0 0 []).map fun calls => (calls, clear) := by
  rw [send, toSsize_eq v.fits]

theorem ByteVector.accepted_prefix {v after : ByteVector} {fuel : ℕ} {calls : List SendCall}
    (h : v.send script fuel = some (calls, after)) : accepted v.bytes calls <+: v.bytes := by
  rw [send_eq, Option.map_eq_some_iff] at h
  obtain ⟨result, hrun, heq⟩ := h
  cases heq
  obtain ⟨k, hsent, -⟩ := sendCalls_sentTo v.fits (k := 0) (.start v.bytes) hrun
  rw [hsent.accepted]
  exact List.take_prefix k v.bytes

theorem ByteVector.accepted_eq_send {v after : ByteVector} {outs : List SendOutcome} {fuel : ℕ}
    {calls : List SendCall} {c : Connection} (hc : c.writeBuffer = v.bytes)
    (h : v.send (scriptOf v.bytes outs) fuel = some (calls, after)) :
    accepted v.bytes calls = (c.send outs).2.1 := by
  rw [send_eq, Option.map_eq_some_iff] at h
  obtain ⟨result, hrun, heq⟩ := h
  cases heq
  rw [sendCalls_sendLoop v.fits (k := 0) (fun i => by rw [Nat.zero_add]) hrun, Connection.send, hc]
  rfl

/-- `Send` returns on every script in which the retried failures are finitely many. What the
kernel accepts is a prefix of the write buffer, the whole of it unless another errno occurs;
every slice offered lies in the buffer; and the buffer is empty afterwards, so that the next
`Write` and `Send` get only the new bytes accepted. -/
theorem ByteVector.send_delivers_once (v : ByteVector) {script : ℕ → SendOutcome}
    (hfinite : {n | (script n).retried = true}.Finite) :
    ∃ calls after, (∃ enough, ∀ fuel, enough ≤ fuel → v.send script fuel = some (calls, after)) ∧
      accepted v.bytes calls <+: v.bytes ∧
      ((∀ call ∈ calls, ¬ call.Aborts) → accepted v.bytes calls = v.bytes) ∧
      (∀ call ∈ calls, call.Inside v.bytes) ∧ after.bytes = [] ∧
      ∀ str written script' fuel calls' after', after.write str = some written →
        written.send script' fuel = some (calls', after') →
          accepted written.bytes calls' <+: str.bytes := by
  obtain ⟨calls, enough, hreturn⟩ := sendCalls_returns v.fits hfinite
  have hsend : ∀ fuel, enough ≤ fuel → v.send script fuel = some (calls, clear) := by
    intro fuel hfuel
    rw [send_eq, hreturn fuel hfuel]
    rfl
  obtain ⟨k, hsent, hend⟩ :=
    sendCalls_sentTo v.fits (k := 0) (.start v.bytes) (hreturn enough le_rfl)
  refine ⟨calls, clear, ⟨enough, hsend⟩, accepted_prefix (hsend enough le_rfl), ?_, hsent.inside,
    rfl, ?_⟩
  · intro hnone
    rcases hend with rfl | ⟨call, hcall, haborts⟩
    · rw [hsent.accepted, List.take_length]
    · exact absurd haborts (hnone call hcall)
  · intro str written script' fuel calls' after' hwrite hnext
    have hbytes : written.bytes = str.bytes := by
      rw [write] at hwrite
      split_ifs at hwrite
      cases hwrite
      rfl
    rw [← hbytes]
    exact accepted_prefix hnext

def hello : ByteVector := ⟨ascii "hello", by decide⟩

def interrupted (n : ℕ) : SendOutcome :=
  if n = 1 then .failed .EINTR else .took (n + 1)

theorem ByteVector.send_delivers_once_interrupted :
    {n | (interrupted n).retried = true}.Finite ∧
    (hello.send interrupted 4).map (fun r => (accepted hello.bytes r.1, r.2.bytes)) =
      some (ascii "hello", []) ∧
    ∃ calls after, (∃ enough, ∀ fuel, enough ≤ fuel →
        hello.send interrupted fuel = some (calls, after)) ∧
      accepted hello.bytes calls <+: hello.bytes ∧ after.bytes = [] := by
  have hfinite : {n | (interrupted n).retried = true}.Finite := by
    refine (Set.finite_singleton 1).subset fun n hn => ?_
    by_contra hne
    have htook : interrupted n = .took (n + 1) := if_neg hne
    have hretried : (interrupted n).retried = true := hn
    rw [htook] at hretried
    cases hretried
  obtain ⟨calls, after, hreturns, hprefix, -, -, hafter, -⟩ :=
    hello.send_delivers_once hfinite
  exact ⟨hfinite, by decide, calls, after, hreturns, hprefix, hafter⟩

end HttpReactor
