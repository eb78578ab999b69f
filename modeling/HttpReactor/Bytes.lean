import Mathlib.Data.List.TakeWhile
import Mathlib.Tactic.Common

/-!
# Byte strings, views and decimal texts

`std::string` and `DynamicByteArray` are both lists of bytes. A `std::string_view`
keeps what its buffer holds after the viewed part, because some helpers read a
view through `data()` up to the terminating NUL. Buffers are NUL terminated; the
terminator is not listed.
-/

namespace HttpReactor

abbrev Byte := UInt8
abbrev Bytes := List Byte
abbrev DynamicByteArray := List Byte

def sizeModulus : ℕ := 18446744073709551616

def ascii (s : String) : Bytes := s.toList.map fun c => UInt8.ofNat c.toNat

/-- What a C interface reads from a NUL-terminated buffer holding `s`. -/
def cstr (s : Bytes) : Bytes := s.takeWhile (· ≠ 0)

theorem cstr_eq_self {s : Bytes} (h : (0 : Byte) ∉ s) : cstr s = s := by
  refine List.takeWhile_eq_self_iff.mpr fun b hb => ?_
  have hne : b ≠ 0 := fun he => h (he ▸ hb)
  simpa using hne

theorem cstr_append_of_notMem {s : Bytes} (h : (0 : Byte) ∉ s) (x : Bytes) :
    cstr (s ++ x) = s ++ cstr x := by
  rw [cstr, List.takeWhile_append_of_pos]
  · rfl
  · intro b hb
    have hne : b ≠ 0 := fun he => h (he ▸ hb)
    simpa using hne

theorem cstr_eq_self_iff {s : Bytes} : cstr s = s ↔ (0 : Byte) ∉ s := by
  constructor
  · intro h hm
    rw [cstr, List.takeWhile_eq_self_iff] at h
    exact absurd (h 0 hm) (by decide)
  · exact cstr_eq_self

theorem zero_notMem_cstr (s : Bytes) : (0 : Byte) ∉ cstr s := by
  intro hm
  exact absurd (List.mem_takeWhile_imp hm) (by decide)

theorem cstr_append_of_mem {s : Bytes} (h : (0 : Byte) ∈ s) (x : Bytes) :
    cstr (s ++ x) = cstr s := by
  rw [cstr, List.takeWhile_append, if_neg]
  · rfl
  · intro hlen
    have heq : s.takeWhile (· ≠ 0) = s := (List.takeWhile_prefix _).eq_of_length hlen
    exact cstr_eq_self_iff.mp heq h

theorem cstr_terminated (s : Bytes) : cstr (s ++ [0]) = cstr s := by
  by_cases h : (0 : Byte) ∈ s
  · exact cstr_append_of_mem h [0]
  · rw [cstr_append_of_notMem h, cstr_eq_self h]
    exact List.append_nil s

structure StringView where
  bytes : Bytes
  rest : Bytes
deriving DecidableEq

def StringView.ofString (s : Bytes) : StringView := ⟨s, []⟩

/-- `std::string(view.data())`. -/
def StringView.data (v : StringView) : Bytes := cstr (v.bytes ++ v.rest)

def toDecimalFuel : ℕ → ℕ → Bytes
  | 0, _ => []
  | fuel + 1, n =>
    if n < 10 then [UInt8.ofNat (48 + n)]
    else toDecimalFuel fuel (n / 10) ++ [UInt8.ofNat (48 + n % 10)]

def toDecimal (n : ℕ) : Bytes := toDecimalFuel (n + 1) n

def digitValue (b : Byte) : Option ℕ :=
  if 48 ≤ b.toNat ∧ b.toNat ≤ 57 then some (b.toNat - 48) else none

def decimalFold (acc : ℕ) : Bytes → Option ℕ
  | [] => some acc
  | b :: bs => (digitValue b).bind fun d => decimalFold (10 * acc + d) bs

def decimalValue (s : Bytes) : Option ℕ :=
  if s = [] then none else decimalFold 0 s

theorem decimalFold_append (acc : ℕ) (s t : Bytes) :
    decimalFold acc (s ++ t) = (decimalFold acc s).bind fun v => decimalFold v t := by
  induction s generalizing acc with
  | nil => rfl
  | cons b bs ih =>
    simp only [List.cons_append, decimalFold]
    cases digitValue b with
    | none => rfl
    | some d => exact ih _

theorem digitValue_ofNat {d : ℕ} (hd : d < 10) : digitValue (UInt8.ofNat (48 + d)) = some d := by
  have hn : (UInt8.ofNat (48 + d)).toNat = 48 + d := by
    rw [UInt8.toNat_ofNat']
    omega
  rw [digitValue, hn, if_pos (by omega)]
  congr 1
  omega

theorem decimalFold_toDecimalFuel {fuel n : ℕ} (h : n < fuel) :
    decimalFold 0 (toDecimalFuel fuel n) = some n := by
  induction fuel generalizing n with
  | zero => omega
  | succ fuel ih =>
    simp only [toDecimalFuel]
    split_ifs with hn
    · simp only [decimalFold, digitValue_ofNat hn, Option.bind_some]
      congr 1
      omega
    · rw [decimalFold_append, ih (by omega)]
      simp only [Option.bind_some, decimalFold, digitValue_ofNat (Nat.mod_lt n (by omega))]
      congr 1
      omega

theorem toDecimal_ne_nil (n : ℕ) : toDecimal n ≠ [] := by
  simp only [toDecimal, toDecimalFuel]
  split_ifs <;> simp

theorem decimalValue_toDecimal (n : ℕ) : decimalValue (toDecimal n) = some n := by
  rw [decimalValue, if_neg (toDecimal_ne_nil n)]
  exact decimalFold_toDecimalFuel (Nat.lt_succ_self n)

end HttpReactor
