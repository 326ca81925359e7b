import Mathlib.Algebra.Order.Ring.Nat
import Mathlib.Data.List.Basic

/-! C strings: the bytes before the terminator, none of which is NUL. -/
namespace PkgsrcPatches.Lib

@[ext] structure CString where
  bytes : List UInt8
  noNul : (0 : UInt8) ∉ bytes
deriving DecidableEq

namespace CString

def strlen (s : CString) : Nat := s.bytes.length

def lit (s : String) : CString :=
  ⟨(s.toList.map fun c => UInt8.ofNat c.toNat).filter (· ≠ 0), by simp⟩

def append (s t : CString) : CString :=
  ⟨s.bytes ++ t.bytes, by
    intro h
    cases List.mem_append.mp h with
    | inl h => exact s.noNul h
    | inr h => exact t.noNul h⟩

instance : Append CString := ⟨append⟩

@[simp] theorem bytes_append (s t : CString) : (s ++ t).bytes = s.bytes ++ t.bytes := rfl

@[simp] theorem strlen_append (s t : CString) : (s ++ t).strlen = s.strlen + t.strlen :=
  List.length_append

def count (s : CString) (c : UInt8) : Nat := s.bytes.count c

@[simp] theorem count_append (s t : CString) (c : UInt8) :
    (s ++ t).count c = s.count c + t.count c :=
  List.count_append

end CString

/-- The widths that decide an overflow: `int` has 32 bits, `size_t` has at least as many. -/
structure DataModel where
  sizeBits : Nat
  wide : 32 ≤ sizeBits

theorem size_t_wide : 32 ≤ 64 := by decide

def DataModel.lp64 : DataModel := ⟨64, size_t_wide⟩

def intMax : Nat := 2 ^ 31 - 1

/-- `size_t` arithmetic is taken modulo its width. -/
def DataModel.sizeT (m : DataModel) (n : Nat) : Nat := n % 2 ^ m.sizeBits

/-- A sum of type `int`; `none` when it overflows, where C gives it no value. -/
def addInt (n k : Nat) : Option Nat := if n + k ≤ intMax then some (n + k) else none

theorem addInt_eq_some (n k r : Nat) : addInt n k = some r ↔ r = n + k ∧ n + k ≤ intMax := by
  unfold addInt
  split
  · rename_i h
    constructor
    · intro hr
      exact ⟨(Option.some.inj hr).symm, h⟩
    · intro hr
      rw [hr.1]
  · rename_i h
    constructor
    · intro hr
      cases hr
    · intro hr
      exact absurd hr.2 h

theorem DataModel.sizeT_le (m : DataModel) (n : Nat) : m.sizeT n ≤ n := Nat.mod_le _ _

theorem DataModel.sizeT_of_lt (m : DataModel) {n : Nat} (h : n < 2 ^ m.sizeBits) : m.sizeT n = n :=
  Nat.mod_eq_of_lt h

theorem DataModel.intMax_lt (m : DataModel) : intMax < 2 ^ m.sizeBits :=
  calc intMax < 2 ^ 32 := by decide
    _ ≤ 2 ^ m.sizeBits := Nat.pow_le_pow_right (by decide) m.wide

theorem DataModel.sizeT_lt_of_le (m : DataModel) {n : Nat} (k : Nat) (h : 2 ^ m.sizeBits ≤ n)
    (hk : n ≤ k + 2 ^ 31) : m.sizeT n < k := by
  have hpow : 2 ^ 32 ≤ 2 ^ m.sizeBits := Nat.pow_le_pow_right (by decide) m.wide
  have hsplit : m.sizeT n = (n - 2 ^ m.sizeBits) % 2 ^ m.sizeBits := Nat.mod_eq_sub_mod h
  have hle : (n - 2 ^ m.sizeBits) % 2 ^ m.sizeBits ≤ n - 2 ^ m.sizeBits := Nat.mod_le _ _
  omega

end PkgsrcPatches.Lib
