import Mathlib.Algebra.Order.Ring.Nat

/-! Byte strings with bounded reads. A checked read answers `none` outside the
string; the unchecked `beAt` is what it returns inside. -/
namespace PkgsrcPatches.Lib.Bytes

def leNat : List UInt8 → Nat
  | [] => 0
  | x :: b => x.toNat + 256 * leNat b

def beNat (b : List UInt8) : Nat := leNat b.reverse

def leBytes : Nat → Nat → List UInt8
  | 0, _ => []
  | n+1, v => UInt8.ofNat v :: leBytes n (v / 256)

def beBytes (n v : Nat) : List UInt8 := (leBytes n v).reverse

def slice (b : List UInt8) (i n : Nat) : List UInt8 := (b.drop i).take n
def beAt (b : List UInt8) (i n : Nat) : Nat := beNat (slice b i n)

def slice? (b : List UInt8) (i n : Nat) : Option (List UInt8) :=
  if i + n ≤ b.length then some (slice b i n) else none
def be? (b : List UInt8) (i n : Nat) : Option Nat := (slice? b i n).map beNat
def le? (b : List UInt8) (i n : Nat) : Option Nat := (slice? b i n).map leNat

theorem leNat_lt (b : List UInt8) : leNat b < 256 ^ b.length := by
  induction b with
  | nil => simp [leNat]
  | cons x b ih =>
    have hx : x.toNat < 256 := x.toNat_lt
    rw [leNat, List.length_cons, Nat.pow_succ]
    omega

theorem beNat_lt (b : List UInt8) : beNat b < 256 ^ b.length := by
  simpa [beNat] using leNat_lt b.reverse

theorem leBytes_length (n v : Nat) : (leBytes n v).length = n := by
  induction n generalizing v with
  | zero => rfl
  | succ n ih => simp [leBytes, ih]

theorem beBytes_length (n v : Nat) : (beBytes n v).length = n := by
  simp [beBytes, leBytes_length]

theorem leNat_leBytes (n v : Nat) (h : v < 256 ^ n) : leNat (leBytes n v) = v := by
  induction n generalizing v with
  | zero => simp [leBytes, leNat]; omega
  | succ n ih =>
    have hv : v / 256 < 256 ^ n := by
      rw [Nat.pow_succ] at h
      exact Nat.div_lt_of_lt_mul (by omega)
    have hx : (UInt8.ofNat v).toNat = v % 256 := by simp
    rw [leBytes, leNat, ih _ hv, hx]
    omega

theorem beNat_beBytes (n v : Nat) (h : v < 256 ^ n) : beNat (beBytes n v) = v := by
  simp [beNat, beBytes, leNat_leBytes n v h]

/-! ### Slices of a concatenation -/

theorem length_slice (b : List UInt8) (i n : Nat) : (slice b i n).length = min n (b.length - i) := by
  simp [slice]

theorem slice_length (b : List UInt8) (i n : Nat) (h : i + n ≤ b.length) :
    (slice b i n).length = n := by
  rw [length_slice]; omega

theorem slice_append_left (a b : List UInt8) (i n : Nat) (h : i + n ≤ a.length) :
    slice (a ++ b) i n = slice a i n := by
  simp only [slice]
  rw [List.drop_append_of_le_length (by omega), List.take_append_of_le_length (by simp; omega)]

theorem slice_append_right (a b : List UInt8) (i n : Nat) :
    slice (a ++ b) (a.length + i) n = slice b i n := by
  have h : a.drop (a.length + i) = [] := List.drop_eq_nil_of_le (by omega)
  simp [slice, List.drop_append, h]

theorem slice_drop (b : List UInt8) (k i n : Nat) : slice (b.drop k) i n = slice b (k + i) n := by
  simp [slice, List.drop_drop]

theorem slice_all (b : List UInt8) : slice b 0 b.length = b := by simp [slice]

theorem slice_slice (b : List UInt8) (k m i n : Nat) (h : i + n ≤ m) :
    slice (slice b k m) i n = slice b (k + i) n := by
  simp only [slice, List.drop_take, List.take_take, List.drop_drop]
  congr 1
  omega

theorem slice_take (b : List UInt8) (m i n : Nat) (h : i + n ≤ m) :
    slice (b.take m) i n = slice b i n := by
  have hs := slice_slice b 0 m i n h
  rwa [Nat.zero_add, slice, slice, List.drop_zero] at hs

theorem slice?_of_le {b : List UInt8} {i n : Nat} (h : i + n ≤ b.length) :
    slice? b i n = some (slice b i n) := if_pos h

theorem be?_of_le {b : List UInt8} {i n : Nat} (h : i + n ≤ b.length) :
    be? b i n = some (beAt b i n) := by
  simp [be?, slice?_of_le h, beAt]

theorem be?_of_lt {b : List UInt8} {i n : Nat} (h : b.length < i + n) : be? b i n = none := by
  simp [be?, slice?, Nat.not_le.mpr h]

theorem be?_eq_some {b : List UInt8} {i n v : Nat} :
    be? b i n = some v ↔ i + n ≤ b.length ∧ beAt b i n = v := by
  by_cases h : i + n ≤ b.length
  · simp [be?_of_le h, h]
  · simp [be?_of_lt (Nat.lt_of_not_le h), h]

theorem slice?_append_left (a b : List UInt8) (i n : Nat) (h : i + n ≤ a.length) :
    slice? (a ++ b) i n = slice? a i n := by
  rw [slice?_of_le h, slice?_of_le (by simp; omega), slice_append_left a b i n h]

theorem slice?_append_right (a b : List UInt8) (i n : Nat) :
    slice? (a ++ b) (a.length + i) n = slice? b i n := by
  simp only [slice?, slice_append_right, List.length_append]
  congr 1
  simp only [eq_iff_iff]
  omega

theorem beAt_lt (b : List UInt8) (i n : Nat) : beAt b i n < 256 ^ n := by
  have h := beNat_lt (slice b i n)
  have hl : (slice b i n).length ≤ n := by simp only [slice, List.length_take]; omega
  exact Nat.lt_of_lt_of_le h (Nat.pow_le_pow_right (by omega) hl)

theorem beAt_drop (b : List UInt8) (k i n : Nat) : beAt (b.drop k) i n = beAt b (k + i) n := by
  simp only [beAt, slice_drop]

theorem beAt_slice (b : List UInt8) (k m i n : Nat) (h : i + n ≤ m) :
    beAt (slice b k m) i n = beAt b (k + i) n := by
  simp only [beAt, slice_slice b k m i n h]

theorem beAt_append_right (a b : List UInt8) (i n : Nat) :
    beAt (a ++ b) (a.length + i) n = beAt b i n := by
  simp only [beAt, slice_append_right]

theorem beAt_append_left (a b : List UInt8) (i n : Nat) (h : i + n ≤ a.length) :
    beAt (a ++ b) i n = beAt a i n := by
  simp only [beAt, slice_append_left a b i n h]

theorem cut_eq_min (n room : Nat) : (if room < n then room else n) = min n room := by
  split <;> omega

/-! ### Reading a field back from what was written -/

theorem slice_skip (a b : List UInt8) {i n : Nat} (h : a.length ≤ i) :
    slice (a ++ b) i n = slice b (i - a.length) n := by
  rw [← slice_append_right a b (i - a.length) n, show a.length + (i - a.length) = i by omega]

theorem beAt_skip (a b : List UInt8) {i n : Nat} (h : a.length ≤ i) :
    beAt (a ++ b) i n = beAt b (i - a.length) n := by
  simp only [beAt, slice_skip a b h]

theorem beAt_cons_skip (x : UInt8) (b : List UInt8) {i n : Nat} (h : 1 ≤ i) :
    beAt (x :: b) i n = beAt b (i - 1) n := beAt_skip [x] b h

theorem beAt_beBytes (n v : Nat) (b : List UInt8) (h : v < 256 ^ n) :
    beAt (beBytes n v ++ b) 0 n = v := by
  have hs : slice (beBytes n v ++ b) 0 n = beBytes n v := by
    rw [slice, List.drop_zero, List.take_left' (beBytes_length n v)]
  rw [beAt, hs, beNat_beBytes n v h]

end PkgsrcPatches.Lib.Bytes
