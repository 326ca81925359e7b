import PkgsrcPatches.Lib.Bytes

/-! The Internet checksum: the one's complement of the one's-complement sum of
16-bit words, an odd last byte padded with zero. -/
namespace PkgsrcPatches.Lib.InternetChecksum
open Bytes

def words : List UInt8 → List Nat
  | [] => []
  | [a] => [256 * a.toNat]
  | a :: b :: rest => (256 * a.toNat + b.toNat) :: words rest

def add1c (a w : Nat) : Nat := (a + w) % 65536 + (a + w) / 65536

def sum1c (b : List UInt8) : Nat := (words b).foldl add1c 0

def checksum (b : List UInt8) : Nat := 65535 - sum1c b

/-! ### The sum modulo 65535 -/

/-- The representative of a residue that end-around carry ends in: zero only for
an empty sum. -/
def rep (n : Nat) : Nat := if n = 0 then 0 else (n - 1) % 65535 + 1

theorem add1c_rep (n w : Nat) (hw : w < 65536) : add1c (rep n) w = rep (n + w) := by
  unfold add1c rep
  split <;> split <;> omega

theorem words_lt (b : List UInt8) : ∀ w ∈ words b, w < 65536 := by
  induction b using words.induct with
  | case1 => simp [words]
  | case2 a =>
    have := a.toNat_lt
    simp only [words, List.mem_singleton, forall_eq]; omega
  | case3 a b rest ih =>
    have := a.toNat_lt
    have := b.toNat_lt
    simp only [words, List.mem_cons, forall_eq_or_imp]
    exact ⟨by omega, ih⟩

theorem foldl_add1c (ws : List Nat) (n : Nat) (h : ∀ w ∈ ws, w < 65536) :
    ws.foldl add1c (rep n) = rep (n + ws.sum) := by
  induction ws generalizing n with
  | nil => simp
  | cons w ws ih =>
    have hw := h w (by simp)
    rw [List.foldl_cons, add1c_rep n w hw, ih _ (fun x hx => h x (by simp [hx])), List.sum_cons,
      Nat.add_assoc]

theorem sum1c_eq (b : List UInt8) : sum1c b = rep (words b).sum := by
  have h := foldl_add1c (words b) 0 (words_lt b)
  simpa [sum1c, rep] using h

theorem checksum_lt (b : List UInt8) : checksum b < 65536 := by
  rw [checksum]; omega

theorem words_append (a b : List UInt8) (h : a.length % 2 = 0) :
    words (a ++ b) = words a ++ words b := by
  induction a using words.induct with
  | case1 => rfl
  | case2 x => simp at h
  | case3 x y rest ih =>
    have hr : rest.length % 2 = 0 := by
      simp only [List.length_cons] at h; omega
    simp [words, ih hr]

theorem words_beBytes_two (v : Nat) (h : v < 65536) : words (beBytes 2 v) = [v] := by
  have h1 : (UInt8.ofNat v).toNat = v % 256 := by simp
  have h2 : (UInt8.ofNat (v / 256)).toNat = v / 256 % 256 := by simp
  simp only [beBytes, leBytes, List.reverse_cons, List.reverse_nil, List.nil_append,
    List.cons_append, words, h1, h2, List.cons.injEq, and_true]
  omega

theorem sum_words_field (a b : List UInt8) (v : Nat) (ha : a.length % 2 = 0) (hv : v < 65536) :
    (words (a ++ beBytes 2 v ++ b)).sum = (words (a ++ beBytes 2 0 ++ b)).sum + v := by
  have hl (u : Nat) : (a ++ beBytes 2 u).length % 2 = 0 := by
    simp only [List.length_append, beBytes_length]; omega
  rw [words_append _ b (hl v), words_append _ b (hl 0), words_append a _ ha, words_append a _ ha,
    words_beBytes_two v hv, words_beBytes_two 0 (by omega)]
  simp only [List.sum_append, List.sum_cons, List.sum_nil]
  omega

/-- Data that carries its own checksum checks to zero: the field is summed as
zero by the sender, and a computed zero may be sent as `0xffff`. -/
theorem checksum_self (a b : List UInt8) (v : Nat) (ha : a.length % 2 = 0)
    (hne : (words (a ++ beBytes 2 0 ++ b)).sum ≠ 0)
    (hv : v = checksum (a ++ beBytes 2 0 ++ b) ∨
      checksum (a ++ beBytes 2 0 ++ b) = 0 ∧ v = 65535) :
    checksum (a ++ beBytes 2 v ++ b) = 0 := by
  have hlt := checksum_lt (a ++ beBytes 2 0 ++ b)
  have hv' : v < 65536 := by omega
  simp only [checksum, sum1c_eq, sum_words_field a b v ha hv'] at *
  generalize (words (a ++ beBytes 2 0 ++ b)).sum = n at *
  simp only [rep, hne, if_false] at hv ⊢
  split <;> omega

end PkgsrcPatches.Lib.InternetChecksum
