import Mathlib.Algebra.Order.Kleene
import Mathlib.Algebra.BigOperators.Intervals
import Mathlib.Algebra.BigOperators.Ring.Finset
import Mathlib.Logic.Relation

/-! Counted repetition in an idempotent semiring, and the relations between the
positions of a text as one, with a star: what a regular expression matches leads
from one position to another. -/
namespace PkgsrcPatches.Lib.Kleene

section Counted
variable {K : Type*} [IdemSemiring K]

def between (a : K) (lo hi : Nat) : K := ∑ k ∈ Finset.Icc lo hi, a ^ k

theorem optional_pow (a : K) (n : Nat) : (1 + a) ^ n = ∑ k ∈ Finset.range (n+1), a ^ k := by
  induction n with
  | zero => simp
  | succ n ih =>
    have hshift : (∑ k ∈ Finset.range (n+1), a ^ k) * a = ∑ k ∈ Finset.range (n+1), a ^ (k+1) := by
      rw [Finset.sum_mul]
      simp only [pow_succ]
    have hempty : (∑ k ∈ Finset.range (n+1), a ^ k) + 1 = ∑ k ∈ Finset.range (n+1), a ^ k := by
      rw [Finset.sum_range_succ', pow_zero, add_assoc, add_idem]
    calc
      (1 + a) ^ (n+1) = (1 + a) ^ n + (1 + a) ^ n * a := by rw [pow_succ, mul_add, mul_one]
      _ = (∑ k ∈ Finset.range (n+1), a ^ k) + ∑ k ∈ Finset.range (n+1), a ^ (k+1) := by
            rw [ih, hshift]
      -- one empty run more changes nothing, as addition is idempotent
      _ = (∑ k ∈ Finset.range (n+1), a ^ k) + ∑ k ∈ Finset.range (n+2), a ^ k := by
            rw [Finset.sum_range_succ' _ (n+1), pow_zero, add_comm _ (1 : K), ← add_assoc, hempty]
      _ = ∑ k ∈ Finset.range (n+2), a ^ k := by
            rw [Finset.sum_range_succ _ (n+1), ← add_assoc, add_idem]

theorem between_eq (a : K) {lo hi : Nat} (h : lo ≤ hi) :
    between a lo hi = a ^ lo * (1 + a) ^ (hi - lo) := by
  rw [optional_pow, Finset.mul_sum]
  simp only [← pow_add]
  unfold between
  rw [← Finset.Ico_add_one_right_eq_Icc, Finset.sum_Ico_eq_sum_range]
  congr 2
  omega

end Counted

/-- What leads from one position to another. -/
def Steps (P : Type*) := P → P → Prop

namespace Steps
variable {P : Type*}

@[ext] theorem ext {a b : Steps P} (h : ∀ p q, a p q ↔ b p q) : a = b :=
  funext fun p => funext fun q => propext (h p q)

instance : Zero (Steps P) := ⟨fun _ _ => False⟩
instance : One (Steps P) := ⟨Eq⟩
instance : Add (Steps P) := ⟨fun a b p q => a p q ∨ b p q⟩
instance : Mul (Steps P) := ⟨Relation.Comp⟩

theorem zero_apply (p q : P) : (0 : Steps P) p q ↔ False := Iff.rfl
theorem add_apply (a b : Steps P) (p q : P) : (a + b) p q ↔ a p q ∨ b p q := Iff.rfl
theorem mul_apply (a b : Steps P) (p q : P) : (a * b) p q ↔ ∃ r, a p r ∧ b r q := Iff.rfl

instance : Semiring (Steps P) where
  add_assoc a b c := by ext p q; simp only [add_apply, or_assoc]
  zero_add a := by ext p q; simp only [add_apply, zero_apply, false_or]
  add_zero a := by ext p q; simp only [add_apply, zero_apply, or_false]
  add_comm a b := by ext p q; simp only [add_apply, or_comm]
  nsmul := nsmulRec
  left_distrib a b c := by
    ext p q
    simp only [add_apply, mul_apply, and_or_left, exists_or]
  right_distrib a b c := by
    ext p q
    simp only [add_apply, mul_apply, or_and_right, exists_or]
  zero_mul a := by ext p q; simp only [mul_apply, zero_apply, false_and, exists_false]
  mul_zero a := by ext p q; simp only [mul_apply, zero_apply, and_false, exists_false]
  mul_assoc _ _ _ := Relation.comp_assoc
  one_mul _ := Relation.eq_comp
  mul_one _ := Relation.comp_eq

instance : IdemSemiring (Steps P) :=
  IdemSemiring.ofSemiring fun a => by ext p q; simp only [add_apply, or_self]

instance : KStar (Steps P) := ⟨Relation.ReflTransGen⟩

end Steps
end PkgsrcPatches.Lib.Kleene
