import PkgsrcPatches.Lib.Loop

/-! The states a loop comes to, and what they say of the passes it needs. -/
namespace PkgsrcPatches.Lib.Loop
variable {σ ρ : Type*} {body : σ → Option (Pass σ ρ)}

inductive Comes (body : σ → Option (Pass σ ρ)) (s : σ) : σ → Prop
  | start : Comes body s s
  | next {s' s'' : σ} (h : Comes body s s') (hp : body s' = some (.next s'')) : Comes body s s''

/-- A loop that comes to a pass leading nowhere never returns. -/
theorem Comes.stuck {s s' : σ} (h : Comes body s s')
    (hs : ∀ n, run body n s' = .spin) (n : Nat) : run body n s = .spin := by
  induction h generalizing n with
  | start => exact hs n
  | next _ hp ih =>
    apply ih
    intro m
    cases m with
    | zero => rfl
    | succ m => rw [run_next m hp, hs m]

theorem run_mono {n m : Nat} {s : σ} {x : ρ}
    (h : run body n s = .ret x) (hnm : n ≤ m) : run body m s = .ret x := by
  induction n generalizing m s with
  | zero => cases h
  | succ n ih =>
    obtain ⟨k, rfl⟩ := Nat.exists_eq_add_of_le hnm
    rw [Nat.add_right_comm]
    rw [run] at h ⊢
    cases hb : body s with
    | none =>
      rw [hb] at h
      cases h
    | some p =>
      cases p with
      | done r =>
        rw [hb] at h
        exact h
      | next s' =>
        rw [hb] at h
        exact ih h (Nat.le_add_right n k)

theorem run_unique {n m : Nat} {s : σ} {x y : ρ} (hn : run body n s = .ret x)
    (hm : run body m s = .ret y) : x = y := by
  have hx := run_mono hn (Nat.le_max_left n m)
  have hy := run_mono hm (Nat.le_max_right n m)
  exact Exit.ret.inj (hx.symm.trans hy)

end PkgsrcPatches.Lib.Loop
