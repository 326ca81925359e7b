import Mathlib.Algebra.Order.Ring.Nat

/-! A C loop as a body run pass after pass. A body that reads outside its
buffer has no next pass, and a loop that outlives its passes spins. -/
namespace PkgsrcPatches.Lib.Loop
variable {σ ρ : Type*}

inductive Pass (σ ρ : Type*) where
  | next (s : σ)
  | done (r : ρ)

inductive Exit (ρ : Type*) where
  | ret (r : ρ)
  | stray
  | spin
deriving DecidableEq

def run (body : σ → Option (Pass σ ρ)) : Nat → σ → Exit ρ
  | 0, _ => .spin
  | n+1, s => match body s with
    | none => .stray
    | some (.next s') => run body n s'
    | some (.done r) => .ret r

theorem run_next {body : σ → Option (Pass σ ρ)} {s s' : σ} (n : Nat)
    (h : body s = some (.next s')) : run body (n+1) s = run body n s' := by
  simp only [run, h]

theorem run_done {body : σ → Option (Pass σ ρ)} {s : σ} {r : ρ} (n : Nat)
    (h : body s = some (.done r)) : run body (n+1) s = .ret r := by
  simp only [run, h]

/-! ### Rules -/

def Pass.Holds (P : σ → Prop) (Q : ρ → Prop) : Pass σ ρ → Prop
  | .next s => P s
  | .done r => Q r

theorem Pass.Holds.imp {P P' : σ → Prop} {Q : ρ → Prop} {p : Pass σ ρ} (h : p.Holds P Q)
    (hP : ∀ s, P s → P' s) : p.Holds P' Q := by
  cases p with
  | next s => exact hP s h
  | done r => exact h

/-- Partial correctness: however many passes the loop gets, it stays in bounds
and what it returns is good. -/
theorem run_safe {body : σ → Option (Pass σ ρ)} {Inv : σ → Prop} {Q : ρ → Prop}
    (hbody : ∀ s, Inv s → ∃ p, body s = some p ∧ p.Holds Inv Q) (n : Nat) (s : σ) (hs : Inv s) :
    run body n s = .spin ∨ ∃ r, run body n s = .ret r ∧ Q r := by
  induction n generalizing s with
  | zero => exact Or.inl rfl
  | succ n ih =>
    obtain ⟨p, hp, hh⟩ := hbody s hs
    cases p with
    | next s' => rw [run_next n hp]; exact ih s' hh
    | done r => exact Or.inr ⟨r, run_done n hp, hh⟩

/-- Total correctness: what each pass makes smaller bounds the passes. -/
theorem run_total {body : σ → Option (Pass σ ρ)} {Inv : σ → Prop} {Q : ρ → Prop} (μ : σ → Nat)
    (hbody : ∀ s, Inv s → ∃ p, body s = some p ∧ p.Holds (fun s' => Inv s' ∧ μ s' < μ s) Q)
    (n : Nat) (s : σ) (hs : Inv s) (hn : μ s < n) : ∃ r, run body n s = .ret r ∧ Q r := by
  induction n generalizing s with
  | zero => omega
  | succ n ih =>
    obtain ⟨p, hp, hh⟩ := hbody s hs
    cases p with
    | next s' =>
      rw [run_next n hp]
      exact ih s' hh.1 (by have := hh.2; omega)
    | done r => exact ⟨r, run_done n hp, hh⟩

theorem run_congr {body body' : σ → Option (Pass σ ρ)} {P : σ → Prop}
    (hbody : ∀ s, P s → body s = body' s)
    (hnext : ∀ s s', P s → body s = some (.next s') → P s') (n : Nat) (s : σ) (hs : P s) :
    run body n s = run body' n s := by
  induction n generalizing s with
  | zero => rfl
  | succ n ih =>
    rw [run, run, ← hbody s hs]
    cases hp : body s with
    | none => rfl
    | some p =>
      cases p with
      | next s' => exact ih s' (hnext s s' hs hp)
      | done r => rfl

/-- A pass that leads back to where it started is the last the loop ever does. -/
theorem run_stuck {body : σ → Option (Pass σ ρ)} {s : σ} (h : body s = some (.next s)) (n : Nat) :
    run body n s = .spin := by
  induction n with
  | zero => rfl
  | succ n ih => rw [run_next n h, ih]

end PkgsrcPatches.Lib.Loop
