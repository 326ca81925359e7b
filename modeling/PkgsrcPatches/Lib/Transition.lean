import Mathlib.Init

/-! States reached from an initial one by a step relation. -/
namespace PkgsrcPatches.Lib
variable {σ : Type*}

inductive Reaches (init : σ → Prop) (step : σ → σ → Prop) : σ → Prop
  | start {s : σ} (h : init s) : Reaches init step s
  | next {s s' : σ} (h : Reaches init step s) (hs : step s s') : Reaches init step s'

/-- What holds at the start and survives every step holds of every reached state. -/
theorem Reaches.invariant {init : σ → Prop} {step : σ → σ → Prop} {inv : σ → Prop}
    (hstart : ∀ s, init s → inv s) (hstep : ∀ s s', inv s → step s s' → inv s') {s : σ}
    (h : Reaches init step s) : inv s := by
  induction h with
  | start h => exact hstart _ h
  | next _ hs ih => exact hstep _ _ ih hs

end PkgsrcPatches.Lib
