import Mathlib.Data.List.Basic

/-! Runs with what is seen of their steps, simulations of one step relation by another, and what
has held since something was seen. -/
namespace PkgsrcPatches.Lib
variable {σ τ α : Type*}

inductive Run (step : σ → α → σ → Prop) (s : σ) : List α → σ → Prop
  | start : Run step s [] s
  | next {l : List α} {s' s'' : σ} {a : α} (h : Run step s l s') (hs : step s' a s'') :
      Run step s (l ++ [a]) s''

/-- Every step of the one is a step of the other, from states in relation to states in
relation. -/
def Simulates (R : σ → τ → Prop) (step : σ → α → σ → Prop) (spec : τ → α → τ → Prop) : Prop :=
  ∀ s t a s', R s t → step s a s' → ∃ t', spec t a t' ∧ R s' t'

section
variable {step : σ → α → σ → Prop} {s s' : σ} {l : List α}

/-- What holds of the start, and of a run with one step more when it holds of the run, holds of
every run. -/
theorem Run.invariant {I : List α → σ → Prop} (h : Run step s l s') (hstart : I [] s)
    (hstep : ∀ l s' a s'', I l s' → step s' a s'' → I (l ++ [a]) s'') : I l s' := by
  induction h with
  | start => exact hstart
  | next _ hs ih => exact hstep _ _ _ _ ih hs

theorem Run.last {a : α} (h : Run step s (l ++ [a]) s') :
    ∃ s'', Run step s l s'' ∧ step s'' a s' := by
  generalize hm : l ++ [a] = m at h
  cases h with
  | start => exact absurd hm (by simp)
  | next h hs =>
    obtain ⟨rfl, rfl⟩ := List.append_singleton_inj.mp hm
    exact ⟨_, h, hs⟩

theorem Simulates.run {R : σ → τ → Prop} {spec : τ → α → τ → Prop} {t : τ}
    (hR : Simulates R step spec) (h : Run step s l s') (hs : R s t) :
    ∃ t', Run spec t l t' ∧ R s' t' := by
  induction h with
  | start => exact ⟨t, .start, hs⟩
  | next _ hstep ih =>
    obtain ⟨t', hrun, hR'⟩ := ih
    obtain ⟨t'', hspec, hR''⟩ := hR _ _ _ _ hR' hstep
    exact ⟨t'', hrun.next hspec, hR''⟩

end

/-- Something has been seen, after the labels `pre` and such that `p` holds of both, and nothing
that `q` holds of has been seen since. -/
def Since (p : List α → α → Prop) (q : α → Prop) (l : List α) : Prop :=
  ∃ pre a mid, l = pre ++ a :: mid ∧ p pre a ∧ ∀ b ∈ mid, ¬ q b

section
variable {p : List α → α → Prop} {q : α → Prop} {l : List α} {a : α}

theorem not_since_nil : ¬ Since p q [] := by
  intro h
  obtain ⟨pre, a, mid, he, -, -⟩ := h
  exact absurd he.symm (by simp)

theorem since_concat : Since p q (l ++ [a]) ↔ p l a ∨ (Since p q l ∧ ¬ q a) := by
  constructor
  · intro h
    obtain ⟨pre, b, mid, he, hp, hq⟩ := h
    obtain rfl | ⟨mid, c, rfl⟩ := mid.eq_nil_or_concat'
    · obtain ⟨rfl, rfl⟩ := List.append_singleton_inj.mp he
      exact Or.inl hp
    · rw [← List.cons_append, ← List.append_assoc] at he
      obtain ⟨rfl, rfl⟩ := List.append_singleton_inj.mp he
      refine Or.inr ⟨⟨pre, b, mid, rfl, hp, ?_⟩, hq _ (by simp)⟩
      intro x hx
      exact hq x (List.mem_append_left _ hx)
  · intro h
    cases h with
    | inl hp => exact ⟨l, a, [], rfl, hp, by simp⟩
    | inr h =>
      obtain ⟨⟨pre, b, mid, rfl, hp, hq⟩, ha⟩ := h
      refine ⟨pre, b, mid ++ [a], by simp, hp, ?_⟩
      intro x hx
      cases List.mem_append.mp hx with
      | inl hx => exact hq x hx
      | inr hx =>
        rw [List.mem_singleton] at hx
        rw [hx]
        exact ha

theorem since_skip (hp : ¬ p l a) (hq : ¬ q a) : Since p q (l ++ [a]) ↔ Since p q l := by
  rw [since_concat]
  tauto

theorem since_start (hp : p l a) : Since p q (l ++ [a]) := since_concat.mpr (Or.inl hp)

theorem since_end (hp : ¬ p l a) (hq : q a) : ¬ Since p q (l ++ [a]) := by
  rw [since_concat]
  tauto

end

end PkgsrcPatches.Lib
