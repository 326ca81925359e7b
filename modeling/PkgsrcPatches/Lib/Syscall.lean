import Mathlib.Init

/-! Programs that call a kernel, and what holds of them whatever it answers. -/
namespace PkgsrcPatches.Lib.Syscall

/-- A program between its calls: it has come to a result, or it makes a call and goes on with
the answer. -/
inductive Prog (C : Type) (A : C → Type) (ε α : Type) where
  | ret (r : Except ε α)
  | call (c : C) (k : A c → Prog C A ε α)

/-- What a kernel in a state lets a program call, what it may answer and where that leads. -/
structure Kernel (C : Type) (A : C → Type) (σ : Type) where
  allows : σ → C → Prop
  answers : σ → (c : C) → A c → Prop
  after : σ → (c : C) → A c → σ

variable {C : Type} {A : C → Type} {ε α β σ : Type}

namespace Prog

def andThen (p : Prog C A ε α) (f : Except ε α → Prog C A ε β) : Prog C A ε β :=
  match p with
  | .ret r => f r
  | .call c k => .call c fun a => (k a).andThen f

def bind (p : Prog C A ε α) (f : α → Prog C A ε β) : Prog C A ε β :=
  p.andThen fun
    | .ok a => f a
    | .error e => .ret (.error e)

instance : Monad (Prog C A ε) where
  pure a := .ret (.ok a)
  bind := bind

def onError (p : Prog C A ε α) (cleanup : Prog C A ε Unit) : Prog C A ε α :=
  p.andThen fun
    | .ok a => .ret (.ok a)
    | .error e => cleanup.andThen fun _ => .ret (.error e)

def ignored (p : Prog C A ε Unit) : Prog C A ε Unit :=
  p.andThen fun _ => .ret (.ok ())

/-- Every call is one the kernel lets the program make, and whatever it answers, the result
and the state the program ends in are good. -/
def Meets (K : Kernel C A σ) (Q : σ → Except ε α → Prop) : Prog C A ε α → σ → Prop
  | .ret r, s => Q s r
  | .call c k, s => K.allows s c ∧ ∀ a, K.answers s c a → (k a).Meets K Q (K.after s c a)

/-- A run of a program from one state to another. -/
inductive Ends (K : Kernel C A σ) : Prog C A ε α → σ → σ → Except ε α → Prop
  | ret (r : Except ε α) (s : σ) : Ends K (.ret r) s s r
  | call {c : C} {k : A c → Prog C A ε α} {s s' : σ} {r : Except ε α} (a : A c)
      (ha : K.answers s c a) (h : Ends K (k a) (K.after s c a) s' r) : Ends K (.call c k) s s' r

variable {K : Kernel C A σ} {Q Q' : σ → Except ε α → Prop}

theorem meets_andThen {R : σ → Except ε β → Prop} (p : Prog C A ε α)
    (f : Except ε α → Prog C A ε β) (s : σ) :
    (p.andThen f).Meets K R s ↔ p.Meets K (fun s' r => (f r).Meets K R s') s := by
  induction p generalizing s with
  | ret r => exact Iff.rfl
  | call c k ih =>
    simp only [andThen, Meets]
    exact and_congr_right fun _ => forall_congr' fun a => imp_congr_right fun _ => ih a _

theorem Meets.imp {p : Prog C A ε α} {s : σ} (h : p.Meets K Q s)
    (hQ : ∀ s r, Q s r → Q' s r) : p.Meets K Q' s := by
  induction p generalizing s with
  | ret r => exact hQ s r h
  | call c k ih => exact ⟨h.1, fun a ha => ih a (h.2 a ha)⟩

/-- A result known of a part is used for what comes after it. -/
theorem Meets.andThen {R : σ → Except ε β → Prop} {p : Prog C A ε α}
    {f : Except ε α → Prog C A ε β} {s : σ} (h : p.Meets K Q s)
    (hf : ∀ s' r, Q s' r → (f r).Meets K R s') : (p.andThen f).Meets K R s := by
  rw [meets_andThen]
  exact h.imp hf

theorem Meets.bind {R : σ → Except ε β → Prop} {p : Prog C A ε α} {f : α → Prog C A ε β} {s : σ}
    (h : p.Meets K Q s) (hok : ∀ s' a, Q s' (.ok a) → (f a).Meets K R s')
    (herr : ∀ s' e, Q s' (.error e) → R s' (.error e)) : (p >>= f).Meets K R s := by
  apply h.andThen
  intro s' r hr
  cases r with
  | ok a => exact hok s' a hr
  | error e => exact herr s' e hr

theorem Meets.onError {R : σ → Except ε α → Prop} {p : Prog C A ε α} {cleanup : Prog C A ε Unit}
    {s : σ} (h : p.Meets K Q s) (hok : ∀ s' a, Q s' (.ok a) → R s' (.ok a))
    (herr : ∀ s' e, Q s' (.error e) → cleanup.Meets K (fun s'' _ => R s'' (.error e)) s') :
    (p.onError cleanup).Meets K R s := by
  apply h.andThen
  intro s' r hr
  cases r with
  | ok a => exact hok s' a hr
  | error e => exact (meets_andThen _ _ _).mpr (herr s' e hr)

/-- What is met is what every run comes to. -/
theorem Meets.ends {p : Prog C A ε α} {s s' : σ} {r : Except ε α} (h : p.Meets K Q s)
    (hr : p.Ends K s s' r) : Q s' r := by
  induction hr with
  | ret r s => exact h
  | call a ha _ ih => exact ih (h.2 a ha)

end Prog

end PkgsrcPatches.Lib.Syscall
