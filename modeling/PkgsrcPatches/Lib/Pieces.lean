import Mathlib.Data.List.Basic

/-! A text that comes in pieces, and readers that wait for as much of it as they want. -/
namespace PkgsrcPatches.Lib.Pieces
variable {α : Type*}

/-- What has come and is still to be read, and the pieces that are to come. -/
structure Incoming (α : Type*) where
  text : List α
  arriving : List (List α)

def Incoming.all (w : Incoming α) : List α := w.text ++ w.arriving.flatten

/-- Takes pieces until the text is as wanted; `none` if it never is. -/
def await (p : List α → Bool) (text : List α) : List (List α) → Option (Incoming α)
  | [] => if p text then some ⟨text, []⟩ else none
  | c :: cs => if p text then some ⟨text, c :: cs⟩ else await p (text ++ c) cs

variable {p : List α → Bool}

theorem await_some {cs : List (List α)} {text : List α} {w : Incoming α}
    (h : await p text cs = some w) :
    p w.text = true ∧ w.all = text ++ cs.flatten ∧ text <+: w.text := by
  induction cs generalizing text with
  | nil =>
    rw [await, Option.ite_none_right_eq_some, Option.some.injEq] at h
    obtain ⟨hp, rfl⟩ := h
    exact ⟨hp, rfl, List.prefix_rfl⟩
  | cons c cs ih =>
    rw [await] at h
    by_cases hp : p text = true
    · rw [if_pos hp, Option.some.injEq] at h
      subst h
      exact ⟨hp, rfl, List.prefix_rfl⟩
    · rw [if_neg hp] at h
      obtain ⟨hw, hall, hpre⟩ := ih h
      refine ⟨hw, ?_, (List.prefix_append text c).trans hpre⟩
      rw [hall, List.append_assoc, List.flatten_cons]

theorem await_comes {cs : List (List α)} {text : List α} (h : p (text ++ cs.flatten) = true) :
    ∃ w, await p text cs = some w := by
  induction cs generalizing text with
  | nil =>
    rw [List.flatten_nil, List.append_nil] at h
    exact ⟨⟨text, []⟩, by rw [await, if_pos h]⟩
  | cons c cs ih =>
    rw [await]
    by_cases hp : p text = true
    · exact ⟨⟨text, c :: cs⟩, if_pos hp⟩
    · rw [if_neg hp]
      apply ih
      rwa [List.append_assoc, ← List.flatten_cons]

end PkgsrcPatches.Lib.Pieces
