import Mathlib.Data.List.Basic

/-! A text cut into lines, and into the pieces that reads of a bounded length make of them. -/
namespace PkgsrcPatches.Lib.Lines
variable {α : Type*}

def consHead (c : α) : List (List α) → List (List α)
  | [] => [[c]]
  | l :: ls => (c :: l) :: ls

def lines [DecidableEq α] (nl : α) : List α → List (List α)
  | [] => []
  | c :: s => if c = nl then [c] :: lines nl s else consHead c (lines nl s)

/-- Cut behind every newline and after `room` characters, `left` of them before the first cut. -/
def pieces [DecidableEq α] (nl : α) (room : Nat) : Nat → List α → List (List α)
  | _, [] => []
  | left, c :: s =>
    if c = nl ∨ left ≤ 1 then [c] :: pieces nl room room s
    else consHead c (pieces nl room (left - 1) s)

def chomp [DecidableEq α] (nl : α) (l : List α) : List α := l.takeWhile (· ≠ nl)

/-- The first line has at most `left` characters and the others `room`. -/
def Fit (room left : Nat) (ls : List (List α)) : Prop :=
  (∀ l ∈ ls.head?, l.length ≤ left) ∧ ∀ l ∈ ls.tail, l.length ≤ room

section Lists
variable {c : α} {room left : Nat}

theorem length_consHead (ls : List (List α)) : (consHead c ls).length = max 1 ls.length := by
  cases ls with
  | nil => rfl
  | cons l ls => simp only [consHead, List.length_cons]; omega

theorem fit_cons {l : List α} {ls : List (List α)} :
    Fit room left (l :: ls) ↔ l.length ≤ left ∧ ∀ l' ∈ ls, l'.length ≤ room := by
  simp [Fit]

theorem fit_self {ls : List (List α)} : Fit room room ls ↔ ∀ l ∈ ls, l.length ≤ room := by
  cases ls with
  | nil => simp [Fit]
  | cons l ls => rw [fit_cons, List.forall_mem_cons]

theorem fit_consHead {ls : List (List α)} (hl : 1 < left) :
    Fit room left (consHead c ls) ↔ Fit room (left - 1) ls := by
  cases ls with
  | nil => simp [Fit, consHead]; omega
  | cons l ls =>
    rw [consHead, fit_cons, fit_cons, List.length_cons]
    exact and_congr_left fun _ => by omega

end Lists

section Cut
variable [DecidableEq α] {nl c : α} {room left : Nat} {s : List α}

theorem lines_cons_pos : 0 < (lines nl (c :: s)).length := by
  rw [lines]
  split
  · exact Nat.succ_pos _
  · rw [length_consHead]; omega

theorem ne_nil_of_mem_lines {l : List α} (h : l ∈ lines nl s) : l ≠ [] := by
  induction s with
  | nil => cases h
  | cons c s ih =>
    rw [lines] at h
    split at h
    · cases List.mem_cons.mp h with
      | inl h => exact h ▸ List.cons_ne_nil _ _
      | inr h => exact ih h
    · cases hs : lines nl s with
      | nil =>
        rw [hs] at h
        exact List.mem_singleton.mp h ▸ List.cons_ne_nil _ _
      | cons l' ls =>
        rw [hs] at h ih
        cases List.mem_cons.mp h with
        | inl h => exact h ▸ List.cons_ne_nil _ _
        | inr h => exact ih (List.mem_cons_of_mem _ h)

theorem pieces_eq_lines (hr : 0 < room) (hl : 0 < left) (h : Fit room left (lines nl s)) :
    pieces nl room left s = lines nl s := by
  induction s generalizing left with
  | nil => rfl
  | cons c s ih =>
    rw [lines] at h ⊢
    rw [pieces]
    by_cases hc : c = nl
    · rw [if_pos hc] at h ⊢
      rw [if_pos (Or.inl hc), ih hr (fit_self.mpr (fit_cons.mp h).2)]
    rw [if_neg hc] at h ⊢
    by_cases hone : left ≤ 1
    · rw [if_pos (Or.inr hone)]
      cases s with
      | nil => rfl
      | cons d s =>
        obtain ⟨l, ls, hs⟩ := List.exists_cons_of_length_pos (lines_cons_pos : 0 < (lines nl (d :: s)).length)
        have hlen := List.length_pos_of_ne_nil (ne_nil_of_mem_lines (hs ▸ List.mem_cons_self))
        rw [hs, consHead, fit_cons, List.length_cons] at h
        omega
    · rw [if_neg (not_or.mpr ⟨hc, hone⟩), ih (by omega) ((fit_consHead (by omega)).mp h)]

theorem length_lines_le (left : Nat) :
    (lines nl s).length ≤ (pieces nl room left s).length := by
  induction s generalizing left with
  | nil => exact Nat.le_refl _
  | cons c s ih =>
    rw [lines, pieces]
    by_cases hc : c = nl
    · rw [if_pos hc, if_pos (Or.inl hc)]
      exact Nat.succ_le_succ (ih room)
    rw [if_neg hc, length_consHead]
    by_cases hone : left ≤ 1
    · rw [if_pos (Or.inr hone), List.length_cons]
      have := ih room
      omega
    · rw [if_neg (not_or.mpr ⟨hc, hone⟩), length_consHead]
      have := ih (left - 1)
      omega

theorem length_lines_lt (hr : 0 < room) (hl : 0 < left) (h : ¬Fit room left (lines nl s)) :
    (lines nl s).length < (pieces nl room left s).length := by
  induction s generalizing left with
  | nil => exact (h (by simp [Fit, lines])).elim
  | cons c s ih =>
    rw [lines] at h ⊢
    rw [pieces]
    by_cases hc : c = nl
    · rw [if_pos hc] at h ⊢
      rw [if_pos (Or.inl hc)]
      refine Nat.succ_lt_succ (ih hr fun hf => h (fit_cons.mpr ⟨hl, fit_self.mp hf⟩))
    rw [if_neg hc] at h ⊢
    by_cases hone : left ≤ 1
    · rw [if_pos (Or.inr hone), length_consHead, List.length_cons]
      have hle : (lines nl s).length ≤ (pieces nl room room s).length := length_lines_le room
      cases s with
      | nil => exact (h (by simp [Fit, lines, consHead]; omega)).elim
      | cons d s =>
        have hpos : 0 < (lines nl (d :: s)).length := lines_cons_pos
        omega
    · have hleft : 0 < left - 1 := by omega
      have hlt := ih hleft fun hf => h ((fit_consHead (by omega)).mpr hf)
      rw [if_neg (not_or.mpr ⟨hc, hone⟩), length_consHead, length_consHead]
      cases s with
      | nil => cases hlt
      | cons d s =>
        have hpos : 0 < (lines nl (d :: s)).length := lines_cons_pos
        omega

end Cut

section Join
variable [DecidableEq α] {nl : α}

theorem lines_flatten (s : List α) : (lines nl s).flatten = s := by
  induction s with
  | nil => rfl
  | cons c s ih =>
    rw [lines]
    split
    · rw [List.flatten_cons, ih, List.singleton_append]
    · cases hs : lines nl s with
      | nil =>
        rw [hs] at ih
        rw [← ih]
        rfl
      | cons l ls =>
        rw [hs] at ih
        rw [consHead, List.flatten_cons, List.cons_append, ← List.flatten_cons, ih]

theorem lines_rest (nl : α) (s : List α) : lines nl (lines nl s).tail.flatten = (lines nl s).tail := by
  induction s with
  | nil => rfl
  | cons c s ih =>
    rw [lines]
    split
    · rw [List.tail_cons, lines_flatten]
    · cases hs : lines nl s with
      | nil => rfl
      | cons l ls =>
        rw [hs] at ih
        exact ih

theorem lines_line {l : List α} (hl : nl ∉ l) (s : List α) :
    lines nl (l ++ nl :: s) = (l ++ [nl]) :: lines nl s := by
  induction l with
  | nil => rw [List.nil_append, lines, if_pos rfl, List.nil_append]
  | cons c l ih =>
    rw [List.mem_cons, not_or] at hl
    rw [List.cons_append, lines, if_neg (Ne.symm hl.1), ih hl.2]
    rfl

end Join

end PkgsrcPatches.Lib.Lines
