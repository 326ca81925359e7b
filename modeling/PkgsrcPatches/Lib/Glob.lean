import Mathlib.Data.List.Infix

/-! Words of a make variable and the patterns of its `:M` modifier, as far as
literal characters, ranges such as `[0-9]` and `*` go. -/
namespace PkgsrcPatches.Lib

inductive Piece where
  | lit (c : Char)
  | range (a b : Char)
  | star
deriving DecidableEq

def globMatch : List Piece → List Char → Bool
  | [], s => s.isEmpty
  | .lit c :: p, s => match s with
    | [] => false
    | d :: t => c == d && globMatch p t
  | .range a b :: p, s => match s with
    | [] => false
    | d :: t => decide (a.toNat ≤ d.toNat) && decide (d.toNat ≤ b.toNat) && globMatch p t
  | .star :: p, s => s.tails.any (globMatch p)

def lits (w : List Char) : List Piece := w.map .lit

theorem globMatch_lits_append (w : List Char) (p : List Piece) : ∀ s : List Char,
    globMatch (lits w ++ p) s = true ↔ ∃ t, s = w ++ t ∧ globMatch p t = true := by
  induction w with
  | nil =>
    intro s
    constructor
    · intro h
      exact ⟨s, rfl, h⟩
    · intro h
      obtain ⟨t, he, ht⟩ := h
      exact he ▸ ht
  | cons c w ih =>
    intro s
    cases s with
    | nil =>
      constructor
      · intro h
        cases h
      · intro h
        obtain ⟨t, he, -⟩ := h
        cases he
    | cons d s =>
      have hstep : globMatch (lits (c :: w) ++ p) (d :: s) =
          (c == d && globMatch (lits w ++ p) s) := rfl
      rw [hstep, Bool.and_eq_true, beq_iff_eq, ih]
      constructor
      · intro h
        obtain ⟨hc, t, he, ht⟩ := h
        exact ⟨t, by rw [hc, he, List.cons_append], ht⟩
      · intro h
        obtain ⟨t, he, ht⟩ := h
        obtain ⟨hd, hs⟩ := List.cons.inj he
        exact ⟨hd.symm, t, hs, ht⟩

theorem globMatch_lits (w s : List Char) : globMatch (lits w) s = true ↔ s = w := by
  rw [← List.append_nil (lits w), globMatch_lits_append]
  simp [globMatch]

theorem globMatch_star (p : List Piece) (s : List Char) :
    globMatch (.star :: p) s = true ↔ ∃ t, t <:+ s ∧ globMatch p t = true := by
  simp [globMatch, List.mem_tails]

theorem globMatch_star_nil (s : List Char) : globMatch [.star] s = true :=
  (globMatch_star [] s).mpr ⟨[], List.nil_suffix, rfl⟩

theorem globMatch_prefix (w s : List Char) : globMatch (lits w ++ [.star]) s = true ↔ w <+: s := by
  rw [globMatch_lits_append]
  constructor
  · intro h
    obtain ⟨t, he, -⟩ := h
    exact ⟨t, he.symm⟩
  · intro h
    obtain ⟨t, he⟩ := h
    exact ⟨t, he.symm, globMatch_star_nil t⟩

theorem globMatch_range (w : List Char) (a b : Char) (s : List Char) :
    globMatch (lits w ++ [.range a b, .star]) s = true ↔
      ∃ d rest, s = w ++ d :: rest ∧ a.toNat ≤ d.toNat ∧ d.toNat ≤ b.toNat := by
  rw [globMatch_lits_append]
  constructor
  · intro h
    obtain ⟨t, he, ht⟩ := h
    cases t with
    | nil => cases ht
    | cons d t =>
      simp only [globMatch, Bool.and_eq_true, decide_eq_true_eq] at ht
      exact ⟨d, t, he, ht.1⟩
  · intro h
    obtain ⟨d, t, he, ha, hb⟩ := h
    refine ⟨d :: t, he, ?_⟩
    simp only [globMatch, ha, hb, decide_true, Bool.true_and]
    exact globMatch_star_nil t

theorem globMatch_suffix (w s : List Char) : globMatch (.star :: lits w) s = true ↔ w <:+ s := by
  rw [globMatch_star]
  constructor
  · intro h
    obtain ⟨t, ht, he⟩ := h
    exact (globMatch_lits w t).mp he ▸ ht
  · intro h
    exact ⟨w, h, (globMatch_lits w w).mpr rfl⟩

/-- Whether a character stands for itself in a pattern and inside a word: no blank or control
character, nothing that matches others, quotes or expands. -/
def plainChar (c : Char) : Bool := decide (32 < c.toNat) && !"*?[\\$\"'".toList.contains c

/-- A word that is its own pattern. -/
@[ext] structure Word where
  chars : List Char
  plain : chars.all plainChar = true
deriving DecidableEq

namespace Word

def ofString (s : String) : Word := ⟨s.toList.filter plainChar, by simp⟩

def append (v w : Word) : Word := ⟨v.chars ++ w.chars, by rw [List.all_append, v.plain, w.plain]; rfl⟩

def take (w : Word) (n : Nat) : Word :=
  ⟨w.chars.take n, by
    have hw := List.all_eq_true.mp w.plain
    exact List.all_eq_true.mpr fun c hc => hw c (List.mem_of_mem_take hc)⟩

end Word

def selectWords (p : List Piece) (words : List Word) : List Word :=
  words.filter fun w => globMatch p w.chars

def hasWord (words : List Word) (w : Word) : Bool := !(selectWords (lits w.chars) words).isEmpty

theorem hasWord_iff (words : List Word) (w : Word) : hasWord words w = true ↔ w ∈ words := by
  simp only [hasWord, selectWords, Bool.not_eq_true', List.isEmpty_eq_false_iff, ne_eq,
    List.filter_eq_nil_iff, globMatch_lits, not_forall, not_not]
  constructor
  · intro h
    obtain ⟨v, hv, he⟩ := h
    exact Word.ext he ▸ hv
  · intro h
    exact ⟨w, h, rfl⟩

end PkgsrcPatches.Lib
