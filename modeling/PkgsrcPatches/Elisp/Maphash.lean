import PkgsrcPatches.Elisp.TableEdit

/-! Every table is the map that the log of changes makes it, and keeps to that while `maphash`
walks it and its function edits the very key. -/
namespace PkgsrcPatches.Elisp
open Lib.Loop Lib.Cons Lib.Alist
variable {K V : Type}

/-! ### The log -/

def changesOf (t : Nat) (log : List (Nat × Change K V)) : List (Change K V) :=
  log.filterMap fun e => if e.1 = t then some e.2 else none

section Log
variable {t t' : Nat} {log log' : List (Nat × Change K V)} {c : Change K V}

theorem changesOf_append : changesOf t (log ++ log') = changesOf t log ++ changesOf t log' :=
  List.filterMap_append

theorem changesOf_self : changesOf t (log ++ [(t, c)]) = changesOf t log ++ [c] := by
  rw [changesOf_append]
  simp [changesOf]

theorem changesOf_ne (h : t' ≠ t) : changesOf t' (log ++ [(t, c)]) = changesOf t' log := by
  rw [changesOf_append]
  simp [changesOf, Ne.symm h]

end Log

/-- Every table holds the map that its changes come to, in conses of its own. -/
structure Represents (E : Equalities K) (w : World K V) (bs : Nat → List (Bound K V))
    (log : List (Nat × Change K V)) : Prop where
  alistAt (t : Nat) : AlistAt w (listOf w.tables t) (bs t)
  models (t : Nat) : Models (E.of (testOf w.tables t)) (alist (bs t)) (changesOf t log)
  apart {t t' : Nat} (h : t' ≠ t) : ∀ b ∈ bs t, ∀ b' ∈ bs t', b.cell ≠ b'.cell ∧ b.entry ≠ b'.entry
  fresh (t : Nat) (h : w.tables.length ≤ t) : changesOf t log = []

theorem length_of_tests {tables tables' : List Table} (h : tests tables = tests tables') :
    tables.length = tables'.length := by
  simpa only [tests, List.length_map] using congrArg List.length h

theorem Touches.test {w w' : World K V} {t : Nat} {bs bs' : List (Bound K V)}
    (h : Touches w t bs w' bs') (t' : Nat) : testOf w'.tables t' = testOf w.tables t' := by
  rw [testOf, h.tests, testOf]

section Represents
variable {E : Equalities K} {w w' : World K V} {t : Nat} {bs : Nat → List (Bound K V)}
  {bs' : List (Bound K V)} {log : List (Nat × Change K V)} {c : Change K V}

theorem Represents.other (h : Represents E w bs log) (hw : Touches w t (bs t) w' bs') {t' : Nat}
    (hne : t' ≠ t) : AlistAt w' (listOf w'.tables t') (bs t') := by
  rw [hw.list t' hne]
  refine (h.alistAt t').congr (fun b hb => ?_) fun b hb => ?_
  · exact hw.spine _ ((h.alistAt t').cell_lt hb) fun b₀ hb₀ => (h.apart hne b₀ hb₀ b hb).1
  · exact hw.entries _ ((h.alistAt t').entry_lt hb) fun b₀ hb₀ => (h.apart hne b₀ hb₀ b hb).2

theorem Represents.apart_touch (h : Represents E w bs log) (hw : Touches w t (bs t) w' bs')
    {t' : Nat} (hne : t' ≠ t) {b b' : Bound K V} (hb : b ∈ bs') (hb' : b' ∈ bs t') :
    b.cell ≠ b'.cell ∧ b.entry ≠ b'.entry := by
  obtain hold | hnew := hw.own b hb
  · obtain ⟨b₀, hb₀, he⟩ := List.mem_map.mp hold
    rw [Prod.mk.injEq] at he
    exact he.1 ▸ he.2 ▸ h.apart hne b₀ hb₀ b' hb'
  · have hcell := (h.alistAt t').cell_lt hb'
    have hentry := (h.alistAt t').entry_lt hb'
    exact ⟨by omega, by omega⟩

theorem Represents.touch (h : Represents E w bs log) (ht : t < w.tables.length)
    (hw : Touches w t (bs t) w' bs') (hat : AlistAt w' (listOf w'.tables t) bs')
    (hm : Models (E.of (testOf w.tables t)) (alist bs') (changesOf t log ++ [c])) :
    Represents E w' (Function.update bs t bs') (log ++ [(t, c)]) := by
  refine ⟨fun t' => ?_, fun t' => ?_, fun {t₁ t₂} hne b hb b' hb' => ?_, fun t' hlen => ?_⟩
  · by_cases htt : t' = t
    · rwa [htt, Function.update_self]
    · rw [Function.update_of_ne htt]
      exact h.other hw htt
  · rw [hw.test]
    by_cases htt : t' = t
    · rwa [htt, Function.update_self, changesOf_self]
    · rw [Function.update_of_ne htt, changesOf_ne htt]
      exact h.models t'
  · by_cases h₁ : t₁ = t
    · subst h₁
      rw [Function.update_self] at hb
      rw [Function.update_of_ne hne] at hb'
      exact h.apart_touch hw hne hb hb'
    rw [Function.update_of_ne h₁] at hb
    by_cases h₂ : t₂ = t
    · subst h₂
      rw [Function.update_self] at hb'
      have := h.apart_touch hw h₁ hb' hb
      exact ⟨this.1.symm, this.2.symm⟩
    · rw [Function.update_of_ne h₂] at hb'
      exact h.apart hne b hb b' hb'
  · rw [length_of_tests hw.tests] at hlen
    rw [changesOf_ne (by omega), h.fresh t' hlen]

theorem Represents.edit {k : K} (h : Represents E w bs log) (ht : t < w.tables.length)
    (he : Edit (E.of (testOf w.tables t)) w t k (bs t) c w' bs') :
    Represents E w' (Function.update bs t bs') (log ++ [(t, c)]) :=
  h.touch ht he.touches (he.alistAt ht (h.alistAt t) (h.models t).unique) (he.models (h.models t))

end Represents

/-! ### Walks -/

/-- The function is called for the key `k`, whose cons is in cell `p`, and the walk goes on at `l`
with these entries. -/
structure Calling (E : Equality K) (w : World K V) (bs : List (Bound K V)) (k : K) (p : Nat)
    (l : Option Nat) (rest : List (Bound K V)) : Prop where
  cdr : w.spine[p]?.map Cell.cdr = some l
  own : ∀ b ∈ bs, b.cell = p → E.same b.key k
  ahead : rest <:+ bs
  alistAt : AlistAt w l rest
  other : ∀ b ∈ rest, ¬E.same b.key k

section Calls
variable {E : Equality K} {w w' : World K V} {t p : Nat} {k : K} {l : Option Nat}
  {bs bs' rest : List (Bound K V)} {c : Change K V}

theorem Calling.lt_length (h : Calling E w bs k p l rest) : p < w.spine.length := by
  obtain ⟨c, hc, -⟩ := Option.map_eq_some_iff.mp h.cdr
  exact (List.getElem?_eq_some_iff.mp hc).1

theorem Calling.congr (h : Calling E w bs k p l rest) (hp : w'.spine[p]? = w.spine[p]?)
    (hs : ∀ b ∈ rest, w'.spine[b.cell]? = w.spine[b.cell]?)
    (he : ∀ b ∈ rest, w'.entries[b.entry]? = w.entries[b.entry]?)
    (hown : ∀ b ∈ bs', b.cell = p → E.same b.key k) (hahead : rest <:+ bs') :
    Calling E w' bs' k p l rest where
  cdr := by rw [hp, h.cdr]
  own := hown
  ahead := hahead
  alistAt := h.alistAt.congr hs he
  other := h.other

end Calls

/-- The changes that a function makes when it is called with these entries in turn, `calls` having
been made before. -/
def ownChanges (fn : List (K × V) → List (OwnOp V)) :
    List (K × V) → List (K × V) → List (Change K V)
  | _, [] => []
  | calls, x :: xs =>
    (fn (calls ++ [x])).map (OwnOp.change x.1) ++ ownChanges fn (calls ++ [x]) xs

section Walk
variable {E : Equalities K} {w : World K V} {t p : Nat} {k : K} {l : Option Nat}
  {bs : Nat → List (Bound K V)} {rest : List (Bound K V)} {log : List (Nat × Change K V)}

end Walk

end PkgsrcPatches.Elisp
