import Mathlib.Data.List.Perm.Subperm
import PkgsrcPatches.Lib.Loop

/-! Lists of cons cells in a memory, and the loops that go through them and relink their cells. -/
namespace PkgsrcPatches.Lib.Cons
open Lib.Loop
variable {α : Type*}

structure Cell (α : Type*) where
  car : α
  cdr : Option Nat

/-- From `l` on there are these cells, each with its car, and the list ends behind them. -/
inductive ListAt (h : List (Cell α)) : Option Nat → List (Nat × α) → Prop
  | nil : ListAt h none []
  | cons {p : Nat} {a : α} {r : Option Nat} {cs : List (Nat × α)} (hp : h[p]? = some ⟨a, r⟩)
      (hr : ListAt h r cs) : ListAt h (some p) ((p, a) :: cs)

def setcdr (h : List (Cell α)) (q : Nat) (r : Option Nat) : Option (List (Cell α)) :=
  h[q]?.map fun c => h.set q { c with cdr := r }

/-! ### Loops -/

def searchPass (h : List (Cell α)) (test : α → Option Bool) :
    Option Nat → Option (Pass (Option Nat) (Option α))
  | none => some (.done none)
  | some p => h[p]?.bind fun c => (test c.car).map fun passes =>
    if passes then .done (some c.car) else .next c.cdr

/-- `length`: the cells counted and what is left of the list. -/
def lengthPass (h : List (Cell α)) (s : Nat × Option Nat) :
    Option (Pass (Nat × Option Nat) Nat) :=
  match s.2 with
  | none => some (.done s.1)
  | some p => h[p]?.map fun c => .next (s.1 + 1, c.cdr)

structure Delq (α : Type*) where
  heap : List (Cell α)
  list : Option Nat
  prev : Option Nat
  tail : Option Nat

/-- `delq` takes every cell with this car out of a list. -/
def delqPass [DecidableEq α] (elt : α) (s : Delq α) :
    Option (Pass (Delq α) (List (Cell α) × Option Nat)) :=
  match s.tail with
  | none => some (.done (s.heap, s.list))
  | some p => do
    let c ← s.heap[p]?
    if c.car = elt then
      match s.prev with
      | none => pure (.next { s with list := c.cdr, tail := c.cdr })
      | some q => do
        let heap ← setcdr s.heap q c.cdr
        pure (.next { s with heap := heap, tail := c.cdr })
    else
      pure (.next { s with prev := some p, tail := c.cdr })

/-! ### The cells of a list -/
section Cells
variable {h h' : List (Cell α)} {l r : Option Nat} {cs cs' A B : List (Nat × α)} {x : Nat × α}

theorem ListAt.unique (hl : ListAt h l cs) (hl' : ListAt h l cs') : cs = cs' := by
  induction hl generalizing cs' with
  | nil =>
    cases hl'
    rfl
  | cons hp _ ih =>
    cases hl' with
    | cons hp' hr' =>
      rw [hp, Option.some.injEq, Cell.mk.injEq] at hp'
      rw [hp'.1, ih (hp'.2 ▸ hr')]

theorem ListAt.suffix (hl : ListAt h l (A ++ B)) : ∃ r, ListAt h r B := by
  induction A generalizing l with
  | nil => exact ⟨l, hl⟩
  | cons x A ih =>
    cases hl with
    | cons _ hr => exact ih hr

theorem ListAt.read (hl : ListAt h l cs) (hx : x ∈ cs) : ∃ r, h[x.1]? = some ⟨x.2, r⟩ := by
  obtain ⟨A, B, rfl⟩ := List.append_of_mem hx
  obtain ⟨r, hr⟩ := hl.suffix
  cases hr with
  | cons hp _ => exact ⟨_, hp⟩

theorem ListAt.lt_length (hl : ListAt h l cs) (hx : x ∈ cs) : x.1 < h.length := by
  obtain ⟨r, hr⟩ := hl.read hx
  exact (List.getElem?_eq_some_iff.mp hr).1

theorem ListAt.nodup (hl : ListAt h l cs) : (cs.map Prod.fst).Nodup := by
  induction hl with
  | nil => exact List.nodup_nil
  | @cons p a r cs hp hr ih =>
    refine List.nodup_cons.mpr ⟨fun hmem => ?_, ih⟩
    obtain ⟨x, hx, hxp⟩ := List.mem_map.mp hmem
    obtain ⟨A, B, hcs⟩ := List.append_of_mem hx
    obtain ⟨r', hr'⟩ := (hcs ▸ hr : ListAt h r (A ++ x :: B)).suffix
    subst hxp
    cases hr' with
    | cons hp' hrest =>
      -- from the second visit on the list is what it is from the first on
      have hsame := (ListAt.cons hp hr).unique (ListAt.cons hp' hrest)
      have hlen := congrArg List.length hsame
      simp only [hcs, List.length_cons, List.length_append] at hlen
      omega

theorem ListAt.length_le (hl : ListAt h l cs) : cs.length ≤ h.length := by
  have hsub : cs.map Prod.fst ⊆ List.range h.length := by
    intro p hp
    obtain ⟨x, hx, rfl⟩ := List.mem_map.mp hp
    exact List.mem_range.mpr (hl.lt_length hx)
  simpa using (hl.nodup.subperm hsub).length_le

theorem ListAt.congr (hl : ListAt h l cs) (hh : ∀ x ∈ cs, h'[x.1]? = h[x.1]?) :
    ListAt h' l cs := by
  induction hl with
  | nil => exact .nil
  | cons hp _ ih =>
    refine .cons ((hh _ List.mem_cons_self).trans hp) (ih fun x hx => ?_)
    exact hh x (List.mem_cons_of_mem _ hx)

theorem ListAt.alloc (hl : ListAt h l cs) (c : Cell α) : ListAt (h ++ [c]) l cs :=
  hl.congr fun _ hx => List.getElem?_append_left (hl.lt_length hx)

theorem ListAt.push (hl : ListAt h l cs) (a : α) :
    ListAt (h ++ [⟨a, l⟩]) (some h.length) ((h.length, a) :: cs) :=
  .cons List.getElem?_concat_length (hl.alloc _)

end Cells

/-! ### What the loops come to -/
section Loops
variable {h : List (Cell α)} {l r : Option Nat} {cs A B D : List (Nat × α)} {x : Nat × α}

theorem length_run (hl : ListAt h l cs) (k : Nat) {n : Nat} (hn : cs.length < n) :
    run (lengthPass h) n (k, l) = .ret (k + cs.length) := by
  induction hl generalizing k n with
  | nil =>
    obtain ⟨m, rfl⟩ := Nat.exists_eq_add_of_lt hn
    exact run_done _ rfl
  | @cons p a r cs hp _ ih =>
    cases n with
    | zero => omega
    | succ n =>
      have hpass : lengthPass h (k, some p) = some (.next (k + 1, r)) := by
        simp only [lengthPass, hp, Option.map_some]
      rw [run_next n hpass, ih (k + 1) (Nat.lt_of_succ_lt_succ hn), List.length_cons,
        Nat.add_right_comm, Nat.add_assoc]

variable [DecidableEq α] {e : α} {list prev : Option Nat} {p : Nat} {a : α} {n : Nat}

end Loops

end PkgsrcPatches.Lib.Cons
