import PkgsrcPatches.Descriptors.Ownership
import Mathlib.Data.List.Nodup

/-! A table that is another one and some descriptors more, each opened once. -/
namespace PkgsrcPatches.Descriptors
open Lib.Syscall
variable {α : Type} {names : IfNames} {t₀ t t' : Table} {fd : Nat} {d : Desc} {fds A B : List Nat}

structure Extends (t₀ t : Table) (fds : List Nat) : Prop where
  same : ∀ fd, fd ∉ fds → t fd = t₀ fd
  opened : ∀ fd ∈ fds, t fd ≠ none
  fresh : ∀ fd ∈ fds, t₀ fd = none
  nodup : fds.Nodup

theorem Extends.refl (t : Table) : Extends t t [] :=
  ⟨fun _ _ => rfl, by simp, by simp, List.nodup_nil⟩

theorem Extends.eq (h : Extends t₀ t []) : t = t₀ := by
  funext fd
  exact h.same fd (by simp)

theorem Extends.perm (h : Extends t₀ t A) (hp : A.Perm B) : Extends t₀ t B where
  same fd hfd := h.same fd fun hm => hfd (hp.mem_iff.mp hm)
  opened fd hfd := h.opened fd (hp.mem_iff.mpr hfd)
  fresh fd hfd := h.fresh fd (hp.mem_iff.mpr hfd)
  nodup := hp.nodup_iff.mp h.nodup

theorem Extends.push (h : Extends t₀ t fds) (hfree : t fd = none) (d : Desc) :
    Extends t₀ (t.opened fd d) (fd :: fds) := by
  have hnew : fd ∉ fds := fun hm => h.opened fd hm hfree
  refine ⟨?_, ?_, ?_, List.nodup_cons.mpr ⟨hnew, h.nodup⟩⟩
  · intro fd' hfd
    simp only [List.mem_cons, not_or] at hfd
    rw [opened_of_ne hfd.1]
    exact h.same fd' hfd.2
  · intro fd' hfd
    cases List.mem_cons.mp hfd with
    | inl he => rw [he]; simp
    | inr hm => exact opened_ne_none (h.opened fd' hm)
  · intro fd' hfd
    cases List.mem_cons.mp hfd with
    | inl he => rw [he, ← h.same fd hnew, hfree]
    | inr hm => exact h.fresh fd' hm

theorem Extends.pop (h : Extends t₀ t (fd :: fds)) : Extends t₀ (t.closed fd) fds := by
  obtain ⟨hnew, hnodup⟩ := List.nodup_cons.mp h.nodup
  refine ⟨?_, ?_, ?_, hnodup⟩
  · intro fd' hfd
    by_cases he : fd' = fd
    · rw [he, closed_self, h.fresh fd List.mem_cons_self]
    · rw [closed_of_ne he]
      exact h.same fd' (by simp [he, hfd])
  · intro fd' hfd
    have he : fd' ≠ fd := fun he => hnew (he ▸ hfd)
    rw [closed_of_ne he]
    exact h.opened fd' (List.mem_cons_of_mem _ hfd)
  · intro fd' hfd
    exact h.fresh fd' (List.mem_cons_of_mem _ hfd)

theorem Extends.pushIf {o : Option Nat} (h : Extends t₀ t fds) (hfree : ∀ fd, o = some fd → t fd = none)
    (d : Desc) : Extends t₀ (t.openedIf o d) (o.toList ++ fds) := by
  cases o with
  | none => exact h
  | some fd => exact h.push (hfree fd rfl) d

theorem Extends.popIf {o : Option Nat} (h : Extends t₀ t (o.toList ++ fds)) :
    Extends t₀ (t.closedIf o) fds := by
  cases o with
  | none => exact h
  | some fd => exact h.pop

theorem Extends.control (h : Extends t₀ t fds) (hfd : fd ∈ fds) (op : Op) (r : Except Errno Unit) :
    Extends t₀ (after t (.control fd op) r) fds := by
  cases r with
  | error e => exact h
  | ok u =>
    refine ⟨?_, ?_, h.fresh, h.nodup⟩
    · intro fd' hn
      have he : fd' ≠ fd := fun he => hn (he ▸ hfd)
      rw [after, Function.update_of_ne he]
      exact h.same fd' hn
    · intro fd' hm
      by_cases he : fd' = fd
      · rw [after, he, Function.update_self]
        intro hnone
        exact h.opened fd hfd (Option.map_eq_none_iff.mp hnone)
      · rw [after, Function.update_of_ne he]
        exact h.opened fd' hm

theorem Extends.trans (h : Extends t₀ t B) (h' : Extends t t' A) : Extends t₀ t' (A ++ B) := by
  refine ⟨?_, ?_, ?_, ?_⟩
  · intro fd hfd
    simp only [List.mem_append, not_or] at hfd
    rw [h'.same fd hfd.1, h.same fd hfd.2]
  · intro fd hfd
    by_cases hA : fd ∈ A
    · exact h'.opened fd hA
    · rw [h'.same fd hA]
      exact h.opened fd ((List.mem_append.mp hfd).resolve_left hA)
  · intro fd hfd
    by_cases hB : fd ∈ B
    · exact h.fresh fd hB
    · rw [← h.same fd hB]
      exact h'.fresh fd ((List.mem_append.mp hfd).resolve_right hB)
  · refine List.nodup_append.mpr ⟨h'.nodup, h.nodup, ?_⟩
    intro a ha b hb he
    subst he
    exact h.opened a hb (h'.fresh a ha)

theorem Extends.split (h : Extends t₀ t (A ++ B)) :
    Extends t₀ (fun fd => if fd ∈ A then none else t fd) B ∧
      Extends (fun fd => if fd ∈ A then none else t fd) t A := by
  obtain ⟨hA, hB, hdis⟩ := List.nodup_append.mp h.nodup
  refine ⟨⟨?_, ?_, ?_, hB⟩, ⟨?_, ?_, ?_, hA⟩⟩
  · intro fd hfd
    by_cases hm : fd ∈ A
    · rw [if_pos hm, h.fresh fd (List.mem_append_left _ hm)]
    · rw [if_neg hm]
      exact h.same fd (by simp [hm, hfd])
  · intro fd hfd
    have hm : fd ∉ A := fun hm => hdis fd hm fd hfd rfl
    simp only [hm, if_false]
    exact h.opened fd (List.mem_append_right _ hfd)
  · intro fd hfd
    exact h.fresh fd (List.mem_append_right _ hfd)
  · intro fd hfd
    simp only [hfd, if_false]
  · intro fd hfd
    exact h.opened fd (List.mem_append_left _ hfd)
  · intro fd hfd
    simp only [hfd, if_true]

/-! ### Programs on it -/

def Leaves (t₀ : Table) (fds : List Nat) (t' : Table) (r : Except Errno Unit) : Prop :=
  r = .ok () ∧ Extends t₀ t' fds

theorem leaves_then {p : Sys Unit} {f : Unit → Sys Unit} (h : p.Meets (kernel names) (Leaves t₀ A) t)
    (hf : ∀ t', Extends t₀ t' A → (f ()).Meets (kernel names) (Leaves t₀ B) t') :
    (p >>= f).Meets (kernel names) (Leaves t₀ B) t := by
  refine Prog.Meets.bind h ?_ ?_
  · intro t' _ hq
    exact hf t' hq.2
  · intro t' e hq
    cases hq.1

theorem leaves_close (h : Extends t₀ t (fd :: fds)) :
    (close fd).Meets (kernel names) (Leaves t₀ fds) t :=
  ⟨h.opened fd List.mem_cons_self, fun _ _ => ⟨rfl, h.pop⟩⟩

theorem leaves_whenOpen {o : Option Nat} {f : Nat → Sys Unit} (hnone : o = none → Extends t₀ t fds)
    (hsome : ∀ fd, o = some fd → (f fd).Meets (kernel names) (Leaves t₀ fds) t) :
    (whenOpen o f).Meets (kernel names) (Leaves t₀ fds) t := by
  cases o with
  | none => exact ⟨rfl, hnone rfl⟩
  | some fd => exact hsome fd rfl

theorem leaves_closeIf {o : Option Nat} (h : Extends t₀ t (o.toList ++ fds)) :
    (closeIf o).Meets (kernel names) (Leaves t₀ fds) t := by
  apply leaves_whenOpen
  · intro ho
    subst ho
    exact h
  · intro fd ho
    subst ho
    exact leaves_close h

theorem meets_closeIf {o : Option Nat} (h : ∀ fd, o = some fd → t fd ≠ none) :
    (closeIf o).Meets (kernel names) (fun t' r => r = .ok () ∧ t' = t.closedIf o) t := by
  cases o with
  | none => exact ⟨rfl, rfl⟩
  | some fd => exact ⟨h fd rfl, fun _ _ => ⟨rfl, rfl⟩⟩

theorem leaves_ignored (op : Op) (hp : op.isPlain = true) (h : Extends t₀ t fds) (hfd : fd ∈ fds) :
    (control fd op).ignored.Meets (kernel names) (Leaves t₀ fds) t := by
  refine ⟨?_, ?_⟩
  · have hopen := h.opened fd hfd
    cases op <;>
      first
      | exact hopen
      | cases hp
  · intro r _
    exact ⟨rfl, h.control hfd op r⟩

end PkgsrcPatches.Descriptors
