import PkgsrcPatches.Lib.Alist
import PkgsrcPatches.Lib.ConsDelete

/-! `delete-dups`, `nbutlast` and `butlast` of `elisp-compat`, on the cells of a list. -/
namespace PkgsrcPatches.Elisp.ListEdit
open Lib.Loop Lib.Cons Lib.Alist
variable {α : Type}

/-- A turn of the loop: `delete` goes through the rest of the list. -/
def deleteDupsPass (E : Equality α) (s : List (Cell α) × Option Nat) :
    Option (Pass (List (Cell α) × Option Nat) (List (Cell α))) :=
  match s.2 with
  | none => some (.done s.1)
  | some p => do
    let c ← s.1[p]?
    match run (deletePass (E.same c.car)) (s.1.length + 1) ⟨s.1, c.cdr, none, c.cdr⟩ with
    | .ret (heap, rest) => do
      let heap ← setcdr heap p rest
      pure (.next (heap, rest))
    | _ => none

def deleteDups (E : Equality α) (h : List (Cell α)) (list : Option Nat) : Exit (List (Cell α)) :=
  run (deleteDupsPass E) (h.length + 1) (h, list)

def nbutlast (h : List (Cell α)) (list : Option Nat) (n : Option Int) :
    Option (List (Cell α) × Option Nat) :=
  match run (lengthPass h) (h.length + 1) (0, list) with
  | .ret m =>
    let n := n.getD 1
    if n < m then
      if n > 0 then do
        let last ← nthcdr h (m - 1 - n.toNat) list
        let heap ← last.bind fun p => setcdr h p none
        pure (heap, list)
      else some (h, list)
    else some (h, none)
  | _ => none

def butlast (h : List (Cell α)) (list : Option Nat) (n : Option Int) :
    Option (List (Cell α) × Option Nat) :=
  if n.any fun n => n ≤ 0 then some (h, list)
  else (copySequence h list).bind fun copy => nbutlast copy.1 copy.2 n

/-! ### `delete-dups` -/

def others (E : Equality α) (a : α) (cs : List (Nat × α)) : List (Nat × α) :=
  cs.filter fun y => !E.same a y.2

def firsts (E : Equality α) : List (Nat × α) → List (Nat × α)
  | [] => []
  | x :: cs => x :: firsts E (others E x.2 cs)
termination_by cs => cs.length
decreasing_by exact Nat.lt_succ_of_le (List.length_filter_le _ _)

variable {E : Equality α} {h : List (Cell α)} {l : Option Nat} {cs D : List (Nat × α)}

theorem firsts_sublist (cs : List (Nat × α)) : (firsts E cs).Sublist cs := by
  induction cs using firsts.induct E with
  | case1 => simp [firsts]
  | case2 x cs ih =>
    rw [firsts]
    exact (ih.trans List.filter_sublist).cons_cons x

theorem mem_firsts {cs : List (Nat × α)} (hn : cs.Nodup) : ∀ A y B, cs = A ++ y :: B →
    (y ∈ firsts E cs ↔ ∀ x ∈ A, E.same x.2 y.2 = false) := by
  induction cs using firsts.induct E with
  | case1 =>
    intro A y B he
    simp at he
  | case2 z cs ih =>
    intro A y B he
    rw [firsts]
    cases A with
    | nil =>
      obtain ⟨rfl, -⟩ := List.cons.inj he
      simp
    | cons x A =>
      rw [List.cons_append, List.cons.injEq] at he
      obtain ⟨rfl, rfl⟩ := he
      obtain ⟨hz, hrest⟩ := List.nodup_cons.mp hn
      have hyz : y ≠ z := fun hy => hz (hy ▸ by simp)
      simp only [List.mem_cons, hyz, false_or, forall_eq_or_imp]
      cases hs : E.same z.2 y.2 with
      | true =>
        have hout : y ∉ firsts E (others E z.2 (A ++ y :: B)) := by
          intro hy
          have hkept := (List.mem_filter.mp ((firsts_sublist _).subset hy)).2
          simp [hs] at hkept
        simp only [hout, Bool.true_eq_false, false_and]
      | false =>
        have hsplit : others E z.2 (A ++ y :: B) = others E z.2 A ++ y :: others E z.2 B := by
          simp [others, hs]
        rw [ih (hrest.filter _) _ y _ hsplit]
        simp only [others, true_and, List.mem_filter, and_imp]
        constructor
        · intro hall x hx
          cases hzx : E.same z.2 x.2 with
          | false => exact hall x hx (by simp [hzx])
          | true =>
            -- such a cell is gone already, and y's car is not the same as its
            rw [← E.congr_left hzx]
            exact hs
        · intro hall x hx _
          exact hall x hx

theorem deleteDupsPass_cons {p : Nat} {a : α} {list : Option Nat}
    (hl : ListAt h list (D ++ (p, a) :: cs)) (ht : ListAt h l ((p, a) :: cs)) :
    ∃ h' rest, deleteDupsPass E (h, l) = some (.next (h', rest)) ∧
      ListAt h' list ((D ++ [(p, a)]) ++ others E a cs) ∧ ListAt h' rest (others E a cs) ∧
      ∀ q, q ∉ ((p, a) :: cs).map Prod.fst → h'[q]? = h[q]? := by
  cases ht with
  | @cons _ _ r _ hp hr =>
  obtain ⟨h₁, rest, hrun, hlist, hframe⟩ := delete_run (g := E.same a) (D := []) hr hr rfl
    (Nat.lt_succ_of_le hr.length_le)
  simp only [List.nil_append, List.getLast?_nil, Option.map_none, Nat.succ_eq_add_one]
    at hrun hlist hframe
  have hpcs : p ∉ cs.map Prod.fst := by
    intro hm
    exact (List.append_cons D (p, a) cs ▸ hl).apart (p := p) (by simp) hm
  have hpD : ∀ y ∈ D, y.1 ≠ p := by
    intro y hy he
    exact hl.apart (List.mem_map_of_mem hy) (by simp [he])
  have hp₁ : h₁[p]? = some ⟨a, r⟩ := (hframe p hpcs).trans hp
  have hset : ∀ q, q ≠ p → (h₁.set p ⟨a, rest⟩)[q]? = h₁[q]? := fun q hne =>
    List.getElem?_set_ne (Ne.symm hne)
  have hrest : ListAt (h₁.set p ⟨a, rest⟩) rest (others E a cs) := by
    apply hlist.congr
    intro y hy
    apply hset
    intro he
    exact hpcs (he ▸ List.mem_map_of_mem (List.mem_of_mem_filter hy))
  refine ⟨h₁.set p ⟨a, rest⟩, rest, ?_, ?_, hrest, ?_⟩
  · simp only [deleteDupsPass, hp, Option.bind_eq_bind, Option.bind_some]
    simp [hrun, setcdr, hp₁]
  · rw [List.append_assoc, List.singleton_append]
    refine hl.splice ?_ ?_ hrest
    · intro y hy
      rw [hset y.1 (hpD y hy)]
      apply hframe
      intro hm
      exact hl.apart (List.mem_map_of_mem hy) (List.mem_cons_of_mem p hm)
    · exact List.getElem?_set_self (List.getElem?_eq_some_iff.mp hp₁).1
  · intro q hq
    rw [List.map_cons, List.mem_cons, not_or] at hq
    rw [hset q hq.1]
    exact hframe q hq.2

theorem deleteDups_run {list : Option Nat} {n : Nat} (hl : ListAt h list (D ++ cs))
    (ht : ListAt h l cs) (hn : cs.length < n) :
    ∃ h', run (deleteDupsPass E) n (h, l) = .ret h' ∧ ListAt h' list (D ++ firsts E cs) ∧
      ∀ q, q ∉ cs.map Prod.fst → h'[q]? = h[q]? := by
  induction cs using firsts.induct E generalizing h l D n with
  | case1 =>
    cases ht
    obtain ⟨m, rfl⟩ := Nat.exists_eq_add_of_lt hn
    refine ⟨h, run_done _ rfl, ?_, fun _ _ => rfl⟩
    simpa [firsts] using hl
  | case2 x cs ih =>
    cases n with
    | zero => omega
    | succ n =>
      obtain ⟨h₁, rest, hpass, hlist, htail, hframe⟩ := deleteDupsPass_cons (E := E) hl ht
      have hlt : (others E x.2 cs).length < n :=
        Nat.lt_of_le_of_lt (List.length_filter_le _ cs) (Nat.lt_of_succ_lt_succ hn)
      obtain ⟨h', hrun, hfirsts, hframe'⟩ := ih hlist htail hlt
      refine ⟨h', (run_next n hpass).trans hrun, ?_, ?_⟩
      · rw [firsts]
        simpa using hfirsts
      · intro q hq
        rw [hframe' q ?_, hframe q hq]
        intro hm
        obtain ⟨y, hy, he⟩ := List.mem_map.mp hm
        exact hq (List.mem_cons_of_mem _ (he ▸ List.mem_map_of_mem (List.mem_of_mem_filter hy)))

/-- `delete-dups` returns, and its list is then made of those of its cells, in their order, whose
car is the same as that of none before; no cell outside the list has changed. -/
theorem deleteDups_keeps_firsts (E : Equality α) {list : Option Nat} (hl : ListAt h list cs) :
    ∃ h' left, deleteDups E h list = .ret h' ∧ ListAt h' list left ∧ left.Sublist cs ∧
      (∀ A y B, cs = A ++ y :: B → (y ∈ left ↔ ∀ x ∈ A, E.same x.2 y.2 = false)) ∧
      ∀ q, q ∉ cs.map Prod.fst → h'[q]? = h[q]? := by
  obtain ⟨h', hrun, hfirsts, hframe⟩ := deleteDups_run (E := E) (D := []) hl hl
    (Nat.lt_succ_of_le hl.length_le)
  exact ⟨h', firsts E cs, hrun, hfirsts, firsts_sublist cs, mem_firsts hl.nodup_cells, hframe⟩

theorem deleteDups_keeps_firsts_twice : ∃ h' left,
    deleteDups ⟨fun a b => decide (a = b), by simp, by simp, by simp⟩
        [⟨7, some 1⟩, ⟨8, some 2⟩, ⟨7, none⟩] (some 0) = .ret h' ∧
      ListAt h' (some 0) left ∧ left.Sublist [(0, 7), (1, 8), (2, 7)] ∧ (2, 7) ∉ left := by
  have hl : ListAt [⟨7, some 1⟩, ⟨8, some 2⟩, ⟨7, none⟩] (some 0) [(0, 7), (1, 8), (2, 7)] :=
    .cons rfl (.cons rfl (.cons rfl .nil))
  obtain ⟨h', left, hrun, hlist, hsub, hmem, -⟩ :=
    deleteDups_keeps_firsts ⟨fun a b => decide (a = b), by simp, by simp, by simp⟩ hl
  refine ⟨h', left, hrun, hlist, hsub, ?_⟩
  rw [hmem [(0, 7), (1, 8)] (2, 7) [] rfl]
  simp

/-! ### `nbutlast` and `butlast` -/

def dropped (n : Option Int) : Nat := (n.getD 1).toNat

theorem nbutlast_cuts {list : Option Nat} (hl : ListAt h list cs) (n : Option Int) :
    ∃ h' r, nbutlast h list n = some (h', r) ∧ ListAt h' r (cs.take (cs.length - dropped n)) ∧
      ∀ q, q ∉ cs.map Prod.fst → h'[q]? = h[q]? := by
  have hlen := length_run hl 0 (Nat.lt_succ_of_le hl.length_le)
  rw [Nat.zero_add] at hlen
  by_cases hlt : n.getD 1 < cs.length
  · by_cases hpos : n.getD 1 > 0
    · obtain ⟨k, hk⟩ : ∃ k, cs.length = k + 1 + dropped n :=
        ⟨cs.length - 1 - dropped n, by rw [dropped]; omega⟩
      obtain ⟨x, B, hdrop⟩ := List.exists_cons_of_length_pos (l := cs.drop k)
        (by rw [List.length_drop]; omega)
      have hsplit : cs = cs.take k ++ x :: B := by rw [← hdrop, List.take_append_drop]
      have htake : cs.take (cs.length - dropped n) = cs.take k ++ [x] := by
        rw [show cs.length - dropped n = k + 1 by omega, List.take_add, hdrop]
        rfl
      have hk' : cs.length - 1 - (n.getD 1).toNat = (cs.take k).length := by
        rw [List.length_take]
        rw [dropped] at hk
        omega
      obtain ⟨r, hnth, hr⟩ := nthcdr_append (hsplit ▸ hl)
      rw [List.length_take] at hnth
      cases hr with
      | @cons p a _ _ hp hrest =>
        refine ⟨h.set p ⟨a, none⟩, list, ?_, ?_, ?_⟩
        · simp [nbutlast, hlen, hlt, hpos, hk', hnth, setcdr, hp]
        · rw [htake]
          refine (hsplit ▸ hl).splice ?_ ?_ .nil
          · intro y hy
            apply List.getElem?_set_ne
            intro he
            exact (hsplit ▸ hl).apart (List.mem_map_of_mem hy) (by simp [he])
          · exact List.getElem?_set_self (List.getElem?_eq_some_iff.mp hp).1
        · intro q hq
          apply List.getElem?_set_ne
          intro he
          apply hq
          rw [hsplit, ← he]
          simp
    · have hz : dropped n = 0 := by
        rw [dropped]
        omega
      refine ⟨h, list, ?_, ?_, fun _ _ => rfl⟩
      · simp [nbutlast, hlen, hlt, hpos]
      · rw [hz, Nat.sub_zero, List.take_length]
        exact hl
  · refine ⟨h, none, ?_, ?_, fun _ _ => rfl⟩
    · simp [nbutlast, hlen, hlt]
    · rw [show cs.length - dropped n = 0 by rw [dropped]; omega]
      exact .nil

/-- `butlast` gives all but so many of the last elements, and every cell there was, those of its
argument among them, is as it was. -/
theorem butlast_keeps_list {list : Option Nat} (hl : ListAt h list cs) (n : Option Int) :
    ∃ h' r left, butlast h list n = some (h', r) ∧ ListAt h' r left ∧
      left.map Prod.snd = (cs.map Prod.snd).take (cs.length - dropped n) ∧
      ∀ q < h.length, h'[q]? = h[q]? := by
  by_cases hz : n.any fun n => n ≤ 0
  · have hk : dropped n = 0 := by
      cases n with
      | none => simp at hz
      | some n =>
        simp only [Option.any_some, decide_eq_true_eq] at hz
        simp [dropped, hz]
    refine ⟨h, list, cs, if_pos hz, hl, ?_, fun _ _ => rfl⟩
    rw [hk, Nat.sub_zero, List.take_of_length_le (by simp)]
  · obtain ⟨new, l, hcopy, hl'⟩ := copySequence_list hl
    obtain ⟨h', r, hcut, hlist, hframe⟩ := nbutlast_cuts hl' n
    have hsnd : ((List.range' h.length cs.length).zip (cs.map Prod.snd)).map Prod.snd =
        cs.map Prod.snd := List.map_snd_zip (by simp)
    refine ⟨h', r, _, ?_, hlist, ?_, ?_⟩
    · rw [butlast, if_neg hz, hcopy, Option.bind_some]
      exact hcut
    · rw [List.map_take, hsnd]
      simp
    · intro q hq
      rw [hframe q ?_, List.getElem?_append_left hq]
      intro hm
      -- the copied cells are behind all that were there
      rw [List.map_fst_zip (by simp), List.mem_range'] at hm
      obtain ⟨i, -, he⟩ := hm
      omega

theorem butlast_keeps_list_two : ∃ h' r left,
    butlast [⟨7, some 1⟩, ⟨8, none⟩] (some 0) none = some (h', r) ∧ ListAt h' r left ∧
      left.map Prod.snd = [7] := by
  have hl : ListAt [⟨7, some 1⟩, ⟨8, none⟩] (some 0) [(0, 7), (1, 8)] := .cons rfl (.cons rfl .nil)
  obtain ⟨h', r, left, hcut, hlist, hcars, -⟩ := butlast_keeps_list hl none
  exact ⟨h', r, left, hcut, hlist, hcars⟩

end PkgsrcPatches.Elisp.ListEdit
