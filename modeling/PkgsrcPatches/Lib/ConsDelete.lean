import Mathlib.Data.List.Nodup
import PkgsrcPatches.Lib.Cons

/-! Taking every cell with a certain car out of a list of cons cells, and the last cells. -/
namespace PkgsrcPatches.Lib.Cons
open Lib.Loop
variable {α : Type*}

def deletePass (g : α → Bool) (s : Delq α) :
    Option (Pass (Delq α) (List (Cell α) × Option Nat)) :=
  match s.tail with
  | none => some (.done (s.heap, s.list))
  | some p => do
    let c ← s.heap[p]?
    if g c.car then
      match s.prev with
      | none => pure (.next { s with list := c.cdr, tail := c.cdr })
      | some q => do
        let heap ← setcdr s.heap q c.cdr
        pure (.next { s with heap := heap, tail := c.cdr })
    else
      pure (.next { s with prev := some p, tail := c.cdr })

def nthcdr (h : List (Cell α)) : Nat → Option Nat → Option (Option Nat)
  | 0, l => some l
  | _+1, none => some none
  | n+1, some p => h[p]?.bind fun c => nthcdr h n c.cdr

def elements (h : List (Cell α)) : Nat → Option Nat → Option (List α)
  | _, none => some []
  | 0, some _ => none
  | n+1, some p => h[p]?.bind fun c => (elements h n c.cdr).map (c.car :: ·)

def fresh (h : List (Cell α)) : List α → List (Cell α) × Option Nat
  | [] => (h, none)
  | [a] => (h ++ [⟨a, none⟩], some h.length)
  | a :: cars => ((fresh (h ++ [⟨a, some (h.length + 1)⟩]) cars).1, some h.length)

def copySequence (h : List (Cell α)) (l : Option Nat) : Option (List (Cell α) × Option Nat) :=
  (elements h h.length l).map (fresh h)

section
variable {h h' : List (Cell α)} {l r : Option Nat} {cs A B D : List (Nat × α)} {x : Nat × α}

theorem ListAt.splice (hl : ListAt h l (A ++ x :: cs)) (hA : ∀ y ∈ A, h'[y.1]? = h[y.1]?)
    (hx : h'[x.1]? = some ⟨x.2, r⟩) (hr : ListAt h' r B) : ListAt h' l (A ++ x :: B) := by
  induction A generalizing l with
  | nil =>
    cases hl with
    | cons _ _ => exact .cons hx hr
  | cons y A ih =>
    cases hl with
    | cons hp hrest =>
      refine .cons ((hA _ List.mem_cons_self).trans hp) (ih hrest ?_)
      intro z hz
      exact hA z (List.mem_cons_of_mem _ hz)

theorem ListAt.apart (hl : ListAt h l (A ++ B)) {p : Nat} (hA : p ∈ A.map Prod.fst)
    (hB : p ∈ B.map Prod.fst) : False := by
  have hn := hl.nodup
  rw [List.map_append] at hn
  exact (List.nodup_append.mp hn).2.2 p hA p hB rfl

theorem ListAt.nodup_cells (hl : ListAt h l cs) : cs.Nodup := List.Nodup.of_map Prod.fst hl.nodup

variable {g : α → Bool} {list prev : Option Nat} {n : Nat}

theorem delete_run (hl : ListAt h list (D ++ cs)) (ht : ListAt h l cs)
    (hprev : prev = D.getLast?.map Prod.fst) (hn : cs.length < n) :
    ∃ h' l', run (deletePass g) n ⟨h, list, prev, l⟩ = .ret (h', l') ∧
      ListAt h' l' (D ++ cs.filter fun y => !g y.2) ∧
      ∀ p, p ∉ (D ++ cs).map Prod.fst → h'[p]? = h[p]? := by
  induction cs generalizing h list prev l D n with
  | nil =>
    cases ht
    obtain ⟨m, rfl⟩ := Nat.exists_eq_add_of_lt hn
    exact ⟨h, list, run_done _ rfl, hl, fun _ _ => rfl⟩
  | cons y cs ih =>
    cases n with
    | zero => omega
    | succ n =>
      cases ht with
      | @cons p a r _ hp hr =>
      have hlt : cs.length < n := Nat.lt_of_succ_lt_succ hn
      cases hg : g a with
      | false =>
        have hpass : deletePass g ⟨h, list, prev, some p⟩ =
            some (.next ⟨h, list, some p, r⟩) := by
          simp [deletePass, hp, hg]
        have hl' : ListAt h list ((D ++ [(p, a)]) ++ cs) := by simpa using hl
        have hprev' : some p = (D ++ [(p, a)]).getLast?.map Prod.fst := by simp
        obtain ⟨h', l', hrun, hlist, hframe⟩ := ih hl' hr hprev' hlt
        refine ⟨h', l', (run_next n hpass).trans hrun, ?_, ?_⟩
        · simpa [hg] using hlist
        · intro q hq
          exact hframe q (by simpa using hq)
      | true =>
        obtain rfl | ⟨D, q, rfl⟩ := D.eq_nil_or_concat'
        · -- nothing kept yet: the list begins behind the cell
          subst hprev
          have hpass : deletePass g ⟨h, list, none, some p⟩ =
              some (.next ⟨h, r, none, r⟩) := by
            simp [deletePass, hp, hg]
          have hprev' : none = ([] : List (Nat × α)).getLast?.map Prod.fst := rfl
          obtain ⟨h', l', hrun, hlist, hframe⟩ := ih hr hr hprev' hlt
          refine ⟨h', l', (run_next n hpass).trans hrun, ?_, ?_⟩
          · simpa [hg] using hlist
          · intro q hq
            apply hframe
            intro hm
            exact hq (List.mem_cons_of_mem _ hm)
        · subst hprev
          rw [List.append_assoc, List.singleton_append] at hl
          obtain ⟨r', hq⟩ := hl.read (List.mem_append_right D List.mem_cons_self)
          have hqD : ∀ y ∈ D, y.1 ≠ q.1 := fun y hy he =>
            hl.apart (List.mem_map_of_mem hy) (he ▸ List.mem_map_of_mem List.mem_cons_self)
          have hqcs : ∀ y ∈ cs, y.1 ≠ q.1 := by
            have happart := (List.append_cons D q ((p, a) :: cs) ▸ hl).apart (p := q.1) (by simp)
            intro y hy he
            exact happart (List.mem_map.mpr ⟨y, List.mem_cons_of_mem _ hy, he⟩)
          have hset : ∀ p', p' ≠ q.1 → (h.set q.1 ⟨q.2, r⟩)[p']? = h[p']? := fun p' hne =>
            List.getElem?_set_ne (Ne.symm hne)
          have hself : (h.set q.1 ⟨q.2, r⟩)[q.1]? = some ⟨q.2, r⟩ :=
            List.getElem?_set_self (List.getElem?_eq_some_iff.mp hq).1
          have hpass : deletePass g
              ⟨h, list, (D ++ [q]).getLast?.map Prod.fst, some p⟩ =
                some (.next ⟨h.set q.1 ⟨q.2, r⟩, list, some q.1, r⟩) := by
            simp [deletePass, setcdr, hp, hq, hg]
          have hr' : ListAt (h.set q.1 ⟨q.2, r⟩) r cs := hr.congr fun y hy => hset _ (hqcs y hy)
          have hl' : ListAt (h.set q.1 ⟨q.2, r⟩) list ((D ++ [q]) ++ cs) := by
            rw [List.append_assoc, List.singleton_append]
            exact hl.splice (fun y hy => hset _ (hqD y hy)) hself hr'
          have hprev' : some q.1 = (D ++ [q]).getLast?.map Prod.fst := by simp
          obtain ⟨h', l', hrun, hlist, hframe⟩ := ih hl' hr' hprev' hlt
          refine ⟨h', l', (run_next n hpass).trans hrun, ?_, ?_⟩
          · simpa [hg] using hlist
          · intro p' hp'
            have hne : p' ≠ q.1 := by
              intro he
              exact hp' (by simp [he])
            rw [hframe p' ?_, hset p' hne]
            intro hm
            have hsub := ((List.sublist_cons_self (p, a) cs).append_left (D ++ [q])).map Prod.fst
            exact hp' (hsub.subset hm)

theorem nthcdr_append (hl : ListAt h l (A ++ B)) :
    ∃ r, nthcdr h A.length l = some r ∧ ListAt h r B := by
  induction A generalizing l with
  | nil => exact ⟨l, rfl, hl⟩
  | cons y A ih =>
    cases hl with
    | cons hp hr =>
      obtain ⟨r, hn, hB⟩ := ih hr
      exact ⟨r, by simp [nthcdr, hp, hn], hB⟩

theorem elements_list (hl : ListAt h l cs) (hn : cs.length ≤ n) :
    elements h n l = some (cs.map Prod.snd) := by
  induction hl generalizing n with
  | nil => cases n <;> rfl
  | cons hp _ ih =>
    cases n with
    | zero => simp at hn
    | succ n => simp [elements, hp, ih (Nat.le_of_succ_le_succ hn)]

theorem fresh_list (h : List (Cell α)) (cars : List α) :
    ∃ new, (fresh h cars).1 = h ++ new ∧
      ListAt (h ++ new) (fresh h cars).2 ((List.range' h.length cars.length).zip cars) := by
  induction cars generalizing h with
  | nil => exact ⟨[], (List.append_nil h).symm, .nil⟩
  | cons a cars ih =>
    cases cars with
    | nil =>
      refine ⟨[⟨a, none⟩], rfl, ?_⟩
      exact .cons List.getElem?_concat_length .nil
    | cons b cars =>
      obtain ⟨new, hheap, hlist⟩ := ih (h ++ [⟨a, some (h.length + 1)⟩])
      refine ⟨⟨a, some (h.length + 1)⟩ :: new, ?_, ?_⟩
      · rw [fresh, hheap, List.append_assoc]
        · rfl
        · simp
      · have hfirst : (fresh (h ++ [⟨a, some (h.length + 1)⟩]) (b :: cars)).2 =
            some (h.length + 1) := by
          cases cars <;> simp [fresh]
        rw [hfirst, List.append_assoc, List.length_append] at hlist
        exact .cons (by simp) hlist

theorem copySequence_list (hl : ListAt h l cs) :
    ∃ new r, copySequence h l = some (h ++ new, r) ∧
      ListAt (h ++ new) r ((List.range' h.length cs.length).zip (cs.map Prod.snd)) := by
  obtain ⟨new, hheap, hlist⟩ := fresh_list h (cs.map Prod.snd)
  rw [List.length_map] at hlist
  refine ⟨new, (fresh h (cs.map Prod.snd)).2, ?_, hlist⟩
  rw [copySequence, elements_list hl hl.length_le, Option.map_some, ← hheap]

end

end PkgsrcPatches.Lib.Cons
