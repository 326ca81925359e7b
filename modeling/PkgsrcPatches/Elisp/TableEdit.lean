import PkgsrcPatches.Elisp.HashTable

/-! What `puthash` and `remhash` do to a table's alist and to the memory it lies in. -/
namespace PkgsrcPatches.Elisp
open Lib.Loop Lib.Cons Lib.Alist
variable {K V : Type}

structure Bound (K V : Type) where
  cell : Nat
  entry : Nat
  key : K
  value : V

def cells (bs : List (Bound K V)) : List (Nat × Nat) := bs.map fun b => (b.cell, b.entry)

def alist (bs : List (Bound K V)) : List (K × V) := bs.map fun b => (b.key, b.value)

def listOf (tables : List Table) (t : Nat) : Option Nat := tables[t]?.bind Table.list

def tests (tables : List Table) : List Arg := tables.map Table.test

def testOf (tables : List Table) (t : Nat) : Arg := (tests tables)[t]?.getD .nil

/-- These are the entries of the alist that starts at `l`. -/
structure AlistAt (w : World K V) (l : Option Nat) (bs : List (Bound K V)) : Prop where
  spine : ListAt w.spine l (cells bs)
  entries : ∀ b ∈ bs, w.entries[b.entry]? = some (b.key, b.value)

/-! ### Tables -/
section Tables
variable {tables : List Table} {t t' : Nat} {l : Option Nat}

theorem listOf_asetList_self (ht : t < tables.length) : listOf (asetList tables t l) t = l := by
  simp [listOf, asetList, ht]

theorem listOf_asetList_ne (h : t' ≠ t) : listOf (asetList tables t l) t' = listOf tables t' := by
  simp [listOf, asetList, Ne.symm h]

theorem tests_asetList : tests (asetList tables t l) = tests tables := by
  apply List.ext_getElem?
  intro i
  rw [tests, asetList, List.getElem?_map, List.getElem?_modify, tests, List.getElem?_map]
  cases tables[i]? with
  | none => rfl
  | some table => by_cases h : t = i <;> simp [h]

end Tables

/-! ### Alists in memory -/
section Alists
variable {E : Equality K} {w w' : World K V} {l : Option Nat} {bs A B : List (Bound K V)}
  {b : Bound K V} {k : K}

theorem alist_middle : alist (A ++ b :: B) = alist A ++ (b.key, b.value) :: alist B := by
  rw [alist, List.map_append, List.map_cons, alist, alist]

theorem cells_middle : cells (A ++ b :: B) = cells A ++ (b.cell, b.entry) :: cells B := by
  rw [cells, List.map_append, List.map_cons, cells, cells]

theorem mem_middle {x : Bound K V} (hx : x ∈ A ++ B) : x ∈ A ++ b :: B :=
  ((List.sublist_cons_self b B).append_left A).subset hx

theorem AlistAt.congr (h : AlistAt w l bs) (hs : ∀ b ∈ bs, w'.spine[b.cell]? = w.spine[b.cell]?)
    (he : ∀ b ∈ bs, w'.entries[b.entry]? = w.entries[b.entry]?) : AlistAt w' l bs where
  spine := h.spine.congr fun x hx => by
    obtain ⟨b, hb, rfl⟩ := List.mem_map.mp hx
    exact hs b hb
  entries b hb := (he b hb).trans (h.entries b hb)

theorem AlistAt.read (h : AlistAt w l bs) (hb : b ∈ bs) :
    ∃ r, w.spine[b.cell]? = some ⟨b.entry, r⟩ :=
  h.spine.read (List.mem_map_of_mem hb)

theorem AlistAt.cell_lt (h : AlistAt w l bs) (hb : b ∈ bs) : b.cell < w.spine.length :=
  h.spine.lt_length (List.mem_map_of_mem hb)

theorem AlistAt.entry_lt (h : AlistAt w l bs) (hb : b ∈ bs) : b.entry < w.entries.length :=
  (List.getElem?_eq_some_iff.mp (h.entries b hb)).1

theorem AlistAt.length_le (h : AlistAt w l bs) : bs.length ≤ w.spine.length := by
  have := h.spine.length_le
  rwa [cells, List.length_map] at this

theorem AlistAt.entry_ne (h : AlistAt w l (A ++ b :: B)) (hu : Unique E (alist (A ++ b :: B)))
    {x : Bound K V} (hx : x ∈ A ++ B) : x.entry ≠ b.entry := by
  intro he
  have hxe := h.entries x (mem_middle hx)
  rw [he, h.entries b (List.mem_append_right _ List.mem_cons_self), Option.some.injEq,
    Prod.mk.injEq] at hxe
  rw [alist_middle, unique_middle, alist, alist, ← List.map_append] at hu
  exact hu.1 (x.key, x.value) (List.mem_map_of_mem hx) (hxe.1 ▸ E.refl _)

end Alists

/-! ### Edits -/

/-- What a change of the key `k` comes to in table `t`: its entries and the world before, and
both behind. -/
inductive Edit (E : Equality K) (w : World K V) (t : Nat) (k : K) :
    List (Bound K V) → Change K V → World K V → List (Bound K V) → Prop
  | set {A B : List (Bound K V)} {b : Bound K V} (v : V) (hk : E.same b.key k) :
    Edit E w t k (A ++ b :: B) (.put k v)
      { w with entries := w.entries.set b.entry (b.key, v) } (A ++ { b with value := v } :: B)
  | push {bs : List (Bound K V)} (v : V) (hk : ∀ b ∈ bs, ¬E.same b.key k) :
    Edit E w t k bs (.put k v)
      { entries := w.entries ++ [(k, v)]
        spine := w.spine ++ [⟨w.entries.length, listOf w.tables t⟩]
        tables := asetList w.tables t (some w.spine.length) }
      (⟨w.spine.length, w.entries.length, k, v⟩ :: bs)
  | cut {A B : List (Bound K V)} {b : Bound K V} {spine : List (Cell Nat)} {l : Option Nat}
    (hk : E.same b.key k) (hl : ListAt spine l (cells (A ++ B)))
    (hs : ∀ p, (∀ a ∈ A, a.cell ≠ p) → spine[p]? = w.spine[p]?) :
    Edit E w t k (A ++ b :: B) (.rem k)
      { w with spine := spine, tables := asetList w.tables t l } (A ++ B)
  | absent {bs : List (Bound K V)} (hk : ∀ b ∈ bs, ¬E.same b.key k) : Edit E w t k bs (.rem k) w bs

section Edits
variable {E : Equalities K} {w w' : World K V} {t : Nat} {k : K} {v : V} {bs bs' : List (Bound K V)}
  {c : Change K V}

variable {E : Equality K}

theorem Edit.models {changes : List (Change K V)} (h : Edit E w t k bs c w' bs')
    (hm : Models E (alist bs) changes) : Models E (alist bs') (changes ++ [c]) := by
  cases h with
  | set v hk =>
    rw [alist_middle] at hm ⊢
    exact hm.put_old hk
  | push v hk =>
    apply hm.put_new
    intro x hx
    obtain ⟨b, hb, rfl⟩ := List.mem_map.mp hx
    exact hk b hb
  | @cut A B b spine l hk hl hs =>
    rw [alist_middle] at hm
    rw [alist, List.map_append]
    exact hm.rem hk
  | absent hk =>
    apply hm.rem_absent
    intro x hx
    obtain ⟨b, hb, rfl⟩ := List.mem_map.mp hx
    exact hk b hb

theorem Edit.alistAt (h : Edit E w t k bs c w' bs') (ht : t < w.tables.length)
    (hat : AlistAt w (listOf w.tables t) bs) (hu : Unique E (alist bs)) :
    AlistAt w' (listOf w'.tables t) bs' := by
  cases h with
  | @set A B b v hk =>
    have hlt := hat.entry_lt (List.mem_append_right A List.mem_cons_self)
    refine ⟨by simpa only [cells_middle] using hat.spine, fun x hx => ?_⟩
    obtain hx | rfl : x ∈ A ++ B ∨ x = { b with value := v } := by
      simp only [List.mem_append, List.mem_cons] at hx ⊢
      tauto
    · rw [List.getElem?_set_ne (Ne.symm (hat.entry_ne hu hx)), hat.entries x (mem_middle hx)]
    · exact List.getElem?_set_self hlt
  | push v hk =>
    rw [listOf_asetList_self ht]
    refine ⟨hat.spine.push _, fun x hx => ?_⟩
    cases List.mem_cons.mp hx with
    | inl hx =>
      subst hx
      exact List.getElem?_concat_length
    | inr hx => exact (List.getElem?_append_left (hat.entry_lt hx)).trans (hat.entries x hx)
  | @cut A B b spine l hk hl hs =>
    rw [listOf_asetList_self ht]
    exact ⟨hl, fun x hx => hat.entries x (mem_middle hx)⟩
  | absent hk => exact hat

/-- What is done to table `t` stays in its conses and in new ones. -/
structure Touches (w : World K V) (t : Nat) (bs : List (Bound K V)) (w' : World K V)
    (bs' : List (Bound K V)) : Prop where
  tests : tests w'.tables = tests w.tables
  list : ∀ t', t' ≠ t → listOf w'.tables t' = listOf w.tables t'
  spine : ∀ p < w.spine.length, (∀ b ∈ bs, b.cell ≠ p) → w'.spine[p]? = w.spine[p]?
  entries : ∀ p < w.entries.length, (∀ b ∈ bs, b.entry ≠ p) → w'.entries[p]? = w.entries[p]?
  own : ∀ b' ∈ bs', (b'.cell, b'.entry) ∈ cells bs ∨
    w.spine.length ≤ b'.cell ∧ w.entries.length ≤ b'.entry

theorem Edit.touches (h : Edit E w t k bs c w' bs') : Touches w t bs w' bs' := by
  cases h with
  | @set A B b v hk =>
    refine ⟨rfl, fun _ _ => rfl, fun _ _ _ => rfl, fun p _ hp => ?_, fun b' hb' => ?_⟩
    · exact List.getElem?_set_ne (hp b (List.mem_append_right A List.mem_cons_self))
    · have hcells : cells (A ++ { b with value := v } :: B) = cells (A ++ b :: B) := by
        rw [cells_middle, cells_middle]
      exact Or.inl (hcells ▸ List.mem_map_of_mem hb')
  | push v hk =>
    refine ⟨tests_asetList, fun _ => listOf_asetList_ne,
      fun p hp _ => List.getElem?_append_left hp, fun p hp _ => List.getElem?_append_left hp,
      fun b' hb' => ?_⟩
    cases List.mem_cons.mp hb' with
    | inl hb' => exact Or.inr (hb' ▸ ⟨Nat.le_refl _, Nat.le_refl _⟩)
    | inr hb' => exact Or.inl (List.mem_map_of_mem hb')
  | @cut A B b spine l hk hl hs =>
    refine ⟨tests_asetList, fun _ => listOf_asetList_ne,
      fun p _ hp => hs p fun a ha => hp a (List.mem_append_left _ ha), fun _ _ _ => rfl,
      fun b' hb' => Or.inl (List.mem_map_of_mem (mem_middle hb'))⟩
  | absent hk =>
    exact ⟨rfl, fun _ _ => rfl, fun _ _ _ => rfl, fun _ _ _ => rfl,
      fun b' hb' => Or.inl (List.mem_map_of_mem hb')⟩

end Edits

end PkgsrcPatches.Elisp
