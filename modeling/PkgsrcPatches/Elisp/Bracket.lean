import Mathlib.Data.List.TakeWhile

/-! Bracket expressions, as Emacs 20 and Emacs 21 read them. Only Emacs 21 knows
classes; to Emacs 20 the `]` of `[:alpha:]` closes the expression. -/
namespace PkgsrcPatches.Elisp

inductive Dialect where
  | emacs20
  | emacs21
deriving DecidableEq

inductive Item where
  | char (c : Char)
  | range (a b : Char)
  | cls (name : List Char)
deriving DecidableEq

def Item.text : Item → List Char
  | .char c => [c]
  | .range a b => [a, '-', b]
  | .cls name => '[' :: ':' :: (name ++ [':', ']'])

def itemsText (items : List Item) : List Char := items.flatMap Item.text

@[simp] theorem itemsText_nil : itemsText [] = [] := rfl

@[simp] theorem itemsText_cons (i : Item) (items : List Item) :
    itemsText (i :: items) = i.text ++ itemsText items := rfl

/-- The upper end of the range that the text after a character makes of it. -/
def rangeEnd : List Char → Option (Char × List Char)
  | m :: b :: t => if m = '-' ∧ b ≠ ']' then some (b, t) else none
  | _ => none

def classAt : List Char → Option (List Char × List Char)
  | [] => none
  | k :: t =>
    let name := t.takeWhile fun c => c ≠ ':' && c ≠ ']'
    match t.drop name.length with
    | a :: b :: rest => if k = ':' ∧ a = ':' ∧ b = ']' then some (name, rest) else none
    | _ => none

def Dialect.classAfter (d : Dialect) (c : Char) (t : List Char) : Option (List Char × List Char) :=
  if d = .emacs21 ∧ c = '[' then classAt t else none

def classNames : List (List Char) :=
  ["alnum", "alpha", "ascii", "blank", "cntrl", "digit", "graph", "lower", "multibyte",
    "nonascii", "print", "punct", "space", "unibyte", "upper", "word", "xdigit"].map String.toList

/-- The members up to the closing `]`, which may itself be the first of them. -/
def readItems (d : Dialect) : Nat → Bool → List Char → Option (List Item × List Char)
  | 0, _, _ => none
  | _+1, _, [] => none
  | n+1, first, c :: t =>
    if c = ']' ∧ first = false then some ([], t)
    else match d.classAfter c t with
      | some (name, t') =>
        if name ∈ classNames then
          (readItems d n false t').map (Prod.map (Item.cls name :: ·) id)
        else none
      | none => match rangeEnd t with
        | some (b, t') => (readItems d n false t').map (Prod.map (Item.range c b :: ·) id)
        | none => (readItems d n false t).map (Prod.map (Item.char c :: ·) id)

/-- Members that are read back as they were written. -/
def ItemsWf (d : Dialect) : Bool → List Item → Prop
  | first, [] => first = false
  | first, .char c :: rest =>
    (c = ']' → first = true) ∧ rangeEnd (itemsText rest ++ [']']) = none ∧
      d.classAfter c (itemsText rest ++ [']']) = none ∧ ItemsWf d false rest
  | first, .range a b :: rest => (a = ']' → first = true) ∧ b ≠ ']' ∧ ItemsWf d false rest
  | _, .cls name :: rest => d = .emacs21 ∧ name ∈ classNames ∧ ItemsWf d false rest

instance ItemsWf.decidable (d : Dialect) : (first : Bool) → (items : List Item) →
    Decidable (ItemsWf d first items)
  | _, [] => inferInstanceAs (Decidable (_ = _))
  | _, .char _ :: rest =>
    have := ItemsWf.decidable d false rest
    inferInstanceAs (Decidable (_ ∧ _ ∧ _ ∧ _))
  | _, .range _ _ :: rest =>
    have := ItemsWf.decidable d false rest
    inferInstanceAs (Decidable (_ ∧ _ ∧ _))
  | _, .cls _ :: rest =>
    have := ItemsWf.decidable d false rest
    inferInstanceAs (Decidable (_ ∧ _ ∧ _))

theorem itemsWf_tail {d : Dialect} {first : Bool} {i : Item} {items : List Item}
    (h : ItemsWf d first (i :: items)) : ItemsWf d false items := by
  cases i with
  | char c => exact h.2.2.2
  | range a b => exact h.2.2
  | cls name => exact h.2.2

theorem rangeEnd_append (u x : List Char) (h : rangeEnd (u ++ [']']) = none) :
    rangeEnd (u ++ ']' :: x) = none := by
  cases u with
  | nil =>
    cases x with
    | nil => rfl
    | cons b x => rfl
  | cons m u =>
    cases u with
    | nil => simp [rangeEnd]
    | cons b u => simpa [rangeEnd] using h

theorem takeWhile_stop {p : Char → Bool} {c : Char} (hc : p c = false) (u x : List Char) :
    (u ++ c :: x).takeWhile p = u.takeWhile p := by
  induction u with
  | nil => simp [hc]
  | cons a u ih => simp only [List.cons_append, List.takeWhile_cons, ih]

theorem takeWhile_until {p : Char → Bool} {c : Char} (hc : p c = false) {u : List Char}
    (hu : ∀ a ∈ u, p a = true) (x : List Char) : (u ++ c :: x).takeWhile p = u := by
  rw [takeWhile_stop hc, List.takeWhile_eq_self_iff.mpr hu]

theorem classAt_append_name (u x : List Char) :
    (classAt (u ++ ']' :: x)).map Prod.fst = (classAt (u ++ [']'])).map Prod.fst := by
  cases u with
  | nil =>
    have hnone : ∀ y, classAt (']' :: y) = none := by
      intro y
      simp only [classAt]
      split <;> simp
    rw [List.nil_append, List.nil_append, hnone, hnone]
  | cons k u =>
    have hstop := takeWhile_stop (p := fun c => c ≠ ':' && c ≠ ']') (c := ']') (by decide) u
    simp only [List.cons_append, classAt, hstop]
    have hle : (u.takeWhile fun c => c ≠ ':' && c ≠ ']').length ≤ u.length :=
      (List.takeWhile_prefix _).length_le
    rw [List.drop_append_of_le_length hle, List.drop_append_of_le_length hle]
    cases hu : u.drop (u.takeWhile fun c => c ≠ ':' && c ≠ ']').length with
    | nil =>
      cases x with
      | nil => simp
      | cons b x => simp
    | cons a v =>
      cases v with
      | nil =>
        simp only [List.cons_append, List.nil_append]
        split <;> simp
      | cons b v =>
        simp only [List.cons_append]
        split <;> simp

theorem classAt_append (u x : List Char) (h : classAt (u ++ [']']) = none) :
    classAt (u ++ ']' :: x) = none := by
  have hname := classAt_append_name u x
  rw [h] at hname
  exact Option.map_eq_none_iff.mp hname

theorem Dialect.classAfter_append (d : Dialect) (c : Char) (u x : List Char)
    (h : d.classAfter c (u ++ [']']) = none) : d.classAfter c (u ++ ']' :: x) = none := by
  unfold Dialect.classAfter at h ⊢
  split at h
  · rw [if_pos ‹_›]
    exact classAt_append u x h
  · exact if_neg ‹_›

theorem classNames_inner : classNames.all (·.all fun c => c ≠ ':' && c ≠ ']') = true := by decide

theorem classAt_name {name : List Char} (h : name ∈ classNames) (x : List Char) :
    classAt (':' :: (name ++ ':' :: ']' :: x)) = some (name, x) := by
  have hinner := List.all_eq_true.mp classNames_inner name h
  have htake : (name ++ ':' :: ']' :: x).takeWhile (fun c => c ≠ ':' && c ≠ ']') = name :=
    takeWhile_until (by decide) (List.all_eq_true.mp hinner) _
  simp only [classAt, htake]
  simp

theorem readItems_text (d : Dialect) (items : List Item) (n : Nat) (first : Bool) (x : List Char)
    (hwf : ItemsWf d first items) (hn : items.length < n) :
    readItems d n first (itemsText items ++ ']' :: x) = some (items, x) := by
  induction items generalizing n first with
  | nil =>
    obtain ⟨n, rfl⟩ := Nat.exists_eq_add_of_lt hn
    have hfirst : first = false := hwf
    simp [readItems, hfirst]
  | cons i items ih =>
    obtain ⟨n, rfl⟩ := Nat.exists_eq_add_of_lt hn
    have hn' : items.length < items.length + 1 + n := by omega
    cases i with
    | char c =>
      obtain ⟨hclose, hrange, hcls, hrest⟩ := hwf
      have hnot : ¬(c = ']' ∧ first = false) := fun h => by simp [hclose h.1] at h
      simp only [itemsText_cons, Item.text, List.cons_append, List.nil_append, List.length_cons,
        readItems, if_neg hnot, d.classAfter_append c _ x hcls, rangeEnd_append _ x hrange,
        ih _ false hrest hn']
      rfl
    | range a b =>
      obtain ⟨hclose, hb, hrest⟩ := hwf
      have hnot : ¬(a = ']' ∧ first = false) := fun h => by simp [hclose h.1] at h
      have hcls : d.classAfter a ('-' :: b :: (itemsText items ++ ']' :: x)) = none := by
        unfold Dialect.classAfter classAt
        split
        · simp only
          split <;> simp
        · rfl
      have hrange : rangeEnd ('-' :: b :: (itemsText items ++ ']' :: x)) =
          some (b, itemsText items ++ ']' :: x) := by simp [rangeEnd, hb]
      simp only [itemsText_cons, Item.text, List.cons_append, List.nil_append, List.length_cons,
        readItems, if_neg hnot, hcls, hrange, ih _ false hrest hn']
      rfl
    | cls name =>
      obtain ⟨hd, hname, hrest⟩ := hwf
      have hcls : d.classAfter '[' (':' :: (name ++ ':' :: ']' :: (itemsText items ++ ']' :: x))) =
          some (name, itemsText items ++ ']' :: x) := by
        rw [Dialect.classAfter, if_pos ⟨hd, rfl⟩, classAt_name hname]
      simp only [itemsText_cons, Item.text, List.cons_append, List.nil_append, List.append_assoc,
        List.length_cons, readItems]
      rw [if_neg (by simp), hcls]
      simp only [if_pos hname, ih _ false hrest hn']
      rfl

structure Bracket where
  neg : Bool
  items : List Item
deriving DecidableEq

namespace Bracket

def text (b : Bracket) : List Char :=
  '[' :: ((if b.neg then ['^'] else []) ++ itemsText b.items ++ [']'])

def Wf (d : Dialect) (b : Bracket) : Prop :=
  ItemsWf d true b.items ∧ (b.neg = false → (itemsText b.items).head? ≠ some '^')

instance (d : Dialect) (b : Bracket) : Decidable (b.Wf d) :=
  inferInstanceAs (Decidable (_ ∧ _))

end Bracket

def readBracket (d : Dialect) (t : List Char) : Option (Bracket × List Char) :=
  if t.head? = some '^' then (readItems d t.length true t.tail).map (Prod.map (Bracket.mk true) id)
  else (readItems d (t.length + 1) true t).map (Prod.map (Bracket.mk false) id)

theorem length_le_itemsText (items : List Item) : items.length ≤ (itemsText items).length := by
  induction items with
  | nil => exact Nat.le_refl _
  | cons i items ih =>
    have hi : 0 < i.text.length := by cases i <;> simp [Item.text]
    simp only [itemsText_cons, List.length_append, List.length_cons]
    omega

theorem readBracket_text (d : Dialect) (b : Bracket) (x : List Char) (hwf : b.Wf d) :
    readBracket d (b.text.tail ++ x) = some (b, x) := by
  obtain ⟨neg, items⟩ := b
  obtain ⟨hitems, hcaret⟩ := hwf
  have hlen := length_le_itemsText items
  cases neg with
  | true =>
    have hread := readItems_text d items (itemsText items ++ ']' :: x).length.succ true x hitems
      (by simp; omega)
    simp only [Bracket.text, if_true, List.tail_cons, List.append_assoc, List.cons_append,
      List.nil_append, readBracket, List.head?_cons, List.length_cons]
    rw [← Nat.succ_eq_add_one, hread]
    rfl
  | false =>
    have hread := readItems_text d items (itemsText items ++ ']' :: x).length.succ true x hitems
      (by simp; omega)
    have hhead : (itemsText items ++ ']' :: x).head? ≠ some '^' := by
      cases h : itemsText items with
      | nil => simp
      | cons c t => simpa [h] using hcaret rfl
    simp only [Bracket.text, List.tail_cons, Bool.false_eq_true, if_false, List.nil_append,
      List.append_assoc, List.cons_append, readBracket, if_neg hhead]
    rw [← Nat.succ_eq_add_one, hread]
    rfl

section Meaning
variable (cls : List Char → Char → Prop)

def Item.holds : Item → Char → Prop
  | .char c, x => x = c
  | .range a b, x => a.toNat ≤ x.toNat ∧ x.toNat ≤ b.toNat
  | .cls name, x => cls name x

def Bracket.holds (b : Bracket) (x : Char) : Prop :=
  if b.neg then ¬∃ i ∈ b.items, i.holds cls x else ∃ i ∈ b.items, i.holds cls x

end Meaning

end PkgsrcPatches.Elisp
