import Mathlib.Data.List.Basic
import PkgsrcPatches.Elisp.Regexp

/-! `e20-bracket`: a bracket expression that holds a class becomes the ASCII
characters it stands for and, in an alternative of their own, everything beyond
ASCII. -/
namespace PkgsrcPatches.Elisp

/-- Each class with its ASCII members, and whether it also stands for every non-ASCII
character. -/
def e20ClassAlist : List (List Char × List Char × Bool) :=
  [("[:alpha:]".toList, "a-zA-Z".toList, true), ("[:alnum:]".toList, "0-9a-zA-Z".toList, true),
    ("[:digit:]".toList, "0-9".toList, false), ("[:xdigit:]".toList, "0-9a-fA-F".toList, false),
    ("[:space:]".toList, [' ', '\t', '\n', '\r', '\x0c'], false),
    ("[:upper:]".toList, "A-Z".toList, false), ("[:lower:]".toList, "a-z".toList, false),
    ("[:nonascii:]".toList, [], true), ("[:blank:]".toList, [' ', '\t'], false)]

/-- The inner loop sets no entry from 128 on. -/
def markRange (v : Nat → Bool) (a b : Nat) : Nat → Bool :=
  fun k => v k || (decide (a ≤ k) && decide (k ≤ min b 127))

def e20MarkRanges (v : Nat → Bool) : List Char → Nat → Bool
  | [] => v
  | a :: m :: b :: t =>
    if m = '-' then e20MarkRanges (markRange v a.toNat b.toNat) t
    else e20MarkRanges (markRange v a.toNat a.toNat) (m :: b :: t)
  | a :: t => e20MarkRanges (markRange v a.toNat a.toNat) t

/-- What the loop of `e20-bracket` has collected: `v`, `nonascii` and `extra`. -/
structure Marks where
  v : Nat → Bool
  nonascii : Bool
  extra : List Char

def Marks.none : Marks := ⟨fun _ => false, false, []⟩

def throughClass : List Char → Option (List Char × List Char)
  | a :: b :: t =>
    if a = ':' ∧ b = ']' then some ([':', ']'], t)
    else (throughClass (b :: t)).map (Prod.map (a :: ·) id)
  | _ => .none

def e20BracketLoop : Nat → Bool → Marks → List Char → Option (Marks × List Char)
  | 0, _, _, _ => .none
  | _+1, _, m, [] => some (m, [])
  | n+1, first, m, c :: t =>
    if c = ']' ∧ first = false then some (m, c :: t)
    else if c = '[' ∧ t.head? = some ':' then
      match throughClass (c :: t) with
      | .none => .none
      | some (key, rest) => match e20ClassAlist.lookup key with
        | .none => .none
        | some (spec, all) =>
          e20BracketLoop n false
            { m with v := e20MarkRanges m.v spec, nonascii := m.nonascii || all } rest
    else match rangeEnd t with
      | some (b, rest) =>
        e20BracketLoop n false
          (if 127 < b.toNat then { m with extra := m.extra ++ [c, '-', b] }
            else { m with v := e20MarkRanges m.v [c, '-', b] }) rest
      | .none =>
        e20BracketLoop n false
          (if 127 < c.toNat then { m with extra := m.extra ++ [c] }
            else { m with v := e20MarkRanges m.v [c] }) t

def pick (sel : Nat → Bool) (s : List Char × Bool × Bool) (k : Nat) : List Char × Bool × Bool :=
  if sel k then
    if k = 93 then (s.1, s.2.1, true)
    else if k = 45 then (s.1, true, s.2.2)
    else if k = 94 then (s.1 ++ ['^'], s.2)
    else (Char.ofNat k :: s.1, s.2)
  else s

/-- `]` first, `^` not first, `-` last. -/
def e20Chars (sel : Nat → Bool) : List Char :=
  let s := (List.range 128).foldl (pick sel) ([], false, false)
  let chars := if s.1.head? = some '^' then s.1.tail ++ ['^'] else s.1
  (if s.2.2 then [']'] else []) ++ chars ++ (if s.2.1 then ['-'] else [])

def nonAsciiText : List Char := ['[', '^', Char.ofNat 0, '-', Char.ofNat 127, ']']

def noneText : List Char := ['[', '^', Char.ofNat 0, '-', Char.ofNat 255, ']']

def e20Alts (neg : Bool) (m : Marks) : List (List Char) :=
  let chars := e20Chars fun k => if neg then !m.v k else m.v k
  let alts := if chars = [] then [] else ['[' :: (chars ++ [']'])]
  if (if neg then !m.nonascii else m.nonascii) then alts ++ [nonAsciiText]
  else if m.extra ≠ [] ∧ neg = false then alts ++ ['[' :: (m.extra ++ [']'])]
  else alts

/-- The translation, and whether it is a group of its own. -/
def e20Joined : List (List Char) → List Char × Bool
  | [] => (noneText, false)
  | [a] => (a, false)
  | alts => ('\\' :: '(' :: (['\\', '|'].intercalate alts ++ ['\\', ')']), true)

/-- `e20-bracket` on the text from the `[` on: translation, whether it is a group, and the
text after the bracket expression. -/
def e20Bracket (re : List Char) : Option ((List Char × Bool) × List Char) :=
  let neg := re.tail.head? = some '^'
  let t := if neg then re.tail.tail else re.tail
  match e20BracketLoop (t.length + 1) true Marks.none t with
  | .none => .none
  | some (m, rest) => some (e20Joined (e20Alts neg m), rest.tail)

/-! ### The loop over the members -/

def classKey (name : List Char) : List Char := '[' :: ':' :: (name ++ [':', ']'])

def e20Class (name : List Char) : Option (List Char × Bool) :=
  e20ClassAlist.lookup (classKey name)

def Item.IsAscii : Item → Prop
  | .char c => c.toNat ≤ 127
  | .range _ b => b.toNat ≤ 127
  | .cls _ => True

instance : (i : Item) → Decidable i.IsAscii
  | .char _ => inferInstanceAs (Decidable (_ ≤ _))
  | .range _ _ => inferInstanceAs (Decidable (_ ≤ _))
  | .cls _ => isTrue trivial

def Marks.add (m : Marks) : Item → Marks
  | .char c =>
    if 127 < c.toNat then { m with extra := m.extra ++ [c] }
    else { m with v := e20MarkRanges m.v [c] }
  | .range a b =>
    if 127 < b.toNat then { m with extra := m.extra ++ [a, '-', b] }
    else { m with v := e20MarkRanges m.v [a, '-', b] }
  | .cls name => match e20Class name with
    | some (spec, all) =>
      { m with v := e20MarkRanges m.v spec, nonascii := m.nonascii || all }
    | .none => m

/-- Every class is in the alist, and a `[` is followed by no `:` that would make it open one. -/
def ItemsKnown : List Item → Prop
  | [] => True
  | .char c :: rest => (c = '[' → (itemsText rest).head? ≠ some ':') ∧ ItemsKnown rest
  | .range _ _ :: rest => ItemsKnown rest
  | .cls name :: rest => e20Class name ≠ .none ∧ ItemsKnown rest

instance ItemsKnown.decidable : (items : List Item) → Decidable (ItemsKnown items)
  | [] => isTrue trivial
  | .char _ :: rest =>
    have := ItemsKnown.decidable rest
    inferInstanceAs (Decidable ((_ → ¬_) ∧ _))
  | .range _ _ :: rest => ItemsKnown.decidable rest
  | .cls _ :: rest =>
    have := ItemsKnown.decidable rest
    inferInstanceAs (Decidable (¬_ ∧ _))

theorem throughClass_name {name : List Char} (x : List Char)
    (h : ∀ c ∈ name, c ≠ ':') :
    throughClass (name ++ ':' :: ']' :: x) = some (name ++ [':', ']'], x) := by
  induction name with
  | nil => simp [throughClass]
  | cons a t ih =>
    have ha : a ≠ ':' := h a List.mem_cons_self
    have hrest := ih fun c hc => h c (List.mem_cons_of_mem _ hc)
    cases t with
    | nil => simp [throughClass, ha]
    | cons b t =>
      simp only [List.cons_append] at hrest ⊢
      simp only [throughClass, ha, false_and, if_false]
      rw [hrest]
      rfl

theorem throughClass_key {name : List Char} (h : name ∈ classNames) (x : List Char) :
    throughClass ('[' :: ':' :: (name ++ ':' :: ']' :: x)) = some (classKey name, x) := by
  have hinner := List.all_eq_true.mp classNames_inner name h
  have hname : ∀ c ∈ name, c ≠ ':' := by
    intro c hc
    have h := List.all_eq_true.mp hinner c hc
    simp only [Bool.and_eq_true, decide_eq_true_eq] at h
    exact h.1
  cases name with
  | nil => simp [classNames] at h
  | cons a t =>
    have ha : a ≠ ']' := by
      have h := List.all_eq_true.mp hinner a List.mem_cons_self
      simp only [Bool.and_eq_true, decide_eq_true_eq] at h
      exact h.2
    have hrest := throughClass_name x hname
    simp only [List.cons_append] at hrest ⊢
    simp only [throughClass, ha, and_false, if_false, show ¬('[' = ':') by decide, false_and]
    rw [hrest]
    rfl

/-- A class is in the alist, and a `[` does not stand before a colon. -/
def Item.Known (rest : List Char) : Item → Prop
  | .char c => c = '[' → rest.head? ≠ some ':'
  | .range _ _ => True
  | .cls name => e20Class name ≠ .none

theorem itemsKnown_cons (i : Item) (items : List Item) :
    ItemsKnown (i :: items) ↔ i.Known (itemsText items) ∧ ItemsKnown items := by
  cases i with
  | char c => exact Iff.rfl
  | range a b => exact (iff_of_eq (true_and _)).symm
  | cls name => exact Iff.rfl

theorem e20BracketLoop_member {d : Dialect} {first : Bool} {i : Item} {items : List Item}
    (hwf : ItemsWf d first (i :: items)) (hknown : i.Known (itemsText items)) (n : Nat) (m : Marks)
    (x : List Char) : e20BracketLoop (n + 1) first m (itemsText (i :: items) ++ ']' :: x) =
      e20BracketLoop n false (m.add i) (itemsText items ++ ']' :: x) := by
  cases i with
  | char c =>
    obtain ⟨hclose, hrange, -, -⟩ := hwf
    have hnot : ¬(c = ']' ∧ first = false) := fun h => by simp [hclose h.1] at h
    have hcolon : ¬(c = '[' ∧ (itemsText items ++ ']' :: x).head? = some ':') := by
      intro h
      have hno := hknown h.1
      cases hi : itemsText items with
      | nil => simp [hi] at h
      | cons a t =>
        rw [hi] at h hno
        exact hno (by simpa using h.2)
    simp only [itemsText_cons, Item.text, List.cons_append, List.nil_append, e20BracketLoop,
      if_neg hnot, if_neg hcolon, rangeEnd_append _ x hrange, Marks.add]
  | range a b =>
    obtain ⟨hclose, hb, -⟩ := hwf
    have hnot : ¬(a = ']' ∧ first = false) := fun h => by simp [hclose h.1] at h
    have hrange : rangeEnd ('-' :: b :: (itemsText items ++ ']' :: x)) =
        some (b, itemsText items ++ ']' :: x) := by simp [rangeEnd, hb]
    have hcolon : ¬(a = '[' ∧ ('-' :: b :: (itemsText items ++ ']' :: x)).head? = some ':') := by
      simp
    simp only [itemsText_cons, Item.text, List.cons_append, List.nil_append, e20BracketLoop,
      if_neg hnot, if_neg hcolon, hrange, Marks.add]
  | cls name =>
    obtain ⟨⟨spec, all⟩, hspec⟩ := Option.ne_none_iff_exists'.mp hknown
    have hopen : ¬('[' = ']' ∧ first = false) := by simp
    have hlookup : e20ClassAlist.lookup (classKey name) = some (spec, all) := hspec
    simp only [itemsText_cons, Item.text, List.cons_append, List.nil_append, List.append_assoc,
      e20BracketLoop, if_neg hopen, List.head?_cons, and_self, if_true, throughClass_key hwf.2.1,
      hlookup, Marks.add, hspec]

theorem e20BracketLoop_items (items : List Item) (n : Nat) (first : Bool) (m : Marks)
    (x : List Char) (hwf : ItemsWf .emacs21 first items) (hknown : ItemsKnown items)
    (hn : items.length < n) :
    e20BracketLoop n first m (itemsText items ++ ']' :: x) =
      some (items.foldl Marks.add m, ']' :: x) := by
  induction items generalizing n first m with
  | nil =>
    obtain ⟨n, rfl⟩ := Nat.exists_eq_add_of_lt hn
    have hfirst : first = false := hwf
    simp [e20BracketLoop, hfirst]
  | cons i items ih =>
    obtain ⟨n, rfl⟩ := Nat.exists_eq_add_of_lt hn
    obtain ⟨hi, hknown⟩ := (itemsKnown_cons i items).mp hknown
    have hn' : items.length < items.length + 1 + n := by omega
    rw [List.length_cons, e20BracketLoop_member hwf hi, ih _ false _ (itemsWf_tail hwf) hknown hn']
    rfl

/-! ### The order of the characters -/

def Plain (k : Nat) : Prop := k ≠ 93 ∧ k ≠ 45 ∧ k ≠ 94

instance (k : Nat) : Decidable (Plain k) := inferInstanceAs (Decidable (_ ∧ _ ∧ _))

def plainChars (sel : Nat → Bool) (l : List Nat) : List Char :=
  (l.filter fun k => sel k && decide (Plain k)).reverse.map Char.ofNat

def carets (sel : Nat → Bool) (l : List Nat) : Nat :=
  (l.filter fun k => sel k && decide (k = 94)).length

theorem foldl_pick (sel : Nat → Bool) (l : List Nat) (A : List Char) (j : Nat) (d c : Bool) :
    l.foldl (pick sel) (A ++ List.replicate j '^', d, c) =
      (plainChars sel l ++ A ++ List.replicate (j + carets sel l) '^',
        d || l.any (fun k => sel k && decide (k = 45)),
        c || l.any (fun k => sel k && decide (k = 93))) := by
  induction l generalizing A j d c with
  | nil => simp [plainChars, carets]
  | cons k l ih =>
    rw [List.foldl_cons]
    cases hs : sel k with
    | false =>
      simp only [pick, hs, Bool.false_eq_true, if_false]
      rw [ih]
      simp [plainChars, carets, hs]
    | true =>
      simp only [pick, hs, if_true]
      split
      · subst k
        rw [ih]
        simp [plainChars, carets, hs, Plain]
      · split
        · subst k
          rw [ih]
          simp [plainChars, carets, hs, Plain]
        · split
          · subst k
            have hnext : A ++ List.replicate j '^' ++ ['^'] = A ++ List.replicate (j+1) '^' := by
              rw [List.replicate_succ', List.append_assoc]
            simp only [hnext]
            rw [ih]
            simp [plainChars, carets, hs, Plain]
            omega
          · have hplain : Plain k := ⟨‹_›, ‹_›, ‹_›⟩
            simp only [← List.cons_append]
            rw [ih]
            simp [plainChars, carets, hs, hplain, hplain.1, hplain.2.1, hplain.2.2]

theorem ofNat_toNat_ascii : (List.range 128).all (fun k => (Char.ofNat k).toNat = k) = true := by
  decide

theorem toNat_ofNat {k : Nat} (hk : k < 128) : (Char.ofNat k).toNat = k := by
  have h := List.all_eq_true.mp ofNat_toNat_ascii k (List.mem_range.mpr hk)
  exact of_decide_eq_true h

theorem mem_plainChars (sel : Nat → Bool) {l : List Nat} (hl : ∀ k ∈ l, k < 128) (c : Char) :
    c ∈ plainChars sel l ↔ c.toNat ∈ l ∧ sel c.toNat = true ∧ Plain c.toNat := by
  simp only [plainChars, List.mem_map, List.mem_reverse, List.mem_filter, Bool.and_eq_true,
    decide_eq_true_eq]
  constructor
  · intro h
    obtain ⟨k, ⟨hk, hsel, hplain⟩, rfl⟩ := h
    rw [toNat_ofNat (hl k hk)]
    exact ⟨hk, hsel, hplain⟩
  · intro h
    exact ⟨c.toNat, h, Char.ofNat_toNat c⟩

theorem any_eq (sel : Nat → Bool) {l : List Nat} {j : Nat} (hj : j ∈ l) :
    l.any (fun k => sel k && decide (k = j)) = sel j := by
  rw [Bool.eq_iff_iff, List.any_eq_true]
  simp only [Bool.and_eq_true, decide_eq_true_eq]
  constructor
  · intro h
    obtain ⟨k, _, hsel, rfl⟩ := h
    exact hsel
  · intro h
    exact ⟨j, hj, h, rfl⟩

theorem rotate_carets (P : List Char) (j : Nat) (hP : '^' ∉ P) :
    (if (P ++ List.replicate j '^').head? = some '^' then
        (P ++ List.replicate j '^').tail ++ ['^']
      else P ++ List.replicate j '^') = P ++ List.replicate j '^' := by
  cases P with
  | nil =>
    cases j with
    | zero => rfl
    | succ j =>
      rw [if_pos (by simp [List.replicate_succ])]
      simp [List.replicate_succ, ← List.replicate_succ']
  | cons a P =>
    have ha : a ≠ '^' := fun h => hP (h ▸ List.mem_cons_self)
    rw [if_neg (by simpa using ha)]

def midChars (sel : Nat → Bool) : List Char :=
  plainChars sel (List.range 128) ++ List.replicate (carets sel (List.range 128)) '^'

theorem caret_not_plain (sel : Nat → Bool) : '^' ∉ plainChars sel (List.range 128) := by
  rw [mem_plainChars sel fun k hk => List.mem_range.mp hk]
  intro h
  exact h.2.2.2.2 rfl

theorem e20Chars_eq (sel : Nat → Bool) : e20Chars sel =
    (if sel 93 then [']'] else []) ++ midChars sel ++ (if sel 45 then ['-'] else []) := by
  have hfold := foldl_pick sel (List.range 128) [] 0 false false
  rw [any_eq sel (by decide : 45 ∈ List.range 128), any_eq sel (by decide : 93 ∈ List.range 128)]
    at hfold
  simp only [List.append_nil, List.replicate_zero, Nat.zero_add, Bool.false_or] at hfold
  simp only [e20Chars, hfold, rotate_carets _ _ (caret_not_plain sel)]
  rfl

theorem carets_pos (sel : Nat → Bool) : 0 < carets sel (List.range 128) ↔ sel 94 = true := by
  simp only [carets, List.length_pos_iff_exists_mem, List.mem_filter, Bool.and_eq_true,
    decide_eq_true_eq]
  constructor
  · intro h
    obtain ⟨k, _, hsel, rfl⟩ := h
    exact hsel
  · intro h
    exact ⟨94, by decide, h, rfl⟩

theorem mem_midChars (sel : Nat → Bool) (c : Char) : c ∈ midChars sel ↔
    c.toNat < 128 ∧ sel c.toNat = true ∧ c.toNat ≠ 93 ∧ c.toNat ≠ 45 := by
  have hcaret : c = '^' ↔ c.toNat = 94 := by
    constructor
    · intro h
      exact h ▸ rfl
    · intro h
      rw [← Char.ofNat_toNat c, h]
  rw [midChars, List.mem_append, mem_plainChars sel fun k hk => List.mem_range.mp hk,
    List.mem_replicate, List.mem_range, hcaret, ← Nat.pos_iff_ne_zero, carets_pos]
  constructor
  · intro h
    cases h with
    | inl h => exact ⟨h.1, h.2.1, h.2.2.1, h.2.2.2.1⟩
    | inr h => exact ⟨by omega, h.2 ▸ h.1, by omega, by omega⟩
  · intro h
    obtain ⟨hlt, hsel, hclose, hdash⟩ := h
    by_cases hc : c.toNat = 94
    · exact Or.inr ⟨hc ▸ hsel, hc⟩
    · exact Or.inl ⟨hlt, hsel, hclose, hdash, hc⟩

theorem mem_e20Chars (sel : Nat → Bool) (c : Char) :
    c ∈ e20Chars sel ↔ c.toNat < 128 ∧ sel c.toNat = true := by
  have hclose : c = ']' ↔ c.toNat = 93 := by
    constructor
    · intro h
      exact h ▸ rfl
    · intro h
      rw [← Char.ofNat_toNat c, h]
  have hdash : c = '-' ↔ c.toNat = 45 := by
    constructor
    · intro h
      exact h ▸ rfl
    · intro h
      rw [← Char.ofNat_toNat c, h]
  have hfirst : c ∈ (if sel 93 then [']'] else []) ↔ sel 93 = true ∧ c.toNat = 93 := by
    cases sel 93 <;> simp [hclose]
  have hlast : c ∈ (if sel 45 then ['-'] else []) ↔ sel 45 = true ∧ c.toNat = 45 := by
    cases sel 45 <;> simp [hdash]
  rw [e20Chars_eq, List.mem_append, List.mem_append, mem_midChars, hfirst, hlast]
  constructor
  · intro h
    obtain (⟨hsel, hk⟩ | h) | ⟨hsel, hk⟩ := h
    · exact ⟨by omega, hk ▸ hsel⟩
    · exact ⟨h.1, h.2.1⟩
    · exact ⟨by omega, hk ▸ hsel⟩
  · intro h
    obtain ⟨hlt, hsel⟩ := h
    by_cases h93 : c.toNat = 93
    · exact Or.inl (Or.inl ⟨h93 ▸ hsel, h93⟩)
    · by_cases h45 : c.toNat = 45
      · exact Or.inr ⟨h45 ▸ hsel, h45⟩
      · exact Or.inl (Or.inr ⟨hlt, hsel, h93, h45⟩)

end PkgsrcPatches.Elisp
