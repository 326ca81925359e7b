import Mathlib.Data.List.Basic
import PkgsrcPatches.Elisp.ClassBracket

/-! What the translation of a class bracket stands for, with the classes meaning
what the alist of the code says. -/
namespace PkgsrcPatches.Elisp

def e20Meaning (name : List Char) (x : Char) : Prop :=
  match e20Class name with
  | some (spec, all) =>
    if x.toNat < 128 then e20MarkRanges (fun _ => false) spec x.toNat = true else all = true
  | none => False

/-! ### What the loop collects -/

theorem e20MarkRanges_or (k : Nat) : (spec : List Char) → (v : Nat → Bool) →
    e20MarkRanges v spec k = (v k || e20MarkRanges (fun _ => false) spec k)
  | [], v => by simp [e20MarkRanges]
  | [a], v => by simp [e20MarkRanges, markRange]
  | [a, m], v => by simp [e20MarkRanges, markRange, Bool.or_assoc]
  | a :: m :: b :: t, v => by
    rw [e20MarkRanges, e20MarkRanges]
    by_cases hm : m = '-'
    · rw [if_pos hm, if_pos hm, e20MarkRanges_or k t, e20MarkRanges_or k t (markRange _ _ _)]
      simp [markRange, Bool.or_assoc]
    · rw [if_neg hm, if_neg hm, e20MarkRanges_or k (m :: b :: t),
        e20MarkRanges_or k (m :: b :: t) (markRange _ _ _)]
      simp [markRange, Bool.or_assoc]

def Item.marks (i : Item) : Marks := Marks.none.add i

theorem Marks.add_eq (m : Marks) (i : Item) (k : Nat) :
    (m.add i).v k = (m.v k || i.marks.v k) ∧
      (m.add i).nonascii = (m.nonascii || i.marks.nonascii) ∧
      (m.add i).extra = m.extra ++ i.marks.extra := by
  cases i with
  | char c =>
    by_cases hc : 127 < c.toNat
    · simp [Item.marks, Marks.add, Marks.none, hc]
    · simp only [Item.marks, Marks.add, if_neg hc]
      exact ⟨e20MarkRanges_or k _ _, by simp [Marks.none], by simp [Marks.none]⟩
  | range a b =>
    by_cases hb : 127 < b.toNat
    · simp [Item.marks, Marks.add, Marks.none, hb]
    · simp only [Item.marks, Marks.add, if_neg hb]
      exact ⟨e20MarkRanges_or k _ _, by simp [Marks.none], by simp [Marks.none]⟩
  | cls name =>
    simp only [Item.marks, Marks.add]
    cases e20Class name with
    | none => simp [Marks.none]
    | some p => exact ⟨e20MarkRanges_or k _ _, by simp [Marks.none], by simp [Marks.none]⟩

theorem foldl_add (items : List Item) (m : Marks) (k : Nat) :
    (items.foldl Marks.add m).v k = (m.v k || items.any fun i => i.marks.v k) ∧
      (items.foldl Marks.add m).nonascii = (m.nonascii || items.any fun i => i.marks.nonascii) ∧
      (items.foldl Marks.add m).extra = m.extra ++ items.flatMap fun i => i.marks.extra := by
  induction items generalizing m with
  | nil => simp
  | cons i items ih =>
    obtain ⟨hv, hn, he⟩ := ih (m.add i)
    obtain ⟨hv', hn', he'⟩ := m.add_eq i k
    simp only [List.foldl_cons, hv, hn, he, hv', hn', he', List.any_cons, List.flatMap_cons,
      Bool.or_assoc, List.append_assoc, and_self]

theorem marks_extra (i : Item) : i.marks.extra = if i.IsAscii then [] else i.text := by
  cases i with
  | char c =>
    by_cases hc : 127 < c.toNat
    · simp [Item.marks, Marks.add, Marks.none, Item.IsAscii, Item.text, hc, Nat.not_le.mpr hc]
    · simp [Item.marks, Marks.add, Marks.none, Item.IsAscii, hc, Nat.not_lt.mp hc]
  | range a b =>
    by_cases hb : 127 < b.toNat
    · simp [Item.marks, Marks.add, Marks.none, Item.IsAscii, Item.text, hb, Nat.not_le.mpr hb]
    · simp [Item.marks, Marks.add, Marks.none, Item.IsAscii, hb, Nat.not_lt.mp hb]
  | cls name =>
    simp only [Item.marks, Marks.add, Item.IsAscii]
    cases e20Class name <;> rfl

theorem marks_holds {i : Item} (hi : i.IsAscii) (x : Char) : i.holds e20Meaning x ↔
    if x.toNat < 128 then i.marks.v x.toNat = true else i.marks.nonascii = true := by
  cases i with
  | char c =>
    have hc : ¬127 < c.toNat := Nat.not_lt.mpr hi
    have heq : x = c ↔ x.toNat = c.toNat := by
      constructor
      · intro h
        exact h ▸ rfl
      · intro h
        rw [← Char.ofNat_toNat x, h, Char.ofNat_toNat]
    simp only [Item.holds, heq, Item.marks, Marks.add, if_neg hc, Marks.none, e20MarkRanges, markRange,
      Bool.false_or, Bool.and_eq_true, decide_eq_true_eq]
    split
    · omega
    · simp
      omega
  | range a b =>
    have hb : ¬127 < b.toNat := Nat.not_lt.mpr hi
    simp only [Item.holds, Item.marks, Marks.add, if_neg hb, Marks.none, e20MarkRanges, markRange,
      if_true, Bool.false_or, Bool.and_eq_true, decide_eq_true_eq]
    split
    · omega
    · simp
      omega
  | cls name =>
    simp only [Item.holds, e20Meaning, Item.marks, Marks.add]
    cases e20Class name with
    | none => simp [Marks.none]
    | some p => simp [Marks.none]

/-! ### The alternatives as bracket expressions -/

namespace Bracket

def marks (b : Bracket) : Marks := b.items.foldl Marks.add Marks.none

def sel (b : Bracket) (k : Nat) : Bool := if b.neg then !b.marks.v k else b.marks.v k

def extras (b : Bracket) : List Item := b.items.filter fun i => ¬i.IsAscii

def asciiPart (b : Bracket) : List Bracket :=
  if e20Chars b.sel = [] then [] else [⟨false, (e20Chars b.sel).map .char⟩]

def nonAscii : Bracket := ⟨true, [.range (Char.ofNat 0) (Char.ofNat 127)]⟩

def alts (b : Bracket) : List Bracket :=
  if (if b.neg then !b.marks.nonascii else b.marks.nonascii) then b.asciiPart ++ [nonAscii]
  else if b.extras ≠ [] ∧ b.neg = false then b.asciiPart ++ [⟨false, b.extras⟩]
  else b.asciiPart

theorem extra_eq (b : Bracket) : b.marks.extra = itemsText b.extras := by
  have h := (foldl_add b.items Marks.none 0).2.2
  rw [marks, h]
  simp only [Marks.none, List.nil_append, extras]
  induction b.items with
  | nil => rfl
  | cons i items ih =>
    rw [List.flatMap_cons, marks_extra, ih, List.filter_cons]
    by_cases hi : i.IsAscii
    · simp [hi]
    · simp [hi]

theorem itemsText_eq_nil {items : List Item} : itemsText items = [] ↔ items = [] := by
  constructor
  · intro h
    have hlen := length_le_itemsText items
    rw [h] at hlen
    exact List.eq_nil_of_length_eq_zero (Nat.le_zero.mp hlen)
  · intro h
    rw [h, itemsText_nil]

theorem itemsText_map_char (cs : List Char) : itemsText (cs.map .char) = cs := by
  induction cs with
  | nil => rfl
  | cons c cs ih => simp [Item.text, ih]

theorem asciiPart_text (b : Bracket) : b.asciiPart.map text =
    if e20Chars b.sel = [] then [] else ['[' :: (e20Chars b.sel ++ [']'])] := by
  unfold asciiPart
  split
  · rfl
  · simp [text, itemsText_map_char]

theorem alts_text (b : Bracket) : b.alts.map text = e20Alts b.neg b.marks := by
  have hextra : (b.marks.extra ≠ [] ∧ b.neg = false) ↔ (b.extras ≠ [] ∧ b.neg = false) := by
    rw [extra_eq, Ne, itemsText_eq_nil]
  have hsel : (fun k => if b.neg then !b.marks.v k else b.marks.v k) = b.sel := rfl
  simp only [alts, e20Alts, hextra, hsel, ← asciiPart_text]
  by_cases hall : (if b.neg then !b.marks.nonascii else b.marks.nonascii) = true
  · rw [if_pos hall, if_pos hall, List.map_append]
    rfl
  · rw [if_neg hall, if_neg hall]
    split
    · simp [text, extra_eq]
    · rfl

end Bracket

theorem e20Bracket_loop {d : Dialect} {b : Bracket} (hwf : b.Wf d) (x : List Char) :
    e20Bracket (b.text ++ x) =
      (e20BracketLoop ((itemsText b.items ++ ']' :: x).length + 1) true Marks.none
        (itemsText b.items ++ ']' :: x)).map fun p => (e20Joined (e20Alts b.neg p.1), p.2.tail) := by
  cases hneg : b.neg with
  | true =>
    simp only [e20Bracket, Bracket.text, hneg, if_true, List.cons_append, List.nil_append,
      List.append_assoc, List.tail_cons, List.head?_cons, decide_true]
    split
    · rw [‹e20BracketLoop _ _ _ _ = _›]
      rfl
    · rw [‹e20BracketLoop _ _ _ _ = _›]
      rfl
  | false =>
    have hhead : (itemsText b.items ++ ']' :: x).head? ≠ some '^' := by
      cases h : itemsText b.items with
      | nil => simp
      | cons c t => simpa [h] using hwf.2 hneg
    simp only [e20Bracket, Bracket.text, hneg, Bool.false_eq_true, if_false, List.cons_append,
      List.nil_append, List.append_assoc, List.tail_cons, if_neg hhead, decide_eq_false hhead]
    split
    · rw [‹e20BracketLoop _ _ _ _ = _›]
      rfl
    · rw [‹e20BracketLoop _ _ _ _ = _›]
      rfl

theorem e20Bracket_text (b : Bracket) (x : List Char) (hwf : b.Wf .emacs21)
    (hknown : ItemsKnown b.items) :
    e20Bracket (b.text ++ x) = some (e20Joined (b.alts.map Bracket.text), x) := by
  have hlen := length_le_itemsText b.items
  rw [e20Bracket_loop hwf, e20BracketLoop_items b.items _ true Marks.none x hwf.1 hknown
    (by simp; omega), Bracket.alts_text]
  rfl

/-! ### What Emacs 20 reads of it -/

/-- How Emacs 20 reads members beyond ASCII, behind a character that may still begin a range:
it does so before a range that begins with `-`, of which the end is left as a character. -/
def readOn : Option Char → List Item → List Item
  | none, [] => []
  | some p, [] => [.char p]
  | none, .char c :: rest => readOn (some c) rest
  | some p, .char c :: rest => .char p :: readOn (some c) rest
  | none, .range a b :: rest => .range a b :: readOn none rest
  | some p, .range a b :: rest =>
    if a = '-' then .range p '-' :: readOn (some b) rest else .char p :: .range a b :: readOn none rest
  | none, .cls name :: rest => .cls name :: readOn none rest
  | some p, .cls name :: rest => .char p :: .cls name :: readOn none rest

theorem readOn_text (items : List Item) (o : Option Char) :
    itemsText (readOn o items) = o.toList ++ itemsText items := by
  induction items generalizing o with
  | nil => cases o <;> rfl
  | cons i items ih =>
    cases o with
    | none => cases i <;> simp [readOn, ih, Item.text]
    | some p =>
      cases i with
      | char c => simp [readOn, ih, Item.text]
      | range a b =>
        by_cases ha : a = '-'
        · simp [readOn, ha, ih, Item.text]
        · simp [readOn, ha, ih, Item.text]
      | cls name => simp [readOn, ih, Item.text]

/-- The bracket expression that Emacs 20 reads for the members beyond ASCII: a `^` that begins
the first of them negates it. -/
def readExtras : List Item → Bracket
  | .range a b :: rest =>
    if a = '^' then ⟨true, .char '-' :: readOn (some b) rest⟩ else ⟨false, .range a b :: readOn none rest⟩
  | items => ⟨false, readOn none items⟩

theorem readExtras_text (items : List Item) :
    (readExtras items).text = (⟨false, items⟩ : Bracket).text := by
  match items with
  | [] => rfl
  | .char c :: rest => simp [readExtras, Bracket.text, readOn, readOn_text, Item.text]
  | .cls name :: rest => simp [readExtras, Bracket.text, readOn, readOn_text, Item.text]
  | .range a b :: rest =>
    rw [readExtras]
    split
    · rename_i ha
      simp [Bracket.text, readOn_text, Item.text, ha]
    · simp [Bracket.text, readOn_text, Item.text]


namespace Bracket

def all (b : Bracket) : Bool := if b.neg then !b.marks.nonascii else b.marks.nonascii

def asRead (b : Bracket) : List Bracket :=
  if b.all then b.asciiPart ++ [nonAscii]
  else if b.extras ≠ [] ∧ b.neg = false then b.asciiPart ++ [readExtras b.extras]
  else b.asciiPart

theorem asRead_text (b : Bracket) : b.asRead.map text = b.alts.map text := by
  have halts : b.alts = if b.all then b.asciiPart ++ [nonAscii]
      else if b.extras ≠ [] ∧ b.neg = false then b.asciiPart ++ [⟨false, b.extras⟩]
      else b.asciiPart := rfl
  rw [halts, asRead]
  split
  · rfl
  · split
    · rw [List.map_append, List.map_append, List.map_singleton, List.map_singleton, readExtras_text]
    · rfl

end Bracket

/-! ### The set it stands for -/

namespace Bracket

def CaretPlaced (b : Bracket) : Prop :=
  b.sel 94 = true → ∃ k ∈ List.range 128, b.sel k = true ∧ k ≠ 94 ∧ k ≠ 45

theorem marks_v (b : Bracket) (k : Nat) : b.marks.v k = b.items.any fun i => i.marks.v k := by
  have h := (foldl_add b.items Marks.none k).1
  simpa [marks, Marks.none] using h

theorem marks_nonascii (b : Bracket) :
    b.marks.nonascii = b.items.any fun i => i.marks.nonascii := by
  have h := (foldl_add b.items Marks.none 0).2.1
  simpa [marks, Marks.none] using h

theorem mem_extras (b : Bracket) (i : Item) : i ∈ b.extras ↔ i ∈ b.items ∧ ¬i.IsAscii := by
  simp [extras]

theorem marks_of_not_ascii {i : Item} (hi : ¬i.IsAscii) :
    (∀ k, i.marks.v k = false) ∧ i.marks.nonascii = false := by
  cases i with
  | char c =>
    have hc : 127 < c.toNat := Nat.not_le.mp hi
    simp [Item.marks, Marks.add, hc, Marks.none]
  | range a b =>
    have hb : 127 < b.toNat := Nat.not_le.mp hi
    simp [Item.marks, Marks.add, hb, Marks.none]
  | cls name => exact (hi trivial).elim

theorem exists_marked (items : List Item) {m : Item → Bool} {S : Item → Prop}
    (hm : ∀ i, i.IsAscii → (S i ↔ m i = true)) (hno : ∀ i, ¬i.IsAscii → m i = false) :
    (∃ i ∈ items, i.IsAscii ∧ S i) ↔ items.any m = true := by
  rw [List.any_eq_true]
  refine exists_congr fun i => and_congr_right fun _ => ?_
  by_cases hi : i.IsAscii
  · rw [hm i hi]
    exact and_iff_right hi
  · rw [hno i hi]
    exact iff_of_false (fun h => hi h.1) (by decide)

/-- A class or a member within ASCII stands for the character. -/
def Near (b : Bracket) (x : Char) : Prop := ∃ i ∈ b.items, i.IsAscii ∧ i.holds e20Meaning x

/-- So does a member that reaches beyond ASCII. -/
def Far (b : Bracket) (x : Char) : Prop := ∃ i ∈ b.extras, i.holds e20Meaning x

theorem near_iff (b : Bracket) (x : Char) : b.Near x ↔
    if x.toNat < 128 then b.marks.v x.toNat = true else b.marks.nonascii = true := by
  rw [marks_v, marks_nonascii, Near]
  split
  · refine exists_marked b.items (fun i hi => ?_) fun i hi => (marks_of_not_ascii hi).1 _
    rw [marks_holds hi, if_pos ‹_›]
  · refine exists_marked b.items (fun i hi => ?_) fun i hi => (marks_of_not_ascii hi).2
    rw [marks_holds hi, if_neg ‹_›]

theorem near_or_far (b : Bracket) (x : Char) :
    (∃ i ∈ b.items, i.holds e20Meaning x) ↔ b.Near x ∨ b.Far x := by
  constructor
  · intro h
    obtain ⟨i, hi, hx⟩ := h
    by_cases hascii : i.IsAscii
    · exact Or.inl ⟨i, hi, hascii, hx⟩
    · exact Or.inr ⟨i, (b.mem_extras i).mpr ⟨hi, hascii⟩, hx⟩
  · intro h
    cases h with
    | inl h =>
      obtain ⟨i, hi, _, hx⟩ := h
      exact ⟨i, hi, hx⟩
    | inr h =>
      obtain ⟨i, hi, hx⟩ := h
      exact ⟨i, ((b.mem_extras i).mp hi).1, hx⟩

variable (cls : List Char → Char → Prop)

theorem asciiPart_holds (b : Bracket) (x : Char) : (∃ a ∈ b.asciiPart, a.holds cls x) ↔
    x.toNat < 128 ∧ b.sel x.toNat = true := by
  rw [← mem_e20Chars]
  unfold asciiPart
  split
  · simp [‹e20Chars b.sel = []›]
  · simp [holds, Item.holds]

theorem nonAscii_holds (x : Char) : nonAscii.holds cls x ↔ ¬x.toNat < 128 := by
  have hlast : (Char.ofNat 127).toNat = 127 := rfl
  have hfirst : (Char.ofNat 0).toNat = 0 := rfl
  simp only [nonAscii, holds, if_true, List.mem_singleton, exists_eq_left, Item.holds, hfirst, hlast]
  omega

/-! ### The alternatives are well-formed -/

theorem rangeEnd_chars (cs : List Char) (hcs : ∀ c ∈ cs, c ≠ ']' ∧ c ≠ '-') (dash : Bool) :
    rangeEnd (cs ++ (if dash then ['-'] else []) ++ [']']) = none := by
  cases cs with
  | nil => cases dash <;> simp [rangeEnd]
  | cons a t =>
    have ha := (hcs a (by simp)).2
    cases t with
    | nil => cases dash <;> simp [rangeEnd, ha]
    | cons b t => simp [rangeEnd, ha]

theorem itemsWf_chars (cs : List Char) (hcs : ∀ c ∈ cs, c ≠ ']' ∧ c ≠ '-') (dash : Bool) :
    ItemsWf .emacs20 false ((cs ++ if dash then ['-'] else []).map .char) := by
  induction cs with
  | nil => cases dash <;> simp [ItemsWf, rangeEnd, Dialect.classAfter]
  | cons c cs ih =>
    have hc := hcs c List.mem_cons_self
    have hcs' : ∀ c ∈ cs, c ≠ ']' ∧ c ≠ '-' := fun c h => hcs c (List.mem_cons_of_mem _ h)
    rw [List.cons_append, List.map_cons]
    refine ⟨fun h => (hc.1 h).elim, ?_, by simp [Dialect.classAfter], ih hcs'⟩
    rw [itemsText_map_char]
    exact rangeEnd_chars cs hcs' dash

theorem itemsWf_first {d : Dialect} {items : List Item} (h : ItemsWf d false items)
    (hne : items ≠ []) : ItemsWf d true items := by
  cases items with
  | nil => exact (hne rfl).elim
  | cons i items =>
    cases i with
    | char c => exact ⟨fun _ => rfl, h.2⟩
    | range a b => exact ⟨fun _ => rfl, h.2⟩
    | cls name => exact h

theorem midChars_ne (sel : Nat → Bool) : ∀ c ∈ midChars sel, c ≠ ']' ∧ c ≠ '-' := by
  intro c hc
  have h := (mem_midChars sel c).mp hc
  exact ⟨fun h' => h.2.2.1 (h' ▸ rfl), fun h' => h.2.2.2 (h' ▸ rfl)⟩

theorem itemsWf_e20Chars {sel : Nat → Bool} (hne : e20Chars sel ≠ []) :
    ItemsWf .emacs20 true ((e20Chars sel).map .char) := by
  have hrest := itemsWf_chars (midChars sel) (midChars_ne sel) (sel 45)
  rw [e20Chars_eq] at hne ⊢
  cases hclose : sel 93 with
  | true =>
    simp only [if_true, List.cons_append, List.nil_append, List.map_cons]
    refine ⟨fun _ => rfl, ?_, by simp [Dialect.classAfter], hrest⟩
    rw [itemsText_map_char]
    exact rangeEnd_chars _ (midChars_ne sel) _
  | false =>
    simp only [hclose, Bool.false_eq_true, if_false, List.nil_append] at hne ⊢
    exact itemsWf_first hrest (by simpa using hne)

theorem CaretPlaced.carets_eq_zero {b : Bracket} (hb : b.CaretPlaced) (hclose : b.sel 93 = false)
    (hplain : plainChars b.sel (List.range 128) = []) : carets b.sel (List.range 128) = 0 := by
  by_contra hpos
  obtain ⟨k, hk, hsel, hcaret, hdash⟩ :=
    hb ((carets_pos b.sel).mp (Nat.pos_of_ne_zero hpos))
  have hk' : k < 128 := List.mem_range.mp hk
  have hopen : k ≠ 93 := by
    intro h
    rw [h, hclose] at hsel
    cases hsel
  have hplain' : Plain k := ⟨hopen, hdash, hcaret⟩
  have hmem : Char.ofNat k ∈ plainChars b.sel (List.range 128) := by
    rw [mem_plainChars b.sel fun k hk => List.mem_range.mp hk, toNat_ofNat hk']
    exact ⟨hk, hsel, hplain'⟩
  rw [hplain] at hmem
  cases hmem

theorem CaretPlaced.head_ne_caret {b : Bracket} (hb : b.CaretPlaced) : (e20Chars b.sel).head? ≠ some '^' := by
  rw [e20Chars_eq]
  cases hclose : b.sel 93 with
  | true => simp
  | false =>
    simp only [Bool.false_eq_true, if_false, List.nil_append, midChars]
    cases hplain : plainChars b.sel (List.range 128) with
    | cons c cs =>
      have hno := caret_not_plain b.sel
      rw [hplain] at hno
      have hc : c ≠ '^' := fun h => hno (h ▸ List.mem_cons_self)
      simpa using hc
    | nil =>
      rw [hb.carets_eq_zero hclose hplain]
      cases b.sel 45 <;> simp

theorem CaretPlaced.asciiPart_wf {b : Bracket} (hb : b.CaretPlaced) {a : Bracket}
    (ha : a ∈ b.asciiPart) : a.Wf .emacs20 := by
  unfold asciiPart at ha
  split at ha
  · exact nomatch ha
  · rw [List.mem_singleton.mp ha]
    refine ⟨itemsWf_e20Chars ‹_›, fun _ => ?_⟩
    rw [itemsText_map_char]
    exact hb.head_ne_caret

theorem nonAscii_wf : nonAscii.Wf .emacs20 := by decide

end Bracket
end PkgsrcPatches.Elisp
