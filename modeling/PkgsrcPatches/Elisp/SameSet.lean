import PkgsrcPatches.Elisp.ClassText

/-! A class bracket and the text put in its place: for which of them the two stand for the
same characters. -/
namespace PkgsrcPatches.Elisp
namespace Bracket

def AllBeyond (b : Bracket) : Prop :=
  ∃ name spec, .cls name ∈ b.items ∧ e20Class name = some (spec, true)

theorem nonascii_iff (b : Bracket) : b.marks.nonascii = true ↔ b.AllBeyond := by
  rw [marks_nonascii, List.any_eq_true]
  constructor
  · intro h
    obtain ⟨i, hi, hmark⟩ := h
    cases i with
    | char c =>
      by_cases hc : 127 < c.toNat <;> simp [Item.marks, Marks.add, Marks.none, hc] at hmark
    | range a c =>
      by_cases hc : 127 < c.toNat <;> simp [Item.marks, Marks.add, Marks.none, hc] at hmark
    | cls name =>
      cases hname : e20Class name with
      | none => simp [Item.marks, Marks.add, Marks.none, hname] at hmark
      | some p =>
        simp only [Item.marks, Marks.add, Marks.none, hname, Bool.false_or] at hmark
        exact ⟨name, p.1, hi, by rw [hname, ← hmark]⟩
  · intro h
    obtain ⟨name, spec, hmem, hname⟩ := h
    exact ⟨.cls name, hmem, by simp [Item.marks, Marks.add, hname]⟩

theorem near_beyond {b : Bracket} {x : Char} (hx : ¬x.toNat < 128) : b.Near x ↔ b.AllBeyond := by
  rw [near_iff, if_neg hx, nonascii_iff]

theorem holds_iff (b : Bracket) (x : Char) : b.holds e20Meaning x ↔
    if b.neg then ¬(b.Near x ∨ b.Far x) else b.Near x ∨ b.Far x := by
  rw [← near_or_far]
  rfl

theorem sel_iff (b : Bracket) {x : Char} (hx : x.toNat < 128) :
    b.sel x.toNat = true ↔ if b.neg then ¬b.Near x else b.Near x := by
  rw [near_iff, if_pos hx, sel]
  cases b.neg <;> simp

theorem all_iff (b : Bracket) :
    b.all = true ↔ if b.neg then ¬b.AllBeyond else b.AllBeyond := by
  rw [← nonascii_iff, all]
  cases b.neg <;> simp

theorem not_beyond_of_all {b : Bracket} (hall : b.all = false) (hneg : b.neg = false) :
    ¬b.AllBeyond := by
  intro h
  have hyes := b.all_iff.mpr (by rw [if_neg (by simp [hneg])]; exact h)
  rw [hall] at hyes
  cases hyes

theorem dropped_own {b : Bracket} (h : b.neg = true ∨ b.AllBeyond) (P : Prop) :
    ¬(b.neg = false ∧ ¬b.AllBeyond ∧ P) := by
  intro h'
  cases h with
  | inl hneg => simp [hneg] at h'
  | inr hall => exact h'.2.1 hall

theorem OfClasses.plain_near {b : Bracket} (hb : b.OfClasses) (hall : ¬b.AllBeyond) :
    ∃ x, x.toNat < 128 ∧ Plain x.toNat ∧ b.Near x := by
  have hlist : ∀ e ∈ e20ClassAlist, e.2.2 = false → ∃ k ∈ List.range 128,
      e20MarkRanges (fun _ => false) e.2.1 k = true ∧ Plain k := by decide +kernel
  obtain ⟨name, hname⟩ := hb.hasClass
  obtain ⟨⟨spec, all⟩, hspec⟩ := Option.ne_none_iff_exists'.mp (hb.known name hname)
  have hfalse : all = false := by
    cases all with
    | false => rfl
    | true => exact (hall ⟨name, spec, hname, hspec⟩).elim
  obtain ⟨l₁, l₂, hsplit, -⟩ := List.lookup_eq_some_iff.mp hspec
  obtain ⟨k, hk, hmark, hplain⟩ := hlist (classKey name, spec, all)
    (hsplit ▸ List.mem_append_right _ List.mem_cons_self) hfalse
  have hlt := List.mem_range.mp hk
  refine ⟨Char.ofNat k, ?_, ?_, .cls name, hname, trivial, ?_⟩
  · rwa [toNat_ofNat hlt]
  · rwa [toNat_ofNat hlt]
  · rw [Item.holds, e20Meaning, hspec, toNat_ofNat hlt]
    simp only [if_pos hlt, hmark]

theorem wf_far {items : List Item} (h : ItemsWf .emacs21 false items) :
    FarItems (items.filter fun i => ¬i.IsAscii) := by
  induction items with
  | nil =>
    intro i hi
    cases hi
  | cons i items ih =>
    have hrest := itemsWf_tail h
    intro j hj
    obtain ⟨hmem, hfar⟩ := List.mem_filter.mp hj
    cases List.mem_cons.mp hmem with
    | inr hmem => exact ih hrest j (List.mem_filter.mpr ⟨hmem, hfar⟩)
    | inl hmem =>
      subst hmem
      refine ⟨of_decide_eq_true hfar, ?_⟩
      intro b hb
      subst hb
      exact absurd (h.1 rfl) (by decide)

theorem Wf.extras_tail {b : Bracket} (hb : b.Wf .emacs21) : FarItems b.extras.tail := by
  cases hitems : b.items with
  | nil => simp [extras, hitems, FarItems]
  | cons i items =>
    have hwf := hb.1
    rw [hitems] at hwf
    have hfar := wf_far (itemsWf_tail hwf)
    rw [extras, hitems, List.filter_cons]
    split
    · exact hfar
    · exact fun j hj => hfar j (List.mem_of_mem_tail hj)

theorem Wf.asRead_wf {b : Bracket} (hb : b.Wf .emacs21) (hcaret : b.CaretPlaced) :
    ∀ a ∈ b.asRead, a.Wf .emacs20 := by
  have happend : ∀ c : Bracket, c.Wf .emacs20 → ∀ a ∈ b.asciiPart ++ [c], a.Wf .emacs20 := by
    intro c hc a ha
    cases List.mem_append.mp ha with
    | inl ha => exact hcaret.asciiPart_wf ha
    | inr ha => exact List.mem_singleton.mp ha ▸ hc
  rw [asRead]
  split
  · exact happend _ nonAscii_wf
  · split
    · cases hextras : b.extras with
      | nil => simp [hextras] at *
      | cons i rest =>
        have hi := ((b.mem_extras i).mp (hextras ▸ List.mem_cons_self)).2
        have htail := hb.extras_tail
        rw [hextras] at htail
        exact happend _ (readExtras_wf hi htail)
    · exact fun a ha => hcaret.asciiPart_wf ha

theorem asRead_holds (b : Bracket) (x : Char) : (∃ a ∈ b.asRead, a.holds e20Meaning x) ↔
    (if b.neg then ¬b.Near x else b.Near x) ∨
      (b.neg = false ∧ ¬b.AllBeyond ∧ b.extras ≠ [] ∧ (readExtras b.extras).holds e20Meaning x) := by
  have hnear : (x.toNat < 128 ∧ b.sel x.toNat = true) ∨ (b.all = true ∧ ¬x.toNat < 128) ↔
      if b.neg then ¬b.Near x else b.Near x := by
    by_cases hx : x.toNat < 128
    · simp only [hx, true_and, not_true_eq_false, and_false, or_false, b.sel_iff hx]
    · rw [near_beyond hx, ← all_iff]
      simp [hx]
  have happend : ∀ c : Bracket, (∃ a ∈ b.asciiPart ++ [c], a.holds e20Meaning x) ↔
      (x.toNat < 128 ∧ b.sel x.toNat = true) ∨ c.holds e20Meaning x := by
    intro c
    rw [← b.asciiPart_holds e20Meaning x]
    simp only [List.mem_append, List.mem_singleton, or_and_right, exists_or, exists_eq_left]
  rw [← hnear, asRead]
  cases hall : b.all with
  | true =>
    have hclosed : b.neg = true ∨ b.AllBeyond := by
      have hbeyond := b.all_iff.mp hall
      cases hneg : b.neg with
      | true => exact Or.inl rfl
      | false => exact Or.inr (by rwa [if_neg (by simp [hneg])] at hbeyond)
    rw [if_pos rfl, happend, nonAscii_holds, or_iff_left (dropped_own hclosed _)]
    simp
  | false =>
    have hbeyond := not_beyond_of_all hall
    simp only [Bool.false_eq_true, if_false, false_and, or_false]
    split
    · rename_i hown
      rw [happend]
      simp [hown, hbeyond hown.2]
    · rename_i hown
      rw [b.asciiPart_holds e20Meaning x, or_iff_left]
      exact fun h => hown ⟨h.2.2.1, h.1⟩

theorem extras_head {b : Bracket} {i : Item} {rest : List Item} (h : b.extras = i :: rest) :
    ¬i.IsAscii := ((b.mem_extras i).mp (h ▸ List.mem_cons_self)).2

/-- What the members beyond ASCII stand for is not lost. Where they are dropped, the classes and
the members within ASCII stand for it; where they are put together, Emacs 20 reads no `^` in
front of them, and what it loses of them has another member. -/
structure FarCovered (b : Bracket) : Prop where
  dropped : b.neg = true ∨ b.AllBeyond → ∀ x, b.Far x → b.Near x
  together : b.neg = false → ¬b.AllBeyond → (itemsText b.extras).head? ≠ some '^' ∧
    ∀ x, b.Far x → b.Near x ∨ ∃ i ∈ readOn none b.extras, i.holds e20Meaning x

theorem readExtras_eq {items : List Item} (h : (itemsText items).head? ≠ some '^') :
    readExtras items = ⟨false, readOn none items⟩ := by
  match items with
  | [] => rfl
  | .char c :: rest => rfl
  | .cls name :: rest => rfl
  | .range a b :: rest =>
    have ha : a ≠ '^' := fun ha => h (congrArg some ha)
    exact if_neg ha

theorem Wf.caret_first {b : Bracket} (hb : b.Wf .emacs21)
    (h : (itemsText b.extras).head? = some '^') :
    ∃ y, 127 < y.toNat ∧ b.Far y ∧ ¬(readExtras b.extras).holds e20Meaning y := by
  cases hextras : b.extras with
  | nil => simp [hextras] at h
  | cons i rest =>
    have hi := extras_head hextras
    have htail := hb.extras_tail
    rw [hextras] at h htail
    cases i with
    | char c =>
      have hc : 127 < c.toNat := Nat.not_le.mp hi
      exact (char_beyond hc (by decide) (Option.some.inj h)).elim
    | range a c =>
      have hc : 127 < c.toNat := Nat.not_le.mp hi
      have ha : a = '^' := Option.some.inj h
      obtain ⟨y, hy, hbeyond, hfrom⟩ := readOn_char rest htail hc
      refine ⟨y, hbeyond, ?_, ?_⟩
      · rw [Far, hextras]
        cases hfrom with
        | inl hyc =>
          have h94 : a.toNat = 94 := ha ▸ rfl
          exact ⟨.range a c, List.mem_cons_self, by omega, by rw [hyc]⟩
        | inr hmem =>
          have h45 : '-'.toNat = 45 := rfl
          exact ⟨.range '-' y, List.mem_cons_of_mem _ hmem, by omega, Nat.le_refl _⟩
      · rw [readExtras, if_pos ha, holds, if_pos rfl, not_not]
        exact ⟨.char y, List.mem_cons_of_mem _ hy, rfl⟩
    | cls name => exact (hi trivial).elim

theorem Wf.readOn_far {b : Bracket} (hb : b.Wf .emacs21) {x : Char}
    (h : ∃ i ∈ readOn none b.extras, i.holds e20Meaning x) : b.Far x := by
  cases hextras : b.extras with
  | nil => simp [hextras, readOn] at h
  | cons i rest =>
    have hi := extras_head hextras
    have htail := hb.extras_tail
    rw [hextras] at h htail
    rw [Far, hextras]
    have hlater : (∃ j ∈ rest, j.holds e20Meaning x) → ∃ j ∈ i :: rest, j.holds e20Meaning x := by
      intro h
      obtain ⟨j, hj, hx⟩ := h
      exact ⟨j, List.mem_cons_of_mem _ hj, hx⟩
    cases i with
    | char c =>
      have hc : 127 < c.toNat := Nat.not_le.mp hi
      cases readOn_holds rest (some c) htail (fun p hp => Option.some.inj hp ▸ hc) h with
      | inl hx => exact ⟨.char c, List.mem_cons_self, (Option.some.inj hx).symm⟩
      | inr h => exact hlater h
    | range a c =>
      obtain ⟨j, hj, hx⟩ := h
      cases List.mem_cons.mp hj with
      | inl hj => exact ⟨.range a c, List.mem_cons_self, hj ▸ hx⟩
      | inr hj =>
        have hrest := readOn_holds rest none htail (fun p hp => (by cases hp)) ⟨j, hj, hx⟩
        exact hlater (hrest.resolve_left (by simp))
    | cls name => exact (hi trivial).elim

/-- The alternatives, as read, stand for the characters of the class bracket exactly where
nothing beyond ASCII is lost. -/
theorem Wf.asRead_iff {b : Bracket} (hb : b.Wf .emacs21) :
    (∀ x, (∃ a ∈ b.asRead, a.holds e20Meaning x) ↔ b.holds e20Meaning x) ↔ b.FarCovered := by
  simp only [asRead_holds, holds_iff b]
  constructor
  · intro h
    refine ⟨fun hclosed x hfar => ?_, fun hneg hall => ?_⟩
    · have hx := h x
      rw [or_iff_left (dropped_own hclosed _)] at hx
      cases hneg : b.neg with
      | true =>
        simp only [hneg, if_true, hfar, or_true, not_true_eq_false, iff_false, not_not] at hx
        exact hx
      | false =>
        simp only [hneg, Bool.false_eq_true, if_false, hfar, or_true, iff_true] at hx
        exact hx
    · have hread : ∀ x, b.Far x → b.Near x ∨ (readExtras b.extras).holds e20Meaning x := by
        intro x hfar
        have hx := h x
        simp only [hneg, Bool.false_eq_true, if_false] at hx
        exact (hx.mpr (Or.inr hfar)).imp_right fun h => h.2.2.2
      have hhead : (itemsText b.extras).head? ≠ some '^' := by
        intro hhead
        obtain ⟨y, hy, hfar, hno⟩ := hb.caret_first hhead
        have hnear := (hread y hfar).resolve_right hno
        exact hall ((near_beyond (by omega)).mp hnear)
      refine ⟨hhead, fun x hfar => (hread x hfar).imp_right fun h => ?_⟩
      rw [readExtras_eq hhead] at h
      exact h
  · intro h x
    by_cases hclosed : b.neg = true ∨ b.AllBeyond
    · have hfar := h.dropped hclosed x
      rw [or_iff_left (dropped_own hclosed _), or_iff_left_of_imp hfar]
    · have hneg : b.neg = false := Bool.eq_false_iff.mpr fun h => hclosed (Or.inl h)
      have hall : ¬b.AllBeyond := fun h => hclosed (Or.inr h)
      obtain ⟨hhead, hfar⟩ := h.together hneg hall
      simp only [hneg, Bool.false_eq_true, if_false, readExtras_eq hhead, true_and]
      constructor
      · intro hx
        exact hx.imp_right fun h => hb.readOn_far h.2.2
      · intro hx
        cases hx with
        | inl hnear => exact Or.inl hnear
        | inr hx =>
          refine (hfar x hx).imp_right fun h => ⟨hall, ?_, h⟩
          intro hnil
          obtain ⟨i, hi, -⟩ := hx
          rw [hnil] at hi
          cases hi

/-! ### A `^` with nothing before it -/

theorem far_beyond {b : Bracket} {c : Char} (hc : c.toNat < 128) (h : b.Far c) :
    ∃ d, ¬d.toNat < 128 ∧ b.Far d := by
  obtain ⟨i, hi, hx⟩ := h
  have hfar := ((b.mem_extras i).mp hi).2
  cases i with
  | char d =>
    have hd : 127 < d.toNat := Nat.not_le.mp hfar
    have hcd : c = d := hx
    rw [hcd] at hc
    omega
  | range a d =>
    have hd : 127 < d.toNat := Nat.not_le.mp hfar
    have hle : a.toNat ≤ c.toNat := hx.1
    exact ⟨d, by omega, .range a d, hi, by omega, Nat.le_refl _⟩
  | cls name => exact (hfar trivial).elim

theorem not_same {b : Bracket} {T : Char → Prop} {c : Char} (hc : c.toNat < 128)
    (hsel : b.sel c.toNat = true) (hno : ¬T c) (hbeyond : ∀ x, ¬x.toNat < 128 → T x) :
    ¬∀ x, T x ↔ b.holds e20Meaning x := by
  intro h
  simp only [holds_iff b] at h
  rw [b.sel_iff hc] at hsel
  cases hneg : b.neg with
  | false =>
    simp only [hneg, Bool.false_eq_true, if_false] at h hsel
    exact hno ((h c).mpr (Or.inl hsel))
  | true =>
    simp only [hneg, if_true] at h hsel
    by_cases hfar : b.Far c
    · obtain ⟨d, hd, hfar⟩ := far_beyond hc hfar
      exact (h d).mp (hbeyond d hd) (Or.inr hfar)
    · exact hno ((h c).mpr fun h => h.elim hsel hfar)

theorem not_caretPlaced {b : Bracket} (h : ¬b.CaretPlaced) :
    b.sel 94 = true ∧ ∀ k < 128, b.sel k = true → k = 94 ∨ k = 45 := by
  simp only [CaretPlaced, not_forall, exists_prop, not_exists, not_and, not_not, List.mem_range] at h
  refine ⟨h.1, fun k hk hsel => ?_⟩
  by_cases h94 : k = 94
  · exact Or.inl h94
  · exact Or.inr (h.2 k hk hsel h94)

theorem e20Chars_caret {b : Bracket} (h : ¬b.CaretPlaced) :
    e20Chars b.sel = '^' :: if b.sel 45 then ['-'] else [] := by
  obtain ⟨hcaret, honly⟩ := not_caretPlaced h
  have hclose : b.sel 93 = false := by
    rw [← Bool.not_eq_true]
    intro hsel
    have h93 := honly 93 (by decide) hsel
    omega
  have hplain : plainChars b.sel (List.range 128) = [] := by
    rw [List.eq_nil_iff_forall_not_mem]
    intro c hc
    obtain ⟨hk, hsel, hpl⟩ := (mem_plainChars b.sel (fun k hk => List.mem_range.mp hk) c).mp hc
    have hor := honly c.toNat (List.mem_range.mp hk) hsel
    exact hor.elim hpl.2.2 hpl.2.1
  have hone : carets b.sel (List.range 128) = 1 := by
    have hfilter : (List.range 128).filter (fun k => b.sel k && decide (k = 94)) =
        (List.range 128).filter fun k => decide (k = 94) := by
      apply List.filter_congr
      intro k _
      by_cases hk : k = 94
      · simp [hk, hcaret]
      · simp [hk]
    rw [carets, hfilter]
    decide
  rw [e20Chars_eq, midChars, hclose, hplain, hone]
  simp

theorem notDash_spells {b : Bracket} (hdash : b.sel 45 = true) (all : Bool) :
    ¬Spells (e20Joined (['[', '^', '-', ']'] :: if all then [nonAsciiText] else [])).1
      (b.holds e20Meaning) := by
  have hwf : ∀ a ∈ (⟨true, [.char '-']⟩ : Bracket) :: (if all then [nonAscii] else []),
      a.Wf .emacs20 := by
    cases all <;> decide
  have htext : ((⟨true, [.char '-']⟩ : Bracket) :: (if all then [nonAscii] else [])).map text =
      ['[', '^', '-', ']'] :: if all then [nonAsciiText] else [] := by
    cases all <;> rfl
  rw [← htext, spells_joined (List.cons_ne_nil _ _) hwf]
  refine not_same (c := '-') (by decide) hdash ?_ fun x hx => ⟨_, List.mem_cons_self, ?_⟩
  · intro h
    obtain ⟨a, ha, hholds⟩ := h
    cases List.mem_cons.mp ha with
    | inl ha =>
      subst ha
      exact hholds ⟨.char '-', List.mem_cons_self, rfl⟩
    | inr ha =>
      cases all with
      | true =>
        obtain rfl := List.mem_singleton.mp ha
        exact (nonAscii_holds e20Meaning '-').mp hholds (by decide)
      | false => cases ha
  · intro h
    obtain ⟨i, hi, hxi⟩ := h
    obtain rfl := List.mem_singleton.mp hi
    have heq : x = '-' := hxi
    exact hx (heq ▸ by decide)

theorem caretGroup_spells {b : Bracket} (hcaret : b.sel 94 = true) :
    ¬Spells (e20Joined [['[', '^', ']'], nonAsciiText]).1 (b.holds e20Meaning) := by
  have hwf : (⟨true, [.char ']', .char '\\', .char '|', .char '[', .char '^',
      .range (Char.ofNat 0) (Char.ofNat 127)]⟩ : Bracket).Wf .emacs20 := by decide
  have htext : (e20Joined [['[', '^', ']'], nonAsciiText]).1 = '\\' :: '(' ::
      ((⟨true, [.char ']', .char '\\', .char '|', .char '[', .char '^',
        .range (Char.ofNat 0) (Char.ofNat 127)]⟩ : Bracket).text ++ ['\\', ')']) := rfl
  rw [htext, spells_group hwf]
  refine not_same (c := '^') (by decide) hcaret ?_ ?_
  · intro h
    exact h ⟨.char '^', by decide, rfl⟩
  · intro x hx h
    obtain ⟨i, hi, hxi⟩ := h
    have hall : ∀ c : Char, c.toNat < 128 → x ≠ c := fun c hc hxc => hx (hxc ▸ hc)
    simp only [List.mem_cons, List.not_mem_nil, or_false] at hi
    obtain rfl | rfl | rfl | rfl | rfl | rfl := hi
    · exact hall ']' (by decide) hxi
    · exact hall '\\' (by decide) hxi
    · exact hall '|' (by decide) hxi
    · exact hall '[' (by decide) hxi
    · exact hall '^' (by decide) hxi
    · have hlast : x.toNat ≤ 127 := hxi.2
      omega

theorem OfClasses.caret_alone {b : Bracket} (hb : b.OfClasses) (h : ¬b.CaretPlaced) :
    ¬Spells (e20Joined (b.alts.map text)).1 (b.holds e20Meaning) := by
  obtain ⟨hcaret, honly⟩ := not_caretPlaced h
  have hchars := e20Chars_caret h
  have hown : ¬(b.all = false ∧ b.neg = false) := by
    intro hown
    obtain ⟨x, hx, hplain, hnear⟩ := hb.plain_near (not_beyond_of_all hown.1 hown.2)
    have hsel := (b.sel_iff hx).mpr (by rw [if_neg (by simp [hown.2])]; exact hnear)
    exact (honly x.toNat hx hsel).elim hplain.2.2 hplain.2.1
  have halts : b.alts.map text = ('[' :: ('^' :: (if b.sel 45 then ['-'] else []) ++ [']'])) ::
      if b.all then [nonAsciiText] else [] := by
    have hascii := b.asciiPart_text
    rw [hchars, if_neg (List.cons_ne_nil _ _)] at hascii
    have halts : b.alts = if b.all then b.asciiPart ++ [nonAscii]
        else if b.extras ≠ [] ∧ b.neg = false then b.asciiPart ++ [⟨false, b.extras⟩]
        else b.asciiPart := rfl
    rw [halts]
    cases hall : b.all with
    | true =>
      rw [if_pos rfl, List.map_append, hascii]
      rfl
    | false =>
      have hneg : ¬(b.extras ≠ [] ∧ b.neg = false) := fun h => hown ⟨hall, h.2⟩
      simp only [Bool.false_eq_true, if_false, if_neg hneg, hascii]
  rw [halts]
  cases hdash : b.sel 45 with
  | true => exact notDash_spells hdash b.all
  | false =>
    cases hall : b.all with
    | true => exact caretGroup_spells hcaret
    | false =>
      intro hspells
      obtain ⟨r, hread, -⟩ := hspells
      have hnone : Dialect.emacs20.read ['[', '^', ']'] = none := by decide
      have hsome : Dialect.emacs20.read ['[', '^', ']'] = some r := hread
      rw [hnone] at hsome
      cases hsome

/-! ### The translation and the class bracket -/

/-- Where all that is meant goes, and only there, nothing is put out and the code falls back on
a text that matches every character from 256 on. -/
theorem OfClasses.alts_ne_nil {b : Bracket} (hb : b.OfClasses)
    (h : Spells (e20Joined (b.alts.map text)).1 (b.holds e20Meaning)) : b.asRead ≠ [] := by
  intro hnil
  have halts : b.alts.map text = [] := by rw [← b.asRead_text, hnil]; rfl
  have hwf : noneBracket.Wf .emacs20 := by decide
  have hspells : Spells noneBracket.text (b.holds e20Meaning) := by rw [halts] at h; exact h
  have hset := (spells_bracket hwf _).mp hspells
  have hread := b.asRead_holds (Char.ofNat 256)
  have hnone : ¬∃ a ∈ b.asRead, a.holds e20Meaning (Char.ofNat 256) := by simp [hnil]
  rw [iff_false_left hnone, not_or] at hread
  have hbig : noneBracket.holds e20Meaning (Char.ofNat 256) := by
    intro h
    obtain ⟨i, hi, hx⟩ := h
    obtain rfl := List.mem_singleton.mp hi
    exact absurd hx.2 (by decide)
  have hholds := (hset (Char.ofNat 256)).mp hbig
  rw [holds_iff] at hholds
  cases hneg : b.neg with
  | true =>
    simp only [hneg, if_true, not_not] at hread hholds
    exact hholds (Or.inl hread.1)
  | false =>
    -- a class of the alist puts something out
    simp only [hneg, Bool.false_eq_true, if_false] at hread
    have hbeyond : ¬b.AllBeyond := fun h => hread.1 ((near_beyond (by decide)).mpr h)
    obtain ⟨x, hx, -, hnear⟩ := hb.plain_near hbeyond
    have hsome := (b.asRead_holds x).mpr (Or.inl (by rw [if_neg (by simp [hneg])]; exact hnear))
    simp [hnil] at hsome

theorem OfClasses.asRead_inhabited {b : Bracket} (hb : b.OfClasses) (hne : b.asRead ≠ []) :
    ∃ x, ∃ a ∈ b.asRead, a.holds e20Meaning x := by
  by_cases hclosed : b.neg = true ∨ b.AllBeyond
  · cases hall : b.all with
    | true =>
      have hasRead : b.asRead = b.asciiPart ++ [nonAscii] := if_pos hall
      refine ⟨Char.ofNat 128, nonAscii, ?_, (nonAscii_holds e20Meaning _).mpr (by decide)⟩
      exact hasRead ▸ List.mem_append_right _ List.mem_cons_self
    | false =>
      have hown : ¬(b.extras ≠ [] ∧ b.neg = false) := by
        intro hown
        exact not_beyond_of_all hall hown.2 (hclosed.resolve_left (by simp [hown.2]))
      have hasRead : b.asRead = b.asciiPart := by simp only [asRead, hall, if_neg hown]; rfl
      obtain ⟨c, hc⟩ : ∃ c, c ∈ e20Chars b.sel := by
        refine List.exists_mem_of_ne_nil _ fun hnil => hne ?_
        rw [hasRead, asciiPart, if_pos hnil]
      exact ⟨c, hasRead ▸ (b.asciiPart_holds e20Meaning c).mpr ((mem_e20Chars b.sel c).mp hc)⟩
  · have hneg : b.neg = false := Bool.eq_false_iff.mpr fun h => hclosed (Or.inl h)
    obtain ⟨x, -, -, hnear⟩ := hb.plain_near fun h => hclosed (Or.inr h)
    exact ⟨x, (b.asRead_holds x).mpr (Or.inl (by rw [if_neg (by simp [hneg])]; exact hnear))⟩

structure Right (b : Bracket) : Prop where
  opens : b.neg = true → (itemsText b.items).head? ≠ some ']'
  known : ItemsKnown b.items
  caret : b.holds e20Meaning '^' →
    ∃ x, x.toNat < 128 ∧ x ≠ '^' ∧ x ≠ '-' ∧ b.holds e20Meaning x
  inhabited : ∃ x, b.holds e20Meaning x
  far : b.FarCovered

theorem caretPlaced_iff {b : Bracket}
    (hplain : ¬b.AllBeyond → ∃ x : Char, x.toNat < 128 ∧ Plain x.toNat ∧ b.Near x)
    (hfar : b.FarCovered) :
    b.CaretPlaced ↔ (b.holds e20Meaning '^' →
      ∃ x, x.toNat < 128 ∧ x ≠ '^' ∧ x ≠ '-' ∧ b.holds e20Meaning x) := by
  by_cases hclosed : b.neg = true ∨ b.AllBeyond
  · have hsel : ∀ x : Char, x.toNat < 128 → (b.sel x.toNat = true ↔ b.holds e20Meaning x) := by
      intro x hx
      rw [b.sel_iff hx, holds_iff, or_iff_left_of_imp (hfar.dropped hclosed x)]
    constructor
    · intro h hcaret
      obtain ⟨k, hk, hk', h94, h45⟩ := h ((hsel '^' (by decide)).mpr hcaret)
      have hlt := List.mem_range.mp hk
      have hnat := toNat_ofNat hlt
      have hascii : (Char.ofNat k).toNat < 128 := by rw [hnat]; exact hlt
      refine ⟨Char.ofNat k, hascii, fun h => h94 ?_, fun h => h45 ?_, ?_⟩
      · rw [← hnat, h]
        rfl
      · rw [← hnat, h]
        rfl
      · exact (hsel _ hascii).mp (by rw [hnat]; exact hk')
    · intro h hcaret
      obtain ⟨x, hx, h94, h45, hholds⟩ := h ((hsel '^' (by decide)).mp hcaret)
      refine ⟨x.toNat, List.mem_range.mpr hx, (hsel x hx).mpr hholds, fun h => h94 ?_, fun h => h45 ?_⟩
      · rw [← Char.ofNat_toNat x, h]
      · rw [← Char.ofNat_toNat x, h]
  · have hneg : b.neg = false := Bool.eq_false_iff.mpr fun h => hclosed (Or.inl h)
    obtain ⟨x, hx, hplain, hnear⟩ := hplain fun h => hclosed (Or.inr h)
    have hholds : b.holds e20Meaning x := by
      rw [holds_iff, if_neg (by simp [hneg])]
      exact Or.inl hnear
    have hsel : b.sel x.toNat = true := by
      rw [b.sel_iff hx, if_neg (by simp [hneg])]
      exact hnear
    refine iff_of_true (fun _ => ⟨x.toNat, List.mem_range.mpr hx, hsel, hplain.2.2, hplain.2.1⟩)
      fun _ => ⟨x, hx, fun h => hplain.2.2 (h ▸ rfl), fun h => hplain.2.1 (h ▸ rfl), hholds⟩

theorem OfClasses.spells_iff {b : Bracket} (hb : b.OfClasses) :
    Spells (e20Joined (b.alts.map text)).1 (b.holds e20Meaning) ↔
      b.CaretPlaced ∧ (∃ x, b.holds e20Meaning x) ∧ b.FarCovered := by
  constructor
  · intro h
    have hcaret : b.CaretPlaced := Classical.byContradiction fun hno => hb.caret_alone hno h
    have hne := hb.alts_ne_nil h
    rw [← b.asRead_text, spells_joined hne (hb.wf.asRead_wf hcaret)] at h
    obtain ⟨x, hx⟩ := hb.asRead_inhabited hne
    exact ⟨hcaret, ⟨x, (h x).mp hx⟩, hb.wf.asRead_iff.mp h⟩
  · intro h
    obtain ⟨hcaret, hinhabited, hfar⟩ := h
    have hset := hb.wf.asRead_iff.mpr hfar
    have hne : b.asRead ≠ [] := by
      intro hnil
      obtain ⟨x, hx⟩ := hinhabited
      obtain ⟨a, ha, -⟩ := (hset x).mpr hx
      rw [hnil] at ha
      cases ha
    rw [← b.asRead_text, spells_joined hne (hb.wf.asRead_wf hcaret)]
    exact hset

/-- What is claimed of a class bracket that stands before the text `x`. -/
structure Translated (fold : Bool) (b : Bracket) (x : List Char) : Prop where
  found : classPath fold (b.text ++ x) = some true
  spelled : ∃ text group, e20Bracket (b.text ++ x) = some ((text, group), x) ∧
    Spells text (b.holds e20Meaning)

theorem class_bracket_iff (fold : Bool) {b : Bracket} (hb : b.OfClasses) (x : List Char) :
    b.Translated fold x ↔ b.Right := by
  constructor
  · intro h
    obtain ⟨out, group, hout, hspells⟩ := h.spelled
    have hknown : ItemsKnown b.items := by
      by_contra hno
      rw [hb.e20Bracket_unknown hno] at hout
      cases hout
    rw [e20Bracket_text b x hb.wf hknown] at hout
    have hpair := congrArg (fun p => p.map (·.1.1)) hout
    obtain rfl := Option.some.inj hpair
    obtain ⟨hcaret, hinhabited, hfar⟩ := hb.spells_iff.mp hspells
    exact { opens := (hb.classPath_iff fold x).mp h.found, known := hknown,
            caret := (caretPlaced_iff hb.plain_near hfar).mp hcaret, inhabited := hinhabited, far := hfar }
  · intro h
    have hcaret := (caretPlaced_iff hb.plain_near h.far).mpr h.caret
    exact ⟨(hb.classPath_iff fold x).mpr h.opens, _, _, e20Bracket_text b x hb.wf h.known,
      hb.spells_iff.mpr ⟨hcaret, h.inhabited, h.far⟩⟩

/-- `[^[:digit:]-]`. -/
def noDigits : Bracket := ⟨true, [.cls "digit".toList, .char '-']⟩

theorem class_bracket_iff_noDigits : noDigits.OfClasses ∧ noDigits.Translated true [] := by
  have hclass : noDigits.OfClasses := by
    refine ⟨by decide, fun name hname => ?_, "digit".toList, by decide⟩
    have hdigit : name = "digit".toList := by simpa [noDigits] using hname
    rw [hdigit]
    decide
  have hnone : noDigits.extras = [] := by decide
  have hfar : ∀ x, ¬noDigits.Far x := by
    intro x h
    obtain ⟨i, hi, -⟩ := h
    rw [hnone] at hi
    cases hi
  have hletter : noDigits.holds e20Meaning 'a' := by
    have hneg : noDigits.neg = true := rfl
    rw [holds_iff, if_pos hneg]
    have hnear : ¬noDigits.Near 'a' := by
      rw [near_iff]
      decide
    exact fun h => h.elim hnear (hfar 'a')
  refine ⟨hclass, (class_bracket_iff true hclass []).mpr ?_⟩
  exact { opens := fun _ => by decide, known := by decide,
          caret := fun _ => ⟨'a', by decide, by decide, by decide, hletter⟩, inhabited := ⟨'a', hletter⟩,
          far := ⟨fun _ x h => (hfar x h).elim, fun _ _ => ⟨by decide, fun x h => (hfar x h).elim⟩⟩ }

/-- `[^][:digit:]]`. -/
def hiddenClass : Bracket := ⟨true, [.char ']', .cls "digit".toList]⟩

/-- `[[:nonascii:]^]`. -/
def caretMember : Bracket := ⟨false, [.cls "nonascii".toList, .char '^']⟩

/-- The `]` behind `^` hides the class, and a `^` alone is written as `[^]`. -/
theorem class_bracket_differs : hiddenClass.text = "[^][:digit:]]".toList ∧
    caretMember.text = "[[:nonascii:]^]".toList ∧
    (hiddenClass.OfClasses ∧ caretMember.OfClasses) ∧
    ¬hiddenClass.Translated true [] ∧ ¬caretMember.Translated true [] := by
  have hhidden : hiddenClass.OfClasses := by
    refine ⟨by decide, fun name hname => ?_, "digit".toList, by decide⟩
    have hdigit : name = "digit".toList := by simpa [hiddenClass] using hname
    rw [hdigit]
    decide
  have hcaret : caretMember.OfClasses := by
    refine ⟨by decide, fun name hname => ?_, "nonascii".toList, by decide⟩
    have hnonascii : name = "nonascii".toList := by simpa [caretMember] using hname
    rw [hnonascii]
    decide
  refine ⟨by decide, by decide, ⟨hhidden, hcaret⟩, fun h => ?_, fun h => ?_⟩
  · exact (hhidden.classPath_iff true []).mp h.found rfl rfl
  · obtain ⟨out, group, hout, hspells⟩ := h.spelled
    rw [e20Bracket_text caretMember [] hcaret.wf (by decide)] at hout
    have hpair := congrArg (fun p => p.map (·.1.1)) hout
    obtain rfl := Option.some.inj hpair
    have hplaced : ¬caretMember.CaretPlaced := by
      have hsel : caretMember.sel 94 = true ∧
          ∀ k ∈ List.range 128, caretMember.sel k = true → k = 94 := by decide +kernel
      intro h
      obtain ⟨k, hk, hyes, h94, -⟩ := h hsel.1
      exact h94 (hsel.2 k hk hyes)
    exact hcaret.caret_alone hplaced hspells

end Bracket
end PkgsrcPatches.Elisp
