import PkgsrcPatches.Elisp.Unroll

/-! What one pass of the loop does at each token of a well-formed regexp. -/
namespace PkgsrcPatches.Elisp

variable (fold : Bool) (t : Translation)

theorem step_char {c : Char} (hback : c ≠ '\\') (hopen : c ≠ '[') (x : List Char) :
    e20Step fold t (c :: x) = some (t.atom [c], x) := by
  simp only [e20Step, if_neg hback, if_neg hopen]

theorem step_other {c : Char} (hopen : c ≠ '(') (hclose : c ≠ ')') (hbrace : c ≠ '{') {x : List Char}
    (hsymbol : ¬(c = '_' ∧ (x.head? = some '<' ∨ x.head? = some '>'))) :
    e20Step fold t ('\\' :: c :: x) = some (t.atom ['\\', c], x) := by
  simp only [e20Step, if_true, e20Escape, if_neg hopen, if_neg hclose, if_neg hsymbol, if_neg hbrace]

theorem step_escape {c : Char} (hres : c ∉ Dialect.emacs21.reserved) {x : List Char}
    (hsym : c = '_' → x.head? ≠ some '<' ∧ x.head? ≠ some '>') :
    e20Step fold t ('\\' :: c :: x) = some (t.atom ['\\', c], x) := by
  simp only [Dialect.reserved, List.mem_cons, not_or] at hres
  refine step_other fold t hres.2.1 hres.2.2.1 hres.1 fun h => ?_
  obtain ⟨hlt, hgt⟩ := hsym h.1
  exact h.2.elim hlt hgt

theorem step_kind {k : Char} (hk : k ∈ ['s', 'S', 'c', 'C']) (x : List Char) :
    e20Step fold t ('\\' :: k :: x) = some (t.atom ['\\', k], x) := by
  simp only [List.mem_cons, List.not_mem_nil, or_false] at hk
  obtain rfl | rfl | rfl | rfl := hk <;> rfl

theorem step_bar (x : List Char) :
    e20Step fold t ('\\' :: '|' :: x) = some (t.atom ['\\', '|'], x) := rfl

theorem step_close (x : List Char) :
    e20Step fold t ('\\' :: ')' :: x) = some (t.closeGroup, x) := rfl

def Kind.opened (t : Translation) : Kind → Translation
  | .capturing => t.capture
  | .shy => t.shy

theorem step_open (k : Kind) {body : List Char} (hk : k = .capturing → body.take 2 ≠ ['?', ':'])
    (x : List Char) :
    e20Step fold t (k.text ++ (body ++ '\\' :: x)) = some (k.opened t, body ++ '\\' :: x) := by
  cases k with
  | capturing =>
    have hno : (body ++ '\\' :: x).take 2 ≠ ['?', ':'] := by
      have hbody := hk rfl
      intro h
      match body with
      | [] => simp at h
      | [c] => simp at h
      | c :: e :: b => exact hbody (by simpa using h)
    simp only [Kind.text, List.cons_append, List.nil_append, e20Step, if_true, e20Escape, if_neg hno,
      Kind.opened]
  | shy => rfl

/-! ### Bracket expressions -/

theorem classPath_append {d : Dialect} {b : Bracket} (hb : b.Wf d) (x : List Char) :
    classPath fold (b.text ++ x) = classPath fold b.text := by
  obtain ⟨c, u, hu⟩ : ∃ c u, (if b.neg then ['^'] else []) ++ itemsText b.items = c :: u := by
    cases h : (if b.neg then ['^'] else []) ++ itemsText b.items with
    | cons c u => exact ⟨c, u, rfl⟩
    | nil =>
      have hitems := Bracket.itemsText_eq_nil.mp (List.append_eq_nil_iff.mp h).2
      have hwf := hb.1
      rw [hitems] at hwf
      exact nomatch hwf
  have hmem : ∀ y, ']' ∈ u ++ ']' :: y := by
    intro y
    simp
  have hstop := takeWhile_stop (p := (· ≠ ']')) (c := ']') (by decide) u
  simp only [Bracket.text, hu, List.cons_append, List.append_assoc, List.nil_append, classPath,
    hmem, if_true, hstop]

theorem classPath_false {b : Bracket} (hno : ¬b.OnClassPath fold) :
    classPath fold b.text = some false := by
  unfold Bracket.OnClassPath at hno
  cases h : classPath fold b.text with
  | some p =>
    rw [h] at hno
    cases p with
    | false => rfl
    | true => exact (hno rfl).elim
  | none =>
    have htext : ∃ c, b.text = ['[', c] ∨ ∃ e u, b.text = '[' :: c :: e :: u := by
      cases h : (if b.neg then ['^'] else []) ++ itemsText b.items with
      | nil => exact ⟨']', Or.inl (by simp only [Bracket.text, h]; rfl)⟩
      | cons c u =>
        cases u with
        | nil => exact ⟨c, Or.inr ⟨']', [], by simp only [Bracket.text, h]; rfl⟩⟩
        | cons e u => exact ⟨c, Or.inr ⟨e, u ++ [']'], by simp only [Bracket.text, h]; rfl⟩⟩
    obtain ⟨c, htext | ⟨e, u, htext⟩⟩ := htext
    · rw [htext] at h
      cases h
    · rw [htext] at h
      cases h

def Leaf.opens (fold : Bool) : Leaf → List (Option Nat)
  | .bracket b =>
    if b.OnClassPath fold ∧ (e20Joined (b.alts.map Bracket.text)).2 = true then [none] else []
  | _ => []

theorem noClass_text {d : Dialect} {items : List Item} (h : ItemsWf d false items)
    (hno : ∀ i ∈ items, ¬i.IsClass) : ∀ c ∈ itemsText items, c ≠ ']' := by
  induction items with
  | nil => exact fun c hc => nomatch hc
  | cons i items ih =>
    have hrest : ∀ i ∈ items, ¬i.IsClass := fun i hi => hno i (List.mem_cons_of_mem _ hi)
    intro c hc
    rw [itemsText_cons, List.mem_append] at hc
    cases i with
    | char a =>
      cases hc with
      | inl hc =>
        rw [List.mem_singleton.mp hc]
        exact fun h' => nomatch h.1 h'
      | inr hc => exact ih h.2.2.2 hrest c hc
    | range a b =>
      cases hc with
      | inl hc =>
        simp only [Item.text, List.mem_cons, List.not_mem_nil, or_false] at hc
        obtain rfl | rfl | rfl := hc
        · exact fun h' => nomatch h.1 h'
        · decide
        · exact h.2.1
      | inr hc => exact ih h.2.2 hrest c hc
    | cls name => exact (hno (.cls name) List.mem_cons_self trivial).elim

theorem noClass_tail {d : Dialect} {items : List Item} (h : ItemsWf d true items)
    (hno : ∀ i ∈ items, ¬i.IsClass) :
    ∃ c v, itemsText items = c :: v ∧ ∀ a ∈ v, a ≠ ']' := by
  cases items with
  | nil => exact nomatch h
  | cons i items =>
    have hrest : ∀ i ∈ items, ¬i.IsClass := fun i hi => hno i (List.mem_cons_of_mem _ hi)
    cases i with
    | char c => exact ⟨c, itemsText items, rfl, noClass_text h.2.2.2 hrest⟩
    | range a b =>
      refine ⟨a, '-' :: b :: itemsText items, rfl, ?_⟩
      intro c hc
      simp only [List.mem_cons] at hc
      obtain rfl | rfl | hc := hc
      · decide
      · exact h.2.1
      · exact noClass_text h.2.2 hrest c hc
    | cls name => exact (hno (.cls name) List.mem_cons_self trivial).elim

theorem takeWhile_body {u : List Char} (hu : ∀ a ∈ u, a ≠ ']') (x : List Char) :
    (u ++ ']' :: x).takeWhile (fun a => !decide (a = ']')) = u :=
  takeWhile_until (by decide) (fun a ha => by simp [hu a ha]) x

theorem copyBracket_text {d : Dialect} {b : Bracket} (hb : b.Wf d) (hno : ∀ i ∈ b.items, ¬i.IsClass)
    (x : List Char) : copyBracket (b.text.tail ++ x) = (b.text, x) := by
  obtain ⟨c, v, hitems, hv⟩ := noClass_tail hb.1 hno
  have hhead : b.neg = false → c ≠ '^' := by
    intro h h'
    have hcaret := hb.2 h
    rw [hitems, h'] at hcaret
    exact hcaret rfl
  simp only [Bracket.text, List.tail_cons, List.append_assoc, List.cons_append, List.nil_append, hitems]
  by_cases hc : c = ']'
  · subst hc
    cases hneg : b.neg with
    | true => simp [copyBracket, takeWhile_body hv]
    | false => simp [copyBracket, takeWhile_body hv]
  · have hcv : ∀ a ∈ c :: v, a ≠ ']' := by
      intro a ha
      cases List.mem_cons.mp ha with
      | inl h => exact h ▸ hc
      | inr h => exact hv a h
    cases hneg : b.neg with
    | true => simp [copyBracket, hc, takeWhile_body hv]
    | false => simp [copyBracket, hc, hhead hneg, takeWhile_body hv]

theorem itemsWf_known {d : Dialect} {first : Bool} {items : List Item} (h : ItemsWf d first items)
    (hknown : ItemsKnown items) : ItemsWf .emacs21 first items := by
  induction items generalizing first with
  | nil => exact h
  | cons i items ih =>
    cases i with
    | char c =>
      refine ⟨h.1, h.2.1, ?_, ih h.2.2.2 hknown.2⟩
      rw [Dialect.classAfter]
      split
      · rename_i hopen
        have hcolon := hknown.1 hopen.2
        cases htext : itemsText items with
        | nil => rfl
        | cons k u =>
          have hk : k ≠ ':' := fun hk => hcolon (by rw [htext, hk]; rfl)
          simp only [List.cons_append, classAt, hk, false_and, if_false]
          split <;> rfl
      · rfl
    | range a b => exact ⟨h.1, h.2.1, ih h.2.2 hknown⟩
    | cls name => exact ⟨rfl, h.2.1, ih h.2.2 hknown.2⟩

theorem step_bracket {d : Dialect} {b : Bracket} (hb : b.Wf d)
    (hknown : if b.OnClassPath fold then ItemsKnown b.items else ∀ i ∈ b.items, ¬i.IsClass)
    (x : List Char) : e20Step fold t (b.text ++ x) =
      some ({ t.atom ((Leaf.bracket b).copyText fold) with
        groups := (Leaf.bracket b).opens fold ++ t.groups }, x) := by
  have hopen : b.text = '[' :: b.text.tail := rfl
  have htest := classPath_append fold hb x
  rw [hopen, List.cons_append] at htest
  rw [hopen, List.cons_append]
  simp only [e20Step, if_neg (by decide : ¬( '[' = '\\')), if_true, e20OpenBracket, htest]
  by_cases hpath : b.OnClassPath fold
  · rw [if_pos hpath] at hknown
    have htext := e20Bracket_text b x ⟨itemsWf_known hb.1 hknown, hb.2⟩ hknown
    rw [hopen, List.cons_append] at htext
    have hclass : classPath fold ('[' :: b.text.tail) = some true := hpath
    simp only [hclass, htext, Leaf.copyText, Leaf.opens, hpath, true_and]
    cases (e20Joined (b.alts.map Bracket.text)).2 <;> rfl
  · rw [if_neg hpath] at hknown
    have hclass : classPath fold ('[' :: b.text.tail) = some false := classPath_false fold hpath
    simp only [hclass, copyBracket_text hb hknown, Leaf.copyText, Leaf.opens, hpath, if_false,
      false_and]
    rfl

/-! ### Intervals -/

theorem digit_text {n : Numeral} {c : Char} (hc : c ∈ n.text) :
    c ≠ ',' ∧ c ≠ '\\' ∧ c ≠ '[' := by
  obtain ⟨d, _, rfl⟩ := List.mem_map.mp hc
  have h : ∀ d : Fin 10, digitChar d ≠ ',' ∧ digitChar d ≠ '\\' ∧ digitChar d ≠ '[' := by decide
  exact h d

theorem stringToInt_text (n : Numeral) : stringToInt n.text = n.value := by
  have hread := readDigits_text n.digits (y := []) rfl
  rw [List.append_nil] at hread
  rw [stringToInt, Numeral.text, hread]
  rfl

theorem takeWhile_comma (n : Numeral) (x : List Char) :
    (n.text ++ ',' :: x).takeWhile (· ≠ ',') = n.text :=
  takeWhile_until (by decide) (fun c hc => by simp [(digit_text hc).1]) x

theorem e20Bounds_spec (i : Interval) : e20Bounds i.spec = (i.lo, i.hi) := by
  cases i with
  | exactly n =>
    have hno : ',' ∉ n.text := fun h => (digit_text h).1 rfl
    simp only [e20Bounds, Interval.spec, if_neg hno, stringToInt_text, Interval.lo, Interval.hi]
  | atLeast n =>
    have hmem : ',' ∈ n.text ++ [','] := by simp
    simp only [e20Bounds, Interval.spec, if_pos hmem, takeWhile_comma, stringToInt_text, Interval.lo,
      Interval.hi]
    simp
  | between n m h =>
    have hmem : ',' ∈ n.text ++ ',' :: m.text := by simp
    have hm : m.text ≠ [] := fun h' => m.nonempty (List.map_eq_nil_iff.mp h')
    simp only [e20Bounds, Interval.spec, if_pos hmem, takeWhile_comma, stringToInt_text, Interval.lo,
      Interval.hi]
    simp [hm, stringToInt_text]

theorem spec_text (i : Interval) : ∀ c ∈ i.spec, c ≠ '\\' ∧ c ≠ '[' := by
  intro c hc
  cases i with
  | exactly n => exact (digit_text hc).2
  | atLeast n =>
    cases List.mem_append.mp hc with
    | inl h => exact (digit_text h).2
    | inr h =>
      rw [List.mem_singleton.mp h]
      decide
  | between n m h =>
    cases List.mem_append.mp hc with
    | inl h => exact (digit_text h).2
    | inr h =>
      cases List.mem_cons.mp h with
      | inl h =>
        rw [h]
        decide
      | inr h => exact (digit_text h).2

theorem throughInterval_text {u : List Char} (hu : ∀ c ∈ u, c ≠ '\\') (x : List Char) :
    throughInterval (u ++ '\\' :: '}' :: x) = some (u, x) := by
  induction u with
  | nil => simp [throughInterval]
  | cons a u ih =>
    have ha := hu a List.mem_cons_self
    have hrest := ih fun c hc => hu c (List.mem_cons_of_mem _ hc)
    cases u with
    | nil => simp [throughInterval, ha]
    | cons b u =>
      simp only [List.cons_append] at hrest ⊢
      simp only [throughInterval, ha, false_and, if_false, hrest]
      rfl

theorem step_interval (i : Interval) (x : List Char) :
    e20Step fold t ((Suffix.interval i).text ++ x) = (t.interval i.spec).map (Prod.mk · x) := by
  simp only [Suffix.text, List.cons_append, List.append_assoc, List.nil_append, e20Step, if_true,
    e20Escape, throughInterval_text fun c hc => (spec_text i c hc).1]
  rfl

theorem interval_atom (i : Interval) (a : List Char) (g : List (Option Nat)) :
    ({ t.atom a with groups := g } : Translation).interval i.spec =
      some { t with out := [t.emitted ++ e20Rep i.lo i.hi a], groups := g } := by
  have hemit : ({ t.atom a with groups := g } : Translation).emitted = t.emitted ++ a := by
    simp [Translation.emitted, Translation.atom]
  simp only [Translation.interval, hemit, e20Bounds_spec]
  simp [Translation.atom, Start.offset]

def copied {α : Type} (lo : Nat) (hi : Option Nat) (star opt : α) (atom : List α) : List α :=
  (List.replicate lo atom).flatten ++ match hi with
    | none => atom ++ [star]
    | some h => (List.replicate (h - lo) (atom ++ [opt])).flatten

theorem e20Rep_eq (lo : Nat) (hi : Option Nat) (a : List Char) :
    e20Rep lo hi a = copied lo hi '*' '?' a := by
  cases hi <;> rfl

theorem copied_one {α : Type} {i : Interval} (hone : (Suffix.interval i).copies = 1) (star opt : α)
    (a : List α) : copied i.lo i.hi star opt a = a ++ copied i.lo i.hi star opt [] := by
  simp only [Suffix.copies] at hone
  cases hhi : i.hi with
  | none =>
    rw [hhi] at hone
    have hlo : i.lo = 0 := Nat.succ.inj hone
    simp [copied, hlo]
  | some h =>
    have hle := Interval.lo_le_hi hhi
    rw [hhi] at hone
    have hh : h = 1 := hone
    subst hh
    cases hlo : i.lo with
    | zero => simp [copied]
    | succ k =>
      have hk : k = 0 := by omega
      simp [copied, hk]

theorem e20Rep_one {i : Interval} (hone : (Suffix.interval i).copies = 1) (a : List Char) :
    e20Rep i.lo i.hi a = a ++ e20Rep i.lo i.hi [] := by
  rw [e20Rep_eq, e20Rep_eq, copied_one hone]

theorem interval_one {i : Interval} (hone : (Suffix.interval i).copies = 1) {n : Nat}
    (htop : (t.atoms.headD .missing).offset = some n) (hn : n ≤ t.emitted.length) :
    t.interval i.spec =
      some { t with out := [t.emitted ++ e20Rep i.lo i.hi []], atoms := t.atoms.tail } := by
  simp only [Translation.interval, htop, if_pos hn, e20Bounds_spec]
  rw [e20Rep_one hone, ← List.append_assoc, List.take_append_drop]

end PkgsrcPatches.Elisp
