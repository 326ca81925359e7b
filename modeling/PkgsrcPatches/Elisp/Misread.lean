import PkgsrcPatches.Elisp.Recast

/-! Bracket expressions of Emacs 20 that the code takes for ones with a class, such as
`[:foo:]`: when what it puts in their place stands for the same characters. -/
namespace PkgsrcPatches.Elisp

theorem ends_of_namesClass {fold : Bool} {u : List Char} (h : namesClass fold u = true) :
    ∃ p l rest, u = p ++ l :: ':' :: ']' :: rest ∧ classLetter fold l = true ∧ 2 ≤ p.length := by
  induction u with
  | nil => cases h
  | cons c t ih =>
    simp only [namesClass, Bool.or_eq_true, Bool.and_eq_true, decide_eq_true_eq] at h
    cases h with
    | inr h =>
      obtain ⟨p, l, rest, rfl, hl, hlen⟩ := ih h
      exact ⟨c :: p, l, rest, rfl, hl, Nat.le_succ_of_le hlen⟩
    | inl h =>
      obtain ⟨⟨⟨rfl, hcolon⟩, hname⟩, hclose⟩ := h
      obtain ⟨w, rfl⟩ := List.head?_eq_some_iff.mp hcolon
      rw [List.tail_cons] at hname hclose
      obtain ⟨q, l, hq⟩ := (List.eq_nil_or_concat' (w.takeWhile (classLetter fold))).resolve_left hname
      have hl : classLetter fold l = true := by
        refine List.mem_takeWhile_imp (l := w) ?_
        rw [hq]
        exact List.mem_append_right _ List.mem_cons_self
      have hw := List.takeWhile_append_dropWhile (p := classLetter fold) (l := w)
      obtain ⟨rest, hrest⟩ : ∃ rest, w.dropWhile (classLetter fold) = ':' :: ']' :: rest := by
        refine ⟨(w.dropWhile (classLetter fold)).drop 2, ?_⟩
        have htake := List.take_append_drop 2 (w.dropWhile (classLetter fold))
        rw [hclose] at htake
        exact htake.symm
      rw [hq, hrest] at hw
      refine ⟨'[' :: ':' :: q, l, rest, ?_, hl, ?_⟩
      · rw [← hw]
        simp
      · simp

theorem ends_of_closed {fold : Bool} {c : Char} {v : List Char} (hv : ∀ a ∈ v, a ≠ ']')
    (h : namesClass fold ('[' :: c :: (v ++ [']'])) = true) :
    ∃ p l, v = p ++ [l, ':'] ∧ classLetter fold l = true := by
  obtain ⟨p, l, rest, htext, hl, hlen⟩ := ends_of_namesClass h
  match p with
  | [] => cases hlen
  | [a] => exact (Nat.not_succ_le_self 1 hlen).elim
  | _ :: _ :: p =>
    have hend : v ++ [']'] = (p ++ [l, ':']) ++ ']' :: rest := by
      have htail := (List.cons.inj (List.cons.inj htext).2).2
      simpa using htail
    refine ⟨p, l, ?_, hl⟩
    obtain ⟨a, hpa, ha⟩ | ⟨a, hva, ha⟩ := List.append_eq_append_iff.mp hend
    · cases a with
      | nil => simpa using hpa.symm
      | cons b a =>
        have hlen := congrArg List.length ha
        simp only [List.length_cons, List.length_append, List.length_nil] at hlen
        omega
    · cases a with
      | nil => simpa using hva
      | cons b a =>
        have hb : ']' = b := (List.cons.inj ha).1
        exact (hv b (hva ▸ List.mem_append_right _ List.mem_cons_self) hb.symm).elim

namespace Bracket

theorem ends_of_onClassPath {fold : Bool} {b : Bracket} (hb : b.Wf .emacs20)
    (h : b.OnClassPath fold) :
    ∃ p l, itemsText b.items = p ++ [l, ':'] ∧ classLetter fold l = true := by
  obtain ⟨c, v, hitems, hv⟩ := noClass_tail hb.1 (wf20_noClass hb.1)
  have hpath : classPath fold b.text = some true := h
  cases hneg : b.neg with
  | false =>
    have htext : b.text = '[' :: c :: (v ++ ']' :: []) := by simp [text, hneg, hitems]
    rw [htext, classPath_until c hv] at hpath
    obtain ⟨p, l, rfl, hl⟩ := ends_of_closed hv (Option.some.inj hpath)
    exact ⟨c :: p, l, hitems, hl⟩
  | true =>
    by_cases hc : c = ']'
    · have htext : b.text = '[' :: '^' :: ']' :: (v ++ [']']) := by simp [text, hneg, hitems, hc]
      rw [htext, classPath_hidden] at hpath
      cases hpath
    · have hcv : ∀ a ∈ c :: v, a ≠ ']' := by
        intro a ha
        cases List.mem_cons.mp ha with
        | inl ha => exact ha ▸ hc
        | inr ha => exact hv a ha
      have htext : b.text = '[' :: '^' :: ((c :: v) ++ ']' :: []) := by simp [text, hneg, hitems]
      rw [htext, classPath_until '^' hcv] at hpath
      obtain ⟨p, l, hp, hl⟩ := ends_of_closed hcv (Option.some.inj hpath)
      exact ⟨p, l, hitems.trans hp, hl⟩

theorem colon_of_onClassPath {fold : Bool} {b : Bracket} (hb : b.Wf .emacs20)
    (h : b.OnClassPath fold) : .char ':' ∈ b.items := by
  obtain ⟨p, l, htext, hl⟩ := ends_of_onClassPath hb h
  obtain hnil | ⟨init, i, hlast⟩ := List.eq_nil_or_concat' b.items
  · rw [hnil] at htext
    simp at htext
  have hi : i ∈ b.items := hlast ▸ List.mem_append_right _ List.mem_cons_self
  have hend : itemsText init ++ i.text = p ++ [l] ++ [':'] := by
    have hall : itemsText b.items = itemsText init ++ i.text := by
      rw [hlast]
      simp [itemsText]
    rw [← hall, htext]
    simp
  cases i with
  | cls name => exact (wf20_noClass hb.1 _ hi trivial).elim
  | char a =>
    have ha : a = ':' := (List.cons.inj (List.append_inj' hend rfl).2).1
    exact ha ▸ hi
  | range a e =>
    -- the colon would end a range, but a letter stands before it
    have hdash : itemsText init ++ [a] ++ ['-', e] = p ++ [l, ':'] := by simpa [Item.text] using hend
    have hl' : '-' = l := (List.cons.inj (List.append_inj' hdash rfl).2).1
    have hno : ∀ fold, classLetter fold '-' = false := by decide
    rw [← hl', hno] at hl
    cases hl

/-! ### The same characters -/

theorem not_allBeyond {b : Bracket} (hb : b.Wf .emacs20) : ¬b.AllBeyond := by
  intro h
  obtain ⟨name, spec, hmem, -⟩ := h
  exact wf20_noClass hb.1 _ hmem trivial

/-- When what is put in the place of the bracket expression stands for the same characters. For a
negated one that is its complement, and a case table must not make one of an ASCII character in
the complement and one that is not. -/
structure SameSet (canon : Char → Char) (b : Bracket) : Prop where
  caret : b.holds e20Meaning '^' →
    ∃ x, x.toNat < 128 ∧ x ≠ '^' ∧ x ≠ '-' ∧ b.holds e20Meaning x
  far : b.FarCovered
  folded : b.neg = true → ∀ x y, x.toNat < 128 → y.toNat < 128 → canon x = canon y →
    (b.holds e20Meaning x ↔ b.holds e20Meaning y)

section HoldsBy
variable {canon : Char → Char} {b : Bracket} {x : Char}

theorem holdsBy_pos (h : b.neg = false) :
    b.holdsBy canon x ↔ ∃ y, canon y = canon x ∧ b.holds e20Meaning y := by
  simp only [holdsBy, holds, h, Bool.false_eq_true, if_false]

theorem holdsBy_neg (h : b.neg = true) :
    b.holdsBy canon x ↔ ∀ y, canon y = canon x → b.holds e20Meaning y := by
  simp only [holdsBy, holds, h, if_true, not_exists, not_and]

theorem asciiPart_pos {a : Bracket} (ha : a ∈ b.asciiPart) : a.neg = false := by
  unfold asciiPart at ha
  split at ha
  · cases ha
  · exact List.mem_singleton.mp ha ▸ rfl

theorem all_eq_neg (hb : b.Wf .emacs20) : b.all = b.neg := by
  rw [Bool.eq_iff_iff, all_iff]
  cases hneg : b.neg <;> simp [not_allBeyond hb]

theorem asRead_neg (hb : b.Wf .emacs20) (hneg : b.neg = true) :
    b.asRead = b.asciiPart ++ [nonAscii] := if_pos (by rw [all_eq_neg hb, hneg])

theorem asRead_pos (hb : b.Wf .emacs20) (hneg : b.neg = false) (hfar : b.FarCovered) {a : Bracket}
    (ha : a ∈ b.asRead) : a.neg = false := by
  have hall : ¬b.all = true := by rw [all_eq_neg hb, hneg]; decide
  rw [asRead, if_neg hall] at ha
  split at ha
  · cases List.mem_append.mp ha with
    | inl ha => exact asciiPart_pos ha
    | inr ha =>
      rw [List.mem_singleton.mp ha, readExtras_eq (hfar.together hneg (not_allBeyond hb)).1]
  · exact asciiPart_pos ha

theorem asRead_holdsBy (hb : b.Wf .emacs20) (hb' : b.Wf .emacs21) (hset : b.SameSet canon) :
    (∃ a ∈ b.asRead, a.holdsBy canon x) ↔ b.holdsBy canon x := by
  have hsame := hb'.asRead_iff.mpr hset.far
  cases hneg : b.neg with
  | false =>
    rw [holdsBy_pos hneg]
    constructor
    · intro h
      obtain ⟨a, ha, hx⟩ := h
      obtain ⟨y, hy, hay⟩ := (holdsBy_pos (asRead_pos hb hneg hset.far ha)).mp hx
      exact ⟨y, hy, (hsame y).mp ⟨a, ha, hay⟩⟩
    · intro h
      obtain ⟨y, hy, hby⟩ := h
      obtain ⟨a, ha, hay⟩ := (hsame y).mpr hby
      exact ⟨a, ha, (holdsBy_pos (asRead_pos hb hneg hset.far ha)).mpr ⟨y, hy, hay⟩⟩
  | true =>
    have hfold := hset.folded hneg
    have hnone : nonAscii.neg = true := rfl
    rw [holdsBy_neg hneg]
    simp only [asRead_neg hb hneg, List.mem_append, List.mem_singleton] at hsame ⊢
    constructor
    · intro h y hy
      obtain ⟨a, ha | rfl, hx⟩ := h
      · obtain ⟨z, hz, haz⟩ := (holdsBy_pos (asciiPart_pos ha)).mp hx
        have hlt := ((b.asciiPart_holds e20Meaning z).mp ⟨a, ha, haz⟩).1
        by_cases hascii : y.toNat < 128
        · exact (hfold z y hlt hascii (hz.trans hy.symm)).mp ((hsame z).mp ⟨a, Or.inl ha, haz⟩)
        · exact (hsame y).mp ⟨nonAscii, Or.inr rfl, (nonAscii_holds e20Meaning y).mpr hascii⟩
      · exact (hsame y).mp ⟨nonAscii, Or.inr rfl, (holdsBy_neg hnone).mp hx y hy⟩
    · intro h
      by_cases hascii : ∃ y, canon y = canon x ∧ y.toNat < 128
      · obtain ⟨y, hy, hlt⟩ := hascii
        obtain ⟨a, ha | rfl, hay⟩ := (hsame y).mpr (h y hy)
        · exact ⟨a, Or.inl ha, (holdsBy_pos (asciiPart_pos ha)).mpr ⟨y, hy, hay⟩⟩
        · exact ((nonAscii_holds e20Meaning y).mp hay hlt).elim
      · refine ⟨nonAscii, Or.inr rfl, (holdsBy_neg hnone).mpr fun y hy => ?_⟩
        exact (nonAscii_holds e20Meaning y).mpr fun hlt => hascii ⟨y, hy, hlt⟩

theorem asRead_ne_nil (hb : b.Wf .emacs20) (hcolon : .char ':' ∈ b.items) : b.asRead ≠ [] := by
  cases hneg : b.neg with
  | true =>
    rw [asRead_neg hb hneg]
    exact List.append_ne_nil_of_right_ne_nil _ (List.cons_ne_nil _ _)
  | false =>
    have hnear : b.Near ':' := ⟨.char ':', hcolon, by decide, rfl⟩
    obtain ⟨a, ha, -⟩ := (b.asRead_holds ':').mpr (Or.inl (by rw [if_neg (by simp [hneg])]; exact hnear))
    exact List.ne_nil_of_mem ha

theorem SameSet.caretPlaced (hset : b.SameSet canon) (hcolon : .char ':' ∈ b.items) :
    b.CaretPlaced :=
  (caretPlaced_iff (fun _ => ⟨':', by decide, by decide, .char ':', hcolon, by decide, rfl⟩)
    hset.far).mpr hset.caret

end HoldsBy
end Bracket
end PkgsrcPatches.Elisp
