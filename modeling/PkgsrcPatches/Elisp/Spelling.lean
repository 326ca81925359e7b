import PkgsrcPatches.Elisp.Unroll

/-! Texts that stand for a set of characters, and what Emacs 20 makes of the members beyond
ASCII where `e20-bracket` writes them one behind the other. -/
namespace PkgsrcPatches.Elisp
open Lib.Kleene

/-- To Emacs 20 the text is a regexp that matches one character, any of `S`. -/
def Spells (text : List Char) (S : Char → Prop) : Prop :=
  ∃ r, Dialect.emacs20.read text = some r ∧
    ∀ (P : Type) (M : Engine P) (p q : P), r.Matches M .emacs20 p q ↔ M.oneOf S p q

def only (c : Char) : Engine Unit where
  step _ d _ := d = c
  bol _ := False
  eol _ := False
  escape _ := 0
  coded _ _ := 0
  cls _ _ := False

theorem oneOf_only (S : Char → Prop) (c : Char) : (only c).oneOf S () () ↔ S c := by
  constructor
  · intro h
    obtain ⟨d, hd, he⟩ := h
    exact he ▸ hd
  · intro h
    exact ⟨c, h, rfl⟩

theorem wf20_noClass {first : Bool} {items : List Item} (h : ItemsWf .emacs20 first items) :
    ∀ i ∈ items, ¬i.IsClass := by
  induction items generalizing first with
  | nil =>
    intro i hi
    cases hi
  | cons i items ih =>
    intro j hj
    cases i with
    | char c =>
      cases List.mem_cons.mp hj with
      | inl hj => exact hj ▸ id
      | inr hj => exact ih h.2.2.2 j hj
    | range a b =>
      cases List.mem_cons.mp hj with
      | inl hj => exact hj ▸ id
      | inr hj => exact ih h.2.2 j hj
    | cls name => exact nomatch h.1

theorem wf20_holds {a : Bracket} (h : a.Wf .emacs20) (cls : List Char → Char → Prop) (x : Char) :
    a.holds cls x ↔ a.holds e20Meaning x := by
  have hitem : ∀ i ∈ a.items, (i.holds cls x ↔ i.holds e20Meaning x) := by
    intro i hi
    cases i with
    | char c => exact Iff.rfl
    | range b c => exact Iff.rfl
    | cls name => exact (wf20_noClass h.1 _ hi trivial).elim
  have hexists : (∃ i ∈ a.items, i.holds cls x) ↔ ∃ i ∈ a.items, i.holds e20Meaning x :=
    exists_congr fun i => and_congr_right fun hi => hitem i hi
  simp only [Bracket.holds, hexists]

theorem spells_tree {r : Regexp} (hwf : r.Wf .emacs20 .first) {T : Char → Prop}
    (hT : ∀ (P : Type) (M : Engine P) (p q : P), r.Matches M .emacs20 p q ↔ M.oneOf T p q)
    (S : Char → Prop) : Spells r.text S ↔ ∀ x, T x ↔ S x := by
  have hread := read_text .emacs20 r hwf
  constructor
  · intro h x
    obtain ⟨r', hr, hS⟩ := h
    rw [hread] at hr
    obtain rfl := Option.some.inj hr
    rw [← oneOf_only S x, ← hS Unit (only x), hT, oneOf_only]
  · intro h
    refine ⟨r, hread, ?_⟩
    intro P M p q
    rw [hT, oneOf_congr M h]

theorem oneOf_wf20 {P : Type} (M : Engine P) {alts : List Bracket} (hwf : ∀ a ∈ alts, a.Wf .emacs20) :
    M.oneOf (fun c => ∃ a ∈ alts, a.holds M.cls c) =
      M.oneOf fun c => ∃ a ∈ alts, a.holds e20Meaning c :=
  oneOf_congr M fun c => exists_congr fun a => and_congr_right fun ha => wf20_holds (hwf a ha) _ c

theorem spells_joined {alts : List Bracket} (hne : alts ≠ []) (hwf : ∀ a ∈ alts, a.Wf .emacs20)
    (S : Char → Prop) : Spells (e20Joined (alts.map Bracket.text)).1 S ↔
      ∀ x, (∃ a ∈ alts, a.holds e20Meaning x) ↔ S x := by
  have hnil : Regexp.nil.Wf .emacs20 .inner := by rw [Regexp.Wf]; trivial
  have htext : (joined alts [] .nil).text = (e20Joined (alts.map Bracket.text)).1 := by
    rw [joined_text]
    simp [Regexp.text]
  rw [← htext]
  refine spells_tree (joined_wf hwf hne [] hnil .first) (fun P M p q => ?_) S
  have hflags : Dialect.emacs20.flags [] = (false, false) := rfl
  rw [Regexp.Matches, joined_denote M .emacs20 hne, hflags, oneOf_wf20 M hwf]
  simp only [repeated, one_mul, Regexp.denote]

theorem spells_group {a : Bracket} (hwf : a.Wf .emacs20) (S : Char → Prop) :
    Spells ('\\' :: '(' :: (a.text ++ ['\\', ')'])) S ↔ ∀ x, a.holds e20Meaning x ↔ S x := by
  have hone : ∀ c ∈ [a], c.Wf .emacs20 := fun c hc => List.mem_singleton.mp hc ▸ hwf
  have htree : (Regexp.group .capturing (altBody [a]) (.ops []) .nil).Wf .emacs20 .first := by
    refine ⟨fun h => (by cases h), altBody_wf hone .first, trivial, ?_⟩
    rw [Regexp.Wf]
    trivial
  have htext : (Regexp.group .capturing (altBody [a]) (.ops []) .nil).text =
      '\\' :: '(' :: (a.text ++ ['\\', ')']) := by
    simp [Regexp.text, altBody_text, Kind.text, Suffix.text]
  rw [← htext]
  have hsingle : ∀ x, a.holds e20Meaning x ↔ ∃ c ∈ [a], c.holds e20Meaning x := by simp
  simp only [hsingle]
  refine spells_tree htree (fun P M p q => ?_) S
  have hflags : Dialect.emacs20.flags [] = (false, false) := rfl
  rw [Regexp.Matches, Regexp.denote, altBody_denote M .emacs20 (List.cons_ne_nil a []), oneOf_wf20 M hone,
    Suffix.denote, hflags]
  simp only [repeated, one_mul, Regexp.denote]

theorem spells_bracket {a : Bracket} (hwf : a.Wf .emacs20) (S : Char → Prop) :
    Spells a.text S ↔ ∀ x, a.holds e20Meaning x ↔ S x := by
  have hone : ∀ c ∈ [a], c.Wf .emacs20 := fun c hc => List.mem_singleton.mp hc ▸ hwf
  have h := spells_joined (List.cons_ne_nil a []) hone S
  simpa [e20Joined] using h

/-! ### The members beyond ASCII, one behind the other -/

/-- Members beyond ASCII, none of them a range that begins with `]`. -/
def FarItems (items : List Item) : Prop :=
  ∀ i ∈ items, ¬i.IsAscii ∧ ∀ b, i ≠ .range ']' b

theorem char_beyond {c d : Char} (hc : 127 < c.toNat) (hd : d.toNat ≤ 127) : c ≠ d := by
  intro h
  rw [h] at hc
  omega

theorem readOn_wf (items : List Item) (o : Option Char) (hfar : FarItems items)
    (ho : ∀ p, o = some p → 127 < p.toNat) : ItemsWf .emacs20 false (readOn o items) := by
  have hcls : ∀ (c : Char) (t : List Char), Dialect.emacs20.classAfter c t = none := by
    intro c t
    simp [Dialect.classAfter]
  induction items generalizing o with
  | nil =>
    cases o with
    | none => rfl
    | some p =>
      have hp := ho p rfl
      exact ⟨fun h => (char_beyond hp (by decide) h).elim, rfl, hcls _ _, rfl⟩
  | cons i items ih =>
    have hrest : FarItems items := fun j hj => hfar j (List.mem_cons_of_mem _ hj)
    obtain ⟨hi, hclose⟩ := hfar i List.mem_cons_self
    cases i with
    | char c =>
      have hc : 127 < c.toNat := Nat.not_le.mp hi
      have hnext := ih (some c) hrest (fun p hp => Option.some.inj hp ▸ hc)
      cases o with
      | none => exact hnext
      | some p =>
        have hp := ho p rfl
        refine ⟨fun h => (char_beyond hp (by decide) h).elim, ?_, hcls _ _, hnext⟩
        have hdash : c ≠ '-' := char_beyond hc (by decide)
        rw [readOn_text]
        cases htext : itemsText items <;> simp [rangeEnd, hdash]
    | range a b =>
      have hb : 127 < b.toNat := Nat.not_le.mp hi
      have hb' : b ≠ ']' := char_beyond hb (by decide)
      have ha : a ≠ ']' := fun h => hclose b (h ▸ rfl)
      cases o with
      | none => exact ⟨fun h => (ha h).elim, hb', ih none hrest (fun p hp => by cases hp)⟩
      | some p =>
        have hp := ho p rfl
        have hp' : p ≠ ']' := char_beyond hp (by decide)
        by_cases hdash : a = '-'
        · rw [readOn, if_pos hdash]
          exact ⟨fun h => (hp' h).elim, by decide, ih (some b) hrest (fun q hq => Option.some.inj hq ▸ hb)⟩
        · rw [readOn, if_neg hdash]
          refine ⟨fun h => (hp' h).elim, ?_, hcls _ _, fun h => (ha h).elim, hb',
            ih none hrest (fun p hp => by cases hp)⟩
          simp [Item.text, rangeEnd, hdash]
    | cls name => exact (hi trivial).elim

theorem readOn_holds (items : List Item) (o : Option Char) (hfar : FarItems items)
    (ho : ∀ p, o = some p → 127 < p.toNat) {x : Char}
    (h : ∃ i ∈ readOn o items, i.holds e20Meaning x) :
    o = some x ∨ ∃ i ∈ items, i.holds e20Meaning x := by
  induction items generalizing o with
  | nil =>
    cases o with
    | none => simp [readOn] at h
    | some p =>
      obtain ⟨i, hi, hx⟩ := h
      obtain rfl := List.mem_singleton.mp hi
      exact Or.inl (congrArg some (Eq.symm hx))
  | cons i items ih =>
    have hrest : FarItems items := fun j hj => hfar j (List.mem_cons_of_mem _ hj)
    obtain ⟨hi, -⟩ := hfar i List.mem_cons_self
    have hnone : (∃ j ∈ readOn none items, j.holds e20Meaning x) →
        ∃ j ∈ items, j.holds e20Meaning x := by
      intro h
      exact (ih none hrest (fun p hp => by cases hp) h).resolve_left (by simp)
    have hsome : ∀ c : Char, 127 < c.toNat → (∃ j ∈ readOn (some c) items, j.holds e20Meaning x) →
        x = c ∨ ∃ j ∈ items, j.holds e20Meaning x := by
      intro c hc h
      exact (ih (some c) hrest (fun p hp => Option.some.inj hp ▸ hc) h).imp_left
        fun hx => (Option.some.inj hx).symm
    rw [List.exists_mem_cons_iff]
    cases i with
    | char c =>
      have hnext := hsome c (Nat.not_le.mp hi)
      cases o with
      | none => exact Or.inr (hnext h)
      | some p =>
        rw [readOn, List.exists_mem_cons_iff] at h
        exact h.imp (fun hx => congrArg some (Eq.symm hx)) hnext
    | range a b =>
      cases o with
      | none =>
        rw [readOn, List.exists_mem_cons_iff] at h
        exact Or.inr (h.imp_right hnone)
      | some p =>
        have hp := ho p rfl
        rw [readOn] at h
        split at h
        · rename_i hdash
          rw [List.exists_mem_cons_iff] at h
          cases h with
          | inl hx =>
            have hle : p.toNat ≤ x.toNat ∧ x.toNat ≤ '-'.toNat := hx
            have h45 : '-'.toNat = 45 := rfl
            omega
          | inr h =>
            -- the end of the range is read as a character
            refine Or.inr ((hsome b (Nat.not_le.mp hi) h).imp_left fun hx => ?_)
            have h45 : a.toNat = 45 := hdash ▸ rfl
            have hb : 127 < b.toNat := Nat.not_le.mp hi
            rw [hx]
            exact ⟨by omega, Nat.le_refl _⟩
        · rw [List.exists_mem_cons_iff, List.exists_mem_cons_iff] at h
          exact h.imp (fun hx => congrArg some (Eq.symm hx)) fun h => h.imp_right hnone
    | cls name => exact (hi trivial).elim

theorem readOn_char (items : List Item) {p : Char} (hfar : FarItems items) (hp : 127 < p.toNat) :
    ∃ y, .char y ∈ readOn (some p) items ∧ 127 < y.toNat ∧ (y = p ∨ .range '-' y ∈ items) := by
  induction items generalizing p with
  | nil => exact ⟨p, List.mem_singleton_self _, hp, Or.inl rfl⟩
  | cons i items ih =>
    have hrest : FarItems items := fun j hj => hfar j (List.mem_cons_of_mem _ hj)
    obtain ⟨hi, -⟩ := hfar i List.mem_cons_self
    cases i with
    | char c => exact ⟨p, List.mem_cons_self, hp, Or.inl rfl⟩
    | range a b =>
      rw [readOn]
      split
      · rename_i hdash
        obtain ⟨y, hy, hbeyond, hfrom⟩ := ih hrest (Nat.not_le.mp hi : 127 < b.toNat)
        refine ⟨y, List.mem_cons_of_mem _ hy, hbeyond, Or.inr ?_⟩
        cases hfrom with
        | inl h => exact hdash ▸ h ▸ List.mem_cons_self
        | inr h => exact List.mem_cons_of_mem _ h
      · exact ⟨p, List.mem_cons_self, hp, Or.inl rfl⟩
    | cls name => exact (hi trivial).elim

theorem readExtras_wf {i : Item} {rest : List Item} (hi : ¬i.IsAscii) (hrest : FarItems rest) :
    (readExtras (i :: rest)).Wf .emacs20 := by
  have hnone : ItemsWf .emacs20 false (readOn none rest) :=
    readOn_wf rest none hrest (fun p hp => by cases hp)
  cases i with
  | char c =>
    have hc : 127 < c.toNat := Nat.not_le.mp hi
    have hwf := readOn_wf rest (some c) hrest (fun p hp => Option.some.inj hp ▸ hc)
    have htext : itemsText (readOn (some c) rest) = c :: itemsText rest := readOn_text rest (some c)
    have hne : readOn (some c) rest ≠ [] := by
      intro h
      rw [h] at htext
      cases htext
    refine ⟨Bracket.itemsWf_first hwf hne, fun _ h => ?_⟩
    rw [readExtras, readOn, htext] at h
    · exact char_beyond hc (by decide) (Option.some.inj h)
    · intro _ _ _ h
      cases h
  | range a b =>
    have hb : 127 < b.toNat := Nat.not_le.mp hi
    rw [readExtras]
    split
    · have hwf := readOn_wf rest (some b) hrest (fun p hp => Option.some.inj hp ▸ hb)
      refine ⟨⟨fun h => (by cases h), ?_, by simp [Dialect.classAfter], hwf⟩, fun h => (by cases h)⟩
      have hdash : b ≠ '-' := char_beyond hb (by decide)
      rw [readOn_text]
      cases htext : itemsText rest <;> simp [rangeEnd, hdash]
    · rename_i ha
      refine ⟨⟨fun _ => rfl, char_beyond hb (by decide), hnone⟩, fun _ h => ha ?_⟩
      exact Option.some.inj h
  | cls name => exact (hi trivial).elim

end PkgsrcPatches.Elisp
