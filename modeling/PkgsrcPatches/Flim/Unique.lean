import PkgsrcPatches.Flim.Tokens

/-! A string is made of tokens in one way at most, and not of tokens and of an enclosure that it
ends in as well. -/
namespace PkgsrcPatches.Flim

variable {tag c o : Char} {a a' b b' x y : List Char}

/-! ### Enclosures -/

def Stops (tag : Char) (x : List Char) : Prop := x = [] ∨ x = ['\\'] ∨ ∃ z, x = tag :: z

theorem Stops.not_char (h : Stops tag (c :: x)) (hc : c ≠ tag) (hb : c ≠ '\\') : False := by
  obtain h | h | ⟨z, h⟩ := h
  · exact absurd h (by simp)
  · exact hb (List.cons.inj h).1
  · exact hc (List.cons.inj h).1

theorem Stops.not_pair (h : Stops tag ('\\' :: c :: x)) (htag : tag ≠ '\\') : False := by
  obtain h | h | ⟨z, h⟩ := h
  · exact absurd h (by simp)
  · exact absurd h (by simp)
  · exact htag (List.cons.inj h).1.symm

theorem Body.unique (htag : tag ≠ '\\') (h : Body tag b) (h' : Body tag b') (hx : Stops tag x)
    (hy : Stops tag y) (he : b ++ x = b' ++ y) : b = b' ∧ x = y := by
  induction h generalizing b' with
  | nil =>
    cases h' with
    | nil => exact ⟨rfl, he⟩
    | char hc hb _ => exact ((show x = _ from he) ▸ hx).not_char hc hb |>.elim
    | pair c _ => exact ((show x = _ from he) ▸ hx).not_pair htag |>.elim
  | char hc hb h ih =>
    cases h' with
    | nil => exact ((show _ = y from he) ▸ hy).not_char hc hb |>.elim
    | char _ _ h' =>
      obtain ⟨rfl, hrest⟩ := List.cons.inj he
      obtain ⟨rfl, hxy⟩ := ih h' hrest
      exact ⟨rfl, hxy⟩
    | pair c _ => exact absurd (List.cons.inj he).1 hb
  | pair c h ih =>
    cases h' with
    | nil => exact ((show _ = y from he) ▸ hy).not_pair htag |>.elim
    | char _ hb _ => exact absurd (List.cons.inj he).1.symm hb
    | pair c' h' =>
      obtain ⟨rfl, hrest⟩ := List.cons.inj (List.cons.inj he).2
      obtain ⟨rfl, hxy⟩ := ih h' hrest
      exact ⟨rfl, hxy⟩

/-- Where what stands in a comment ends, at a depth. -/
def CommentStops (d : Nat) (x : List Char) : Prop :=
  x = [] ∨ x = ['\\'] ∨ d = 1 ∧ ∃ z, x = ')' :: z

theorem CommentStops.not_char {d : Nat} (h : CommentStops d (c :: x)) (hc : c ≠ ')') (hb : c ≠ '\\') :
    False := by
  obtain h | h | ⟨-, z, h⟩ := h
  · exact absurd h (by simp)
  · exact hb (List.cons.inj h).1
  · exact hc (List.cons.inj h).1

theorem CommentStops.not_pair {d : Nat} (h : CommentStops d ('\\' :: c :: x)) : False := by
  obtain h | h | ⟨-, z, h⟩ := h
  · exact absurd h (by simp)
  · exact absurd h (by simp)
  · exact absurd (List.cons.inj h).1 (by decide)

theorem CommentStops.not_closing {d : Nat} (h : CommentStops (d + 2) (')' :: x)) : False := by
  obtain h | h | ⟨hd, -⟩ := h
  · exact absurd h (by simp)
  · exact absurd (List.cons.inj h).1 (by decide)
  · exact absurd hd (by omega)

theorem Comment.unique {d e e' : Nat} (h : Comment d e b) (h' : Comment d e' b')
    (hx : CommentStops e x) (hy : CommentStops e' y) (he : b ++ x = b' ++ y) : b = b' ∧ x = y := by
  induction h generalizing b' with
  | nil d =>
    cases h' with
    | nil => exact ⟨rfl, he⟩
    | char _ hc hb _ => exact ((show x = _ from he) ▸ hx).not_char hc hb |>.elim
    | pair c _ => exact ((show x = _ from he) ▸ hx).not_pair |>.elim
    | opening _ => exact ((show x = _ from he) ▸ hx).not_char (by decide) (by decide) |>.elim
    | closing _ => exact ((show x = _ from he) ▸ hx).not_closing |>.elim
  | char ho hc hb h ih =>
    cases h' with
    | nil => exact ((show _ = y from he) ▸ hy).not_char hc hb |>.elim
    | char _ _ _ h' =>
      obtain ⟨rfl, hrest⟩ := List.cons.inj he
      obtain ⟨rfl, hxy⟩ := ih h' hx hrest
      exact ⟨rfl, hxy⟩
    | pair c _ => exact absurd (List.cons.inj he).1 hb
    | opening _ => exact absurd (List.cons.inj he).1 ho
    | closing _ => exact absurd (List.cons.inj he).1 hc
  | pair c h ih =>
    cases h' with
    | nil => exact ((show _ = y from he) ▸ hy).not_pair |>.elim
    | char _ _ hb _ => exact absurd (List.cons.inj he).1.symm hb
    | pair c' h' =>
      obtain ⟨rfl, hrest⟩ := List.cons.inj (List.cons.inj he).2
      obtain ⟨rfl, hxy⟩ := ih h' hx hrest
      exact ⟨rfl, hxy⟩
    | opening _ => exact absurd (List.cons.inj he).1 (by decide)
    | closing _ => exact absurd (List.cons.inj he).1 (by decide)
  | opening h ih =>
    cases h' with
    | nil => exact ((show _ = y from he) ▸ hy).not_char (by decide) (by decide) |>.elim
    | char ho _ _ _ => exact absurd (List.cons.inj he).1.symm ho
    | pair c _ => exact absurd (List.cons.inj he).1 (by decide)
    | opening h' =>
      obtain ⟨rfl, hxy⟩ := ih h' hx (List.cons.inj he).2
      exact ⟨rfl, hxy⟩
    | closing _ => exact absurd (List.cons.inj he).1 (by decide)
  | closing h ih =>
    cases h' with
    | nil => exact ((show _ = y from he) ▸ hy).not_closing |>.elim
    | char _ hc _ _ => exact absurd (List.cons.inj he).1.symm hc
    | pair c _ => exact absurd (List.cons.inj he).1 (by decide)
    | opening _ => exact absurd (List.cons.inj he).1 (by decide)
    | closing h' =>
      obtain ⟨rfl, hxy⟩ := ih h' hx (List.cons.inj he).2
      exact ⟨rfl, hxy⟩

/-! ### One token -/

/-- What the table has for the characters that a token of the kind begins with. -/
def Kind.elt : Kind → Elt
  | atom => .atm
  | spaces => .sp
  | specials => .spc
  | quotedString => .qs
  | domainLiteral => .dl
  | comment => .cm

theorem Kind.elt_inj {k k' : Kind} (h : k.elt = k'.elt) : k = k' := by
  cases k <;> cases k' <;> first | rfl | exact nomatch h

theorem eltOf_atom (hspace : c ∉ spaceCharList) (hspecial : c ∉ specialCharList) :
    eltOf c = .atm := by
  have hq : c ≠ '"' := fun h => hspecial (h ▸ by decide)
  have hp : c ≠ '(' := fun h => hspecial (h ▸ by decide)
  have hd : c ≠ '[' := fun h => hspecial (h ▸ by decide)
  rw [eltOf, if_neg hspace, if_neg hq, if_neg hp, if_neg hd, if_neg hspecial]

theorem eltOf_special (h : c ∈ specialCharList) (hq : c ≠ '"') (hd : c ≠ '[') (hp : c ≠ '(') :
    eltOf c = .spc := by
  have hspace : c ∉ spaceCharList := by
    have hapart : ∀ c ∈ specialCharList, c ∉ spaceCharList := by
      simp [specialCharList, spaceCharList]
    exact hapart c h
  rw [eltOf, if_neg hspace, if_neg hq, if_neg hp, if_neg hd, if_pos h]

theorem Token.Wf.chars {k : Kind} {w : List Char} (h : Token.Wf ⟨k, w⟩)
    (hk : k = .atom ∨ k = .spaces) :
    w ≠ [] ∧ ∀ c ∈ w, eltOf c = k.elt := by
  obtain rfl | rfl := hk
  · exact ⟨h.1, fun c hc => eltOf_atom (h.2 c hc).1 (h.2 c hc).2⟩
  · exact ⟨h.1, fun c hc => if_pos (h.2 c hc)⟩

theorem eltOf_mark {k : Kind} (h : k.marks = some (o, c)) : eltOf o = k.elt := by
  cases k with
  | atom | spaces | specials => exact nomatch h
  | quotedString | domainLiteral | comment =>
    obtain ⟨rfl, -⟩ := Prod.mk.inj (Option.some.inj h)
    decide

theorem Token.source_head {t : Token} (h : t.Wf) :
    ∃ c w, t.source = c :: w ∧ eltOf c = t.kind.elt := by
  obtain ⟨k, w⟩ := t
  have hrun : k = .atom ∨ k = .spaces → k.marks = none →
      ∃ c v, Token.source ⟨k, w⟩ = c :: v ∧ eltOf c = k.elt := by
    intro hk hmarks
    obtain ⟨hne, hchars⟩ := h.chars hk
    obtain ⟨c, v, rfl⟩ := List.exists_cons_of_ne_nil hne
    exact ⟨c, v, by rw [Token.source, hmarks], hchars c List.mem_cons_self⟩
  cases k with
  | atom => exact hrun (Or.inl rfl) rfl
  | spaces => exact hrun (Or.inr rfl) rfl
  | specials =>
    obtain ⟨c, hc, hq, hd, hp, hw⟩ := h
    exact ⟨c, [], hw, eltOf_special hc hq hd hp⟩
  | quotedString | domainLiteral | comment => exact ⟨_, _, rfl, eltOf_mark rfl⟩

def Other (e : Elt) (x : List Char) : Prop := ∀ c w, x = c :: w → eltOf c ≠ e

theorem chars_unique {e : Elt} (ha : ∀ c ∈ a, eltOf c = e) (ha' : ∀ c ∈ a', eltOf c = e)
    (hx : Other e x) (hy : Other e y) (he : a ++ x = a' ++ y) : a = a' ∧ x = y := by
  induction a generalizing a' with
  | nil =>
    cases a' with
    | nil => exact ⟨rfl, he⟩
    | cons c a' => exact absurd (ha' c List.mem_cons_self) (hx c _ he)
  | cons c a ih =>
    cases a' with
    | nil => exact absurd (ha c List.mem_cons_self) (hy c _ he.symm)
    | cons c' a' =>
      obtain ⟨rfl, hrest⟩ := List.cons.inj he
      obtain ⟨rfl, hxy⟩ := ih (fun d hd => ha d (List.mem_cons_of_mem _ hd))
        (fun d hd => ha' d (List.mem_cons_of_mem _ hd)) hrest
      exact ⟨rfl, hxy⟩

theorem unclosed_append {k : Kind} (hwf : Token.Wf ⟨k, b⟩) (h : k.marks = some (o, c)) :
    ¬k.Unclosed (b ++ c :: x) := by
  rintro ⟨b', e, he, hend, hb'⟩
  have hbody : ∀ tag, tag ≠ '\\' → c = tag → Body tag b → Body tag b' → False := by
    rintro tag htag rfl hb hb'
    have hstop : Stops c e := by
      obtain h | h := hend
      · exact Or.inl h
      · exact Or.inr (Or.inl h)
    obtain ⟨-, hrest⟩ := hb.unique htag hb' (Or.inr (Or.inr ⟨x, rfl⟩)) hstop he
    obtain rfl | rfl := hend
    · exact absurd hrest (by simp)
    · exact htag (List.cons.inj hrest).1
  cases k with
  | atom | spaces | specials => exact hb'
  | quotedString => exact hbody '"' (by decide) (Prod.mk.inj (Option.some.inj h)).2.symm hwf hb'
  | domainLiteral => exact hbody ']' (by decide) (Prod.mk.inj (Option.some.inj h)).2.symm hwf hb'
  | comment =>
    obtain ⟨d, hd⟩ := hb'
    obtain rfl : ')' = c := (Prod.mk.inj (Option.some.inj h)).2
    have hstop : CommentStops (d + 1) e := by
      obtain h | h := hend
      · exact Or.inl h
      · exact Or.inr (Or.inl h)
    obtain ⟨-, hrest⟩ := Comment.unique hwf hd (Or.inr (Or.inr ⟨rfl, x, rfl⟩)) hstop he
    obtain rfl | rfl := hend
    · exact absurd hrest (by simp)
    · exact absurd (List.cons.inj hrest).1 (by decide)

theorem Token.unique {t t' : Token} (h : t.Wf) (h' : t'.Wf)
    (hx : t.kind = .atom ∨ t.kind = .spaces → Other t.kind.elt x)
    (hy : t'.kind = .atom ∨ t'.kind = .spaces → Other t'.kind.elt y)
    (he : t.source ++ x = t'.source ++ y) : t = t' ∧ x = y := by
  obtain ⟨c, w, hw, hc⟩ := Token.source_head h
  obtain ⟨c', w', hw', hc'⟩ := Token.source_head h'
  have hkind : t.kind = t'.kind := by
    rw [hw, hw'] at he
    have hcc : c = c' := (List.cons.inj he).1
    refine Kind.elt_inj ?_
    rw [← hc, ← hc', hcc]
  obtain ⟨k, b⟩ := t
  obtain ⟨k', b'⟩ := t'
  obtain rfl : k = k' := hkind
  have hrun : k = .atom ∨ k = .spaces → k.marks = none → (⟨k, b⟩ : Token) = ⟨k, b'⟩ ∧ x = y := by
    intro hk hmarks
    rw [Token.source, Token.source, hmarks] at he
    obtain ⟨rfl, hxy⟩ := chars_unique (h.chars hk).2 (h'.chars hk).2 (hx hk) (hy hk) he
    exact ⟨rfl, hxy⟩
  have hbody : ∀ tag, tag ≠ '\\' → Body tag b → Body tag b' → b ++ tag :: x = b' ++ tag :: y →
      (⟨k, b⟩ : Token) = ⟨k, b'⟩ ∧ x = y := by
    intro tag htag hb hb' he
    obtain ⟨rfl, hrest⟩ := hb.unique htag hb' (Or.inr (Or.inr ⟨x, rfl⟩)) (Or.inr (Or.inr ⟨y, rfl⟩)) he
    exact ⟨rfl, (List.cons.inj hrest).2⟩
  cases k with
  | atom => exact hrun (Or.inl rfl) rfl
  | spaces => exact hrun (Or.inr rfl) rfl
  | specials =>
    obtain ⟨d, -, -, -, -, rfl⟩ := h
    obtain ⟨d', -, -, -, -, rfl⟩ := h'
    obtain ⟨rfl, hxy⟩ := List.cons.inj he
    exact ⟨rfl, hxy⟩
  | quotedString => exact hbody '"' (by decide) h h' (by simpa [Token.source, Kind.marks] using he)
  | domainLiteral => exact hbody ']' (by decide) h h' (by simpa [Token.source, Kind.marks] using he)
  | comment =>
    have he' : b ++ ')' :: x = b' ++ ')' :: y := by simpa [Token.source, Kind.marks] using he
    obtain ⟨rfl, hrest⟩ := Comment.unique h h' (Or.inr (Or.inr ⟨rfl, x, rfl⟩))
      (Or.inr (Or.inr ⟨rfl, y, rfl⟩)) he'
    exact ⟨rfl, (List.cons.inj hrest).2⟩

/-! ### Many -/

variable {t : Token} {ts ts' : List Token}

def Rest (x : List Char) : Prop :=
  x = [] ∨ ∃ (k : Kind) (o c : Char) (b : List Char),
    k.marks = some (o, c) ∧ k.Unclosed b ∧ x = o :: b

theorem Tokens.tail (h : Tokens (t :: ts)) : Tokens ts :=
  ⟨fun t' ht' => h.wf t' (List.mem_cons_of_mem _ ht'), h.apart.tail⟩

theorem source_cons (t : Token) (ts : List Token) : source (t :: ts) = t.source ++ source ts := rfl

theorem Tokens.other (h : Tokens (t :: ts)) (hk : t.kind = .atom ∨ t.kind = .spaces) (hx : Rest x) :
    Other t.kind.elt (source ts ++ x) := by
  intro c w hw helt
  cases ts with
  | nil =>
    obtain rfl | ⟨k, o, c', b, hmarks, -, rfl⟩ := hx
    · exact absurd hw (by simp [source])
    · obtain ⟨rfl, -⟩ := List.cons.inj hw
      rw [eltOf_mark hmarks] at helt
      rw [Kind.elt_inj helt] at hmarks
      have hnone : t.kind.marks = none := by
        obtain h | h := hk <;> rw [h] <;> rfl
      rw [hnone] at hmarks
      exact absurd hmarks (by simp)
  | cons t' ts =>
    obtain ⟨c', w', hw', hc'⟩ := Token.source_head (h.wf t' (by simp))
    rw [source_cons, hw'] at hw
    obtain ⟨rfl, -⟩ := List.cons.inj hw
    have hkind : t.kind = t'.kind := Kind.elt_inj (helt.symm.trans hc')
    obtain ⟨hatom, hspaces⟩ := (List.isChain_cons_cons.mp h.apart).1 hkind
    exact hk.elim hatom hspaces

theorem tokens_unique (h : Tokens ts) (h' : Tokens ts') (hx : Rest x)
    (he : source ts = source ts' ++ x) : ts = ts' ∧ x = [] := by
  induction ts generalizing ts' with
  | nil =>
    obtain ⟨hts', hx'⟩ := List.append_eq_nil_iff.mp he.symm
    cases ts' with
    | nil => exact ⟨rfl, hx'⟩
    | cons t' ts' =>
      obtain ⟨c, w, hw, -⟩ := Token.source_head (h'.wf t' (by simp))
      rw [source_cons, hw] at hts'
      exact absurd hts' (by simp)
  | cons t ts ih =>
    have hwf : t.Wf := h.wf t List.mem_cons_self
    cases ts' with
    | nil =>
      obtain ⟨c, w, hw, helt⟩ := Token.source_head hwf
      have hbegin : t.source ++ source ts = x := he
      obtain rfl | ⟨k, o, c', b, hmarks, hopen, rfl⟩ := hx
      · rw [hw] at hbegin
        exact absurd hbegin (by simp)
      · have hoc : c = o := by
          rw [hw] at hbegin
          exact (List.cons.inj hbegin).1
        have hkind : t.kind = k := Kind.elt_inj (by rw [← helt, hoc, eltOf_mark hmarks])
        obtain ⟨k', v⟩ := t
        obtain rfl : k' = k := hkind
        rw [Token.source, hmarks] at hbegin
        have hb : v ++ c' :: source ts = b := by simpa using hbegin
        exact absurd (hb ▸ hopen) (unclosed_append hwf hmarks)
    | cons t' ts' =>
      have hne : Rest [] := Or.inl rfl
      have hsplit : t.source ++ source ts = t'.source ++ (source ts' ++ x) := by
        rw [← List.append_assoc]
        exact he
      have hother : t.kind = .atom ∨ t.kind = .spaces → Other t.kind.elt (source ts) := by
        intro hk
        have hrest := h.other hk hne
        rw [List.append_nil] at hrest
        exact hrest
      obtain ⟨rfl, hrest⟩ := Token.unique hwf (h'.wf t' List.mem_cons_self) hother
        (fun hk => h'.other hk hx) hsplit
      obtain ⟨rfl, hx'⟩ := ih h.tail h'.tail hrest
      exact ⟨rfl, hx'⟩

end PkgsrcPatches.Flim
