import PkgsrcPatches.Elisp.Regexp

/-! The engine's reading of a regexp, and that it reads a well-formed tree back
from its text: no text has two readings. -/
namespace PkgsrcPatches.Elisp

def readDigits : List Char → List (Fin 10) × List Char
  | [] => ([], [])
  | c :: t =>
    if h : 48 ≤ c.toNat ∧ c.toNat - 48 < 10 then
      (⟨c.toNat - 48, h.2⟩ :: (readDigits t).1, (readDigits t).2)
    else ([], c :: t)

def readNumeral (t : List Char) : Option (Numeral × List Char) :=
  if h : (readDigits t).1 ≠ [] then some (⟨(readDigits t).1, h⟩, (readDigits t).2) else none

def afterInterval : List Char → Option (List Char)
  | a :: b :: t => if a = '\\' ∧ b = '}' then some t else none
  | _ => none

def readInterval (t : List Char) : Option (Interval × List Char) :=
  match readNumeral t with
  | none => none
  | some (n, t) =>
    match t with
    | [] => none
    | c :: t' =>
      if c = ',' then
        match readNumeral t' with
        | none => (afterInterval t').map (Prod.mk (.atLeast n))
        | some (m, t'') =>
          if h : n.value ≤ m.value then (afterInterval t'').map (Prod.mk (.between n m h)) else none
      else (afterInterval t).map (Prod.mk (.exactly n))

def readOps : List Char → List PostOp × List Char
  | [] => ([], [])
  | c :: t => match postOp? c with
    | some o => (o :: (readOps t).1, (readOps t).2)
    | none => ([], c :: t)

def Dialect.opensInterval (d : Dialect) : List Char → Bool
  | a :: b :: _ => d = .emacs21 && a = '\\' && b = '{'
  | _ => false

def readSuffix (d : Dialect) (t : List Char) : Option (Suffix × List Char) :=
  if d.opensInterval t then (readInterval (t.drop 2)).map (Prod.map .interval id)
  else some (.ops (readOps t).1, (readOps t).2)

def readEscape (d : Dialect) : List Char → Option (Leaf × List Char)
  | [] => none
  | e :: t =>
    if e ∈ ['s', 'S', 'c', 'C'] then
      match t with
      | [] => none
      | x :: t' => some (.coded e x, t')
    else if e ∈ d.reserved then none
    else some (.escape e, t)

def readLeaf (d : Dialect) : List Char → Option (Leaf × List Char)
  | [] => none
  | c :: t =>
    if c = '\\' then readEscape d t
    else if c = '[' then (readBracket d t).map (Prod.map .bracket id)
    else some (.char c, t)

inductive Head where
  | stop
  | bar (t : List Char)
  | opener (t : List Char)
  | other

def head : List Char → Head
  | [] => .stop
  | [_] => .other
  | a :: b :: t =>
    if a = '\\' then
      if b = ')' then .stop else if b = '|' then .bar t else if b = '(' then .opener t
      else .other
    else .other

def readKind (d : Dialect) (t : List Char) : Option (Kind × List Char) :=
  if d = .emacs21 ∧ t.head? = some '?' then
    if t.tail.head? = some ':' then some (.shy, t.drop 2) else none
  else some (.capturing, t)

def afterGroup : List Char → Option (List Char)
  | a :: b :: t => if a = '\\' ∧ b = ')' then some t else none
  | _ => none

def readBody (d : Dialect) : Nat → Ctx → List Char → Option (Regexp × List Char)
  | 0, _, _ => none
  | n+1, ctx, s =>
    match head s with
    | .stop => some (.nil, s)
    | .bar t => (readBody d n .first t).map (Prod.map .bar id)
    | .opener t => do
      let (k, t) ← readKind d t
      let (body, t) ← readBody d n .first t
      let t ← afterGroup t
      let (sfx, t) ← readSuffix d t
      (readBody d n .inner t).map (Prod.map (.group k body sfx) id)
    | .other => do
      let (l, t) ← readLeaf d s
      if ctx.anchors l then (readBody d n .anchored t).map (Prod.map (.leaf l (.ops [])) id)
      else if l.Wf d ctx then
        let (sfx, t) ← readSuffix d t
        (readBody d n .inner t).map (Prod.map (.leaf l sfx) id)
      else none

/-- The engine's reading of a regexp; `none` where it refuses the text. -/
def Dialect.read (d : Dialect) (t : List Char) : Option Regexp :=
  match readBody d (t.length + 1) .first t with
  | some (r, []) => some r
  | _ => none

def Dialect.Continues (d : Dialect) (y : List Char) : Prop :=
  (∀ c, y.head? = some c → postOp? c = none) ∧ d.opensInterval y = false

def Closes (x : List Char) : Prop := x = [] ∨ ∃ y, x = '\\' :: ')' :: y

theorem readOps_text (l : List PostOp) {y : List Char}
    (hy : ∀ c, y.head? = some c → postOp? c = none) :
    readOps (l.map PostOp.char ++ y) = (l, y) := by
  induction l with
  | nil =>
    cases y with
    | nil => rfl
    | cons c y => simp [readOps, hy c rfl]
  | cons o l ih => simp [readOps, ih]

theorem digitChar_toNat : ∀ d : Fin 10, (digitChar d).toNat = 48 + d := by decide

theorem readDigits_text (ds : List (Fin 10)) {y : List Char} (hy : readDigits y = ([], y)) :
    readDigits (ds.map digitChar ++ y) = (ds, y) := by
  induction ds with
  | nil => exact hy
  | cons d ds ih =>
    have hd : 48 ≤ (digitChar d).toNat ∧ (digitChar d).toNat - 48 < 10 := by
      rw [digitChar_toNat]
      omega
    have hval : (⟨(digitChar d).toNat - 48, hd.2⟩ : Fin 10) = d := by
      ext
      simp only [digitChar_toNat]
      omega
    simp only [List.map_cons, List.cons_append, readDigits, dif_pos hd, ih, hval]

theorem readNumeral_text (n : Numeral) {c : Char} (y : List Char)
    (hc : ¬(48 ≤ c.toNat ∧ c.toNat - 48 < 10)) :
    readNumeral (n.text ++ c :: y) = some (n, c :: y) := by
  have hread := readDigits_text n.digits (y := c :: y) (by simp only [readDigits, dif_neg hc])
  have hne : (readDigits (n.text ++ c :: y)).1 ≠ [] := by
    rw [Numeral.text, hread]
    exact n.nonempty
  simp only [readNumeral, dif_pos hne]
  simp only [Numeral.text, hread]

theorem readInterval_text (i : Interval) (y : List Char) :
    readInterval (i.spec ++ '\\' :: '}' :: y) = some (i, y) := by
  cases i with
  | exactly n =>
    simp only [Interval.spec, readInterval, readNumeral_text n (c := '\\') _ (by decide)]
    rfl
  | atLeast n =>
    have hnone : readNumeral ('\\' :: '}' :: y) = none := by
      simp [readNumeral, readDigits]
    simp only [Interval.spec, List.append_assoc, List.cons_append, List.nil_append, readInterval,
      readNumeral_text n (c := ',') _ (by decide), if_true, hnone]
    rfl
  | between n m h =>
    simp only [Interval.spec, List.append_assoc, List.cons_append, readInterval,
      readNumeral_text n (c := ',') _ (by decide), if_true,
      readNumeral_text m (c := '\\') _ (by decide), dif_pos h]
    rfl

theorem readSuffix_text (d : Dialect) (s : Suffix) {y : List Char} (hwf : s.Wf d)
    (hy : d.Continues y) : readSuffix d (s.text ++ y) = some (s, y) := by
  cases s with
  | ops l =>
    have hopen : d.opensInterval (l.map PostOp.char ++ y) = false := by
      cases l with
      | nil => exact hy.2
      | cons o l =>
        cases h : l.map PostOp.char ++ y <;> cases o <;> simp [h, Dialect.opensInterval, PostOp.char]
    simp only [readSuffix, Suffix.text, hopen, readOps_text l hy.1]
    rfl
  | interval i =>
    have hopen : d.opensInterval ('\\' :: '{' :: (i.spec ++ '\\' :: '}' :: y)) = true := by
      have hd : d = .emacs21 := hwf
      simp [Dialect.opensInterval, hd]
    simp only [Suffix.text, List.cons_append, List.append_assoc, List.nil_append, readSuffix, hopen,
      if_true, List.drop_succ_cons, List.drop_zero, readInterval_text]
    rfl

theorem readLeaf_text (d : Dialect) (ctx : Ctx) (l : Leaf) (y : List Char) (hwf : l.Wf d ctx) :
    readLeaf d (l.text ++ y) = some (l, y) := by
  cases l with
  | char c =>
    obtain ⟨hback, hopen, _⟩ := hwf
    simp [readLeaf, Leaf.text, hback, hopen]
  | escape c =>
    have hkind : c ∉ ['s', 'S', 'c', 'C'] := by
      intro h
      apply hwf
      cases d <;> simp only [Dialect.reserved, List.mem_cons] at h ⊢ <;> tauto
    have hres : c ∉ d.reserved := hwf
    simp only [readLeaf, Leaf.text, List.cons_append, List.nil_append, if_true, readEscape,
      if_neg hkind, if_neg hres]
  | coded k c =>
    have hkind : k ∈ ['s', 'S', 'c', 'C'] := hwf
    simp only [readLeaf, Leaf.text, List.cons_append, List.nil_append, if_true, readEscape,
      if_pos hkind]
  | bracket b =>
    have hread := readBracket_text d b y hwf
    simp only [Leaf.text, Bracket.text, List.tail_cons, List.cons_append] at hread ⊢
    simp only [readLeaf]
    rw [if_neg (by decide), if_pos trivial, hread]
    rfl

theorem head_leaf (d : Dialect) (ctx : Ctx) (l : Leaf) (y : List Char) (hwf : l.Wf d ctx) :
    head (l.text ++ y) = .other := by
  cases l with
  | char c =>
    cases y with
    | nil => rfl
    | cons b y => simp [head, Leaf.text, hwf.1]
  | escape c =>
    have hres : c ∉ d.reserved := hwf
    cases d <;> simp [Dialect.reserved] at hres <;> simp [head, Leaf.text, hres]
  | coded k c =>
    have hkind : k ∈ ['s', 'S', 'c', 'C'] := hwf
    simp only [List.mem_cons, List.not_mem_nil, or_false] at hkind
    obtain rfl | rfl | rfl | rfl := hkind <;> rfl
  | bracket b =>
    cases h : ((if b.neg then ['^'] else []) ++ itemsText b.items ++ [']']) ++ y with
    | nil => simp at h
    | cons a z =>
      simp only [Leaf.text, Bracket.text, List.cons_append, h]
      rfl

theorem opensInterval_cons (d : Dialect) {c : Char} (t : List Char) (hc : c ≠ '\\') :
    d.opensInterval (c :: t) = false := by
  cases t with
  | nil => rfl
  | cons b t => simp [Dialect.opensInterval, hc]

theorem continues_cons {d : Dialect} {c : Char} {y : List Char} (hop : postOp? c = none)
    (hopen : d.opensInterval (c :: y) = false) : d.Continues (c :: y) := by
  refine ⟨?_, hopen⟩
  intro c' h
  exact Option.some.inj h ▸ hop

theorem leaf_continues (d : Dialect) {l : Leaf} (hl : l.Wf d .inner) (y : List Char) :
    d.Continues (l.text ++ y) := by
  cases l with
  | char c =>
    obtain ⟨hback, _, hop⟩ := hl
    exact continues_cons (hop rfl) (opensInterval_cons d _ hback)
  | escape c =>
    have hres : c ∉ d.reserved := hl
    refine continues_cons rfl ?_
    cases d with
    | emacs20 => rfl
    | emacs21 =>
      simp only [Dialect.reserved, List.mem_cons, not_or] at hres
      simp [Dialect.opensInterval, hres.1]
  | coded k c =>
    have hkind : k ∈ ['s', 'S', 'c', 'C'] := hl
    refine continues_cons rfl ?_
    simp only [List.mem_cons, List.not_mem_nil, or_false] at hkind
    obtain rfl | rfl | rfl | rfl := hkind <;> simp [Dialect.opensInterval]
  | bracket b => exact continues_cons rfl (opensInterval_cons d _ (by decide))

theorem continues_text (d : Dialect) (r : Regexp) {x : List Char} (hwf : r.Wf d .inner)
    (hx : Closes x) : d.Continues (r.text ++ x) := by
  cases r with
  | nil =>
    obtain rfl | ⟨y, rfl⟩ := hx
    · refine ⟨?_, rfl⟩
      intro c h
      cases h
    · exact continues_cons rfl (by simp [Dialect.opensInterval])
  | leaf l s rest =>
    rw [Regexp.text, List.append_assoc]
    exact leaf_continues d hwf.1 _
  | group k body s rest =>
    cases k with
    | capturing => exact continues_cons rfl (by simp [Dialect.opensInterval])
    | shy => exact continues_cons rfl (by simp [Dialect.opensInterval])
  | bar rest => exact continues_cons rfl (by simp [Dialect.opensInterval])

theorem readKind_text (d : Dialect) (k : Kind) {body : List Char} (y : List Char)
    (hwf : k.Wf d body) :
    readKind d ((k.text ++ (body ++ '\\' :: y)).drop 2) = some (k, body ++ '\\' :: y) := by
  cases k with
  | capturing =>
    have hno : ¬(d = .emacs21 ∧ (body ++ '\\' :: y).head? = some '?') := by
      intro h
      have hbody := hwf h.1
      cases body with
      | nil => simp at h
      | cons c t => exact hbody (by simpa using h.2)
    simp only [Kind.text, List.cons_append, List.nil_append, List.drop_succ_cons, List.drop_zero,
      readKind, if_neg hno]
  | shy =>
    have hd : d = .emacs21 := hwf
    simp [Kind.text, readKind, hd]

/-- One induction over the tree, with the fuel and the text after the body left open. -/
theorem readBody_text (d : Dialect) (r : Regexp) (n : Nat) (ctx : Ctx) (x : List Char)
    (hwf : r.Wf d ctx) (hx : Closes x) (hn : r.size < n) :
    readBody d n ctx (r.text ++ x) = some (r, x) := by
  induction r generalizing n ctx x with
  | nil =>
    obtain ⟨n, rfl⟩ := Nat.exists_eq_add_of_lt hn
    have hstop : head x = .stop := by
      obtain rfl | ⟨y, rfl⟩ := hx
      · rfl
      · rfl
    simp only [Regexp.text, List.nil_append, readBody, hstop]
  | leaf l s rest ih =>
    obtain ⟨hl, hs, hanchor, hrest⟩ := hwf
    obtain ⟨m, rfl⟩ := Nat.exists_eq_add_of_lt hn
    have hm : rest.size < rest.size + 1 + m := by omega
    simp only [Regexp.text, List.append_assoc, Regexp.size, readBody, head_leaf d ctx l _ hl,
      readLeaf_text d ctx l _ hl, Option.bind_eq_bind, Option.bind_some]
    by_cases ha : ctx.anchors l
    · rw [if_pos ha, hanchor ha]
      rw [Ctx.next, if_pos ha] at hrest
      simp only [Suffix.text, List.map_nil, List.nil_append, ih _ .anchored x hrest hx hm]
      rfl
    · rw [Ctx.next, if_neg ha] at hrest
      rw [if_neg ha, if_pos hl, readSuffix_text d s hs (continues_text d rest hrest hx)]
      simp only [Option.bind_some, ih _ .inner x hrest hx hm]
      rfl
  | group k body s rest ihbody ih =>
    obtain ⟨hk, hbody, hs, hrest⟩ := hwf
    obtain ⟨m, rfl⟩ := Nat.exists_eq_add_of_lt hn
    have hm : rest.size < body.size + rest.size + 1 + m := by omega
    have hm' : body.size < body.size + rest.size + 1 + m := by omega
    have hopen : ∀ y, head (k.text ++ y) = .opener ((k.text ++ y).drop 2) := by
      intro y
      cases k <;> simp [Kind.text, head]
    have hclose : Closes ('\\' :: ')' :: (s.text ++ (rest.text ++ x))) := Or.inr ⟨_, rfl⟩
    simp only [Regexp.text, List.append_assoc, List.cons_append, Regexp.size, readBody, hopen,
      readKind_text d k _ hk, Option.bind_eq_bind, Option.bind_some,
      ihbody _ .first _ hbody hclose hm', afterGroup, and_self, if_true,
      readSuffix_text d s hs (continues_text d rest hrest hx), ih _ .inner x hrest hx hm]
    rfl
  | bar rest ih =>
    obtain ⟨m, rfl⟩ := Nat.exists_eq_add_of_lt hn
    have hm : rest.size < rest.size + 1 + m := by omega
    have hbar : head ('\\' :: '|' :: (rest.text ++ x)) = .bar (rest.text ++ x) := by simp [head]
    simp only [Regexp.text, List.cons_append, Regexp.size, readBody, hbar,
      ih _ .first x hwf hx hm]
    rfl

theorem size_le_text (d : Dialect) (ctx : Ctx) (r : Regexp) (hwf : r.Wf d ctx) :
    r.size ≤ r.text.length := by
  induction r generalizing ctx with
  | nil => exact Nat.le_refl _
  | leaf l s rest ih =>
    have hrest := ih _ hwf.2.2.2
    have hl : 0 < l.text.length := by cases l <;> simp [Leaf.text, Bracket.text]
    simp only [Regexp.size, Regexp.text, List.length_append]
    omega
  | group k body s rest ihbody ih =>
    have hrest := ih _ hwf.2.2.2
    have hbody := ihbody _ hwf.2.1
    simp only [Regexp.size, Regexp.text, List.length_append, List.length_cons]
    omega
  | bar rest ih =>
    have hrest := ih _ hwf
    simp only [Regexp.size, Regexp.text, List.length_cons]
    omega

theorem read_text (d : Dialect) (r : Regexp) (hwf : r.Wf d .first) : d.read r.text = some r := by
  have hn : r.size < r.text.length + 1 := Nat.lt_succ_of_le (size_le_text d _ r hwf)
  have hread := readBody_text d r _ .first [] hwf (Or.inl rfl) hn
  rw [List.append_nil] at hread
  simp only [Dialect.read, hread]

end PkgsrcPatches.Elisp
