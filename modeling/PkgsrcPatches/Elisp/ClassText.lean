import PkgsrcPatches.Elisp.MatchData
import PkgsrcPatches.Elisp.Spelling
import PkgsrcPatches.Elisp.Tokens

/-! For which class brackets `e20-translate` finds the class and `e20-bracket` returns a text
that stands for the same characters. -/
namespace PkgsrcPatches.Elisp

/-- No `[` stands before a colon and a class name that `:]` ends. -/
def ItemsUnnamed : List Item → Prop
  | [] => True
  | .char c :: rest =>
    (c = '[' → ∀ p ∈ classAt (itemsText rest ++ [']']), p.1 ∉ classNames) ∧ ItemsUnnamed rest
  | .range _ _ :: rest => ItemsUnnamed rest
  | .cls _ :: rest => ItemsUnnamed rest

instance ItemsUnnamed.decidable : (items : List Item) → Decidable (ItemsUnnamed items)
  | [] => isTrue trivial
  | .char _ :: rest =>
    have := ItemsUnnamed.decidable rest
    inferInstanceAs (Decidable ((_ → ∀ p ∈ _, ¬_) ∧ _))
  | .range _ _ :: rest => ItemsUnnamed.decidable rest
  | .cls _ :: rest => ItemsUnnamed.decidable rest

theorem itemsWf_unnamed {first : Bool} {items : List Item} (h : ItemsWf .emacs21 first items) :
    ItemsUnnamed items := by
  induction items generalizing first with
  | nil => trivial
  | cons i items ih =>
    cases i with
    | char c =>
      refine ⟨?_, ih h.2.2.2⟩
      intro hopen p hp
      have hnone := h.2.2.1
      rw [Dialect.classAfter, if_pos ⟨rfl, hopen⟩, hp] at hnone
      cases hnone
    | range a b => exact ih h.2.2
    | cls name => exact ih h.2.2

namespace Bracket

/-- A bracket expression with a class in it, and no class that the alist does not have. -/
structure OfClasses (b : Bracket) : Prop where
  wf : b.Wf .emacs21
  known : ∀ name, .cls name ∈ b.items → e20Class name ≠ none
  hasClass : ∃ name, .cls name ∈ b.items

/-! ### The test for a class -/

theorem namesClass_known {name : List Char} (h : e20Class name ≠ none) (fold : Bool) :
    namesClass fold (classKey name) = true := by
  have hall : ∀ e ∈ e20ClassAlist, ∀ fold, namesClass fold e.1 = true := by decide
  obtain ⟨v, hv⟩ := Option.ne_none_iff_exists'.mp h
  obtain ⟨l₁, l₂, hsplit, -⟩ := List.lookup_eq_some_iff.mp hv
  exact hall (classKey name, v) (hsplit ▸ List.mem_append_right _ List.mem_cons_self) fold

theorem wf_className {first : Bool} {items : List Item} (h : ItemsWf .emacs21 first items)
    {name : List Char} (hmem : .cls name ∈ items) : name ∈ classNames := by
  induction items generalizing first with
  | nil => cases hmem
  | cons i items ih =>
    cases i with
    | char c => exact ih h.2.2.2 ((List.mem_cons.mp hmem).resolve_left (by simp))
    | range a b => exact ih h.2.2 ((List.mem_cons.mp hmem).resolve_left (by simp))
    | cls key =>
      cases List.mem_cons.mp hmem with
      | inl hkey => exact (Item.cls.inj hkey) ▸ h.2.1
      | inr hmem => exact ih h.2.2 hmem

theorem split_class {items : List Item} (h : ∃ name, .cls name ∈ items) :
    ∃ pre name post, items = pre ++ .cls name :: post ∧ ∀ i ∈ pre, ¬i.IsClass := by
  induction items with
  | nil =>
    obtain ⟨name, h⟩ := h
    cases h
  | cons i items ih =>
    cases i with
    | cls name => exact ⟨[], name, items, rfl, fun i hi => (by cases hi)⟩
    | char c =>
      obtain ⟨name, hname⟩ := h
      obtain ⟨pre, name, post, hsplit, hpre⟩ := ih ⟨name, (List.mem_cons.mp hname).resolve_left (by simp)⟩
      refine ⟨.char c :: pre, name, post, congrArg _ hsplit, fun i hi => ?_⟩
      cases List.mem_cons.mp hi with
      | inl hi => exact hi ▸ id
      | inr hi => exact hpre i hi
    | range a b =>
      obtain ⟨name, hname⟩ := h
      obtain ⟨pre, name, post, hsplit, hpre⟩ := ih ⟨name, (List.mem_cons.mp hname).resolve_left (by simp)⟩
      refine ⟨.range a b :: pre, name, post, congrArg _ hsplit, fun i hi => ?_⟩
      cases List.mem_cons.mp hi with
      | inl hi => exact hi ▸ id
      | inr hi => exact hpre i hi

theorem before_class {first : Bool} {pre : List Item} {name : List Char} {post : List Item}
    (h : ItemsWf .emacs21 first (pre ++ .cls name :: post)) (hpre : ∀ i ∈ pre, ¬i.IsClass) :
    (first = false → ∀ c ∈ itemsText pre, c ≠ ']') ∧ ∀ c ∈ (itemsText pre).tail, c ≠ ']' := by
  induction pre generalizing first with
  | nil => exact ⟨fun _ c hc => (by cases hc), fun c hc => (by cases hc)⟩
  | cons i pre ih =>
    have hpre' : ∀ i ∈ pre, ¬i.IsClass := fun j hj => hpre j (List.mem_cons_of_mem _ hj)
    cases i with
    | char c =>
      obtain ⟨hclose, -, -, hrest⟩ := h
      have hlater := (ih hrest hpre').1 rfl
      refine ⟨fun hfirst a ha => ?_, hlater⟩
      cases List.mem_cons.mp ha with
      | inl ha => exact fun h' => by simp [hclose (ha ▸ h')] at hfirst
      | inr ha => exact hlater a ha
    | range a b =>
      obtain ⟨hclose, hb, hrest⟩ := h
      have hlater := (ih hrest hpre').1 rfl
      have htail : ∀ c ∈ (itemsText (.range a b :: pre)).tail, c ≠ ']' := by
        intro c hc
        simp only [itemsText_cons, Item.text, List.cons_append, List.nil_append, List.tail_cons,
          List.mem_cons] at hc
        obtain rfl | rfl | hc := hc
        · decide
        · exact hb
        · exact hlater c hc
      refine ⟨fun hfirst c hc => ?_, htail⟩
      cases List.mem_cons.mp hc with
      | inl hc => exact fun h' => by simp [hclose (hc ▸ h')] at hfirst
      | inr hc => exact htail c hc
    | cls name => exact (hpre _ List.mem_cons_self trivial).elim

theorem classPath_until {fold : Bool} (c : Char) {v : List Char} (hv : ∀ a ∈ v, a ≠ ']')
    (y : List Char) : classPath fold ('[' :: c :: (v ++ ']' :: y)) =
      some (namesClass fold ('[' :: c :: (v ++ [']']))) := by
  have hmem : ']' ∈ v ++ ']' :: y := List.mem_append_right _ List.mem_cons_self
  have htake := takeWhile_body hv y
  simp only [classPath, if_pos hmem, ne_eq, decide_not, htake]

theorem classPath_hidden (fold : Bool) (y : List Char) :
    classPath fold ('[' :: '^' :: ']' :: y) = some false := by
  have hnone : ∀ fold, namesClass fold ('[' :: '^' :: ([] ++ [']'])) = false := by decide
  have htest : classPath fold ('[' :: '^' :: ([] ++ ']' :: y)) = _ :=
    classPath_until '^' (fun a ha => by cases ha) y
  rw [hnone] at htest
  exact htest

theorem classKey_open {name : List Char} (hname : name ∈ classNames) :
    ∀ a ∈ '[' :: ':' :: (name ++ [':']), a ≠ ']' := by
  intro a ha
  simp only [List.mem_cons, List.mem_append, List.not_mem_nil, or_false] at ha
  obtain rfl | rfl | ha | rfl := ha
  · decide
  · decide
  · have h := List.all_eq_true.mp (List.all_eq_true.mp classNames_inner name hname) a ha
    simp only [Bool.and_eq_true, decide_eq_true_eq] at h
    exact h.2
  · decide

theorem open_to_class {b : Bracket} {pre : List Item} {name : List Char} {post : List Item}
    (hwf : b.Wf .emacs21) (hitems : b.items = pre ++ .cls name :: post)
    (hpre : ∀ i ∈ pre, ¬i.IsClass) (hname : name ∈ classNames)
    (hopen : b.neg = true → (itemsText b.items).head? ≠ some ']') :
    ∃ c v, (if b.neg then ['^'] else []) ++ itemsText pre ++ '[' :: ':' :: (name ++ [':']) = c :: v ∧
      ∀ a ∈ v, a ≠ ']' := by
  have hkey := classKey_open hname
  have htail := (before_class (hitems ▸ hwf.1) hpre).2
  have hrest : ∀ {u : List Char}, (∀ a ∈ u, a ≠ ']') →
      ∀ a ∈ u ++ '[' :: ':' :: (name ++ [':']), a ≠ ']' := by
    intro u hu a ha
    exact (List.mem_append.mp ha).elim (hu a) (hkey a)
  cases hneg : b.neg with
  | true =>
    refine ⟨'^', _, rfl, hrest ?_⟩
    have hhead := hopen hneg
    cases hpretext : itemsText pre with
    | nil => exact fun a ha => by cases ha
    | cons d t =>
      have htext : itemsText b.items = d :: (t ++ itemsText (.cls name :: post)) := by
        rw [hitems, itemsText, List.flatMap_append, ← itemsText, ← itemsText, hpretext]
        rfl
      rw [hpretext] at htail
      intro a ha
      cases List.mem_cons.mp ha with
      | inl ha => exact fun h => hhead (by rw [htext, ← h, ha]; rfl)
      | inr ha => exact htail a ha
  | false =>
    cases hpretext : itemsText pre with
    | nil => exact ⟨'[', _, rfl, fun a ha => hkey a (List.mem_cons_of_mem _ ha)⟩
    | cons d t =>
      rw [hpretext] at htail
      exact ⟨d, _, rfl, hrest htail⟩

theorem OfClasses.classPath_iff {b : Bracket} (hb : b.OfClasses) (fold : Bool) (x : List Char) :
    classPath fold (b.text ++ x) = some true ↔
      (b.neg = true → (itemsText b.items).head? ≠ some ']') := by
  rw [classPath_append fold hb.wf]
  constructor
  · intro h hneg hhead
    obtain ⟨t, ht⟩ := List.head?_eq_some_iff.mp hhead
    have htext : b.text = '[' :: '^' :: ']' :: (t ++ [']']) := by simp [text, hneg, ht]
    rw [htext, classPath_hidden] at h
    cases h
  · intro hopen
    obtain ⟨pre, name, post, hitems, hpre⟩ := split_class hb.hasClass
    have hmem : Item.cls name ∈ b.items := hitems ▸ List.mem_append_right _ List.mem_cons_self
    obtain ⟨c, v, hcv, hv⟩ := open_to_class hb.wf hitems hpre (wf_className hb.wf.1 hmem) hopen
    have hfound := namesClass_known (hb.known name hmem) fold
    have hall : b.text = '[' :: c :: (v ++ ']' :: (itemsText post ++ [']'])) := by
      have hcons : '[' :: c :: (v ++ ']' :: (itemsText post ++ [']'])) =
          '[' :: ((c :: v) ++ ']' :: (itemsText post ++ [']'])) := rfl
      rw [hcons, ← hcv, text, hitems]
      simp [itemsText, Item.text]
    have hclosed : '[' :: c :: (v ++ [']']) =
        '[' :: ((if b.neg then ['^'] else []) ++ itemsText pre) ++ classKey name := by
      have hcons : '[' :: c :: (v ++ [']']) = '[' :: ((c :: v) ++ [']']) := rfl
      rw [hcons, ← hcv, classKey]
      simp
    rw [hall, classPath_until c hv, hclosed, namesClass_append_left _ hfound]

/-! ### A `[` before a colon -/

theorem throughClass_append {t key rest : List Char} (h : throughClass t = some (key, rest)) :
    t = key ++ rest := by
  induction t generalizing key with
  | nil => cases h
  | cons a t ih =>
    cases t with
    | nil => cases h
    | cons b t =>
      unfold throughClass at h
      split at h
      · rename_i hab
        obtain ⟨rfl, rfl⟩ := Prod.mk.inj (Option.some.inj h)
        rw [hab.1, hab.2]
        rfl
      · obtain ⟨⟨key', rest'⟩, h', hp⟩ := Option.map_eq_some_iff.mp h
        obtain ⟨rfl, rfl⟩ := Prod.mk.inj hp
        rw [ih h']
        rfl

theorem lookup_classKey {key : List Char} {v : List Char × Bool}
    (h : e20ClassAlist.lookup key = some v) : ∃ name ∈ classNames, key = classKey name := by
  have hall : ∀ e ∈ e20ClassAlist, ∃ name ∈ classNames, e.1 = classKey name := by decide
  obtain ⟨l₁, l₂, hsplit, -⟩ := List.lookup_eq_some_iff.mp h
  exact hall (key, v) (hsplit ▸ List.mem_append_right _ List.mem_cons_self)

theorem itemsUnnamed_tail {i : Item} {items : List Item} (h : ItemsUnnamed (i :: items)) :
    ItemsUnnamed items := by
  cases i with
  | char c => exact h.2
  | range a b => exact h
  | cls name => exact h

theorem e20BracketLoop_colon {d : Dialect} {first : Bool} {c : Char} {items : List Item}
    (hwf : ItemsWf d first (.char c :: items)) (hnamed : ItemsUnnamed (.char c :: items))
    (hopen : c = '[') (hcolon : (itemsText items).head? = some ':') (n : Nat) (m : Marks)
    (x : List Char) : e20BracketLoop (n + 1) first m (itemsText (.char c :: items) ++ ']' :: x) =
      none := by
  have hnot : ¬(c = ']' ∧ first = false) := fun h => by simp [hwf.1 h.1] at h
  have hhead : (itemsText items ++ ']' :: x).head? = some ':' := by
    rw [List.head?_append, hcolon]
    rfl
  have hlater := classAt_append_name (itemsText items) x
  simp only [itemsText_cons, Item.text, List.cons_append, List.nil_append, e20BracketLoop,
    if_neg hnot, if_pos (And.intro hopen hhead)]
  cases hkey : throughClass (c :: (itemsText items ++ ']' :: x)) with
  | none => rfl
  | some p =>
    obtain ⟨key, rest⟩ := p
    cases hlookup : e20ClassAlist.lookup key with
    | none => simp only [hlookup]
    | some v =>
      obtain ⟨name, hname, rfl⟩ := lookup_classKey hlookup
      have hafter : itemsText items ++ ']' :: x = ':' :: (name ++ ':' :: ']' :: rest) := by
        have htail := (List.cons.inj (throughClass_append hkey)).2
        simpa using htail
      rw [hafter, classAt_name hname] at hlater
      obtain ⟨p, hp, hfst⟩ := Option.map_eq_some_iff.mp hlater.symm
      have hno := hnamed.1 hopen p hp
      rw [hfst] at hno
      exact (hno hname).elim

theorem e20BracketLoop_class {d : Dialect} {first : Bool} {name : List Char} {items : List Item}
    (hwf : ItemsWf d first (.cls name :: items)) (hno : e20Class name = none) (n : Nat) (m : Marks)
    (x : List Char) : e20BracketLoop (n + 1) first m (itemsText (.cls name :: items) ++ ']' :: x) =
      none := by
  have hopen : ¬('[' = ']' ∧ first = false) := by simp
  have hlookup : e20ClassAlist.lookup (classKey name) = none := hno
  simp only [itemsText_cons, Item.text, List.cons_append, List.nil_append, List.append_assoc,
    e20BracketLoop, if_neg hopen, List.head?_cons, and_self, if_true, throughClass_key hwf.2.1,
    hlookup]

theorem e20BracketLoop_unknown (items : List Item) (n : Nat) (first : Bool) (m : Marks)
    (x : List Char) {d : Dialect} (hwf : ItemsWf d first items) (hnamed : ItemsUnnamed items)
    (hno : ¬ItemsKnown items) (hn : items.length < n) :
    e20BracketLoop n first m (itemsText items ++ ']' :: x) = none := by
  induction items generalizing n first m with
  | nil => exact (hno trivial).elim
  | cons i items ih =>
    obtain ⟨n, rfl⟩ := Nat.exists_eq_add_of_lt hn
    have hn' : items.length < items.length + 1 + n := by omega
    rw [itemsKnown_cons, not_and_or] at hno
    rw [List.length_cons]
    by_cases hi : i.Known (itemsText items)
    · rw [e20BracketLoop_member hwf hi]
      exact ih _ false _ (itemsWf_tail hwf) (itemsUnnamed_tail hnamed)
        (hno.resolve_left (not_not_intro hi)) hn'
    · cases i with
      | char c =>
        simp only [Item.Known, not_forall, not_not] at hi
        obtain ⟨hopen, hcolon⟩ := hi
        exact e20BracketLoop_colon hwf hnamed hopen hcolon _ m x
      | range a b => exact (hi trivial).elim
      | cls name => exact e20BracketLoop_class hwf (not_not.mp hi) _ m x

theorem e20Bracket_unknown {d : Dialect} {b : Bracket} (hwf : b.Wf d) (hnamed : ItemsUnnamed b.items)
    (hno : ¬ItemsKnown b.items) (x : List Char) : e20Bracket (b.text ++ x) = none := by
  have hlen := length_le_itemsText b.items
  rw [e20Bracket_loop hwf, e20BracketLoop_unknown b.items _ true Marks.none x hwf.1 hnamed hno
    (by simp; omega)]
  rfl

theorem OfClasses.e20Bracket_unknown {b : Bracket} (hb : b.OfClasses) (hno : ¬ItemsKnown b.items)
    (x : List Char) : e20Bracket (b.text ++ x) = none :=
  Bracket.e20Bracket_unknown hb.wf (itemsWf_unnamed hb.wf.1) hno x

end Bracket
end PkgsrcPatches.Elisp
