import Mathlib.Logic.Function.Iterate
import PkgsrcPatches.Elisp.ClassSet
import PkgsrcPatches.Elisp.Translate

/-! What the translation is meant to do, on trees: shy groups become numbered
groups, an interval becomes copies of its whole atom, a class bracket becomes its
alternatives. -/
namespace PkgsrcPatches.Elisp
open Lib.Kleene

/-- The code takes the bracket expression for one that holds a class. -/
def Bracket.OnClassPath (fold : Bool) (b : Bracket) : Prop := classPath fold b.text = some true

instance (fold : Bool) (b : Bracket) : Decidable (b.OnClassPath fold) :=
  inferInstanceAs (Decidable (_ = _))

def noneBracket : Bracket := ⟨true, [.range (Char.ofNat 0) (Char.ofNat 255)]⟩

def altBody : List Bracket → Regexp
  | [] => .nil
  | [a] => .leaf (.bracket a) (.ops []) .nil
  | a :: alts => .leaf (.bracket a) (.ops []) (.bar (altBody alts))

def joined (alts : List Bracket) (o : List PostOp) (rest : Regexp) : Regexp :=
  match alts with
  | [] => .leaf (.bracket noneBracket) (.ops o) rest
  | [a] => .leaf (.bracket a) (.ops o) rest
  | alts => .group .capturing (altBody alts) (.ops o) rest

/-- One copy of a leaf, with operators after it. -/
def Leaf.emit (fold : Bool) (l : Leaf) (o : List PostOp) (rest : Regexp) : Regexp :=
  match l with
  | .bracket b =>
    if b.OnClassPath fold then joined b.asRead o rest else .leaf (.bracket b) (.ops o) rest
  | l => .leaf l (.ops o) rest

def groupCopy (body : Regexp) (o : List PostOp) (rest : Regexp) : Regexp :=
  .group .capturing body (.ops o) rest

/-- The copies of an atom that its suffix asks for, when `f` makes one copy. -/
def Suffix.spread (f : List PostOp → Regexp → Regexp) (rest : Regexp) : Suffix → Regexp
  | .ops o => f o rest
  | .interval i => (f [])^[i.lo] (match i.hi with
    | none => f [.star] rest
    | some h => (f [.opt])^[h - i.lo] rest)

namespace Regexp

def unroll (fold : Bool) : Regexp → Regexp
  | nil => nil
  | leaf l s rest => s.spread (l.emit fold) (rest.unroll fold)
  | group _ body s rest => s.spread (groupCopy (body.unroll fold)) (rest.unroll fold)
  | bar rest => bar (rest.unroll fold)

end Regexp

def Suffix.copies : Suffix → Nat
  | .ops _ => 1
  | .interval i => match i.hi with
    | none => i.lo + 1
    | some h => h

/-! ### The text of the copies -/

theorem altBody_text (alts : List Bracket) :
    (altBody alts).text = ['\\', '|'].intercalate (alts.map Bracket.text) := by
  induction alts with
  | nil => rfl
  | cons a alts ih =>
    cases alts with
    | nil => simp [altBody, Regexp.text, Leaf.text, Suffix.text]
    | cons b alts =>
      rw [altBody, Regexp.text, Regexp.text, ih]
      simp [Leaf.text, Suffix.text, List.intercalate]
      intro h
      cases h

theorem joined_text (alts : List Bracket) (o : List PostOp) (rest : Regexp) :
    (joined alts o rest).text =
      (e20Joined (alts.map Bracket.text)).1 ++ (o.map PostOp.char ++ rest.text) := by
  match alts with
  | [] => rfl
  | [a] => rfl
  | a :: b :: alts =>
    have hbody := altBody_text (a :: b :: alts)
    simp only [List.map_cons] at hbody
    simp only [joined, Regexp.text, hbody, e20Joined, List.map_cons, Kind.text, Suffix.text,
      List.cons_append, List.nil_append, List.append_assoc]

def Leaf.copyText (fold : Bool) : Leaf → List Char
  | .bracket b =>
    if b.OnClassPath fold then (e20Joined (b.alts.map Bracket.text)).1 else b.text
  | l => l.text

theorem emit_text (fold : Bool) (l : Leaf) (o : List PostOp) (rest : Regexp) :
    (l.emit fold o rest).text = l.copyText fold ++ (o.map PostOp.char ++ rest.text) := by
  cases l with
  | char c => rfl
  | escape c => rfl
  | coded k c => rfl
  | bracket b =>
    simp only [Leaf.emit, Leaf.copyText]
    split
    · rw [joined_text, b.asRead_text]
    · rfl

theorem groupCopy_text (body : Regexp) (o : List PostOp) (rest : Regexp) :
    (groupCopy body o rest).text =
      ('\\' :: '(' :: (body.text ++ ['\\', ')'])) ++ (o.map PostOp.char ++ rest.text) := by
  simp [groupCopy, Regexp.text, Kind.text, Suffix.text]

def Suffix.written (a : List Char) : Suffix → List Char
  | .ops o => a ++ o.map PostOp.char
  | .interval i => e20Rep i.lo i.hi a

theorem iterate_text {f : Regexp → Regexp} {a : List Char} (hf : ∀ r, (f r).text = a ++ r.text)
    (n : Nat) (r : Regexp) : (f^[n] r).text = (List.replicate n a).flatten ++ r.text := by
  induction n with
  | zero => rfl
  | succ n ih =>
    rw [Function.iterate_succ_apply', hf, ih]
    simp [List.replicate_succ]

theorem spread_text {f : List PostOp → Regexp → Regexp} {a : List Char}
    (hf : ∀ o r, (f o r).text = a ++ (o.map PostOp.char ++ r.text)) (s : Suffix) (rest : Regexp) :
    (s.spread f rest).text = s.written a ++ rest.text := by
  cases s with
  | ops o => simp [Suffix.spread, Suffix.written, hf]
  | interval i =>
    have hcopy : ∀ r, (f [] r).text = a ++ r.text := by
      intro r
      simp [hf]
    have hopt : ∀ r, (f [.opt] r).text = (a ++ ['?']) ++ r.text := by
      intro r
      simp [hf, PostOp.char]
    simp only [Suffix.spread, Suffix.written, e20Rep]
    rw [iterate_text hcopy]
    cases i.hi with
    | none => simp [hf, PostOp.char]
    | some h => rw [iterate_text hopt, List.append_assoc]

/-! ### What the alternatives match -/

def Item.IsClass : Item → Prop
  | .cls _ => True
  | _ => False

instance : (i : Item) → Decidable i.IsClass
  | .char _ => isFalse id
  | .range _ _ => isFalse id
  | .cls _ => isTrue trivial

section Language
variable {P : Type} (M : Engine P)

theorem Leaf.denote_congr (l : Leaf) {ctx ctx' : Ctx} {last last' : Prop} [Decidable last]
    [Decidable last'] (hcaret : l = .char '^' → (ctx = .first ↔ ctx' = .first))
    (hdollar : l = .char '$' → (last ↔ last')) :
    l.denote M ctx last = l.denote M ctx' last' := by
  cases l with
  | char c =>
    have hfirst : (c = '^' ∧ ctx = .first) ↔ (c = '^' ∧ ctx' = .first) :=
      and_congr_right fun hc => hcaret (hc ▸ rfl)
    have hlast : (c = '$' ∧ last) ↔ (c = '$' ∧ last') :=
      and_congr_right fun hc => hdollar (hc ▸ rfl)
    simp only [Leaf.denote, hfirst, hlast]
  | escape c => rfl
  | coded k c => rfl
  | bracket b => rfl

theorem oneOf_congr {S T : Char → Prop} (h : ∀ c, S c ↔ T c) : M.oneOf S = M.oneOf T := by
  rw [funext fun c => propext (h c)]

theorem oneOf_or (S T : Char → Prop) : M.oneOf (fun c => S c ∨ T c) = M.oneOf S + M.oneOf T := by
  ext p q
  simp only [Steps.add_apply, Engine.oneOf, or_and_right, exists_or]

theorem next_bracket (ctx : Ctx) (b : Bracket) : ctx.next (.bracket b) = .inner :=
  if_neg fun h => nomatch h.2

theorem joined_not_end (alts : List Bracket) (o : List PostOp) (rest : Regexp) :
    ¬(joined alts o rest).AtEnd := by
  match alts with
  | [] => exact id
  | [a] => exact id
  | a :: b :: alts => exact id

theorem altBody_denote (d : Dialect) {alts : List Bracket} (hne : alts ≠ []) (ctx : Ctx) :
    (altBody alts).denote M d ctx 1 = M.oneOf fun c => ∃ a ∈ alts, a.holds M.cls c := by
  induction alts generalizing ctx with
  | nil => exact (hne rfl).elim
  | cons a alts ih =>
    have hflags : d.flags [] = (false, false) := rfl
    cases alts with
    | nil =>
      simp only [altBody, Regexp.denote, Suffix.denote, hflags, repeated, one_mul, Leaf.denote,
        List.mem_singleton, exists_eq_left]
    | cons b alts =>
      have hrest := ih (List.cons_ne_nil _ _) .first
      have hsplit : M.oneOf (fun c => ∃ x ∈ a :: b :: alts, x.holds M.cls c) =
          M.oneOf (a.holds M.cls) + M.oneOf (fun c => ∃ x ∈ b :: alts, x.holds M.cls c) := by
        rw [← oneOf_or]
        exact oneOf_congr M fun c => List.exists_mem_cons_iff _ _ _
      rw [altBody, Regexp.denote, Regexp.denote, hrest, hsplit]
      · simp only [Suffix.denote, hflags, repeated, one_mul, Leaf.denote]
      · exact fun h => nomatch h

theorem joined_denote (d : Dialect) {alts : List Bracket} (hne : alts ≠ []) (o : List PostOp)
    (rest : Regexp) (ctx : Ctx) (acc : Steps P) :
    (joined alts o rest).denote M d ctx acc = rest.denote M d .inner
      (acc * repeated (d.flags o) (M.oneOf fun c => ∃ a ∈ alts, a.holds M.cls c)) := by
  match alts with
  | [] => exact (hne rfl).elim
  | [a] =>
    simp only [joined, Regexp.denote, next_bracket, Suffix.denote, Leaf.denote, List.mem_singleton,
      exists_eq_left]
  | a :: b :: alts =>
    simp only [joined, Regexp.denote, Suffix.denote, altBody_denote M d hne]

end Language

/-! ### The translation is a regexp of Emacs 20 -/

theorem itemsWf_noClass {first : Bool} {items : List Item} (h : ItemsWf .emacs21 first items)
    (hno : ∀ i ∈ items, ¬i.IsClass) : ItemsWf .emacs20 first items := by
  induction items generalizing first with
  | nil => exact h
  | cons i items ih =>
    have hrest : ∀ i ∈ items, ¬i.IsClass := fun i hi => hno i (List.mem_cons_of_mem _ hi)
    cases i with
    | char c => exact ⟨h.1, h.2.1, by simp [Dialect.classAfter], ih h.2.2.2 hrest⟩
    | range a b => exact ⟨h.1, h.2.1, ih h.2.2 hrest⟩
    | cls name => exact (hno (.cls name) List.mem_cons_self trivial).elim

theorem altBody_wf {alts : List Bracket} (h : ∀ a ∈ alts, a.Wf .emacs20) (ctx : Ctx) :
    (altBody alts).Wf .emacs20 ctx := by
  induction alts generalizing ctx with
  | nil => trivial
  | cons a alts ih =>
    have ha := h a List.mem_cons_self
    cases alts with
    | nil => exact ⟨ha, trivial, fun hc => (nomatch hc.2), trivial⟩
    | cons b alts =>
      rw [altBody]
      · exact ⟨ha, trivial, fun hc => (nomatch hc.2), ih (fun c hc => h c (List.mem_cons_of_mem _ hc)) _⟩
      · exact fun h => nomatch h

theorem joined_wf {alts : List Bracket} (h : ∀ a ∈ alts, a.Wf .emacs20) (hne : alts ≠ [])
    (o : List PostOp) {rest : Regexp} (hrest : rest.Wf .emacs20 .inner) (ctx : Ctx) :
    (joined alts o rest).Wf .emacs20 ctx := by
  match alts with
  | [] => exact (hne rfl).elim
  | [a] =>
    refine ⟨h a List.mem_cons_self, trivial, fun hc => (nomatch hc.2), ?_⟩
    rw [next_bracket]
    exact hrest
  | a :: b :: alts => exact ⟨fun hd => (nomatch hd), altBody_wf h _, trivial, hrest⟩

end PkgsrcPatches.Elisp
