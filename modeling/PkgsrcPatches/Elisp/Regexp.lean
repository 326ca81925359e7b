import Mathlib.Data.List.Basic
import PkgsrcPatches.Elisp.Bracket
import PkgsrcPatches.Lib.Kleene

/-! Emacs regexps as trees, their text, the engine's reading of a text, and what
a regexp matches. A body is read from left to right; `^`, `$` and a leading `*`
take their meaning from where they stand. -/
namespace PkgsrcPatches.Elisp
open Lib.Kleene

inductive PostOp where
  | star
  | plus
  | opt
deriving DecidableEq

def PostOp.char : PostOp → Char
  | .star => '*'
  | .plus => '+'
  | .opt => '?'

def postOp? (c : Char) : Option PostOp :=
  if c = '*' then some .star else if c = '+' then some .plus
  else if c = '?' then some .opt else none

@[simp] theorem postOp?_char (o : PostOp) : postOp? o.char = some o := by
  cases o <;> rfl

structure Numeral where
  digits : List (Fin 10)
  nonempty : digits ≠ []
deriving DecidableEq

def digitChar (d : Fin 10) : Char := Char.ofNat (48 + d)

def digitsValue (ds : List (Fin 10)) : Nat := ds.foldl (fun n d => 10 * n + d) 0

namespace Numeral

def value (n : Numeral) : Nat := digitsValue n.digits

def text (n : Numeral) : List Char := n.digits.map digitChar

def single (n : Nat) : Numeral := ⟨[Fin.ofNat 10 n], List.cons_ne_nil _ []⟩

end Numeral

inductive Interval where
  | exactly (n : Numeral)
  | atLeast (n : Numeral)
  | between (n m : Numeral) (h : n.value ≤ m.value)
deriving DecidableEq

namespace Interval

def lo : Interval → Nat
  | .exactly n => n.value
  | .atLeast n => n.value
  | .between n _ _ => n.value

def hi : Interval → Option Nat
  | .exactly n => some n.value
  | .atLeast _ => none
  | .between _ m _ => some m.value

def spec : Interval → List Char
  | .exactly n => n.text
  | .atLeast n => n.text ++ [',']
  | .between n m _ => n.text ++ ',' :: m.text

theorem lo_le_hi {i : Interval} {h : Nat} (hi : i.hi = some h) : i.lo ≤ h := by
  cases i with
  | exactly n => exact Nat.le_of_eq (Option.some.inj hi)
  | atLeast n => exact nomatch hi
  | between n m hle => exact Option.some.inj hi ▸ hle

end Interval

inductive Suffix where
  | ops (l : List PostOp)
  | interval (i : Interval)
deriving DecidableEq

def Suffix.text : Suffix → List Char
  | .ops l => l.map PostOp.char
  | .interval i => '\\' :: '{' :: (i.spec ++ ['\\', '}'])

inductive Leaf where
  | char (c : Char)
  | escape (c : Char)
  | coded (k c : Char)
  | bracket (b : Bracket)
deriving DecidableEq

def Leaf.text : Leaf → List Char
  | .char c => [c]
  | .escape c => ['\\', c]
  | .coded k c => ['\\', k, c]
  | .bracket b => b.text

inductive Kind where
  | capturing
  | shy
deriving DecidableEq

def Kind.text : Kind → List Char
  | .capturing => ['\\', '(']
  | .shy => ['\\', '(', '?', ':']

inductive Regexp where
  | nil
  | leaf (l : Leaf) (s : Suffix) (rest : Regexp)
  | group (k : Kind) (body : Regexp) (s : Suffix) (rest : Regexp)
  | bar (rest : Regexp)
deriving DecidableEq

/-- Where in its branch a piece stands; after a `^` that anchors, a `*` is still no operator. -/
inductive Ctx where
  | first
  | anchored
  | inner
deriving DecidableEq

def Ctx.anchors (ctx : Ctx) (l : Leaf) : Prop := ctx = .first ∧ l = .char '^'

instance (ctx : Ctx) (l : Leaf) : Decidable (ctx.anchors l) :=
  inferInstanceAs (Decidable (_ ∧ _))

def Ctx.next (ctx : Ctx) (l : Leaf) : Ctx := if ctx.anchors l then .anchored else .inner

/-- The characters that make a construct of a backslash before them. -/
def Dialect.reserved : Dialect → List Char
  | .emacs20 => ['(', ')', '|', 's', 'S', 'c', 'C']
  | .emacs21 => ['{', '(', ')', '|', 's', 'S', 'c', 'C']

def Leaf.Wf (d : Dialect) (ctx : Ctx) : Leaf → Prop
  | .char c => c ≠ '\\' ∧ c ≠ '[' ∧ (ctx = .inner → postOp? c = none)
  | .escape c => c ∉ d.reserved
  | .coded k _ => k ∈ ['s', 'S', 'c', 'C']
  | .bracket b => b.Wf d

instance (d : Dialect) (ctx : Ctx) : (l : Leaf) → Decidable (l.Wf d ctx)
  | .char _ => inferInstanceAs (Decidable (_ ∧ _ ∧ (_ → _)))
  | .escape _ => inferInstanceAs (Decidable (¬_))
  | .coded _ _ => inferInstanceAs (Decidable (_ ∈ _))
  | .bracket b => inferInstanceAs (Decidable (b.Wf d))

def Suffix.Wf (d : Dialect) : Suffix → Prop
  | .ops _ => True
  | .interval _ => d = .emacs21

instance (d : Dialect) : (s : Suffix) → Decidable (s.Wf d)
  | .ops _ => isTrue trivial
  | .interval _ => inferInstanceAs (Decidable (d = _))

/-- Emacs 21 takes any `?` after the parenthesis for the start of a shy group. -/
def Kind.Wf (d : Dialect) (body : List Char) : Kind → Prop
  | .capturing => d = .emacs21 → body.head? ≠ some '?'
  | .shy => d = .emacs21

instance (d : Dialect) (body : List Char) : (k : Kind) → Decidable (k.Wf d body)
  | .capturing => inferInstanceAs (Decidable (_ → ¬_))
  | .shy => inferInstanceAs (Decidable (d = _))

namespace Regexp

def text : Regexp → List Char
  | nil => []
  | leaf l s rest => l.text ++ (s.text ++ rest.text)
  | group k body s rest => k.text ++ (body.text ++ '\\' :: ')' :: (s.text ++ rest.text))
  | bar rest => '\\' :: '|' :: rest.text

def size : Regexp → Nat
  | nil => 0
  | leaf _ _ rest => rest.size + 1
  | group _ body _ rest => body.size + rest.size + 1
  | bar rest => rest.size + 1

def Wf (d : Dialect) : Ctx → Regexp → Prop
  | _, nil => True
  | ctx, leaf l s rest =>
    l.Wf d ctx ∧ s.Wf d ∧ (ctx.anchors l → s = .ops []) ∧ rest.Wf d (ctx.next l)
  | _, group k body s rest => k.Wf d body.text ∧ body.Wf d .first ∧ s.Wf d ∧ rest.Wf d .inner
  | _, bar rest => rest.Wf d .first

instance decidableWf (d : Dialect) : (ctx : Ctx) → (r : Regexp) → Decidable (r.Wf d ctx)
  | _, nil => isTrue trivial
  | ctx, leaf l _ rest =>
    have := decidableWf d (ctx.next l) rest
    inferInstanceAs (Decidable (_ ∧ _ ∧ (_ → _) ∧ _))
  | _, group _ body _ rest =>
    have := decidableWf d .first body
    have := decidableWf d .inner rest
    inferInstanceAs (Decidable (_ ∧ _ ∧ _ ∧ _))
  | _, bar rest => decidableWf d .first rest

def AtEnd : Regexp → Prop
  | nil => True
  | bar _ => True
  | _ => False

instance : (r : Regexp) → Decidable r.AtEnd
  | nil => isTrue trivial
  | bar _ => isTrue trivial
  | leaf _ _ _ => isFalse id
  | group _ _ _ _ => isFalse id

end Regexp

/-- An engine at work on a text: how it reads a character, tests for the ends of a line,
and what escapes, syntax codes and classes stand for there. -/
structure Engine (P : Type) where
  step : P → Char → P → Prop
  bol : P → Prop
  eol : P → Prop
  escape : Char → Steps P
  coded : Char → Char → Steps P
  cls : List Char → Char → Prop

section Meaning
variable {P : Type} (M : Engine P)

def Engine.oneOf (S : Char → Prop) : Steps P := fun p q => ∃ c, S c ∧ M.step p c q

def assertion (t : P → Prop) : Steps P := fun p q => t p ∧ p = q

/-- `last` says that nothing follows the leaf in its branch. -/
def Leaf.denote (ctx : Ctx) (last : Prop) [Decidable last] : Leaf → Steps P
  | .char c =>
    if c = '^' ∧ ctx = .first then assertion M.bol
    else if c = '$' ∧ last then assertion M.eol
    else if c = '.' then M.oneOf (· ≠ '\n')
    else M.oneOf (· = c)
  | .escape c => M.escape c
  | .coded k c => M.coded k c
  | .bracket b => M.oneOf (b.holds M.cls)

/-- Whether a run of operators lets an atom be absent, and be there more than once. To
Emacs 21 a `?` after the first operator only asks for fewer. -/
def Dialect.flags (d : Dialect) (l : List PostOp) : Bool × Bool :=
  l.foldl (fun f o =>
    if d = .emacs21 ∧ o = .opt ∧ (f.1 || f.2) then f
    else (f.1 || o ≠ .plus, f.2 || o ≠ .opt)) (false, false)

def repeated (f : Bool × Bool) (a : Steps P) : Steps P :=
  match f with
  | (false, false) => a
  | (true, false) => 1 + a
  | (false, true) => a * KStar.kstar a
  | (true, true) => KStar.kstar a

def Suffix.denote (d : Dialect) (a : Steps P) : Suffix → Steps P
  | .ops l => repeated (d.flags l) a
  | .interval i => match i.hi with
    | some h => between a i.lo h
    | none => a ^ i.lo * KStar.kstar a

/-- `acc` is what the pieces read so far in the branch match. -/
def Regexp.denote (d : Dialect) : Ctx → Steps P → Regexp → Steps P
  | _, acc, nil => acc
  | ctx, acc, leaf l s rest =>
    rest.denote d (ctx.next l) (acc * s.denote d (l.denote M ctx (s = .ops [] ∧ rest.AtEnd)))
  | _, acc, group _ body s rest => rest.denote d .inner (acc * s.denote d (body.denote d .first 1))
  | _, acc, bar rest => acc + rest.denote d .first 1

def Regexp.Matches (d : Dialect) (r : Regexp) (p q : P) : Prop := r.denote M d .first 1 p q

end Meaning

end PkgsrcPatches.Elisp
