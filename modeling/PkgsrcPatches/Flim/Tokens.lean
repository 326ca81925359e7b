import Mathlib.Data.List.Chain
import PkgsrcPatches.Flim.CclLexer
import PkgsrcPatches.Lib.Sexp

/-! The tokens of STD 11 and the texts they are taken from. -/
namespace PkgsrcPatches.Flim
open Lib

def spaceCharList : List Char := [' ', '\t', '\n']

def specialCharList : List Char :=
  [']', '[', '(', ')', '<', '>', '@', ',', ';', ':', '\\', '"', '.']

def eltOf (c : Char) : Elt :=
  if c ∈ spaceCharList then .sp
  else if c = '"' then .qs
  else if c = '(' then .cm
  else if c = '[' then .dl
  else if c ∈ specialCharList then .spc
  else .atm

/-- What stands between the quotes or the brackets: the closing character only behind a backslash. -/
inductive Body (tag : Char) : List Char → Prop where
  | nil : Body tag []
  | char {c : Char} {w : List Char} (hc : c ≠ tag) (hb : c ≠ '\\') (h : Body tag w) :
    Body tag (c :: w)
  | pair {w : List Char} (c : Char) (h : Body tag w) : Body tag ('\\' :: c :: w)

/-- What stands in a comment, from one depth to another; the first is never left. -/
inductive Comment : (depth depth' : Nat) → List Char → Prop where
  | nil (d : Nat) : Comment d d []
  | char {c : Char} {d d' : Nat} {w : List Char} (ho : c ≠ '(') (hc : c ≠ ')') (hb : c ≠ '\\')
      (h : Comment d d' w) : Comment d d' (c :: w)
  | pair {d d' : Nat} {w : List Char} (c : Char) (h : Comment d d' w) : Comment d d' ('\\' :: c :: w)
  | opening {d d' : Nat} {w : List Char} (h : Comment (d + 1) d' w) : Comment d d' ('(' :: w)
  | closing {d d' : Nat} {w : List Char} (h : Comment (d + 1) d' w) : Comment (d + 2) d' (')' :: w)

structure Token where
  kind : Kind
  text : List Char

/-- The characters an enclosure stands between. -/
def Kind.marks : Kind → Option (Char × Char)
  | quotedString => some ('"', '"')
  | domainLiteral => some ('[', ']')
  | comment => some ('(', ')')
  | _ => none

def Token.source (t : Token) : List Char :=
  match t.kind.marks with
  | some (o, c) => o :: (t.text ++ [c])
  | none => t.text

def Token.Wf (t : Token) : Prop :=
  match t.kind with
  | .atom => t.text ≠ [] ∧ ∀ c ∈ t.text, c ∉ spaceCharList ∧ c ∉ specialCharList
  | .spaces => t.text ≠ [] ∧ ∀ c ∈ t.text, c ∈ spaceCharList
  | .specials => ∃ c ∈ specialCharList, c ≠ '"' ∧ c ≠ '[' ∧ c ≠ '(' ∧ t.text = [c]
  | .quotedString => Body '"' t.text
  | .domainLiteral => Body ']' t.text
  | .comment => Comment 1 1 t.text

/-- Atoms are as long as they can be, and so are spaces. -/
def Token.Apart (t t' : Token) : Prop := t.kind = t'.kind → t.kind ≠ .atom ∧ t.kind ≠ .spaces

def source (ts : List Token) : List Char := ts.flatMap Token.source

structure Tokens (ts : List Token) : Prop where
  wf : ∀ t ∈ ts, t.Wf
  apart : ts.IsChain Token.Apart

/-- An enclosure that the string ends in. A backslash may stand last, with nothing behind it. -/
def Kind.Unclosed (k : Kind) (w : List Char) : Prop :=
  ∃ b e, w = b ++ e ∧ (e = [] ∨ e = ['\\']) ∧
    match k with
    | quotedString => Body '"' b
    | domainLiteral => Body ']' b
    | comment => ∃ d, Comment 1 (d + 1) b
    | _ => False

/-! ### What is written for them -/

def Token.sexp (t : Token) : Sexp := .cons (.symbol t.kind.name) (.string t.text)

def Token.shown (t : Token) : List Char := t.kind.opening ++ (Sexp.escape t.text ++ closing)

def shown (ts : List Token) : List Char := ts.flatMap Token.shown

variable {ts : List Token} {t : Token}

theorem source_concat : source (ts ++ [t]) = source ts ++ t.source := by simp [source]

theorem shown_concat : shown (ts ++ [t]) = shown ts ++ t.shown := by simp [shown]

theorem tokens_nil : Tokens [] := ⟨fun t h => (by cases h), List.IsChain.nil⟩

theorem Kind.name_delimits (k : Kind) : ∀ c ∈ k.name, Sexp.delimits c = false := by
  cases k <;> simp [Kind.name] <;> decide

theorem Kind.ofName_name (k : Kind) : Sexp.ofName k.name = .symbol k.name := by
  cases k <;> rfl

theorem Kind.name_head (k : Kind) :
    ∃ c w, k.name = c :: w ∧ Sexp.blank c = false ∧ c ≠ ')' ∧ c ≠ '.' := by
  cases k <;> exact ⟨_, _, rfl, by decide, by decide, by decide⟩

theorem Token.reads (t : Token) (rest : List Char) : Sexp.Reads (t.shown ++ rest) t.sexp rest := by
  let behind := ' ' :: '.' :: ' ' :: '"' :: (Sexp.escape t.text ++ '"' :: ')' :: rest)
  have htext : t.shown ++ rest = '(' :: (t.kind.name ++ behind) := by
    simp [behind, Token.shown, Kind.opening, closing]
  obtain ⟨c, w, hname, hblank, hclose, hdot⟩ := t.kind.name_head
  have hsymbol : Sexp.Reads (t.kind.name ++ behind) (Sexp.ofName t.kind.name) behind :=
    Sexp.reads_symbol (by simp [hname]) t.kind.name_delimits rfl
  rw [t.kind.ofName_name] at hsymbol
  have hstring := Sexp.reads_string t.text (')' :: rest)
  rw [htext, Token.sexp]
  refine Sexp.reads_list ?_
  rw [hname, List.cons_append] at hsymbol ⊢
  exact Sexp.readsTail_cons hblank hclose hdot hsymbol
    (Sexp.readsTail_blank (c := ' ') rfl (Sexp.readsTail_dot hstring))

theorem shown_reads (ts : List Token) (rest : List Char) :
    Sexp.ReadsTail (shown ts ++ ')' :: rest) (Sexp.ofList (ts.map Token.sexp)) rest := by
  induction ts with
  | nil => exact Sexp.readsTail_nil rest
  | cons t ts ih =>
    have htext : shown (t :: ts) ++ ')' :: rest = t.shown ++ (shown ts ++ ')' :: rest) := by
      simp [shown]
    have hhead := t.reads (shown ts ++ ')' :: rest)
    rw [htext]
    exact Sexp.readsTail_cons (c := '(') rfl (by decide) (by decide) hhead ih

end PkgsrcPatches.Flim
