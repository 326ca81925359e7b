import PkgsrcPatches.Lib.Ccl

/-! `std11-default-ccl-lexical-analyzer` of flim: `r0` is the input, `r1` says that there was any,
`r2` what is being read (1 an atom, 2 spaces, 3 a quoted string or a domain literal, 4 a comment) and
`r3` how deep comments are. -/
namespace PkgsrcPatches.Flim
open Lib.Ccl

inductive Kind where
  | atom
  | spaces
  | specials
  | quotedString
  | domainLiteral
  | comment
deriving DecidableEq

def Kind.name : Kind → List Char
  | atom => ['a', 't', 'o', 'm']
  | spaces => ['s', 'p', 'a', 'c', 'e', 's']
  | specials => ['s', 'p', 'e', 'c', 'i', 'a', 'l', 's']
  | quotedString => ['q', 'u', 'o', 't', 'e', 'd', '-', 's', 't', 'r', 'i', 'n', 'g']
  | domainLiteral => ['d', 'o', 'm', 'a', 'i', 'n', '-', 'l', 'i', 't', 'e', 'r', 'a', 'l']
  | comment => ['c', 'o', 'm', 'm', 'e', 'n', 't']

def Kind.opening (k : Kind) : List Char := '(' :: (k.name ++ [' ', '.', ' ', '"'])

def closing : List Char := ['"', ')']

def code (c : Char) : Expr := .int c.toNat

def wrt : Stmt :=
  .ite (.eq (.reg 0) (code '"')) (.writeText ['\\', '"'])
    (.ite (.eq (.reg 0) (code '\\')) (.writeText ['\\', '\\']) (.write 0))

def atm : Stmt :=
  branchOf (.reg 2) [
    block [.set 2 (.int 1), .writeText Kind.atom.opening, writeReadRepeat 0],
    writeReadRepeat 0,
    block [.writeText closing, .set 2 (.int 1), .writeText Kind.atom.opening, writeReadRepeat 0]]

def spc : Stmt :=
  block [
    .ite (.reg 2) (block [.writeText closing, .set 2 (.int 0)]) .skip,
    .writeText Kind.specials.opening, wrt, .writeText closing, .read 0, .rep]

def sp : Stmt :=
  branchOf (.reg 2) [
    block [.set 2 (.int 2), .writeText Kind.spaces.opening, writeReadRepeat 0],
    block [.writeText closing, .set 2 (.int 2), .writeText Kind.spaces.opening, writeReadRepeat 0],
    writeReadRepeat 0]

def encBlocks (tag : Char) : List Stmt :=
  (((List.replicate (max tag.toNat '\\'.toNat + 1) (writeRepeat 0)).set '\\'.toNat
    (block [.writeText ['\\', '\\'], .read 0, wrt, .rep])).set '"'.toNat
    (block [.writeText ['\\', '"'], .rep])).set tag.toNat .brk

def encBody (tag : Char) : Stmt := block [readBranch 0 (encBlocks tag), writeRepeat 0]

def enc (k : Kind) (tag : Char) : Stmt :=
  block [
    .ite (.reg 2) (.writeText closing) .skip, .writeText k.opening, .set 2 (.int 3),
    .loop (encBody tag), .writeText closing, .set 2 (.int 0), .read 0, .rep]

def qs : Stmt := enc .quotedString '"'

def dl : Stmt := enc .domainLiteral ']'

def cmBlocks : List Stmt :=
  ((((List.replicate (max '('.toNat (max ')'.toNat '\\'.toNat) + 1) (writeRepeat 0)).set '('.toNat
    (block [.set 3 (.add (.reg 3) (.int 1)), writeRepeat 0])).set ')'.toNat
    (block [.set 3 (.sub (.reg 3) (.int 1)), .ite (.lt (.reg 3) (.int 1)) .brk (writeRepeat 0)])).set
    '\\'.toNat (block [.writeText ['\\', '\\'], .read 0, wrt, .rep])).set '"'.toNat
    (block [.writeText ['\\', '"'], .rep])

def cmBody : Stmt := block [readBranch 0 cmBlocks, writeRepeat 0]

def cm : Stmt :=
  block [
    .ite (.reg 2) (.writeText closing) .skip, .writeText Kind.comment.opening, .set 2 (.int 4),
    .set 3 (.int 1), .loop cmBody, .writeText closing, .set 2 (.int 0), .read 0, .rep]

/-- What the elements of the table are evaluated to. -/
inductive Elt where
  | atm
  | sp
  | qs
  | cm
  | spc
  | dl
deriving DecidableEq

def Elt.eval : Elt → Stmt
  | atm => Flim.atm
  | sp => Flim.sp
  | qs => Flim.qs
  | cm => Flim.cm
  | spc => Flim.spc
  | dl => Flim.dl

def elts : List Elt := [
  .atm, .atm, .atm, .atm, .atm, .atm, .atm, .atm,
  .atm, .sp, .sp, .atm, .atm, .atm, .atm, .atm,
  .atm, .atm, .atm, .atm, .atm, .atm, .atm, .atm,
  .atm, .atm, .atm, .atm, .atm, .atm, .atm, .atm,
  .sp, .atm, .qs, .atm, .atm, .atm, .atm, .atm,
  .cm, .spc, .atm, .atm, .spc, .atm, .spc, .atm,
  .atm, .atm, .atm, .atm, .atm, .atm, .atm, .atm,
  .atm, .atm, .spc, .spc, .spc, .atm, .spc, .atm,
  .spc, .atm, .atm, .atm, .atm, .atm, .atm, .atm,
  .atm, .atm, .atm, .atm, .atm, .atm, .atm, .atm,
  .atm, .atm, .atm, .atm, .atm, .atm, .atm, .atm,
  .atm, .atm, .atm, .dl, .spc, .spc]

def lexBody : Stmt := block [branchOf (.reg 0) (elts.map Elt.eval), atm]

def cclLexicalAnalyzer : Program where
  main := block [.set 2 (.int 0), .read 0, .set 1 (.int 1), .writeText ['(', '('], .loop lexBody]
  eof := block [branchOf (.reg 1) [
    .writeText ['(', 'n', 'i', 'l', ' ', '.', ' ', 't', ')'],
    branchOf (.reg 2) [
      .writeText [')', ' ', '.', ' ', 't', ')'],
      .writeText ['"', ')', ')', ' ', '.', ' ', 't', ')'],
      .writeText ['"', ')', ')', ' ', '.', ' ', 't', ')'],
      .writeText ['"', ')', ')', ')'],
      .writeText ['"', ')', ')', ')']]]]

end PkgsrcPatches.Flim
