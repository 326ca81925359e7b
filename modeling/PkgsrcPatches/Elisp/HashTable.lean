import PkgsrcPatches.Lib.Alist
import PkgsrcPatches.Lib.Cons

/-! The hash tables that `elisp-compat` makes of association lists: a table is a vector of a mark,
a test and an alist, and its entries are conses that the table and a walk over it share. -/
namespace PkgsrcPatches.Elisp
open Lib.Loop Lib.Cons Lib.Alist

/-! ### Tables in a memory -/

/-- What `make-hash-table` tells apart in an argument. -/
inductive Arg where
  | nil
  | keywordTest
  | eq
  | eql
  | equal
  | other (n : Nat)
deriving DecidableEq

/-- The built-in equalities of keys; a key that `equal` looks into is one that no call changes. -/
structure Equalities (K : Type) where
  eq : Equality K
  eql : Equality K
  equal : Equality K

structure Table where
  test : Arg
  list : Option Nat

/-- The conses `(key . value)`, the conses that hold one in their car, and the tables. -/
structure World (K V : Type) where
  entries : List (K × V)
  spine : List (Cell Nat)
  tables : List Table

def asetList (tables : List Table) (t : Nat) (l : Option Nat) : List Table :=
  tables.modify t fun table => { table with list := l }

section Functions
variable {K V : Type}

def Equalities.of (E : Equalities K) : Arg → Equality K
  | .eq => E.eq
  | .equal => E.equal
  | _ => E.eql

def result {ρ : Type} : Exit ρ → Option ρ
  | .ret r => some r
  | _ => none

/-- The first entry of an alist whose key is the same, for `assq`, `assoc` and the loop with
`eql`. -/
def assocBy (E : Equality K) (key : K) (l : Option Nat) (w : World K V) : Option (Option Nat) :=
  result (run (searchPass w.spine fun c => w.entries[c]?.map fun e => E.same e.1 key)
    (w.spine.length + 1) l)

/-! ### The functions -/

/-- `(or (cadr (memq :test args)) 'eql)` -/
def testArg (args : List Arg) : Arg :=
  match args.dropWhile (· ≠ .keywordTest) with
  | _ :: test :: _ => if test = .nil then .eql else test
  | _ => .eql

def makeHashTable (args : List Arg) (w : World K V) : World K V :=
  { w with tables := w.tables ++ [⟨testArg args, none⟩] }

def e20HashAssoc (E : Equalities K) (key : K) (table : Table) (w : World K V) :
    Option (Option Nat) :=
  match table.test with
  | .eq => assocBy E.eq key table.list w
  | .equal => assocBy E.equal key table.list w
  | _ => assocBy E.eql key table.list w

def gethash (E : Equalities K) (key : K) (t : Nat) (dflt : V) (w : World K V) : Option V := do
  let table ← w.tables[t]?
  match ← e20HashAssoc E key table w with
  | some c => pure (← w.entries[c]?).2
  | none => pure dflt

def puthash (E : Equalities K) (key : K) (value : V) (t : Nat) (w : World K V) :
    Option (World K V) := do
  let table ← w.tables[t]?
  match ← e20HashAssoc E key table w with
  | some c =>
    let e ← w.entries[c]?
    pure { w with entries := w.entries.set c (e.1, value) }
  | none =>
    pure { entries := w.entries ++ [(key, value)]
           spine := w.spine ++ [⟨w.entries.length, table.list⟩]
           tables := asetList w.tables t (some w.spine.length) }

def remhash (E : Equalities K) (key : K) (t : Nat) (w : World K V) : Option (World K V) := do
  let table ← w.tables[t]?
  match ← e20HashAssoc E key table w with
  | some c =>
    let (spine, list) ←
      result (run (delqPass c) (w.spine.length + 1) ⟨w.spine, table.list, none, table.list⟩)
    pure { w with spine := spine, tables := asetList w.tables t list }
  | none => pure w

def clrhash (t : Nat) (w : World K V) : Option (World K V) := do
  let _ ← w.tables[t]?
  pure { w with tables := asetList w.tables t none }

def hashTableCount (t : Nat) (w : World K V) : Option Nat := do
  let table ← w.tables[t]?
  result (run (lengthPass w.spine) (w.spine.length + 1) (0, table.list))

/-- What a function given to `maphash` does with the key it is called with. -/
inductive OwnOp (V : Type) where
  | puthash (value : V)
  | remhash

def OwnOp.change (key : K) : OwnOp V → Change K V
  | .puthash value => .put key value
  | .remhash => .rem key

def OwnOp.exec (E : Equalities K) (key : K) (t : Nat) (w : World K V) :
    OwnOp V → Option (World K V)
  | .puthash value => Elisp.puthash E key value t w
  | .remhash => Elisp.remhash E key t w

structure Walk (K V : Type) where
  calls : List (K × V)
  l : Option Nat
  world : World K V

/-- `(funcall fn key value)`, then `(setq l (cdr l))`. What the function does may depend on all
its calls. -/
def maphashPass (E : Equalities K) (fn : List (K × V) → List (OwnOp V)) (t : Nat)
    (s : Walk K V) : Option (Pass (Walk K V) (List (K × V) × World K V)) :=
  match s.l with
  | none => some (.done (s.calls, s.world))
  | some p => do
    let c ← s.world.spine[p]?
    let e ← s.world.entries[c.car]?
    let calls := s.calls ++ [e]
    let world ← (fn calls).foldlM (OwnOp.exec E e.1 t) s.world
    -- the cdr is read when the function has returned
    let c ← world.spine[p]?
    pure (.next ⟨calls, c.cdr, world⟩)

def maphash (E : Equalities K) (fn : List (K × V) → List (OwnOp V)) (t : Nat) (w : World K V) :
    Option (List (K × V) × World K V) := do
  let table ← w.tables[t]?
  result (run (maphashPass E fn t) (w.spine.length + 1) ⟨[], table.list, w⟩)

end Functions

end PkgsrcPatches.Elisp
