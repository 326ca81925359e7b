import PkgsrcPatches.Elisp.Maphash

/-! Sessions of table operations: each table answers as the finite map that what was put, removed
and cleared in it leaves. -/
namespace PkgsrcPatches.Elisp
open Lib.Loop Lib.Cons Lib.Alist

/-! ### Sessions -/

/-- A call of one of the functions; a table is known by when it was made. -/
inductive Op (K V : Type) where
  | makeHashTable (args : List Arg)
  | puthash (key : K) (value : V) (table : Nat)
  | remhash (key : K) (table : Nat)
  | clrhash (table : Nat)
  | gethash (key : K) (table : Nat) (dflt : V)
  | hashTableCount (table : Nat)
  | maphash (fn : List (K × V) → List (OwnOp V)) (table : Nat)

/-- What a call returns, for `maphash` the calls it made. -/
inductive Answer (K V : Type) where
  | nil
  | table (t : Nat)
  | value (v : V)
  | number (n : Nat)
  | calls (cs : List (K × V))
  | wrongTypeArgument

section Sessions
variable {K V : Type}

def onTable (w : World K V) (t : Nat) (call : Option (Answer K V × World K V)) :
    Option (Answer K V × World K V) :=
  if t < w.tables.length then call else some (.wrongTypeArgument, w)

def step (E : Equalities K) (w : World K V) : Op K V → Option (Answer K V × World K V)
  | .makeHashTable args => some (.table w.tables.length, makeHashTable args w)
  | .puthash key value t => onTable w t do pure (.value value, ← puthash E key value t w)
  | .remhash key t => onTable w t do pure (.nil, ← remhash E key t w)
  | .clrhash t => onTable w t do pure (.table t, ← clrhash t w)
  | .gethash key t dflt => onTable w t do pure (.value (← gethash E key t dflt w), w)
  | .hashTableCount t => onTable w t do pure (.number (← hashTableCount t w), w)
  | .maphash fn t => onTable w t do
    let (calls, w) ← maphash E fn t w
    pure (.calls calls, w)

def Op.made : Op K V → Option Arg
  | .makeHashTable args => some (testArg args)
  | _ => none

/-- The changes that a call with this answer makes. -/
def Op.log : Op K V → Answer K V → List (Nat × Change K V)
  | _, .wrongTypeArgument => []
  | .puthash key value t, _ => [(t, .put key value)]
  | .remhash key t, _ => [(t, .rem key)]
  | .clrhash t, _ => [(t, .clear)]
  | .maphash fn t, .calls cs => (ownChanges fn [] cs).map (t, ·)
  | _, _ => []

end Sessions

/-! ### One call -/
section Calls
variable {K V : Type} {E : Equalities K} {w : World K V} {t : Nat} {bs : Nat → List (Bound K V)}
  {log : List (Nat × Change K V)}

end Calls

/-! ### Whole sessions -/
section Runs
variable {K V : Type} {E : Equalities K}

end Runs

end PkgsrcPatches.Elisp
