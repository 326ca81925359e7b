import Mathlib.Data.BitVec

/-! Permission bits of a file. -/
namespace PkgsrcPatches.Lib

/-- The permission bits of a mode, the three above them included. -/
abbrev Mode := BitVec 12

def groupOther : Mode := 0o077
def setIds : Mode := 0o6000

/-- Group and others have no permission in `m` that they lack in `src`. -/
def Grants (src m : Mode) : Prop := m &&& groupOther &&& ~~~src = 0#12

instance (src m : Mode) : Decidable (Grants src m) := inferInstanceAs (Decidable (_ = _))

theorem Grants.and {src m : Mode} (h : Grants src m) (k : Mode) : Grants src (m &&& k) := by
  have hswap : m &&& k &&& groupOther &&& ~~~src = m &&& groupOther &&& ~~~src &&& k := by
    rw [BitVec.and_assoc, BitVec.and_assoc, BitVec.and_comm k, BitVec.and_assoc, BitVec.and_assoc,
      BitVec.and_assoc]
  rw [Grants, hswap, h, BitVec.zero_and]

theorem grants_self (src : Mode) : Grants src src := by
  rw [Grants, BitVec.and_comm src, BitVec.and_assoc, BitVec.and_not_self]
  exact BitVec.and_zero

theorem owner_groupOther {m : Mode} (h : m &&& groupOther = 0#12) (umask : Mode) :
    m &&& ~~~umask &&& groupOther = 0#12 := by
  rw [BitVec.and_assoc, BitVec.and_comm _ groupOther, ← BitVec.and_assoc, h, BitVec.zero_and]

end PkgsrcPatches.Lib
