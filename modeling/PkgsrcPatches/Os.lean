import Mathlib.Data.List.Basic

/-! What both seams see of the kernel: error numbers, address families and the
list `getifaddrs` returns. A negative return code is an `Except.error`. -/
namespace PkgsrcPatches

inductive Errno where
  | eagain | ebadf | ebusy | eintr | einval | eio | enetdown | enodev | enoent | enomem
  | other (n : Nat)
deriving DecidableEq

inductive Family where
  | unspec | inet | link | packet
deriving DecidableEq

def etherAddrLen : Nat := 6

/-- One entry of `getifaddrs`. The address is that of a `sockaddr_dl` when the
family is `AF_LINK`, and the entry may have none. -/
structure IfAddr where
  name : String
  addr : Option (Family × List UInt8)

def IfAddr.etherOf (i : IfAddr) (ifname : String) : Option (List UInt8) :=
  match i.addr with
  | some (.link, mac) => if i.name = ifname ∧ mac.length = etherAddrLen then some mac else none
  | _ => none

/-- The walk over `getifaddrs` that both seams make, the first match winning. -/
def findHwaddr (ifs : Except Errno (List IfAddr)) (ifname : String) : Except Errno (List UInt8) :=
  match ifs with
  | .error e => .error e
  | .ok l => match l.findSome? (·.etherOf ifname) with
    | some mac => .ok mac
    | none => .error .enodev

theorem findHwaddr_length {ifs : Except Errno (List IfAddr)} {ifname : String} {mac : List UInt8}
    (h : findHwaddr ifs ifname = .ok mac) : mac.length = etherAddrLen := by
  cases ifs with
  | error e => simp [findHwaddr] at h
  | ok l =>
    simp only [findHwaddr] at h
    cases hf : l.findSome? (·.etherOf ifname) with
    | none => simp [hf] at h
    | some m =>
      obtain ⟨i, -, hi⟩ := List.exists_of_findSome?_eq_some hf
      simp only [hf, Except.ok.injEq] at h
      subst h
      simp only [IfAddr.etherOf] at hi
      split at hi
      · split at hi
        · rename_i hc
          rw [← Option.some.inj hi]
          exact hc.2
        · cases hi
      · cases hi

end PkgsrcPatches
