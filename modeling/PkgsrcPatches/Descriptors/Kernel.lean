import Mathlib.Logic.Function.Basic
import PkgsrcPatches.Lib.ClassicBpf
import PkgsrcPatches.Lib.Syscall
import PkgsrcPatches.Os

/-! The descriptor table of a process that runs one of the two seams: the calls both halves
make, what a kernel may answer, and what each descriptor has been through. -/
namespace PkgsrcPatches.Descriptors
open Lib.Syscall

inductive Kind where
  | bpf | packet | udp | poller | timer | ebpf
deriving DecidableEq

inductive Address where
  | link (protocol ifindex halen : Nat) (addr : List UInt8)
  | inet (addr : UInt32) (port : UInt16)

/-- What is done to a descriptor once it is open. -/
inductive Op where
  | biocsetif (ifrName : List UInt8)
  | biocimmediate
  | biocshdrcmplt
  | biocsetf (insns : List Lib.ClassicBpf.Insn)
  | setflNonblock
  | setfdCloexec
  | attachBpf (fdProg : Nat)
  | attachFilter (insns : List Lib.ClassicBpf.Insn)
  | packetAuxdata
  | reuseaddr
  | broadcast
  | ipTos (tos : Nat)
  | recvdstaddr
  | pktinfo
  | bindtoifindex (ifindex : Nat)
  | bindtodevice (ifname : List UInt8)
  | bind (address : Address)
  | connect (address : Address)
  | watch (fds : List (Nat × Nat))      -- each with the tag it reports
  | unwatch (fds : List (Option Nat))   -- or -1

/-- An open descriptor: what it is, and what was done to it, in order. -/
structure Desc where
  kind : Kind
  done : List Op

def Desc.did (d : Desc) (op : Op) : Desc := ⟨d.kind, d.done ++ [op]⟩

inductive DevBpf where
  | cloning
  | numbered (i : Nat)

inductive Clock where
  | boottime | monotonic
deriving DecidableEq

inductive Call where
  | ifIndextoname (ifindex : Nat)
  | openDev (path : DevBpf)
  | create (kind : Kind)
  | timerfdCreate (clock : Clock)
  | control (fd : Nat) (op : Op)
  | biocgblen (fd : Nat)
  | siocgifname (fd ifindex : Nat)
  | realloc (size : Nat)
  | ebpfSetup
  | close (fd : Nat)

/-- What upstream's eBPF part leaves: a map and a program, each if there is one, and whether it
gives up. -/
structure Ebpf where
  map : Option Nat
  prog : Option Nat
  failed : Option Errno

abbrev Answer : Call → Type
  | .ifIndextoname _ => Except Errno (List UInt8)
  | .openDev _ => Except Errno Nat
  | .create _ => Except Errno Nat
  | .timerfdCreate _ => Except Errno Nat
  | .control _ _ => Except Errno Unit
  | .biocgblen _ => Except Errno Nat
  | .siocgifname _ _ => Except Errno (List UInt8)
  | .realloc _ => Bool
  | .ebpfSetup => Ebpf
  | .close _ => Unit

abbrev Sys (α : Type) := Prog Call Answer Errno α

abbrev Table := Nat → Option Desc

def Table.opened (t : Table) (fd : Nat) (d : Desc) : Table := Function.update t fd (some d)
def Table.closed (t : Table) (fd : Nat) : Table := Function.update t fd none

def Table.openedIf (t : Table) (fd : Option Nat) (d : Desc) : Table :=
  match fd with
  | none => t
  | some fd => t.opened fd d

def Table.closedIf (t : Table) (fd : Option Nat) : Table :=
  match fd with
  | none => t
  | some fd => t.closed fd

/-- A descriptor is used only while it is open, and a poller is told only of open ones. -/
def allows (t : Table) : Call → Prop
  | .control fd (.watch fds) => t fd ≠ none ∧ ∀ w ∈ fds, t w.1 ≠ none
  | .control fd (.attachBpf fdProg) => t fd ≠ none ∧ t fdProg ≠ none
  | .control fd _ => t fd ≠ none
  | .biocgblen fd => t fd ≠ none
  | .siocgifname fd _ => t fd ≠ none
  | .close fd => t fd ≠ none
  | _ => True

def ifNamesize : Nat := 16

/-- The names an interface goes by, more than one where it is renamed. -/
abbrev IfNames := Nat → List UInt8 → Prop

/-- A new descriptor is one that was not open, and a name is one of the interface asked about and
fits its buffer. -/
def answers (names : IfNames) (t : Table) : (c : Call) → Answer c → Prop
  | .ifIndextoname ifindex, .ok name => names ifindex name ∧ name.length < ifNamesize
  | .siocgifname _ ifindex, .ok name => names ifindex name
  | .openDev _, .ok fd => t fd = none
  | .create _, .ok fd => t fd = none
  | .timerfdCreate _, .ok fd => t fd = none
  | .ebpfSetup, b => (∀ fd, b.map = some fd → t fd = none) ∧ (∀ fd, b.prog = some fd → t fd = none) ∧
      ∀ fd, b.map = some fd → b.prog ≠ some fd
  | _, _ => True

def after (t : Table) : (c : Call) → Answer c → Table
  | .openDev _, .ok fd => t.opened fd ⟨.bpf, []⟩
  | .create kind, .ok fd => t.opened fd ⟨kind, []⟩
  | .timerfdCreate _, .ok fd => t.opened fd ⟨.timer, []⟩
  | .control fd op, .ok () => Function.update t fd ((t fd).map fun d => d.did op)
  | .ebpfSetup, b => (t.openedIf b.map ⟨.ebpf, []⟩).openedIf b.prog ⟨.ebpf, []⟩
  | .close fd, () => t.closed fd
  | _, _ => t

def kernel (names : IfNames) : Kernel Call Answer Table := ⟨allows, answers names, after⟩

/-! ### The calls as programs -/

def ifIndextoname (ifindex : Nat) : Sys (List UInt8) := .call (.ifIndextoname ifindex) .ret
def openDev (path : DevBpf) : Sys Nat := .call (.openDev path) .ret
def create (kind : Kind) : Sys Nat := .call (.create kind) .ret
def timerfdCreate (clock : Clock) : Sys Nat := .call (.timerfdCreate clock) .ret
def control (fd : Nat) (op : Op) : Sys Unit := .call (.control fd op) .ret
def biocgblen (fd : Nat) : Sys Nat := .call (.biocgblen fd) .ret
def siocgifname (fd ifindex : Nat) : Sys (List UInt8) := .call (.siocgifname fd ifindex) .ret
def close (fd : Nat) : Sys Unit := .call (.close fd) fun _ => .ret (.ok ())

def whenOpen (fd : Option Nat) (f : Nat → Sys Unit) : Sys Unit :=
  match fd with
  | none => .ret (.ok ())
  | some fd => f fd

def closeIf (fd : Option Nat) : Sys Unit := whenOpen fd close

/-! ### What they do to the table -/
section
variable {t : Table} {fd fd' : Nat} {d d' : Desc}

@[simp] theorem opened_self : t.opened fd d fd = some d := Function.update_self ..

theorem opened_of_ne (h : fd' ≠ fd) : t.opened fd d fd' = t fd' := Function.update_of_ne h ..

@[simp] theorem opened_opened : (t.opened fd d).opened fd d' = t.opened fd d' :=
  Function.update_idem ..

@[simp] theorem closed_self : t.closed fd fd = none := Function.update_self ..

theorem closed_of_ne (h : fd' ≠ fd) : t.closed fd fd' = t fd' := Function.update_of_ne h ..

theorem closedIf_of_ne {o : Option Nat} (h : o ≠ some fd) : t.closedIf o fd = t fd := by
  cases o with
  | none => rfl
  | some fd' => exact closed_of_ne fun he => h (congrArg some he.symm)

theorem openedIf_of_open {o : Option Nat} (hfree : ∀ fd, o = some fd → t fd = none)
    (h : t fd ≠ none) : t.openedIf o d fd = t fd := by
  cases o with
  | none => rfl
  | some fd' => exact opened_of_ne fun he => h (hfree fd (congrArg some he.symm))

theorem closed_opened (h : t fd = none) : (t.opened fd d).closed fd = t := by
  rw [Table.closed, Table.opened, Function.update_idem, ← h, Function.update_eq_self]

theorem after_control (op : Op) :
    after (t.opened fd d) (.control fd op) (.ok ()) = t.opened fd (d.did op) := by
  simp only [after, opened_self, Option.map_some]
  exact Function.update_idem ..

end

end PkgsrcPatches.Descriptors
