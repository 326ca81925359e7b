import PkgsrcPatches.Bpf.Walk
import PkgsrcPatches.Os

/-! n-acd's BSD seam: the ARP filter, the BPF device and the framing of a read.
The read buffer, its length and the address are file-scope, shared by every NAcd
of the process. -/
namespace PkgsrcPatches.NAcd
open Lib.Bytes Lib.Loop Bpf

def sizeofEtherArp : Nat := 28

def nAcdBsdFilter : List Lib.ClassicBpf.Insn := [
  .ld .h (.abs 12),                   -- A <- ethertype
  .jmp .jeq 0x0806 0 3,
  .ld .h (.abs (etherHdrLen + 0)),    -- A <- hardware type
  .jmp .jeq 1 0 1,
  .ret 0xffffffff,
  .ret 0]

/-- One entry of `out` and `lens`: the bytes stored and the length reported. -/
structure EtherArp where
  data : List UInt8
  len : Nat
deriving DecidableEq

variable (abi : Abi)

/-- Only whole frames are passed on, cut to what an `ether_arp` holds. -/
def visitArp (buf : List UInt8) (off : Nat) (bh : BpfHdr) (out : List EtherArp) :
    Option (Pass (List EtherArp) (List EtherArp)) :=
  if bh.bhCaplen = bh.bhDatalen ∧ etherHdrLen ≤ bh.bhCaplen then
    let frame := bh.bhCaplen - etherHdrLen
    let payload := abi.size (off + bh.bhHdrlen + etherHdrLen)
    let frame := if sizeofEtherArp < frame then sizeofEtherArp else frame
    (slice? buf payload frame).map fun data => .next (out ++ [⟨data, frame⟩])
  else
    some (.next out)

/-- The loop of `n_acd_bsd_read_arp` over what `read` returned. Every pass moves
`off` or fills an entry, so these passes are enough. -/
def readArpLoop (buf : List UInt8) (nOut : Nat) : Exit (List EtherArp) :=
  run (abi.walkPass buf (fun out => decide (out.length < nOut)) (visitArp abi buf) id)
    (buf.length + nOut + 1) (0, [])

/-- `n_acd_bsd_read_arp`: a wakeup that carried nothing reports zero packets. -/
def nAcdBsdReadArp (len : Except Errno (List UInt8)) (nOut : Nat) :
    Exit (Except Errno (List EtherArp)) :=
  match len with
  | .error e => .ret (if e = .eagain ∨ e = .eintr then .ok [] else .error e)
  | .ok buf => match readArpLoop abi buf nOut with
    | .ret out => .ret (.ok out)
    | .stray => .stray
    | .spin => .spin

/-! ### Opening the device -/

structure OpenAnswers where
  openBpf : Except Errno Nat
  openBpfN : Nat → Except Errno Nat
  biocsetif : Except Errno Unit
  biocimmediate : Except Errno Unit
  biocshdrcmplt : Except Errno Unit
  biocsetf : Except Errno Unit
  biocgblen : Except Errno Nat
  setfl : Except Errno Unit

def tryNext (e : Errno) : Bool := e = .enoent ∨ e = .ebusy

def openNumbered (k : OpenAnswers) (last : Except Errno Nat) : List Nat → Except Errno Nat
  | [] => last
  | i :: rest => match k.openBpfN i with
    | .ok fd => .ok fd
    | .error e => if tryNext e then openNumbered k (.error e) rest else .error e

def openDev (k : OpenAnswers) : Except Errno Nat :=
  match k.openBpf with
  | .ok fd => .ok fd
  | .error e => if tryNext e then openNumbered k (.error e) (List.range 256) else .error e

def nAcdBsdOpenBpf (k : OpenAnswers) : Except Errno (Nat × Nat) := do
  let fd ← openDev k
  k.biocsetif
  k.biocimmediate
  k.biocshdrcmplt
  k.biocsetf
  let blen ← k.biocgblen
  k.setfl
  pure (fd, blen)

/-! ### The file-scope state -/

/-- `n_acd_bsd_buf` (the size allocated, or NULL), `n_acd_bsd_buflen` and
`n_acd_bsd_mac`. -/
structure Globals where
  nAcdBsdBuf : Option Nat
  nAcdBsdBuflen : Nat
  nAcdBsdMac : List UInt8

def Globals.init : Globals := ⟨none, 0, List.replicate etherAddrLen 0⟩

/-- The buffer after a device that reads `blen` bytes was opened, or `none` when
`realloc` failed. -/
def growBuf (g : Globals) (blen : Nat) (realloc : Bool) : Option Globals :=
  if g.nAcdBsdBuflen < blen then
    if realloc then some { g with nAcdBsdBuf := some blen, nAcdBsdBuflen := blen } else none
  else
    some g

def nAcdOsSocketNew (g : Globals) (ifIndextoname : Except Errno String) (k : OpenAnswers)
    (realloc : Bool) (getifaddrs : Except Errno (List IfAddr)) :
    Except Errno (Nat × Nat) × Globals :=
  match ifIndextoname with
  | .error e => (.error e, g)
  | .ok ifname => match nAcdBsdOpenBpf k with
    | .error e => (.error e, g)
    | .ok (fd, blen) => match growBuf g blen realloc with
      | none => (.error .enomem, g)
      | some g' =>
        let mac := match findHwaddr getifaddrs ifname with
          | .ok mac => mac
          | .error _ => g'.nAcdBsdMac
        (.ok (fd, blen), { g' with nAcdBsdMac := mac })

/-- What `n_acd_os_socket_recv` asks `read` for, and the size of the buffer it
hands over: nothing when no device was ever opened. -/
structure ReadCall where
  len : Nat
  size : Nat
deriving DecidableEq

def readCall (g : Globals) : Option ReadCall :=
  g.nAcdBsdBuf.map fun size => ⟨g.nAcdBsdBuflen, size⟩

def nAcdOsSocketRecv (g : Globals) (read : Nat → Except Errno (List UInt8)) (nOut : Nat) :
    Exit (Except Errno (List EtherArp)) :=
  match readCall g with
  | none => .ret (.error .ebadf)
  | some c => nAcdBsdReadArp abi (read c.len) nOut

end PkgsrcPatches.NAcd
