import PkgsrcPatches.Lib.ClassicBpf

/-! `struct bpf_hdr`, `BPF_WORDALIGN` and what one `read` of a BPF device
returns, for any ABI: field offsets, padding, alignment and word width vary. -/
namespace PkgsrcPatches.Bpf
open Lib.Bytes

def etherHdrLen : Nat := 14

/-- The shape of `struct bpf_hdr` and of `size_t` on one system. The fields lie
in the order every BSD declares them; trailing padding is allowed. -/
structure Abi where
  sizeofBpfHdr : Nat
  offsetofCaplen : Nat
  offsetofDatalen : Nat
  offsetofHdrlen : Nat
  bpfAlignment : Nat
  sizeBits : Nat
  bigEndian : Bool
  caplen_le : offsetofCaplen + 4 ≤ offsetofDatalen
  datalen_le : offsetofDatalen + 4 ≤ offsetofHdrlen
  hdrlen_le : offsetofHdrlen + 2 ≤ sizeofBpfHdr
  align_pos : 0 < bpfAlignment
  align_lt : bpfAlignment < 2^15
  sizeof_lt : sizeofBpfHdr < 2^15
  bits_ge : 32 ≤ sizeBits

def lp64 : Abi where
  sizeofBpfHdr := 32
  offsetofCaplen := 16
  offsetofDatalen := 20
  offsetofHdrlen := 24
  bpfAlignment := 8
  sizeBits := 64
  bigEndian := false
  caplen_le := by decide
  datalen_le := by decide
  hdrlen_le := by decide
  align_pos := by decide
  align_lt := by decide
  sizeof_lt := by decide
  bits_ge := by decide

variable (abi : Abi)

def Abi.size (v : Nat) : Nat := v % 2^abi.sizeBits
def uInt (v : Nat) : Nat := v % 2^32
def Abi.ssizeMax : Nat := 2^(abi.sizeBits - 1)

def Abi.host? (b : List UInt8) (i n : Nat) : Option Nat :=
  if abi.bigEndian then be? b i n else le? b i n

def Abi.bpfWordalign (x : Nat) : Nat :=
  abi.size (x + (abi.bpfAlignment - 1)) / abi.bpfAlignment * abi.bpfAlignment

structure BpfHdr where
  bhCaplen : Nat
  bhDatalen : Nat
  bhHdrlen : Nat
deriving DecidableEq

def Abi.bpfHdr? (b : List UInt8) (off : Nat) : Option BpfHdr := do
  let caplen ← abi.host? b (off + abi.offsetofCaplen) 4
  let datalen ← abi.host? b (off + abi.offsetofDatalen) 4
  let hdrlen ← abi.host? b (off + abi.offsetofHdrlen) 2
  pure ⟨caplen, datalen, hdrlen⟩

/-- One record as the kernel lays it: `hdr` runs from the record start to the
frame, so its length is `bh_hdrlen`, and everything in it but the three fields is
arbitrary. `BIOCGBLEN` is a `u_int`, so a record fits one. -/
structure Record where
  hdr : List UInt8
  frame : List UInt8
  datalen : Nat
  fields : abi.bpfHdr? hdr 0 = some ⟨frame.length, datalen, hdr.length⟩
  fits : hdr.length + frame.length < 2^32

variable {abi}

def Record.bytes (r : Record abi) : List UInt8 := r.hdr ++ r.frame
def Record.whole (r : Record abi) : Prop := r.datalen = r.frame.length
def Record.packet (r : Record abi) : Lib.ClassicBpf.Packet :=
  ⟨r.frame, by have := r.fits; omega⟩
instance (r : Record abi) : Decidable r.whole := inferInstanceAs (Decidable (_ = _))

/-- The next record starts at the `BPF_WORDALIGN` boundary. -/
def Record.stride (r : Record abi) : Nat := abi.bpfWordalign r.bytes.length

/-- A buffer of records. Padding is arbitrary and the last one may lack it. -/
inductive Laid : List UInt8 → List (Record abi) → Prop
  | nil : Laid [] []
  | last (r : Record abi) (pad : List UInt8) (h : (r.bytes ++ pad).length < r.stride) :
      Laid (r.bytes ++ pad) [r]
  | cons (r : Record abi) (pad rest : List UInt8) (rs : List (Record abi))
      (h : (r.bytes ++ pad).length = r.stride) (t : Laid rest rs) :
      Laid (r.bytes ++ pad ++ rest) (r :: rs)

variable (abi)

/-- What one `read` returns: laid records, as many bytes as an `ssize_t` counts. -/
structure Buffer where
  bytes : List UInt8
  recs : List (Record abi)
  laid : Laid bytes recs
  ssize : bytes.length < abi.ssizeMax

end PkgsrcPatches.Bpf
