import PkgsrcPatches.Lib.Syscall
import PkgsrcPatches.NAcd.Batch
import PkgsrcPatches.NAcd.Split

/-! Sending an ARP through either half of n-acd's seam: the BSD half writes the Ethernet header
itself, the Linux half leaves it to the kernel, and the frame is the same. -/
namespace PkgsrcPatches.NAcd
open Lib.Bytes Lib.ClassicBpf Lib.Syscall Bpf

inductive SendCall where
  | write (frame : List UInt8)
  | sendto (payload : List UInt8) (address : SockaddrLl)

def SendCall.size : SendCall → Nat
  | .write frame => frame.length
  | .sendto payload _ => payload.length

/-- What a call that is carried out puts on the wire: as it is, or behind a header that the
kernel makes of the address and of the interface's own. -/
def SendCall.frame (dev : List UInt8) : SendCall → List UInt8
  | .write frame => frame
  | .sendto payload address => address.addr ++ (dev ++ (beBytes 2 address.protocol ++ payload))

/-- The kernel under an interface, its state the frames it has sent: it sends the whole of a
packet or none of it. -/
def wire (dev : List UInt8) : Lib.Syscall.Kernel SendCall (fun _ => Except Errno Nat) (List (List UInt8)) where
  allows _ _ := True
  answers _ _ _ := True
  after frames c
    | .ok n => if n = c.size then frames ++ [c.frame dev] else frames
    | .error _ => frames

abbrev Send := Prog SendCall (fun _ => Except Errno Nat) Errno Unit

def arpFrame (mac arp : List UInt8) : List UInt8 :=
  List.replicate etherAddrLen 0xff ++ (mac ++ (beBytes 2 0x0806 ++ arp))

def nAcdBsdSendArp (mac arp : List UInt8) : Send :=
  .call (.write (arpFrame mac arp)) fun
    | .error e => .ret (.error e)
    | .ok len => .ret (if len ≠ (arpFrame mac arp).length then .error .eio else .ok ())

/-- `n_acd_os_socket_send`; `none` is NULL. -/
def nAcdOsSocketSendBsd (g : Globals) (mac : Option (List UInt8)) (arp : List UInt8) : Send :=
  nAcdBsdSendArp (mac.getD g.nAcdBsdMac) arp

def nAcdOsSocketSendLinux (ifindex : Nat) (arp : List UInt8) : Send :=
  .call (.sendto arp (broadcastAddress ifindex)) fun l =>
    .ret (nAcdOsSocketSend (fun _ _ => l) ifindex arp)

def Puts (sent : List (List UInt8)) (frame : List UInt8) (frames : List (List UInt8)) :
    Except Errno Unit → Prop
  | .ok () => frames = sent ++ [frame]
  | .error _ => frames = sent

theorem nAcdOsSocketSendBsd_puts (dev : List UInt8) (g : Globals) (mac arp : List UInt8)
    (sent : List (List UInt8)) :
    (nAcdOsSocketSendBsd g (some mac) arp).Meets (wire dev) (Puts sent (arpFrame mac arp)) sent := by
  refine ⟨trivial, ?_⟩
  intro r _
  cases r with
  | error e => exact (rfl : sent = sent)
  | ok len =>
    by_cases hl : len = (arpFrame mac arp).length
    · subst hl
      simp [Prog.Meets, Puts, wire, SendCall.size, SendCall.frame]
    · simp [Prog.Meets, Puts, wire, SendCall.size, hl]

theorem nAcdOsSocketSendLinux_puts {mac arp : List UInt8} (ifindex : Nat)
    (harp : arp.length = sizeofEtherArp) (sent : List (List UInt8)) :
    (nAcdOsSocketSendLinux ifindex arp).Meets (wire mac) (Puts sent (arpFrame mac arp)) sent := by
  refine ⟨trivial, ?_⟩
  intro r _
  cases r with
  | error e => exact (rfl : sent = sent)
  | ok len =>
    by_cases hl : len = sizeofEtherArp
    · subst hl
      simp [Prog.Meets, nAcdOsSocketSend, Puts, wire, SendCall.size, SendCall.frame, harp,
        broadcastAddress, arpFrame, etherAddrLen]
    · simp [Prog.Meets, nAcdOsSocketSend, Puts, wire, SendCall.size, harp, hl]

/-! ### The frame at the other end -/

structure Arp where
  bytes : List UInt8
  length_eq : bytes.length = sizeofEtherArp
  arHrd : beAt bytes 0 2 = 1

section
variable {mac : List UInt8} (hmac : mac.length = etherAddrLen) (arp : Arp)

include hmac

theorem arpFrame_length : (arpFrame mac arp.bytes).length = etherHdrLen + sizeofEtherArp := by
  simp only [arpFrame, List.length_append, List.length_replicate, hmac, arp.length_eq,
    beBytes_length, etherAddrLen, etherHdrLen]
  omega

theorem arpFrame_drop : (arpFrame mac arp.bytes).drop etherHdrLen = arp.bytes := by
  rw [arpFrame, ← List.append_assoc, ← List.append_assoc]
  apply List.drop_left'
  simp [hmac, beBytes_length, etherAddrLen, etherHdrLen]

theorem arpFrame_type : beAt (arpFrame mac arp.bytes) 12 2 = 0x0806 := by
  rw [arpFrame, beAt_skip _ _ (by simp [etherAddrLen]), List.length_replicate,
    beAt_skip _ _ (by simp [hmac, etherAddrLen]), hmac]
  exact beAt_beBytes 2 0x0806 _ (by decide)

theorem arpOf_arpFrame : arpOf (arpFrame mac arp.bytes) = ⟨arp.bytes, sizeofEtherArp⟩ := by
  rw [arpOf, arpFrame_drop hmac, arpFrame_length hmac, ← arp.length_eq, List.take_length]
  simp

theorem arpFrame_accepted (h : (arpFrame mac arp.bytes).length < 2^32) :
    accepts nAcdBsdFilter ⟨arpFrame mac arp.bytes, h⟩ := by
  have hlen := arpFrame_length hmac arp
  have hhrd : beAt (arpFrame mac arp.bytes) 14 2 = 1 := calc
    beAt (arpFrame mac arp.bytes) 14 2 = beAt ((arpFrame mac arp.bytes).drop etherHdrLen) 0 2 :=
      (beAt_drop _ etherHdrLen 0 2).symm
    _ = 1 := by rw [arpFrame_drop hmac, arp.arHrd]
  rw [accepts_iff_wp]
  simp [nAcdBsdFilter, Size.bytes, Jmp.test, hlen, arpFrame_type hmac arp, hhrd, sizeofEtherArp,
    etherHdrLen]

end

end PkgsrcPatches.NAcd
