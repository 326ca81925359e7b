import PkgsrcPatches.NDhcp4.Packet

/-! `packet-linux.c`: what is handed to `sendmsg`, and the receiver that peeks at
the IP header before it scatters the packet into three buffers. -/
namespace PkgsrcPatches.NDhcp4
open Lib.Bytes Lib.InternetChecksum

/-! ### Sending -/

structure SendMsg where
  name : PacketSockaddrLl
  bytes : List UInt8

/-- `packet_sendto_udp`; no result where its assertion on `sendmsg` fails. The
function removed from `packet.c` has the same text. -/
def packetSendtoUdpLinux (sendmsg : SendMsg → Except Errno Nat) (buf : List UInt8)
    (srcPaddr : SockaddrIn) (destHaddr : PacketSockaddrLl) (destPaddr : SockaddrIn)
    (dscp : UInt8) : SendMsg × Option (Except Errno Nat) :=
  let msg := ⟨destHaddr, ipPacket srcPaddr destPaddr dscp buf⟩
  (msg, match sendmsg msg with
    | .error e => some (.error e)
    | .ok pktlen =>
      if packetIpHdrLen + udpHdrLen + buf.length ≤ pktlen then some (.ok buf.length) else none)

/-! ### Receiving -/

/-- A queued packet and the `tp_status` of its `PACKET_AUXDATA`, if it has one. -/
structure Skb where
  data : List UInt8
  auxdata : Option UInt32

def tpStatusCsumnotready : UInt32 := 8

def Skb.checksum (k : Skb) : Bool :=
  match k.auxdata with
  | none => true
  | some tpStatus => tpStatus &&& tpStatusCsumnotready == 0

structure Scatter where
  ipHdr : List UInt8
  udpHdr : List UInt8
  buf : List UInt8
  pktlen : Nat

def recvmsg (data : List UInt8) (hdrlen nBuf : Nat) : Scatter :=
  let got := slice data 0 (hdrlen + udpHdrLen + nBuf)
  { ipHdr := slice got 0 hdrlen
    udpHdr := slice got hdrlen udpHdrLen
    buf := got.drop (hdrlen + udpHdrLen)
    pktlen := got.length }

/-- The checks on the packet at the head of the queue, in their order. The outer
`none` would be a read of bytes that `recv` did not write. -/
def packetRecvfromUdpSkb (k : Skb) (nBuf : Nat) : Option (Option Datagram) := do
  let ipHdr := slice k.data 0 packetIpHdrLen
  if ipHdr.length < packetIpHdrLen then pure none else
  let vhl ← be? ipHdr 0 1
  if vhl / 16 ≠ ipversion then pure none else
  let hdrlen := 4 * (vhl % 16)
  if hdrlen < packetIpHdrLen then pure none else
  let m := recvmsg k.data hdrlen nBuf
  let totLen ← be? m.ipHdr 2 2
  if m.pktlen < totLen then pure none else
  if totLen < hdrlen + udpHdrLen then pure none else
  let udplen ← be? m.udpHdr 4 2
  if totLen < hdrlen + udplen then pure none else
  if udplen < udpHdrLen then pure none else
  let pktlen := udplen - udpHdrLen
  if (← be? m.ipHdr 9 1) ≠ ipprotoUdp then pure none else
  if Nat.land (← be? m.ipHdr 6 2) ipFragMask ≠ 0 then pure none else
  if k.checksum = true ∧ checksum (← slice? m.ipHdr 0 hdrlen) ≠ 0 then pure none else
  let saddr ← be? m.ipHdr 12 4
  let daddr ← be? m.ipHdr 16 4
  let source ← be? m.udpHdr 0 2
  let dest ← be? m.udpHdr 2 2
  let check ← be? m.udpHdr 6 2
  let buf ← slice? m.buf 0 pktlen
  if (k.checksum = true ∧ check ≠ 0) ∧ packetInternetChecksumUdp (.ofNat saddr) (.ofNat daddr)
      (.ofNat source) (.ofNat dest) buf check ≠ 0 then pure none else
  pure (some ⟨buf, pktlen, ⟨.inet, .ofNat saddr, .ofNat source⟩⟩)

/-- `packet_recvfrom_udp`: one call takes one packet off the queue, and an empty
queue is `EAGAIN`. -/
def packetRecvfromUdpLinux (queue : List Skb) (nBuf : Nat) :
    Option (Except Errno (Option Datagram) × List Skb) :=
  match queue with
  | [] => some (.error .eagain, [])
  | k :: rest => (packetRecvfromUdpSkb k nBuf).map fun d => (.ok d, rest)

/-! ### The receiver in terms of packets -/

/-- A packet is refused as a fragment as well, and when the caller has no room
for its payload and what follows it. -/
def linuxDeliverable (k : Skb) (nBuf : Nat) : Option Datagram :=
  if Nat.land (ipOff k.data) ipFragMask = 0 ∧ ipLen k.data ≤ ipHdrLen k.data + udpHdrLen + nBuf then
    deliverable k.checksum k.data nBuf
  else none

section Scatter
variable {data : List UInt8} {hdrlen nBuf : Nat}

theorem recvmsg_pktlen :
    (recvmsg data hdrlen nBuf).pktlen = min (hdrlen + udpHdrLen + nBuf) data.length := by
  simp [recvmsg, length_slice]

theorem be?_recvmsg_ipHdr {i n : Nat} (hi : i + n ≤ hdrlen) (hd : i + n ≤ data.length) :
    be? (recvmsg data hdrlen nBuf).ipHdr i n = some (beAt data i n) := by
  rw [be?_of_le (by simp only [recvmsg, length_slice]; omega)]
  simp only [recvmsg]
  rw [beAt_slice _ _ _ _ _ hi, beAt_slice _ _ _ _ _ (by omega), Nat.zero_add, Nat.zero_add]

theorem slice?_recvmsg_ipHdr (hd : hdrlen ≤ data.length) :
    slice? (recvmsg data hdrlen nBuf).ipHdr 0 hdrlen = some (slice data 0 hdrlen) := by
  rw [slice?_of_le (by simp only [recvmsg, length_slice]; omega)]
  simp only [recvmsg]
  rw [slice_slice _ _ _ _ _ (by omega), slice_slice _ _ _ _ _ (by omega)]

theorem be?_recvmsg_udpHdr {i n : Nat} (hi : i + n ≤ udpHdrLen)
    (hd : hdrlen + udpHdrLen ≤ data.length) :
    be? (recvmsg data hdrlen nBuf).udpHdr i n = some (beAt data (hdrlen + i) n) := by
  rw [be?_of_le (by simp only [recvmsg, length_slice]; omega)]
  simp only [recvmsg]
  rw [beAt_slice _ _ _ _ _ hi, beAt_slice _ _ _ _ _ (by omega), Nat.zero_add]

theorem slice?_recvmsg_buf {n : Nat} (hn : n ≤ nBuf)
    (hd : hdrlen + udpHdrLen + n ≤ data.length) :
    slice? (recvmsg data hdrlen nBuf).buf 0 n = some (slice data (hdrlen + udpHdrLen) n) := by
  rw [slice?_of_le (by simp only [recvmsg, List.length_drop, length_slice]; omega)]
  simp only [recvmsg]
  rw [slice_drop, slice_slice _ _ _ _ _ (by omega), Nat.zero_add, Nat.add_zero]

end Scatter

theorem packetRecvfromUdpSkb_eq (k : Skb) (nBuf : Nat) :
    packetRecvfromUdpSkb k nBuf = some (linuxDeliverable k nBuf) := by
  have hno (h : ¬ UdpPacket k.checksum k.data) : linuxDeliverable k nBuf = none := by
    rw [linuxDeliverable, deliverable_eq_none h, ite_self]
  have hfrag (h : Nat.land (ipOff k.data) ipFragMask ≠ 0) : linuxDeliverable k nBuf = none :=
    if_neg fun hc => h hc.1
  have hroom (h : ipHdrLen k.data + udpHdrLen + nBuf < ipLen k.data) :
      linuxDeliverable k nBuf = none := if_neg fun hc => by omega
  have hyes (hf : Nat.land (ipOff k.data) ipFragMask = 0)
      (hr : ipLen k.data ≤ ipHdrLen k.data + udpHdrLen + nBuf) (u : UdpPacket k.checksum k.data) :
      linuxDeliverable k nBuf = some (datagramOf k.data nBuf) := by
    rw [linuxDeliverable, if_pos ⟨hf, hr⟩, deliverable, if_pos u]
  simp only [packetRecvfromUdpSkb]
  generalize linuxDeliverable k nBuf = d at *
  generalize k.data = ip at *
  generalize k.checksum = verify at *
  have hpeek : (slice ip 0 packetIpHdrLen).length = min packetIpHdrLen ip.length := by
    simp [length_slice]
  refine refuse (fun h => hno fun u => ?_) fun h0 => ?_
  · have h1 := u.hdr
    have h2 := u.room
    have h3 := u.whole
    omega
  rw [be?_of_le (by rw [hpeek]; simp only [packetIpHdrLen] at *; omega),
    beAt_slice _ _ _ _ _ (by decide)]
  simp only [Option.bind_eq_bind, Option.bind_some, Nat.zero_add, beAt_ihl]
  refine refuse (fun h => hno fun u => h u.version) fun hv => ?_
  refine refuse (fun h => hno fun u => ?_) fun hh => ?_
  · have h1 := u.hdr
    omega
  have hlen : 20 ≤ ip.length := by
    simp only [packetIpHdrLen] at *; omega
  have hhl : 20 ≤ ipHdrLen ip := by
    simp only [packetIpHdrLen] at hh; omega
  have hfield {i n : Nat} (hi : i + n ≤ 20) :
      be? (recvmsg ip (ipHdrLen ip) nBuf).ipHdr i n = some (beAt ip i n) :=
    be?_recvmsg_ipHdr (by omega) (by omega)
  rw [hfield (by omega), hfield (by omega), hfield (by omega), hfield (by omega),
    hfield (by omega), recvmsg_pktlen]
  simp only [Option.bind_some, beAt_len]
  refine refuse (fun h => ?_) fun hw => ?_
  · by_cases hl : ipLen ip ≤ ip.length
    · exact hroom (by omega)
    · exact hno fun u => hl u.whole
  refine refuse (fun h => hno fun u => ?_) fun hr => ?_
  · have h1 := u.room
    omega
  have hudp {i n : Nat} (hi : i + n ≤ udpHdrLen) :
      be? (recvmsg ip (ipHdrLen ip) nBuf).udpHdr i n = some (beAt ip (ipHdrLen ip + i) n) :=
    be?_recvmsg_udpHdr hi (by omega)
  rw [hudp (by decide), hudp (by decide), hudp (by decide), hudp (by decide),
    slice?_recvmsg_ipHdr (by omega)]
  simp only [Option.bind_some, beAt_udpLen, beAt_udpCheck, beAt_udpSport, beAt_udpDport]
  refine refuse (fun h => hno fun u => ?_) fun hmax => ?_
  · have h1 := u.udpMax
    omega
  refine refuse (fun h => hno fun u => ?_) fun hmin => ?_
  · have h1 := u.udpMin
    omega
  refine refuse (fun h => hno fun u => h u.udp) fun hu => ?_
  refine refuse hfrag fun hf => ?_
  refine refuse (fun h => hno fun u => h.2 (u.ipSum h.1)) fun hs => ?_
  rw [slice?_recvmsg_buf (by omega) (by omega)]
  simp only [Option.bind_some]
  refine refuse (fun h => hno fun u => ?_) fun hc => ?_
  · cases u.udpSum h.1.1 with
    | inl h0 => exact h.1.2 h0
    | inr h0 => exact h.2 h0
  have u : UdpPacket verify ip := {
    version := not_not.mp hv
    hdr := by omega
    udp := not_not.mp hu
    whole := by omega
    room := by omega
    ipSum := fun hver => not_not.mp fun h0 => hs ⟨hver, h0⟩
    udpMin := by omega
    udpMax := by omega
    udpSum := fun hver => Classical.or_iff_not_imp_left.mpr fun h0 =>
      not_not.mp fun h1 => hc ⟨⟨hver, h0⟩, h1⟩ }
  have hle : udpLen ip - udpHdrLen ≤ nBuf := by omega
  rw [hyes (not_not.mp hf) (by omega) u, datagramOf, Nat.min_eq_left hle,
    List.take_of_length_le (by rw [u.payload_length]; exact hle)]
  rfl

end PkgsrcPatches.NDhcp4
