import PkgsrcPatches.NDhcp4.PacketBsd
import PkgsrcPatches.NDhcp4.PacketLinux
import PkgsrcPatches.Bpf.Layout

/-! The raw receive path on both systems: filter, then decoder. One IP packet is
delivered by both or by neither, and as the same datagram. -/
namespace PkgsrcPatches.NDhcp4
open Lib.Bytes Lib.ClassicBpf Lib.Loop Bpf
variable {abi : Abi}

/-- What an `AF_PACKET` socket queues: as many bytes as the filter returned. -/
def skbOf (ip : Packet) (auxdata : Option UInt32) : Skb :=
  ⟨ip.bytes.take (filter nDhcp4LinuxClientFilter ip), auxdata⟩

def BsdDelivers (r : Record abi) (rbuf : List UInt8) (nBuf : Nat) (d : Datagram) : Prop :=
  accepts nDhcp4BsdClientFilter r.packet ∧ packetBsdParse abi rbuf nBuf = .ret (some d)

def LinuxDelivers (ip : Packet) (auxdata : Option UInt32) (nBuf : Nat) (d : Datagram) : Prop :=
  accepts nDhcp4LinuxClientFilter ip ∧
    packetRecvfromUdpLinux [skbOf ip auxdata] nBuf = some (.ok (some d), [])

theorem filter_linux {ip : Packet} (h : accepts nDhcp4LinuxClientFilter ip) :
    filter nDhcp4LinuxClientFilter ip = 65535 :=
  filter_eq (by simp [nDhcp4LinuxClientFilter]) h

theorem frag_of_reply {ip : List UInt8} (h : DhcpReply ip) :
    Nat.land (ipOff ip) ipFragMask = 0 := (land_fragMask _).mpr ⟨h.noMf, h.noOffset⟩

theorem linuxDeliverable_eq {k : Skb} {nBuf : Nat} (hk : k.checksum = true)
    (hf : Nat.land (ipOff k.data) ipFragMask = 0) (hn : maxUdpPayload ≤ nBuf) :
    linuxDeliverable k nBuf = deliverable true k.data nBuf := by
  have hlt : ipLen k.data < 256 ^ 2 := beAt_lt k.data 2 2
  rw [linuxDeliverable, hk]
  by_cases hroom : ipLen k.data ≤ ipHdrLen k.data + udpHdrLen + nBuf
  · rw [if_pos ⟨hf, hroom⟩]
  · rw [if_neg fun h => hroom h.2, deliverable_eq_none]
    intro u
    have h1 := u.hdr
    simp only [packetIpHdrLen, udpHdrLen, maxUdpPayload] at *
    omega

/-- An accepted packet is unfragmented, so the receiver's own check changes
nothing, and what the filter cuts off lies past any IP length. -/
theorem linuxDelivers_iff (ip : Packet) {auxdata : Option UInt32} {nBuf : Nat}
    (haux : (skbOf ip auxdata).checksum = true) (hn : maxUdpPayload ≤ nBuf) (d : Datagram) :
    LinuxDelivers ip auxdata nBuf d ↔
      DhcpReply ip.bytes ∧ deliverable true ip.bytes nBuf = some d := by
  rw [LinuxDelivers, linux_accepts_iff]
  refine and_congr_right fun hr => ?_
  have hf := filter_linux ((linux_accepts_iff ip).mpr hr)
  have hoff : ipOff (skbOf ip auxdata).data = ipOff ip.bytes := by
    simp only [ipOff, beAt, skbOf, hf, slice_take _ _ 6 2 (show 6 + 2 ≤ 65535 by omega)]
  have hdel : linuxDeliverable (skbOf ip auxdata) nBuf = deliverable true ip.bytes nBuf := by
    rw [linuxDeliverable_eq haux (by rw [hoff]; exact frag_of_reply hr) hn, skbOf, hf,
      deliverable_take _ _ _ (le_refl _)]
  simp [packetRecvfromUdpLinux, packetRecvfromUdpSkb_eq, hdel]

theorem bsdDelivers_iff (b : Buffer abi) {r : Record abi} (hb : b.recs = [r])
    (hv : r.visible = true) (hw : r.whole) (nBuf : Nat) (d : Datagram) :
    BsdDelivers r b.bytes nBuf d ↔ ethertype? r.frame = some ethertypeIp ∧
      DhcpReply (r.frame.drop etherHdrLen) ∧
      deliverable true (r.frame.drop etherHdrLen) nBuf = some d := by
  have hparse : packetBsdParse abi b.bytes nBuf =
      .ret (deliverable true (r.frame.drop etherHdrLen) nBuf) := by
    rw [packetBsdParse_buffer, hb, visibleRecs, List.takeWhile_cons, hv]
    simp [usable, hw.symm]
  rw [BsdDelivers, bsd_accepts_iff, hparse, and_assoc]
  simp only [Record.packet, Exit.ret.injEq]

/-- Both systems deliver the same raw replies: behind an Ethernet header, and
captured whole, an IP packet of any length and content reaches the caller of one
exactly when it reaches the caller of the other, as the same datagram. -/
theorem raw_replies_agree (b : Buffer abi) (r : Record abi) (addrs : List UInt8) (ip : Packet)
    (auxdata : Option UInt32) (nBuf : Nat) (hb : b.recs = [r])
    (hhdr : abi.sizeofBpfHdr ≤ r.hdr.length) (hw : r.whole) (haddrs : addrs.length = 2 * etherAddrLen)
    (hframe : r.frame = addrs ++ beBytes 2 ethertypeIp ++ ip.bytes)
    (haux : ∀ tpStatus ∈ auxdata, tpStatus &&& tpStatusCsumnotready = 0)
    (hn : maxUdpPayload ≤ nBuf) (d : Datagram) :
    (BsdDelivers r b.bytes nBuf d ↔ LinuxDelivers ip auxdata nBuf d) ∧
      (BsdDelivers r b.bytes nBuf d → d.buf.length = d.nTransmitted) := by
  have hck : (skbOf ip auxdata).checksum = true := by
    cases auxdata with
    | none => rfl
    | some st => simp [skbOf, Skb.checksum, haux st rfl]
  have heth : (addrs ++ beBytes 2 ethertypeIp).length = etherHdrLen := by
    rw [List.length_append, haddrs, beBytes_length]; rfl
  have hdrop : r.frame.drop etherHdrLen = ip.bytes := by
    rw [hframe, ← heth, List.drop_left]
  have htype : ethertype? r.frame = some ethertypeIp := by
    have hat := beAt_beBytes 2 ethertypeIp ip.bytes (by decide)
    rw [ethertype?, be?_eq_some, hframe, List.append_assoc, List.length_append,
      List.length_append, beBytes_length, haddrs, beAt_skip _ _ (by rw [haddrs]; decide), haddrs]
    exact ⟨by simp only [etherAddrLen]; omega, hat⟩
  rw [bsdDelivers_iff b hb (Record.visible_iff.mpr hhdr) hw, linuxDelivers_iff ip hck hn, hdrop]
  refine ⟨by simp [htype], fun h => ?_⟩
  obtain ⟨-, -, hd⟩ := h
  rw [deliverable] at hd
  split at hd
  · rename_i u
    rw [← Option.some.inj hd]
    exact u.datagram_length nBuf
  · cases hd

def offerPayload : List UInt8 := opBootreply.toUInt8 :: (List.replicate 235 0 ++ beBytes 4 messageMagic)

def offer (server : UInt32) : List UInt8 :=
  ipPacket ⟨.inet, server, 67⟩ ⟨.inet, 0xffffffff, 68⟩ 0 offerPayload

theorem offerPayload_length : offerPayload.length = 240 := by
  simp only [offerPayload, List.length_cons, List.length_append, List.length_replicate,
    beBytes_length]

theorem offer_length (server : UInt32) : (offer server).length = 268 := by
  rw [offer, ipPacket_length, offerPayload_length]

def offerFrame (server : UInt32) : List UInt8 :=
  List.replicate 12 2 ++ beBytes 2 ethertypeIp ++ offer server

theorem offerFrame_length (server : UInt32) : (offerFrame server).length = 282 := by
  simp only [offerFrame, List.length_append, List.length_replicate, beBytes_length, offer_length]

def offerRecord (server : UInt32) : Record lp64 :=
  lp64WholeRecord (offerFrame server) (by rw [offerFrame_length]; decide)

theorem raw_replies_agree_offer :
    let r := offerRecord 0x0a000001
    let ip : Packet := ⟨offer 0x0a000001, by rw [offer_length]; decide⟩
    let d : Datagram := ⟨offerPayload, 240, ⟨.inet, 0x0a000001, 67⟩⟩
    (BsdDelivers r (pack [r]) maxUdpPayload d ↔ LinuxDelivers ip (some 1) maxUdpPayload d) ∧
      (BsdDelivers r (pack [r]) maxUdpPayload d → d.buf.length = d.nTransmitted) :=
  raw_replies_agree (.ofRecords [offerRecord 0x0a000001] (by decide +kernel)) _
    (List.replicate 12 2) _ (some 1) _ rfl (by decide) rfl (by decide) rfl
    (by intro _ h; cases h; decide) (le_refl _) _

end PkgsrcPatches.NDhcp4
