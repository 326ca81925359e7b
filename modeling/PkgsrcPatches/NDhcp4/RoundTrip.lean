import PkgsrcPatches.NDhcp4.PacketBsd
import PkgsrcPatches.Bpf.Layout

/-! What the BSD sender writes is what the BSD receiver reads: every header
field, both checksums, and the payload. -/
namespace PkgsrcPatches.NDhcp4
open Lib.Bytes Lib.InternetChecksum Lib.Loop Bpf

section Fields
variable (src dst : SockaddrIn) (dscp : UInt8) (buf : List UInt8)

theorem ipPacket_eq : ipPacket src dst dscp buf =
    ([0x45, dscp <<< 2] : List UInt8) ++ (beBytes 2 (packetIpHdrLen + udpHdrLen + buf.length) ++
      (beBytes 2 0 ++ (beBytes 2 ipDf ++ (([ipdefttl, 17] : List UInt8) ++
        (beBytes 2 (checksum (ipHdrWith src dst dscp buf 0)) ++
        (beBytes 4 src.sinAddr.toNat ++ (beBytes 4 dst.sinAddr.toNat ++
          (beBytes 2 src.sinPort.toNat ++ (beBytes 2 dst.sinPort.toNat ++
            (beBytes 2 (udpHdrLen + buf.length) ++ (beBytes 2 (udpSum src dst buf) ++ buf))))))))))) := by
  simp only [ipPacket, ipHdr, udpHdr, ipHdrWith, List.append_assoc]

theorem udpSum_lt : udpSum src dst buf < 256 ^ 2 := by
  have h := checksum_lt (udpPhdr src.sinAddr dst.sinAddr src.sinPort dst.sinPort buf.length ++
    beBytes 2 0 ++ buf)
  cases udpSum_cases src dst buf with
  | inl h1 => rw [h1, packetInternetChecksumUdp]; omega
  | inr h1 => omega

theorem beAt_ipPacket_vhl : beAt (ipPacket src dst dscp buf) 0 1 = 0x45 := by
  rw [ipPacket_eq]
  rfl

theorem ipHdrLen_ipPacket : ipHdrLen (ipPacket src dst dscp buf) = 20 := by
  rw [ipHdrLen, beAt_ipPacket_vhl]

theorem ipP_ipPacket : ipP (ipPacket src dst dscp buf) = ipprotoUdp := by
  rw [ipP, ipPacket_eq]
  simp only [beAt_skip, beBytes_length, List.length_cons, List.length_nil, Nat.reduceAdd,
    Nat.reduceLeDiff, Nat.reduceSub]
  rfl

theorem ipLen_ipPacket (h : buf.length ≤ maxUdpPayload) :
    ipLen (ipPacket src dst dscp buf) = 28 + buf.length := by
  have hv : packetIpHdrLen + udpHdrLen + buf.length < 256 ^ 2 := by
    simp only [packetIpHdrLen, udpHdrLen, maxUdpPayload] at *; omega
  rw [ipLen, ipPacket_eq]
  simp [beAt_cons_skip, beAt_beBytes _ _ _ hv]
  rfl

theorem ipSrc_ipPacket : ipSrc (ipPacket src dst dscp buf) = src.sinAddr := by
  have hv : src.sinAddr.toNat < 256 ^ 4 := src.sinAddr.toNat_lt
  rw [ipSrc, ipPacket_eq]
  simp [beAt_skip, beAt_cons_skip, beBytes_length, beAt_beBytes _ _ _ hv]

theorem ipDst_ipPacket : ipDst (ipPacket src dst dscp buf) = dst.sinAddr := by
  have hv : dst.sinAddr.toNat < 256 ^ 4 := dst.sinAddr.toNat_lt
  rw [ipDst, ipPacket_eq]
  simp [beAt_skip, beAt_cons_skip, beBytes_length, beAt_beBytes _ _ _ hv]

theorem udpSport_ipPacket : udpSport (ipPacket src dst dscp buf) = src.sinPort := by
  have hv : src.sinPort.toNat < 256 ^ 2 := src.sinPort.toNat_lt
  rw [udpSport, ipHdrLen_ipPacket, ipPacket_eq]
  simp [beAt_skip, beAt_cons_skip, beBytes_length, beAt_beBytes _ _ _ hv]

theorem udpDport_ipPacket : udpDport (ipPacket src dst dscp buf) = dst.sinPort := by
  have hv : dst.sinPort.toNat < 256 ^ 2 := dst.sinPort.toNat_lt
  rw [udpDport, ipHdrLen_ipPacket, ipPacket_eq]
  simp [beAt_skip, beAt_cons_skip, beBytes_length, beAt_beBytes _ _ _ hv]

theorem udpLen_ipPacket (h : buf.length ≤ maxUdpPayload) :
    udpLen (ipPacket src dst dscp buf) = 8 + buf.length := by
  have hv : udpHdrLen + buf.length < 256 ^ 2 := by
    simp only [udpHdrLen, maxUdpPayload] at *; omega
  rw [udpLen, ipHdrLen_ipPacket, ipPacket_eq]
  simp [beAt_skip, beAt_cons_skip, beBytes_length, beAt_beBytes _ _ _ hv]
  rfl

theorem udpCheck_ipPacket : udpCheck (ipPacket src dst dscp buf) = udpSum src dst buf := by
  rw [udpCheck, ipHdrLen_ipPacket, ipPacket_eq]
  simp [beAt_skip, beAt_cons_skip, beBytes_length, beAt_beBytes _ _ _ (udpSum_lt src dst buf)]

theorem udpPayload_ipPacket (h : buf.length ≤ maxUdpPayload) :
    udpPayload (ipPacket src dst dscp buf) = buf := by
  have hl : 8 + buf.length - udpHdrLen = 0 + buf.length := by simp only [udpHdrLen]; omega
  have hh : (ipHdr src dst dscp buf ++ udpHdr src dst buf).length = 20 + udpHdrLen := by
    simp only [List.length_append, ipHdr, ipHdrWith_length, udpHdr_length, udpHdrLen]
  rw [udpPayload, ipHdrLen_ipPacket, udpLen_ipPacket src dst dscp buf h, ipPacket,
    slice_skip _ _ (by omega), hh, hl, Nat.sub_self, Nat.zero_add, slice_all]

theorem slice_ipPacket_hdr : slice (ipPacket src dst dscp buf) 0 20 = ipHdr src dst dscp buf := by
  have hl : (ipHdr src dst dscp buf).length = 20 := ipHdrWith_length ..
  rw [ipPacket, List.append_assoc, slice_append_left _ _ _ _ (by omega), ← hl, slice_all]

end Fields

theorem udpPacket_ipPacket (src dst : SockaddrIn) (dscp : UInt8) {buf : List UInt8}
    (h : buf.length ≤ maxUdpPayload) : UdpPacket true (ipPacket src dst dscp buf) where
  version := by rw [ipVersion, beAt_ipPacket_vhl]; rfl
  hdr := by rw [ipHdrLen_ipPacket]; decide
  udp := ipP_ipPacket src dst dscp buf
  whole := by rw [ipLen_ipPacket src dst dscp buf h, ipPacket_length]
  room := by rw [ipLen_ipPacket src dst dscp buf h, ipHdrLen_ipPacket, udpHdrLen]; omega
  ipSum := fun _ => by rw [ipHdrLen_ipPacket, slice_ipPacket_hdr, checksum_ipHdr]
  udpMin := by rw [udpLen_ipPacket src dst dscp buf h, udpHdrLen]; omega
  udpMax := by
    rw [ipHdrLen_ipPacket, udpLen_ipPacket src dst dscp buf h, ipLen_ipPacket src dst dscp buf h]
    omega
  udpSum := fun _ => by
    rw [ipSrc_ipPacket, ipDst_ipPacket, udpSport_ipPacket, udpDport_ipPacket, udpCheck_ipPacket,
      udpPayload_ipPacket src dst dscp buf h]
    exact Or.inr (checksum_udpSum src dst buf)

theorem deliverable_ipPacket (src dst : SockaddrIn) (dscp : UInt8) {buf : List UInt8} {nBuf : Nat}
    (h : buf.length ≤ maxUdpPayload) (hn : buf.length ≤ nBuf) :
    deliverable true (ipPacket src dst dscp buf) nBuf =
      some ⟨buf, buf.length, ⟨.inet, src.sinAddr, src.sinPort⟩⟩ := by
  have hl : min (8 + buf.length - udpHdrLen) nBuf = buf.length := by
    simp only [udpHdrLen]; omega
  rw [deliverable, if_pos (udpPacket_ipPacket src dst dscp h), datagramOf,
    udpPayload_ipPacket src dst dscp buf h, udpLen_ipPacket src dst dscp buf h, ipSrc_ipPacket,
    udpSport_ipPacket, hl, List.take_of_length_le hn]

/-- A frame that `packet_sendto_udp` writes, put behind a BPF header and
followed by anything, is parsed back into its payload and its sender. -/
theorem sent_frame_is_parsed {abi : Abi} (k : SendAnswers) (buf : List UInt8)
    (srcPaddr destPaddr : SockaddrIn) (destHaddr : PacketSockaddrLl) (dscp : UInt8)
    (mac : List UInt8) (r : Record abi) (tail : List UInt8) (nBuf : Nat)
    (hbuf : buf.length ≤ maxUdpPayload) (halen : destHaddr.sllHalen.toNat = etherAddrLen)
    (hmac : packetBsdHwaddr k destHaddr.sllIfindex = .ok mac)
    (hframe : r.frame = bsdFrame destHaddr mac srcPaddr destPaddr dscp buf) (hwhole : r.whole)
    (hhdr : abi.sizeofBpfHdr ≤ r.hdr.length) (hlen : (r.bytes ++ tail).length < abi.ssizeMax)
    (hn : buf.length ≤ nBuf) :
    (packetSendtoUdpBsd k buf srcPaddr destHaddr destPaddr dscp).written = some r.frame ∧
      r.frame.length = 14 + 20 + 8 + buf.length ∧
      packetBsdParse abi (r.bytes ++ tail) nBuf =
        .ret (some ⟨buf, buf.length, ⟨.inet, srcPaddr.sinAddr, srcPaddr.sinPort⟩⟩) := by
  have hm := packetBsdHwaddr_length hmac
  refine ⟨?_, ?_, packetBsdParse_first hlen (Record.visible_iff.mpr hhdr) ?_⟩
  · rw [hframe]
    exact written_packetSendtoUdpBsd halen hmac
  · rw [hframe, bsdFrame_length hm]
  · rw [usable, if_pos hwhole.symm, hframe, bsdFrame_drop hm]
    exact deliverable_ipPacket srcPaddr destPaddr dscp hbuf hn

def em0 : SendAnswers where
  ifIndextoname := fun _ => .ok "em0"
  getifaddrs := .ok [⟨"em0", some (.link, [2, 0, 0, 0, 0, 1])⟩]
  writev := fun b => .ok b.length

def etherBroadcast : PacketSockaddrLl where
  sllFamily := .unspec
  sllProtocol := 0
  sllIfindex := 1
  sllHatype := 0
  sllPkttype := 0
  sllHalen := 6
  sllAddr := List.replicate 6 0xff
  sllAddr_room := by decide

theorem sent_frame_is_parsed_odd :
    let frame := bsdFrame etherBroadcast [2, 0, 0, 0, 0, 1] ⟨.inet, 0, 68⟩ ⟨.inet, 0xffffffff, 67⟩
      0x30 [7]
    let r := lp64WholeRecord frame (by decide)
    (packetSendtoUdpBsd em0 [7] ⟨.inet, 0, 68⟩ etherBroadcast ⟨.inet, 0xffffffff, 67⟩ 0x30).written =
        some frame ∧ frame.length = 14 + 20 + 8 + 1 ∧
      packetBsdParse lp64 (r.bytes ++ [9]) 1 = .ret (some ⟨[7], 1, ⟨.inet, 0, 68⟩⟩) :=
  sent_frame_is_parsed em0 [7] ⟨.inet, 0, 68⟩ ⟨.inet, 0xffffffff, 67⟩ etherBroadcast 0x30
    [2, 0, 0, 0, 0, 1] (lp64WholeRecord _ (by decide)) [9] 1 (by decide)
    (by decide) (by rfl) rfl rfl (by decide) (by decide) (by decide)

end PkgsrcPatches.NDhcp4
