import PkgsrcPatches.Lib.InternetChecksum
import PkgsrcPatches.NDhcp4.Filter
import PkgsrcPatches.Os

/-! What both packet seams share: the checksums of `packet.c`, the headers a
sender writes, and when an IP packet carries a UDP payload for the caller. -/
namespace PkgsrcPatches.NDhcp4
open Lib.Bytes Lib.InternetChecksum Bpf

def ipversion : Nat := 4
def packetIpHdrLen : Nat := 20
def ipDf : Nat := 0x4000
def ipdefttl : UInt8 := 64
def maxUdpPayload : Nat := 65507

structure SockaddrIn where
  sinFamily : Family
  sinAddr : UInt32
  sinPort : UInt16
deriving DecidableEq

/-- `struct packet_sockaddr_ll`, whose address field is wider than Ethernet's. -/
structure PacketSockaddrLl where
  sllFamily : Family
  sllProtocol : UInt16
  sllIfindex : Int
  sllHatype : UInt16
  sllPkttype : UInt8
  sllHalen : UInt8
  sllAddr : List UInt8
  sllAddr_room : etherAddrLen ≤ sllAddr.length

/-- The pseudo-header of `packet_internet_checksum_udp`, up to `udp_check`. -/
def udpPhdr (src dst : UInt32) (srcPort dstPort : UInt16) (size : Nat) : List UInt8 :=
  beBytes 4 src.toNat ++ beBytes 4 dst.toNat ++ [0, 17] ++ beBytes 2 (udpHdrLen + size) ++
    beBytes 2 srcPort.toNat ++ beBytes 2 dstPort.toNat ++ beBytes 2 (udpHdrLen + size)

def packetInternetChecksumUdp (src dst : UInt32) (srcPort dstPort : UInt16) (data : List UInt8)
    (check : Nat) : Nat :=
  checksum (udpPhdr src dst srcPort dstPort data.length ++ beBytes 2 check ++ data)

/-! ### The headers a sender writes -/

section Send
variable (src dst : SockaddrIn) (dscp : UInt8) (buf : List UInt8)

def ipHdrWith (sum : Nat) : List UInt8 :=
  (([0x45, dscp <<< 2] : List UInt8) ++ beBytes 2 (packetIpHdrLen + udpHdrLen + buf.length) ++ beBytes 2 0 ++
    beBytes 2 ipDf ++ [ipdefttl, 17]) ++ beBytes 2 sum ++
    (beBytes 4 src.sinAddr.toNat ++ beBytes 4 dst.sinAddr.toNat)

def ipHdr : List UInt8 := ipHdrWith src dst dscp buf (checksum (ipHdrWith src dst dscp buf 0))

/-- The checksum both senders put in the UDP header: zero means that none is
set, so a computed zero is flipped. -/
def udpSum : Nat :=
  let sum := packetInternetChecksumUdp src.sinAddr dst.sinAddr src.sinPort dst.sinPort buf 0
  if sum = 0 then 0xffff else sum

def udpHdr : List UInt8 :=
  beBytes 2 src.sinPort.toNat ++ beBytes 2 dst.sinPort.toNat ++
    beBytes 2 (udpHdrLen + buf.length) ++ beBytes 2 (udpSum src dst buf)

def ipPacket : List UInt8 := ipHdr src dst dscp buf ++ udpHdr src dst buf ++ buf

theorem ipHdrWith_length (sum : Nat) : (ipHdrWith src dst dscp buf sum).length = 20 := by
  simp [ipHdrWith, beBytes_length]

theorem udpHdr_length : (udpHdr src dst buf).length = 8 := by
  simp [udpHdr, beBytes_length]

theorem ipPacket_length : (ipPacket src dst dscp buf).length = 28 + buf.length := by
  simp only [ipPacket, ipHdr, List.length_append, ipHdrWith_length, udpHdr_length]

theorem checksum_ipHdr : checksum (ipHdr src dst dscp buf) = 0 := by
  rw [ipHdr, ipHdrWith]
  refine checksum_self _ _ _ ?_ ?_ (Or.inl rfl)
  · simp [beBytes_length]
  · simp only [List.append_assoc, List.cons_append, List.nil_append, words, List.sum_cons]
    simp

theorem udpSum_cases :
    udpSum src dst buf =
        packetInternetChecksumUdp src.sinAddr dst.sinAddr src.sinPort dst.sinPort buf 0 ∨
      packetInternetChecksumUdp src.sinAddr dst.sinAddr src.sinPort dst.sinPort buf 0 = 0 ∧
        udpSum src dst buf = 65535 := by
  unfold udpSum
  generalize packetInternetChecksumUdp _ _ _ _ _ _ = c
  by_cases h : c = 0
  · exact Or.inr ⟨h, by simp [h]⟩
  · exact Or.inl (by simp [h])

theorem checksum_udpSum :
    packetInternetChecksumUdp src.sinAddr dst.sinAddr src.sinPort dst.sinPort buf
      (udpSum src dst buf) = 0 := by
  rw [packetInternetChecksumUdp]
  refine checksum_self _ _ _ ?_ ?_ ?_
  · simp [udpPhdr, beBytes_length]
  · have hl : (beBytes 4 src.sinAddr.toNat ++ beBytes 4 dst.sinAddr.toNat).length % 2 = 0 := by
      simp [beBytes_length]
    rw [udpPhdr]
    simp only [List.append_assoc]
    rw [← List.append_assoc, words_append _ _ hl]
    simp [words]
  · simpa only [packetInternetChecksumUdp] using udpSum_cases src dst buf

end Send

/-! ### What a receiver delivers -/

/-- What a successful call leaves behind: the bytes of its buffer the caller may
read, their number, and the sender. A call that had nothing usable leaves none. -/
structure Datagram where
  buf : List UInt8
  nTransmitted : Nat
  src : SockaddrIn
deriving DecidableEq

def ipSrc (ip : List UInt8) : UInt32 := UInt32.ofNat (beAt ip 12 4)
def ipDst (ip : List UInt8) : UInt32 := UInt32.ofNat (beAt ip 16 4)
def udpSport (ip : List UInt8) : UInt16 := UInt16.ofNat (beAt ip (ipHdrLen ip) 2)
def udpDport (ip : List UInt8) : UInt16 := UInt16.ofNat (beAt ip (ipHdrLen ip + 2) 2)
def udpLen (ip : List UInt8) : Nat := beAt ip (ipHdrLen ip + 4) 2
def udpCheck (ip : List UInt8) : Nat := beAt ip (ipHdrLen ip + 6) 2
def udpPayload (ip : List UInt8) : List UInt8 :=
  slice ip (ipHdrLen ip + udpHdrLen) (udpLen ip - udpHdrLen)

/-- An IPv4 packet that carries a whole UDP datagram, both checksums good where
they are to be verified. -/
structure UdpPacket (verify : Bool) (ip : List UInt8) : Prop where
  version : ipVersion ip = ipversion
  hdr : packetIpHdrLen ≤ ipHdrLen ip
  udp : ipP ip = ipprotoUdp
  whole : ipLen ip ≤ ip.length
  room : ipHdrLen ip + udpHdrLen ≤ ipLen ip
  ipSum : verify = true → checksum (slice ip 0 (ipHdrLen ip)) = 0
  udpMin : udpHdrLen ≤ udpLen ip
  udpMax : ipHdrLen ip + udpLen ip ≤ ipLen ip
  udpSum : verify = true → udpCheck ip = 0 ∨ packetInternetChecksumUdp (ipSrc ip) (ipDst ip)
    (udpSport ip) (udpDport ip) (udpPayload ip) (udpCheck ip) = 0

def datagramOf (ip : List UInt8) (nBuf : Nat) : Datagram where
  buf := (udpPayload ip).take nBuf
  nTransmitted := min (udpLen ip - udpHdrLen) nBuf
  src := ⟨.inet, ipSrc ip, udpSport ip⟩

instance (verify : Bool) (ip : List UInt8) : Decidable (UdpPacket verify ip) :=
  decidable_of_iff (ipVersion ip = ipversion ∧ packetIpHdrLen ≤ ipHdrLen ip ∧
      ipP ip = ipprotoUdp ∧ ipLen ip ≤ ip.length ∧ ipHdrLen ip + udpHdrLen ≤ ipLen ip ∧
      (verify = true → checksum (slice ip 0 (ipHdrLen ip)) = 0) ∧ udpHdrLen ≤ udpLen ip ∧
      ipHdrLen ip + udpLen ip ≤ ipLen ip ∧ (verify = true → udpCheck ip = 0 ∨
        packetInternetChecksumUdp (ipSrc ip) (ipDst ip) (udpSport ip) (udpDport ip)
          (udpPayload ip) (udpCheck ip) = 0))
    ⟨fun ⟨h1, h2, h3, h4, h5, h6, h7, h8, h9⟩ => ⟨h1, h2, h3, h4, h5, h6, h7, h8, h9⟩,
      fun ⟨h1, h2, h3, h4, h5, h6, h7, h8, h9⟩ => ⟨h1, h2, h3, h4, h5, h6, h7, h8, h9⟩⟩

def deliverable (verify : Bool) (ip : List UInt8) (nBuf : Nat) : Option Datagram :=
  if UdpPacket verify ip then some (datagramOf ip nBuf) else none

variable {verify : Bool}

theorem deliverable_eq_none {ip : List UInt8} {nBuf : Nat} (h : ¬ UdpPacket verify ip) :
    deliverable verify ip nBuf = none := if_neg h

section Fields
variable (ip : List UInt8)

/-! What the decoders read at fixed places, under the names of the fields. -/

theorem beAt_ihl : 4 * (beAt ip 0 1 % 16) = ipHdrLen ip := by rw [ipHdrLen]
theorem beAt_len : beAt ip 2 2 = ipLen ip := by rw [ipLen]
theorem beAt_udpLen : beAt ip (ipHdrLen ip + 4) 2 = udpLen ip := by rw [udpLen]
theorem beAt_udpCheck : beAt ip (ipHdrLen ip + 6) 2 = udpCheck ip := by rw [udpCheck]
theorem beAt_udpSport : UInt16.ofNat (beAt ip (ipHdrLen ip + 0) 2) = udpSport ip := by
  rw [udpSport, Nat.add_zero]
theorem beAt_udpDport : UInt16.ofNat (beAt ip (ipHdrLen ip + 2) 2) = udpDport ip := by
  rw [udpDport]

end Fields

theorem refuse {c : Prop} [Decidable c] {x : Option (Option Datagram)} {d : Option Datagram}
    (hc : c → d = none) (hx : ¬ c → x = some d) : (if c then pure none else x) = some d := by
  by_cases h : c
  · rw [if_pos h, hc h]; rfl
  · rw [if_neg h, hx h]

theorem UdpPacket.payload_length {ip : List UInt8} (h : UdpPacket verify ip) :
    (udpPayload ip).length = udpLen ip - udpHdrLen := by
  have := h.udpMin
  have := h.udpMax
  have := h.whole
  exact slice_length _ _ _ (by omega)

theorem UdpPacket.datagram_length {ip : List UInt8} (h : UdpPacket verify ip) (nBuf : Nat) :
    (datagramOf ip nBuf).buf.length = (datagramOf ip nBuf).nTransmitted := by
  simp only [datagramOf, List.length_take, h.payload_length]
  omega

theorem UdpPacket.congr {a b : List UInt8} (u : UdpPacket verify a)
    (h : ∀ i n, i + n ≤ 65535 → slice a i n = slice b i n)
    (hl : a.length ≤ b.length ∨ 65535 ≤ b.length) :
    UdpPacket verify b ∧ ∀ nBuf, datagramOf a nBuf = datagramOf b nBuf := by
  have hb (i n : Nat) (hi : i + n ≤ 65535) : beAt a i n = beAt b i n := by
    simp only [beAt, h i n hi]
  have hx := ipHdrLen_le a
  have hlen : ipLen a < 256 ^ 2 := beAt_lt a 2 2
  have h1 := u.whole
  have h2 := u.udpMax
  have h3 := u.udpMin
  have ex : ipHdrLen a = ipHdrLen b := by simp only [ipHdrLen, hb 0 1 (by omega)]
  have el : ipLen a = ipLen b := hb 2 2 (by omega)
  have eu : udpLen a = udpLen b := by simp only [udpLen, ← ex, hb (ipHdrLen a + 4) 2 (by omega)]
  have ec : udpCheck a = udpCheck b := by
    simp only [udpCheck, ← ex, hb (ipHdrLen a + 6) 2 (by omega)]
  have es : udpSport a = udpSport b := by simp only [udpSport, ← ex, hb (ipHdrLen a) 2 (by omega)]
  have ed : udpDport a = udpDport b := by
    simp only [udpDport, ← ex, hb (ipHdrLen a + 2) 2 (by omega)]
  have ep : udpPayload a = udpPayload b := by
    simp only [udpPayload, ← ex, ← eu]
    exact h _ _ (by omega)
  have ei : ipSrc a = ipSrc b := by simp only [ipSrc, hb 12 4 (by omega)]
  refine ⟨{ version := ?_, hdr := ex ▸ u.hdr, udp := ?_, whole := by omega,
            room := ex ▸ el ▸ u.room, ipSum := ?_, udpMin := eu ▸ u.udpMin,
            udpMax := by omega, udpSum := ?_ }, fun nBuf => ?_⟩
  · rw [ipVersion, ← hb 0 1 (by omega)]; exact u.version
  · rw [ipP, ← hb 9 1 (by omega)]; exact u.udp
  · rw [← ex, ← h 0 _ (by omega)]; exact u.ipSum
  · rw [← ec, ← es, ← ed, ← ep, ← ei, ipDst, ← hb 16 4 (by omega)]
    exact u.udpSum
  · rw [datagramOf, datagramOf, ep, eu, es, ei]

theorem deliverable_take (ip : List UInt8) (nBuf m : Nat) (hm : 65535 ≤ m) :
    deliverable verify (ip.take m) nBuf = deliverable verify ip nBuf := by
  have hs (i n : Nat) (hi : i + n ≤ 65535) : slice (ip.take m) i n = slice ip i n :=
    slice_take ip m i n (by omega)
  by_cases u : UdpPacket verify ip
  · obtain ⟨ut, hd⟩ := u.congr (fun i n hi => (hs i n hi).symm) (by rw [List.length_take]; omega)
    rw [deliverable, deliverable, if_pos u, if_pos ut, hd]
  · rw [deliverable_eq_none u, deliverable_eq_none fun ut =>
      u (ut.congr hs (by rw [List.length_take]; omega)).1]

end PkgsrcPatches.NDhcp4
