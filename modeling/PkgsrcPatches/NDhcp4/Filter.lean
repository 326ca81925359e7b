import PkgsrcPatches.Bpf.Header

/-! The client's packet filter, for a socket that starts at the IP header and
for a device that hands over whole Ethernet frames. -/
namespace PkgsrcPatches.NDhcp4
open Lib.Bytes Lib.ClassicBpf Bpf

def udpHdrLen : Nat := 8
def ethertypeIp : Nat := 0x0800
def ipprotoUdp : Nat := 17
def ipFragMask : Nat := 0x3fff
def sizeofNDhcp4Message : Nat := 240
def offsetofMagic : Nat := 236
def clientPort : Nat := 68
def opBootrequest : Nat := 1
def opBootreply : Nat := 2
def messageMagic : Nat := 0x63825363

def nDhcp4LinuxClientFilter : List Insn := [
  .ld .b (.abs 9),                                    -- A <- IP protocol
  .jmp .jeq ipprotoUdp 1 0,
  .ret 0,
  .ld .h (.abs 6),                                    -- A <- Flags + Fragment offset
  .alu .and (.k ipFragMask),
  .jmp .jeq 0 1 0,
  .ret 0,
  .ldxMsh 0,                                          -- X <- IP header length
  .ld .w .len,                                        -- A <- packet length
  .alu .sub .x,
  .jmp .jge (udpHdrLen + sizeofNDhcp4Message) 1 0,
  .ret 0,
  .ld .h (.ind 2),                                    -- A <- UDP destination port
  .jmp .jeq clientPort 1 0,
  .ret 0,
  .ld .w (.imm udpHdrLen),
  .alu .add .x,
  .tax,                                               -- X <- size of IP and UDP headers
  .ld .b (.ind 0),                                    -- A <- DHCP op
  .jmp .jeq opBootreply 1 0,
  .ret 0,
  .ld .w (.ind offsetofMagic),                        -- A <- DHCP magic cookie
  .jmp .jeq messageMagic 1 0,
  .ret 0,
  .ret 65535]

/-- `n_dhcp4_bsd_client_filter`: the positions gain the Ethernet header, and so
does the constant the frame length is compared with. -/
def nDhcp4BsdClientFilter : List Insn := [
  .ld .h (.abs 12),                                   -- A <- ethertype
  .jmp .jeq ethertypeIp 1 0,
  .ret 0,
  .ld .b (.abs (etherHdrLen + 9)),
  .jmp .jeq ipprotoUdp 1 0,
  .ret 0,
  .ld .h (.abs (etherHdrLen + 6)),
  .alu .and (.k ipFragMask),
  .jmp .jeq 0 1 0,
  .ret 0,
  .ldxMsh etherHdrLen,
  .ld .w .len,                                        -- A <- frame length
  .alu .sub .x,
  .jmp .jge (etherHdrLen + udpHdrLen + sizeofNDhcp4Message) 1 0,
  .ret 0,
  .ld .h (.ind (etherHdrLen + 2)),
  .jmp .jeq clientPort 1 0,
  .ret 0,
  .ld .w (.imm udpHdrLen),
  .alu .add .x,
  .tax,
  .ld .b (.ind (etherHdrLen + 0)),
  .jmp .jeq opBootreply 1 0,
  .ret 0,
  .ld .w (.ind (etherHdrLen + offsetofMagic)),
  .jmp .jeq messageMagic 1 0,
  .ret 0,
  .ret 65535]

/-! ### Fields of an IP packet -/

def ipVersion (ip : List UInt8) : Nat := beAt ip 0 1 / 16
def ipHdrLen (ip : List UInt8) : Nat := 4 * (beAt ip 0 1 % 16)
def ipLen (ip : List UInt8) : Nat := beAt ip 2 2
def ipOff (ip : List UInt8) : Nat := beAt ip 6 2
def ipP (ip : List UInt8) : Nat := beAt ip 9 1

def ethertype? (frame : List UInt8) : Option Nat := be? frame 12 2

/-- An unfragmented UDP packet to the client port that holds a whole DHCP
header, says BOOTREPLY and carries the cookie. -/
structure DhcpReply (ip : List UInt8) : Prop where
  udp : ipP ip = ipprotoUdp
  noMf : (ipOff ip).testBit 13 = false
  noOffset : ipOff ip % 2^13 = 0
  room : ipHdrLen ip + udpHdrLen + sizeofNDhcp4Message ≤ ip.length
  port : beAt ip (ipHdrLen ip + 2) 2 = clientPort
  op : beAt ip (ipHdrLen ip + udpHdrLen) 1 = opBootreply
  magic : beAt ip (ipHdrLen ip + udpHdrLen + offsetofMagic) 4 = messageMagic

theorem land_fragMask (v : Nat) :
    Nat.land v ipFragMask = 0 ↔ v.testBit 13 = false ∧ v % 2^13 = 0 := by
  have h : Nat.land v ipFragMask = v % 2^14 := Nat.and_two_pow_sub_one_eq_mod v 14
  rw [h, Nat.testBit_eq_decide_div_mod_eq]
  simp only [decide_eq_false_iff_not]
  omega

theorem ipHdrLen_le (ip : List UInt8) : ipHdrLen ip ≤ 60 := by
  rw [ipHdrLen]
  omega

/-- `A -= X` wraps exactly when the packet ends inside its claimed header, and
then the next indirect load is the one that rejects. -/
theorem room_iff_sub {n x e : Nat} (hn : n < 2^32) (hx : x ≤ 60) (he : e ≤ 14) :
    (e + 248 ≤ word (n + 2^32 - x) ∧ x + e + 4 ≤ n) ↔ x + e + 248 ≤ n := by
  simp only [word]
  omega

/-- What the loads and comparisons of both filters say when the packet carries
`e` bytes in front of the IP header and `x` is what `X` got from it. -/
def Stages (b : List UInt8) (e x : Nat) : Prop :=
  (e + 9 + 1 ≤ b.length ∧ beAt b (e + 9) 1 = ipprotoUdp) ∧
  (e + 6 + 2 ≤ b.length ∧ Nat.land (beAt b (e + 6) 2) ipFragMask = 0) ∧
  (e + 1 ≤ b.length ∧ e + udpHdrLen + sizeofNDhcp4Message ≤ word (b.length + 2^32 - x)) ∧
  (x + (e + 2) + 2 ≤ b.length ∧ beAt b (x + (e + 2)) 2 = clientPort) ∧
  (word (udpHdrLen + x) + e + 1 ≤ b.length ∧
    beAt b (word (udpHdrLen + x) + e) 1 = opBootreply) ∧
  word (udpHdrLen + x) + (e + offsetofMagic) + 4 ≤ b.length ∧
    beAt b (word (udpHdrLen + x) + (e + offsetofMagic)) 4 = messageMagic

theorem stages_iff (b : List UInt8) (e : Nat) (hb : b.length < 2^32) (he : e ≤ 14) :
    Stages b e (ipHdrLen (b.drop e)) ↔ DhcpReply (b.drop e) := by
  have hx := ipHdrLen_le (b.drop e)
  have hlen : (b.drop e).length = b.length - e := List.length_drop
  have hroom := room_iff_sub hb hx he
  have hw : word (udpHdrLen + ipHdrLen (b.drop e)) = ipHdrLen (b.drop e) + udpHdrLen := by
    simp only [word, udpHdrLen]; omega
  have hport : e + (ipHdrLen (b.drop e) + 2) = ipHdrLen (b.drop e) + (e + 2) := by omega
  have hop : e + (ipHdrLen (b.drop e) + udpHdrLen) = ipHdrLen (b.drop e) + udpHdrLen + e := by omega
  have hmagic : e + (ipHdrLen (b.drop e) + udpHdrLen + offsetofMagic) =
      ipHdrLen (b.drop e) + udpHdrLen + (e + offsetofMagic) := by omega
  simp only [Stages, hw]
  constructor
  · intro h
    obtain ⟨⟨-, hp⟩, ⟨-, hf⟩, ⟨-, hl⟩, ⟨h4, hdst⟩, ⟨-, ho⟩, -, hm⟩ := h
    obtain ⟨hmf, hoff⟩ := (land_fragMask _).mp hf
    have hr := hroom.mp ⟨hl, by omega⟩
    refine ⟨?_, ?_, ?_, ?_, ?_, ?_, ?_⟩
    · rwa [ipP, beAt_drop]
    · rwa [ipOff, beAt_drop]
    · rwa [ipOff, beAt_drop]
    · simp only [hlen, udpHdrLen, sizeofNDhcp4Message]; omega
    · rwa [beAt_drop, hport]
    · rwa [beAt_drop, hop]
    · rwa [beAt_drop, hmagic]
  · intro h
    have hr := h.room
    simp only [hlen, udpHdrLen, sizeofNDhcp4Message] at hr
    have hl := hroom.mpr (by omega)
    have hf := (land_fragMask _).mpr ⟨h.noMf, h.noOffset⟩
    simp only [ipOff, beAt_drop] at hf
    have hp := h.udp
    have h1 := h.port
    have h2 := h.op
    have h3 := h.magic
    rw [ipP, beAt_drop] at hp
    rw [beAt_drop, hport] at h1
    rw [beAt_drop, hop] at h2
    rw [beAt_drop, hmagic] at h3
    refine ⟨⟨by omega, hp⟩, ⟨by omega, hf⟩, ⟨by omega, hl.1⟩, ⟨by omega, h1⟩, ⟨?_, h2⟩, ?_, h3⟩
    all_goals simp only [udpHdrLen, offsetofMagic]; omega

theorem linux_accepts_iff (ip : Packet) :
    accepts nDhcp4LinuxClientFilter ip ↔ DhcpReply ip.bytes := by
  rw [accepts_iff_wp, ← List.drop_zero (l := ip.bytes), ← stages_iff ip.bytes 0 ip.length_lt (by omega)]
  simp [nDhcp4LinuxClientFilter, Stages, Size.bytes, Alu.eval, Jmp.test, Src.val, ipHdrLen, and_assoc]

theorem bsd_accepts_iff (frame : Packet) :
    accepts nDhcp4BsdClientFilter frame ↔
      ethertype? frame.bytes = some ethertypeIp ∧ DhcpReply (frame.bytes.drop etherHdrLen) := by
  rw [accepts_iff_wp, ← stages_iff frame.bytes etherHdrLen frame.length_lt (by decide)]
  simp [nDhcp4BsdClientFilter, Stages, Size.bytes, Alu.eval, Jmp.test, Src.val, ipHdrLen, and_assoc,
    ethertype?, be?_eq_some, beAt_drop]

/-- The relocated filter decides what the original decides, which is whether an
IP packet is a DHCP reply. A frame that ends inside its claimed IP header, where
`A -= X` wraps, is accepted by neither. -/
theorem client_filters_agree :
    (∀ frame : Packet, accepts nDhcp4BsdClientFilter frame ↔
      ethertype? frame.bytes = some ethertypeIp ∧
        accepts nDhcp4LinuxClientFilter (frame.drop etherHdrLen)) ∧
    (∀ ip : Packet, accepts nDhcp4LinuxClientFilter ip ↔ DhcpReply ip.bytes) ∧
    (∀ ip : Packet, ip.bytes.length < ipHdrLen ip.bytes →
      ¬ accepts nDhcp4LinuxClientFilter ip) ∧
    ∀ frame : Packet, frame.bytes.length < etherHdrLen + ipHdrLen (frame.bytes.drop etherHdrLen) →
      ¬ accepts nDhcp4BsdClientFilter frame := by
  refine ⟨fun frame => ?_, linux_accepts_iff, fun ip h ha => ?_, fun frame h ha => ?_⟩
  · rw [bsd_accepts_iff, linux_accepts_iff]
    rfl
  · have hr := ((linux_accepts_iff ip).mp ha).room
    omega
  · have hr := ((bsd_accepts_iff frame).mp ha).2.room
    simp only [List.length_drop, udpHdrLen] at hr
    omega

end PkgsrcPatches.NDhcp4
