import PkgsrcPatches.NDhcp4.Packet

/-! The server's UDP socket: a filter on Linux, a check in the receive function
on the BSDs, and the one caller of both. -/
namespace PkgsrcPatches.NDhcp4
open Lib.Bytes Lib.ClassicBpf

def serverPort : UInt16 := 67

/-- What a UDP socket is filtered by on Linux: the op of its side, and the cookie. -/
def nDhcp4LinuxUdpFilter (op : Nat) : List Insn := [
  .ldxMsh 0,                                          -- X <- IP header length
  .ld .w (.imm udpHdrLen),
  .alu .add .x,
  .tax,                                               -- X <- size of IP and UDP headers
  .ld .b (.ind 0),                                    -- A <- DHCP op
  .jmp .jeq op 1 0,
  .ret 0,
  .ld .w (.ind offsetofMagic),                        -- A <- DHCP magic cookie
  .jmp .jeq messageMagic 1 0,
  .ret 0,
  .ret 65535]

/-- The filter of the Linux `n_dhcp4_s_socket_udp_new`. The BSD one attaches none. -/
def nDhcp4LinuxServerFilter : List Insn := nDhcp4LinuxUdpFilter opBootrequest

inductive Cmsg where
  | pktinfo (ipiAddr : UInt32)
  | recvdstaddr (addr : UInt32)
  | other

/-- What a receive function reports; `incoming` is an error of `n_dhcp4_incoming_new`. -/
inductive RecvError (ε : Type) where
  | down | again | malformed
  | errno (e : Errno)
  | incoming (e : ε)

variable {ε μ : Type}

def recvError (e : Errno) : RecvError ε :=
  if e = .enetdown then .down else if e = .eagain then .again else .errno e

section Recv
variable (sizeofHeader : Nat) (incomingNew : List UInt8 → Except ε μ) (nBuf : Nat)
  (recvmsg : Except Errno (List UInt8 × List Cmsg))

/-- `n_dhcp4_socket_udp_recv` on Linux, where `MSG_TRUNC` reports the length the
datagram had. No result where an assertion on the control message fails. -/
def nDhcp4SocketUdpRecvLinux : Option (Except (RecvError ε) (μ × UInt32)) :=
  match recvmsg with
  | .error e => some (.error (recvError e))
  | .ok (data, ctrl) =>
    if data.length = 0 ∨ nBuf < data.length then some (.error .malformed) else
    match incomingNew (data.take nBuf) with
    | .error e => some (.error (.incoming e))
    | .ok message => match ctrl with
      | .pktinfo a :: _ => some (.ok (message, a))
      | _ => none

def dstAddr : List Cmsg → UInt32
  | [] => 0
  | .recvdstaddr a :: _ => a
  | _ :: rest => dstAddr rest

/-- What the check that stands in for the filter lets through. -/
structure LooksReply (buf : List UInt8) : Prop where
  room : sizeofHeader ≤ buf.length
  op : beAt buf 0 1 = opBootreply

instance (buf : List UInt8) : Decidable (LooksReply sizeofHeader buf) :=
  decidable_of_iff (sizeofHeader ≤ buf.length ∧ beAt buf 0 1 = opBootreply)
    ⟨fun h => ⟨h.1, h.2⟩, fun h => ⟨h.room, h.op⟩⟩

/-- `n_dhcp4_socket_udp_recv` on the BSDs: the length is that of what was stored.
`sizeofHeader` is upstream's `sizeof(NDhcp4Header)`. -/
def nDhcp4SocketUdpRecvBsd : Option (Except (RecvError ε) (μ × UInt32)) :=
  match recvmsg with
  | .error e => some (.error (recvError e))
  | .ok (data, ctrl) =>
    let buf := data.take nBuf
    if buf.length = 0 ∨ nBuf < buf.length then some (.error .malformed) else
    if buf.length < sizeofHeader ∨ beAt buf 0 1 ≠ opBootreply then
      some (.error .malformed) else
    match incomingNew buf with
    | .error e => some (.error (.incoming e))
    | .ok message => some (.ok (message, dstAddr ctrl))

end Recv

def nDhcp4SSocketUdpRecv (udpRecv : Option (Except (RecvError ε) (μ × UInt32))) :
    Option (Except (RecvError ε) (μ × SockaddrIn)) :=
  match udpRecv with
  | none => none
  | some (.error e) => some (.error e)
  | some (.ok (message, destAddr)) => some (.ok (message, ⟨.inet, destAddr, serverPort⟩))

/-! ### A datagram on its way to the server -/

/-- A datagram as the filter of a UDP socket is shown it: from the UDP header on. -/
structure UdpSkb where
  hdr : List UInt8
  data : List UInt8
  dst : UInt32
  hdr_len : hdr.length = udpHdrLen
  fits : (hdr ++ data).length ≤ 65535

def UdpSkb.packet (u : UdpSkb) : Packet := ⟨u.hdr ++ u.data, by have := u.fits; omega⟩

/-- What the filter takes for the length of an IP header. The byte it looks at is the high one
of the source port. -/
def UdpSkb.skew (u : UdpSkb) : Nat := 4 * (beAt u.hdr 0 1 % 16)

structure Passes (op : Nat) (u : UdpSkb) : Prop where
  room : u.skew + sizeofNDhcp4Message ≤ u.data.length
  op : beAt u.data u.skew 1 = op
  magic : beAt u.data (u.skew + offsetofMagic) 4 = messageMagic

theorem passes_iff (op : Nat) (u : UdpSkb) :
    accepts (nDhcp4LinuxUdpFilter op) u.packet ↔ Passes op u := by
  have hl : u.hdr.length = udpHdrLen := u.hdr_len
  have hb : beAt (u.hdr ++ u.data) 0 1 = beAt u.hdr 0 1 :=
    beAt_append_left _ _ _ _ (by rw [hl, udpHdrLen]; omega)
  have hw : word (udpHdrLen + 4 * (beAt u.hdr 0 1 % 16)) = u.hdr.length + u.skew := by
    rw [hl, word, UdpSkb.skew]; simp only [udpHdrLen]; omega
  have hop : beAt (u.hdr ++ u.data) (u.hdr.length + u.skew) 1 = beAt u.data u.skew 1 :=
    beAt_append_right u.hdr u.data u.skew 1
  have hmagic : beAt (u.hdr ++ u.data) (u.hdr.length + u.skew + offsetofMagic) 4 =
      beAt u.data (u.skew + offsetofMagic) 4 := by
    rw [Nat.add_assoc, beAt_append_right]
  rw [accepts_iff_wp]
  simp [nDhcp4LinuxUdpFilter, Size.bytes, Alu.eval, Jmp.test, Src.val, UdpSkb.packet, hb, hw,
    hop, hmagic]
  constructor
  · intro h
    obtain ⟨-, -, ho, hlen, hm⟩ := h
    exact ⟨by simp only [sizeofNDhcp4Message, offsetofMagic] at *; omega, ho, hm⟩
  · intro h
    have hroom := h.room
    simp only [sizeofNDhcp4Message, offsetofMagic] at *
    exact ⟨by omega, by omega, h.op, by omega, h.magic⟩

variable (sizeofHeader : Nat) (incomingNew : List UInt8 → Except ε μ) (nBuf : Nat) (u : UdpSkb)

/-- The Linux server path: a datagram the filter drops is never queued. -/
def linuxServer : Option (Except (RecvError ε) (μ × SockaddrIn)) :=
  nDhcp4SSocketUdpRecv (nDhcp4SocketUdpRecvLinux incomingNew nBuf
    (if accepts nDhcp4LinuxServerFilter u.packet then .ok (u.data, [.pktinfo u.dst])
      else .error .eagain))

def bsdServer : Option (Except (RecvError ε) (μ × SockaddrIn)) :=
  nDhcp4SSocketUdpRecv (nDhcp4SocketUdpRecvBsd sizeofHeader incomingNew nBuf
    (.ok (u.data, [.recvdstaddr u.dst])))

theorem sSocketUdpRecv_iff {udpRecv : Option (Except (RecvError ε) (μ × UInt32))} (message : μ)
    (dest : SockaddrIn) : nDhcp4SSocketUdpRecv udpRecv = some (.ok (message, dest)) ↔
      ∃ a, udpRecv = some (.ok (message, a)) ∧ dest = ⟨.inet, a, serverPort⟩ := by
  cases udpRecv with
  | none => simp [nDhcp4SSocketUdpRecv]
  | some r =>
    cases r with
    | error e => simp [nDhcp4SSocketUdpRecv]
    | ok p =>
      obtain ⟨m, a⟩ := p
      simp only [nDhcp4SSocketUdpRecv, Option.some.injEq, Except.ok.injEq, Prod.mk.injEq]
      constructor
      · intro h
        exact ⟨a, ⟨h.1, rfl⟩, h.2.symm⟩
      · intro h
        obtain ⟨b, ⟨hm, hb⟩, hd⟩ := h
        exact ⟨hm, by rw [hd, hb]⟩

theorem udpRecvLinux_iff (data : List UInt8) (dst a : UInt32) (message : μ) :
    nDhcp4SocketUdpRecvLinux incomingNew nBuf (.ok (data, [.pktinfo dst])) =
        some (.ok (message, a)) ↔
      data.length ≠ 0 ∧ data.length ≤ nBuf ∧ incomingNew data = .ok message ∧ a = dst := by
  simp only [nDhcp4SocketUdpRecvLinux]
  by_cases hf : data.length = 0 ∨ nBuf < data.length
  · rw [if_pos hf]
    simp only [Option.some.injEq, reduceCtorEq, false_iff]
    omega
  · rw [if_neg hf, List.take_of_length_le (by omega)]
    cases incomingNew data with
    | error e => simp
    | ok m =>
      simp only [Option.some.injEq, Except.ok.injEq, Prod.mk.injEq, eq_comm]
      exact ⟨fun h => ⟨by omega, by omega, h⟩, fun h => h.2.2⟩

theorem LooksReply.ne_nil {sizeofHeader : Nat} {buf : List UInt8} (h : LooksReply sizeofHeader buf) :
    buf.length ≠ 0 := by
  intro h0
  have hop := h.op
  rw [List.length_eq_zero_iff.mp h0] at hop
  exact absurd hop (by decide)

theorem udpRecvBsd_iff (data : List UInt8) (dst a : UInt32) (message : μ) :
    nDhcp4SocketUdpRecvBsd sizeofHeader incomingNew nBuf (.ok (data, [.recvdstaddr dst])) =
        some (.ok (message, a)) ↔
      LooksReply sizeofHeader (data.take nBuf) ∧ incomingNew (data.take nBuf) = .ok message ∧
        a = dst := by
  have hle : (data.take nBuf).length ≤ nBuf := by rw [List.length_take]; omega
  simp only [nDhcp4SocketUdpRecvBsd]
  by_cases hr : LooksReply sizeofHeader (data.take nBuf)
  · have h0 := hr.ne_nil
    have hroom := hr.room
    rw [if_neg (by omega), if_neg (not_or.mpr ⟨by omega, not_not.mpr hr.op⟩)]
    cases incomingNew (data.take nBuf) with
    | error e => simp
    | ok m => simp [hr, dstAddr, eq_comm]
  · have hc : (data.take nBuf).length < sizeofHeader ∨ beAt (data.take nBuf) 0 1 ≠ opBootreply := by
      by_contra hn
      obtain ⟨h1, h2⟩ := not_or.mp hn
      exact hr ⟨Nat.le_of_not_lt h1, not_not.mp h2⟩
    rw [if_pos hc, ite_self]
    simp [hr]

theorem linuxServer_iff (message : μ) (dest : SockaddrIn) :
    linuxServer incomingNew nBuf u = some (.ok (message, dest)) ↔
      Passes opBootrequest u ∧ u.data.length ≤ nBuf ∧ incomingNew u.data = .ok message ∧
        dest = ⟨.inet, u.dst, serverPort⟩ := by
  rw [linuxServer, sSocketUdpRecv_iff]
  by_cases ha : accepts nDhcp4LinuxServerFilter u.packet
  · have hp : Passes opBootrequest u := (passes_iff opBootrequest u).mp ha
    have hroom := hp.room
    have h0 : u.data.length ≠ 0 := by
      simp only [sizeofNDhcp4Message] at hroom
      omega
    rw [if_pos ha]
    simp only [udpRecvLinux_iff]
    constructor
    · intro h
      obtain ⟨a, ⟨-, hfit, hi, ha⟩, hd⟩ := h
      exact ⟨hp, hfit, hi, by rw [hd, ha]⟩
    · intro h
      obtain ⟨-, hfit, hi, hd⟩ := h
      exact ⟨u.dst, ⟨h0, hfit, hi, rfl⟩, hd⟩
  · have hno : ¬ Passes opBootrequest u := fun h => ha ((passes_iff opBootrequest u).mpr h)
    rw [if_neg ha]
    simp [hno, nDhcp4SocketUdpRecvLinux]

theorem bsdServer_iff (message : μ) (dest : SockaddrIn) :
    bsdServer sizeofHeader incomingNew nBuf u = some (.ok (message, dest)) ↔
      LooksReply sizeofHeader (u.data.take nBuf) ∧ incomingNew (u.data.take nBuf) = .ok message ∧
        dest = ⟨.inet, u.dst, serverPort⟩ := by
  rw [bsdServer, sSocketUdpRecv_iff]
  simp only [udpRecvBsd_iff]
  constructor
  · intro h
    obtain ⟨a, ⟨hr, hi, ha⟩, hd⟩ := h
    exact ⟨hr, hi, by rw [hd, ha]⟩
  · intro h
    exact ⟨u.dst, ⟨h.1, h.2.1, rfl⟩, h.2.2⟩

/-- The two server paths deliver the same exactly where the filter and the check that stands in
for it agree, or the message is refused anyway. Without a skew, as from port 68, that is where
neither lets it through: one wants BOOTREQUEST in the byte where the other wants BOOTREPLY. -/
theorem server_paths_agree_iff :
    (∀ (message : μ) (dest : SockaddrIn),
      linuxServer incomingNew nBuf u = some (.ok (message, dest)) ↔
        bsdServer sizeofHeader incomingNew nBuf u = some (.ok (message, dest))) ↔
    (Passes opBootrequest u ∧ u.data.length ≤ nBuf ↔ LooksReply sizeofHeader (u.data.take nBuf)) ∨
      ∃ e, incomingNew (u.data.take nBuf) = .error e := by
  simp only [linuxServer_iff, bsdServer_iff]
  have htake : u.data.length ≤ nBuf → u.data.take nBuf = u.data := List.take_of_length_le
  constructor
  · intro h
    cases hi : incomingNew (u.data.take nBuf) with
    | error e => exact Or.inr ⟨e, rfl⟩
    | ok m =>
      left
      constructor
      · intro hl
        rw [htake hl.2] at hi
        exact ((h m _).mp ⟨hl.1, hl.2, hi, rfl⟩).1
      · intro hr
        have hl := (h m _).mpr ⟨hr, hi, rfl⟩
        exact ⟨hl.1, hl.2.1⟩
  · intro h m d
    constructor
    · intro hl
      obtain ⟨hp, hfit, hi, hd⟩ := hl
      rw [← htake hfit] at hi
      cases h with
      | inl h => exact ⟨h.mp ⟨hp, hfit⟩, hi, hd⟩
      | inr h =>
        obtain ⟨e, he⟩ := h
        rw [hi] at he
        cases he
    · intro hb
      obtain ⟨hr, hi, hd⟩ := hb
      cases h with
      | inl h =>
        obtain ⟨hp, hfit⟩ := h.mpr hr
        rw [htake hfit] at hi
        exact ⟨hp, hfit, hi, hd⟩
      | inr h =>
        obtain ⟨e, he⟩ := h
        rw [hi] at he
        cases he

def discover : UdpSkb where
  hdr := [0, 68, 0, 67, 0, 248, 0, 0]
  data := 1 :: (List.replicate 235 0 ++ beBytes 4 messageMagic)
  dst := 0xffffffff
  hdr_len := rfl
  fits := by decide +kernel

/-- Linux hands it to the server, the BSDs report it as malformed, whatever the header's size. -/
theorem server_paths_differ_on_discover :
    let incomingNew : List UInt8 → Except Unit (List UInt8) := fun b =>
      if beAt b offsetofMagic 4 = messageMagic then .ok b else .error ()
    ¬ ∃ sizeofHeader, ∀ (message : List UInt8) (dest : SockaddrIn),
      linuxServer incomingNew 1500 discover = some (.ok (message, dest)) ↔
        bsdServer sizeofHeader incomingNew 1500 discover = some (.ok (message, dest)) := by
  intro incomingNew hall
  obtain ⟨sizeofHeader, h⟩ := hall
  have hpass : Passes opBootrequest discover := ⟨by decide +kernel, by decide +kernel, by decide +kernel⟩
  have hlinux := (linuxServer_iff incomingNew 1500 discover discover.data _).mpr
    ⟨hpass, by decide +kernel, if_pos (by decide +kernel), rfl⟩
  have hreply := ((bsdServer_iff sizeofHeader incomingNew 1500 discover _ _).mp ((h _ _).mp hlinux)).1
  exact absurd hreply.op (by decide +kernel)

end PkgsrcPatches.NDhcp4
