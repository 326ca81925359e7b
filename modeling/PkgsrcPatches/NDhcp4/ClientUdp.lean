import PkgsrcPatches.NDhcp4.SocketUdp

/-! The client's UDP socket: Linux filters what is queued on it, the BSDs check what is read
from it. -/
namespace PkgsrcPatches.NDhcp4
open Lib.Bytes Lib.ClassicBpf
variable {ε μ : Type}

def nDhcp4LinuxClientUdpFilter : List Insn := nDhcp4LinuxUdpFilter opBootreply

section Recv
variable (sizeofHeader : Nat) (incomingNew : List UInt8 → Except ε μ) (nBuf : Nat)
  (recvmsg : Except Errno (List UInt8))

/-- `n_dhcp4_socket_udp_recv` on Linux for a caller that passes no `dest_addr`. -/
def udpRecvLinux : Except (RecvError ε) μ :=
  match recvmsg with
  | .error e => .error (recvError e)
  | .ok data =>
    if data.length = 0 ∨ nBuf < data.length then .error .malformed else
    match incomingNew (data.take nBuf) with
    | .error e => .error (.incoming e)
    | .ok message => .ok message

def udpRecvBsd : Except (RecvError ε) μ :=
  match recvmsg with
  | .error e => .error (recvError e)
  | .ok data =>
    let buf := data.take nBuf
    if buf.length = 0 ∨ nBuf < buf.length then .error .malformed else
    if buf.length < sizeofHeader ∨ beAt buf 0 1 ≠ opBootreply then .error .malformed else
    match incomingNew buf with
    | .error e => .error (.incoming e)
    | .ok message => .ok message

end Recv

variable (sizeofHeader : Nat) (incomingNew : List UInt8 → Except ε μ) (nBuf : Nat) (u : UdpSkb)

/-- A datagram on its way to the client: Linux does not queue what its filter drops. -/
def linuxClient : Except (RecvError ε) μ :=
  udpRecvLinux incomingNew nBuf
    (if accepts nDhcp4LinuxClientUdpFilter u.packet then .ok u.data else .error .eagain)

def bsdClient : Except (RecvError ε) μ := udpRecvBsd sizeofHeader incomingNew nBuf (.ok u.data)

/-- What both files say of `n_dhcp4_incoming_new`: it checks the cookie. -/
def ChecksMagic : Prop :=
  ∀ data message, incomingNew data = .ok message →
    sizeofNDhcp4Message ≤ data.length ∧ beAt data offsetofMagic 4 = messageMagic

/-- Both sockets are connected to the server's port. -/
def UdpSkb.FromServer : Prop := beAt u.hdr 0 2 = serverPort.toNat

theorem UdpSkb.FromServer.skew_eq {u : UdpSkb} (h : u.FromServer) : u.skew = 0 := by
  obtain ⟨a, b, w, hw⟩ : ∃ a b w, u.hdr = a :: b :: w := by
    match hu : u.hdr, u.hdr_len with
    | a :: b :: w, _ => exact ⟨a, b, w, rfl⟩
  have hport : b.toNat + 256 * (a.toNat + 256 * 0) = 67 := by
    rw [UdpSkb.FromServer, hw] at h
    exact h
  have hhigh : beAt u.hdr 0 1 = a.toNat + 256 * 0 := by
    rw [hw]
    rfl
  rw [UdpSkb.skew, hhigh]
  omega

theorem linuxClient_iff (message : μ) : linuxClient incomingNew nBuf u = .ok message ↔
    Passes opBootreply u ∧ u.data.length ≤ nBuf ∧ incomingNew u.data = .ok message := by
  rw [linuxClient]
  by_cases ha : accepts nDhcp4LinuxClientUdpFilter u.packet
  · have hp : Passes opBootreply u := (passes_iff opBootreply u).mp ha
    have hroom := hp.room
    simp only [sizeofNDhcp4Message] at hroom
    rw [if_pos ha, udpRecvLinux]
    by_cases hf : u.data.length = 0 ∨ nBuf < u.data.length
    · have hbig : ¬ u.data.length ≤ nBuf := by omega
      rw [if_pos hf]
      simp [hbig]
    · rw [if_neg hf, List.take_of_length_le (by omega)]
      have hfit : u.data.length ≤ nBuf := by omega
      cases hi : incomingNew u.data with
      | error e => simp
      | ok m => simp [hfit, hp]
  · have hp : ¬ Passes opBootreply u := fun h => ha ((passes_iff opBootreply u).mpr h)
    rw [if_neg ha]
    simp [udpRecvLinux, hp]

theorem bsdClient_iff (message : μ) : bsdClient sizeofHeader incomingNew nBuf u = .ok message ↔
    LooksReply sizeofHeader (u.data.take nBuf) ∧ incomingNew (u.data.take nBuf) = .ok message := by
  have hsame : bsdClient sizeofHeader incomingNew nBuf u = .ok message ↔
      nDhcp4SocketUdpRecvBsd sizeofHeader incomingNew nBuf (.ok (u.data, [.recvdstaddr u.dst])) =
        some (.ok (message, u.dst)) := by
    simp only [bsdClient, udpRecvBsd, nDhcp4SocketUdpRecvBsd]
    split
    · simp
    · split
      · simp
      · cases incomingNew (u.data.take nBuf) with
        | error e => simp
        | ok m => simp [dstAddr]
  rw [hsame, udpRecvBsd_iff]
  simp

/-- The client is handed the same replies on both, for every datagram that fits its buffer, and
for a larger one where the cut is refused as Linux refuses the whole. -/
theorem client_replies_agree_iff (hsize : sizeofHeader ≤ sizeofNDhcp4Message)
    (hmagic : ChecksMagic incomingNew) (hport : u.FromServer) :
    (∀ message, linuxClient incomingNew nBuf u = .ok message ↔
      bsdClient sizeofHeader incomingNew nBuf u = .ok message) ↔
    u.data.length ≤ nBuf ∨ ¬ (LooksReply sizeofHeader (u.data.take nBuf) ∧
      ∃ message, incomingNew (u.data.take nBuf) = .ok message) := by
  simp only [linuxClient_iff, bsdClient_iff]
  have hskew : u.skew = 0 := hport.skew_eq
  constructor
  · intro h
    by_cases hfit : u.data.length ≤ nBuf
    · exact Or.inl hfit
    · right
      intro hex
      obtain ⟨hr, m, hm⟩ := hex
      exact hfit ((h m).mpr ⟨hr, hm⟩).2.1
  · intro h message
    constructor
    · intro hl
      obtain ⟨hp, hfit, hi⟩ := hl
      have htake : u.data.take nBuf = u.data := List.take_of_length_le hfit
      have hroom := hp.room
      have hop := hp.op
      rw [hskew] at hroom hop
      rw [htake]
      exact ⟨⟨by omega, hop⟩, hi⟩
    · intro hb
      obtain ⟨hr, hi⟩ := hb
      have hfit : u.data.length ≤ nBuf := h.resolve_right fun hn => hn ⟨hr, message, hi⟩
      rw [List.take_of_length_le hfit] at hr hi
      obtain ⟨hroom, hm⟩ := hmagic _ _ hi
      refine ⟨⟨?_, ?_, ?_⟩, hfit, hi⟩
      · rw [hskew, Nat.zero_add]
        exact hroom
      · rw [hskew]
        exact hr.op
      · rw [hskew, Nat.zero_add]
        exact hm

def udpOffer : UdpSkb where
  hdr := [0, 67, 0, 68, 0, 248, 0, 0]
  data := 2 :: (List.replicate 235 0 ++ beBytes 4 messageMagic)
  dst := 0xc0a80002
  hdr_len := rfl
  fits := by
    simp only [List.length_append, List.length_cons, List.length_replicate, beBytes_length,
      List.length_nil]
    omega

theorem client_replies_agree_iff_offer :
    let incomingNew : List UInt8 → Except Unit (List UInt8) := fun b =>
      if sizeofNDhcp4Message ≤ b.length ∧ beAt b offsetofMagic 4 = messageMagic then .ok b
      else .error ()
    (∀ message, linuxClient incomingNew 1500 udpOffer = .ok message ↔
      bsdClient 44 incomingNew 1500 udpOffer = .ok message) ↔
    udpOffer.data.length ≤ 1500 ∨ ¬ (LooksReply 44 (udpOffer.data.take 1500) ∧
      ∃ message, incomingNew (udpOffer.data.take 1500) = .ok message) := by
  intro incomingNew
  refine client_replies_agree_iff 44 incomingNew 1500 udpOffer (by decide) ?_ rfl
  intro data message h
  by_cases hc : sizeofNDhcp4Message ≤ data.length ∧ beAt data offsetofMagic 4 = messageMagic
  · exact hc
  · simp only [incomingNew, if_neg hc] at h
    cases h

end PkgsrcPatches.NDhcp4
