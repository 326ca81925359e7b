import PkgsrcPatches.NDhcp4.FirstUsable
import PkgsrcPatches.NDhcp4.SocketUdp
import Mathlib.Data.List.TakeDrop

/-! Datagrams larger than the caller's buffer, on the four ways in. Linux refuses
them; the BSD routines cut them. -/
namespace PkgsrcPatches.NDhcp4
open Lib.Bytes Lib.Loop Bpf
variable {abi : Abi} {ε μ : Type}

/-! ### The raw path -/

def firstUsable (rs : List (Record abi)) : Option (Record abi) :=
  (visibleRecs rs).find? fun r => decide (Usable r)

def payloadBytes (r : Record abi) : List UInt8 := udpPayload (r.frame.drop etherHdrLen)

theorem firstPayload_eq_find? (rs : List (Record abi)) (nBuf : Nat) :
    firstPayload rs nBuf = (rs.find? fun r => decide (Usable r)).map fun r =>
      datagramOf (r.frame.drop etherHdrLen) nBuf := by
  induction rs with
  | nil => rfl
  | cons r rs ih =>
    rw [firstPayload, List.findSome?_cons, List.find?_cons]
    by_cases h : Usable r
    · simp only [usable_of_usable h, decide_eq_true h, Option.map_some]
    · simp only [usable_eq_none h, decide_eq_false h]
      exact ih

theorem packetBsdParse_firstUsable (b : Buffer abi) (nBuf : Nat) :
    packetBsdParse abi b.bytes nBuf = .ret ((firstUsable b.recs).map fun r =>
      datagramOf (r.frame.drop etherHdrLen) nBuf) := by
  rw [packetBsdParse_buffer, firstUsable, ← firstPayload_eq_find?]
  rfl

/-- A result that is the whole of a payload, or none of it. -/
def WholeOrNone (payload : List UInt8) (d : Option Datagram) : Prop :=
  ∀ m, d = some m → m.buf = payload ∧ m.nTransmitted = payload.length

theorem datagramOf_whole_iff {verify : Bool} {ip : List UInt8} (u : UdpPacket verify ip)
    (nBuf : Nat) :
    WholeOrNone (udpPayload ip) (some (datagramOf ip nBuf)) ↔ (udpPayload ip).length ≤ nBuf := by
  have hl := u.payload_length
  constructor
  · intro h
    exact (List.take_eq_self_iff _).mp (h _ rfl).1
  · intro h m hm
    cases hm
    refine ⟨List.take_of_length_le h, ?_⟩
    simp only [datagramOf, hl] at h ⊢
    omega

theorem packetBsdParse_whole_iff (b : Buffer abi) (nBuf : Nat) :
    (∀ d, packetBsdParse abi b.bytes nBuf = .ret d → ∀ r, firstUsable b.recs = some r →
        WholeOrNone (payloadBytes r) d) ↔
      ∀ r, firstUsable b.recs = some r → (payloadBytes r).length ≤ nBuf := by
  rw [packetBsdParse_firstUsable]
  have hu {r : Record abi} (hr : firstUsable b.recs = some r) : Usable r :=
    of_decide_eq_true (List.find?_some (p := fun r => decide (Usable r)) hr)
  constructor
  · intro h r hr
    have := h _ rfl r hr
    rw [hr] at this
    exact (datagramOf_whole_iff (hu hr).2 nBuf).mp this
  · intro h d hd r hr
    cases hd
    rw [hr]
    exact (datagramOf_whole_iff (hu hr).2 nBuf).mpr (h r hr)

theorem packetRecvfromUdpSkb_whole (k : Skb) (nBuf : Nat) {d : Option Datagram}
    (h : packetRecvfromUdpSkb k nBuf = some d) : WholeOrNone (udpPayload k.data) d := by
  rw [packetRecvfromUdpSkb_eq] at h
  cases h
  rw [linuxDeliverable]
  split
  swap
  · intro m hm; cases hm
  next hfit =>
    rw [deliverable]
    split
    · next u =>
      refine (datagramOf_whole_iff u nBuf).mpr ?_
      have h1 := u.payload_length
      have h2 := u.udpMax
      omega
    · intro m hm; cases hm

/-! ### The UDP path -/

section Udp
variable (sizeofHeader : Nat) (incomingNew : List UInt8 → Except ε μ)

/-- A message is handed on only when it was built from the whole datagram. -/
def BuiltFromWhole (data : List UInt8)
    (res : Option (Except (RecvError ε) (μ × UInt32))) : Prop :=
  ∀ m a, res = some (.ok (m, a)) → incomingNew data = .ok m

variable (nBuf : Nat) (data : List UInt8) (ctrl : List Cmsg)

theorem udpRecvBsd_refused (h : ¬ LooksReply sizeofHeader (data.take nBuf)) :
    nDhcp4SocketUdpRecvBsd sizeofHeader incomingNew nBuf (.ok (data, ctrl)) =
      some (.error .malformed) := by
  have hc : (data.take nBuf).length < sizeofHeader ∨ beAt (data.take nBuf) 0 1 ≠ opBootreply := by
    by_contra hn
    obtain ⟨h1, h2⟩ := not_or.mp hn
    exact h ⟨Nat.le_of_not_lt h1, not_not.mp h2⟩
  simp only [nDhcp4SocketUdpRecvBsd, if_pos hc, ite_self]

theorem udpRecvBsd_handed (h : LooksReply sizeofHeader (data.take nBuf)) :
    nDhcp4SocketUdpRecvBsd sizeofHeader incomingNew nBuf (.ok (data, ctrl)) =
      match incomingNew (data.take nBuf) with
      | .error e => some (.error (.incoming e))
      | .ok message => some (.ok (message, dstAddr ctrl)) := by
  have hle : (data.take nBuf).length ≤ nBuf := by rw [List.length_take]; omega
  have h0 : ¬ ((data.take nBuf).length = 0 ∨ nBuf < (data.take nBuf).length) := by
    have hne := h.ne_nil
    omega
  have hc : ¬ ((data.take nBuf).length < sizeofHeader ∨ beAt (data.take nBuf) 0 1 ≠ opBootreply) :=
    not_or.mpr ⟨Nat.not_lt.mpr h.room, not_not.mpr h.op⟩
  cases hnew : incomingNew (data.take nBuf) with
  | error e => simp only [nDhcp4SocketUdpRecvBsd, if_neg h0, if_neg hc, hnew]
  | ok message => simp only [nDhcp4SocketUdpRecvBsd, if_neg h0, if_neg hc, hnew]

/-- The BSD routine: a datagram that does not fit is handed on cut, unless a check
behind the length test happens to refuse the cut. -/
theorem udpRecvBsd_whole_iff (raw : μ → List UInt8)
    (hraw : ∀ buf m, incomingNew buf = .ok m → raw m = buf) :
    BuiltFromWhole incomingNew data
        (nDhcp4SocketUdpRecvBsd sizeofHeader incomingNew nBuf (.ok (data, ctrl))) ↔
      data.length ≤ nBuf ∨ ¬ LooksReply sizeofHeader (data.take nBuf) ∨
        ∃ e, incomingNew (data.take nBuf) = .error e := by
  by_cases hr : LooksReply sizeofHeader (data.take nBuf)
  swap
  · rw [udpRecvBsd_refused sizeofHeader incomingNew nBuf data ctrl hr]
    exact ⟨fun _ => Or.inr (Or.inl hr), fun _ m a h => by cases h⟩
  rw [udpRecvBsd_handed sizeofHeader incomingNew nBuf data ctrl hr]
  cases hi : incomingNew (data.take nBuf) with
  | error e => exact ⟨fun _ => Or.inr (Or.inr ⟨e, rfl⟩), fun _ m a h => by cases h⟩
  | ok message =>
    constructor
    · intro h
      have hw := hraw _ _ (h message _ rfl)
      rw [hraw _ _ hi] at hw
      exact Or.inl ((List.take_eq_self_iff _).mp hw)
    · rintro (hfit | hc | ⟨e, he⟩) m a hm
      · rw [List.take_of_length_le hfit] at hi
        cases hm
        exact hi
      · exact absurd hr hc
      · cases he

theorem udpRecvLinux_refused (h : nBuf < data.length) :
    nDhcp4SocketUdpRecvLinux incomingNew nBuf (.ok (data, ctrl)) = some (.error .malformed) := by
  simp only [nDhcp4SocketUdpRecvLinux]
  exact if_pos (Or.inr h)

theorem udpRecvLinux_whole : BuiltFromWhole incomingNew data
    (nDhcp4SocketUdpRecvLinux incomingNew nBuf (.ok (data, ctrl))) := by
  intro m a h
  by_cases hf : data.length = 0 ∨ nBuf < data.length
  · simp only [nDhcp4SocketUdpRecvLinux, if_pos hf] at h
    cases h
  simp only [nDhcp4SocketUdpRecvLinux, if_neg hf] at h
  rw [List.take_of_length_le (by omega)] at h
  cases hi : incomingNew data with
  | error e => simp [hi] at h
  | ok message =>
    rw [hi] at h
    dsimp only at h
    split at h
    · cases h; rfl
    · cases h

end Udp

/-- Both Linux routines hand on whole datagrams only. The BSD ones do so exactly
when what they take fits the buffer, or its cut is refused for another reason. -/
theorem whole_datagrams_iff (sizeofHeader : Nat) (incomingNew : List UInt8 → Except ε μ)
    (raw : μ → List UInt8) (hraw : ∀ buf m, incomingNew buf = .ok m → raw m = buf) (nBuf : Nat) (b : Buffer abi)
    (k : Skb) (data : List UInt8) (ctrl : List Cmsg) :
    ((∀ d, packetBsdParse abi b.bytes nBuf = .ret d → ∀ r, firstUsable b.recs = some r →
        WholeOrNone (payloadBytes r) d) ↔
      ∀ r, firstUsable b.recs = some r → (payloadBytes r).length ≤ nBuf) ∧
    (BuiltFromWhole incomingNew data
        (nDhcp4SocketUdpRecvBsd sizeofHeader incomingNew nBuf (.ok (data, ctrl))) ↔
      data.length ≤ nBuf ∨ ¬ LooksReply sizeofHeader (data.take nBuf) ∨
        ∃ e, incomingNew (data.take nBuf) = .error e) ∧
    (∀ d, packetRecvfromUdpSkb k nBuf = some d → WholeOrNone (udpPayload k.data) d) ∧
    BuiltFromWhole incomingNew data
        (nDhcp4SocketUdpRecvLinux incomingNew nBuf (.ok (data, ctrl))) ∧
    (nBuf < data.length →
      nDhcp4SocketUdpRecvLinux incomingNew nBuf (.ok (data, ctrl)) = some (.error .malformed)) :=
  ⟨packetBsdParse_whole_iff b nBuf, udpRecvBsd_whole_iff sizeofHeader incomingNew nBuf data ctrl raw hraw,
    fun _ h => packetRecvfromUdpSkb_whole k nBuf h, udpRecvLinux_whole incomingNew nBuf data ctrl,
    udpRecvLinux_refused incomingNew nBuf data ctrl⟩

/-- `n_dhcp4_incoming_new` as far as a reply shows it: it wants the cookie and
keeps the bytes. -/
def keepMessage (buf : List UInt8) : Except Unit (List UInt8) :=
  if sizeofNDhcp4Message ≤ buf.length ∧ beAt buf offsetofMagic 4 = messageMagic then .ok buf
  else .error ()

theorem keepMessage_ok (buf m : List UInt8) (h : keepMessage buf = .ok m) : m = buf := by
  rw [keepMessage] at h
  split at h
  · cases h; rfl
  · cases h

def longReply : List UInt8 := offerPayload ++ List.replicate 60 0

theorem whole_datagrams_iff_long :
    ((∀ d, packetBsdParse lp64 offerBuffer.bytes 1500 = .ret d →
        ∀ r, firstUsable offerBuffer.recs = some r → WholeOrNone (payloadBytes r) d) ↔
      ∀ r, firstUsable offerBuffer.recs = some r → (payloadBytes r).length ≤ 1500) ∧
    (BuiltFromWhole keepMessage longReply
        (nDhcp4SocketUdpRecvBsd 44 keepMessage 1500 (.ok (longReply, []))) ↔
      longReply.length ≤ 1500 ∨ ¬ LooksReply 44 (longReply.take 1500) ∨
        ∃ e, keepMessage (longReply.take 1500) = .error e) ∧
    (∀ d, packetRecvfromUdpSkb ⟨offer 0, none⟩ 1500 = some d →
      WholeOrNone (udpPayload (offer 0)) d) ∧
    BuiltFromWhole keepMessage longReply
        (nDhcp4SocketUdpRecvLinux keepMessage 1500 (.ok (longReply, []))) ∧
    (1500 < longReply.length →
      nDhcp4SocketUdpRecvLinux keepMessage 1500 (.ok (longReply, [])) = some (.error .malformed)) :=
  whole_datagrams_iff 44 keepMessage id keepMessage_ok 1500 offerBuffer ⟨offer 0, none⟩ longReply []

theorem firstUsable_offer : firstUsable offerBuffer.recs = some (offerRecord 0x0a000001) := by
  have hu : decide (Usable (offerRecord 0x0a000001)) = true := by decide +kernel
  have hv : visibleRecs offerBuffer.recs = offerBuffer.recs :=
    visibleRecs_eq_self (by decide +kernel)
  have hrecs : offerBuffer.recs = [offerRecord 0x0a000001] := rfl
  rw [firstUsable, hv, hrecs, List.find?_cons, hu]

/-- A reply of 300 bytes to a caller with room for 240, and an offer to one with
room for 100: both BSD routines cut. -/
theorem bsd_routines_cut :
    (¬ ∀ d, packetBsdParse lp64 offerBuffer.bytes 100 = .ret d →
      ∀ r, firstUsable offerBuffer.recs = some r → WholeOrNone (payloadBytes r) d) ∧
    ¬ BuiltFromWhole keepMessage longReply
      (nDhcp4SocketUdpRecvBsd 44 keepMessage 240 (.ok (longReply, []))) := by
  rw [packetBsdParse_whole_iff, udpRecvBsd_whole_iff 44 keepMessage 240 longReply [] id keepMessage_ok]
  constructor
  · intro h
    exact absurd (h _ firstUsable_offer) (by decide +kernel)
  · rintro (h | h | ⟨e, h⟩)
    · exact absurd h (by decide +kernel)
    · exact h (by decide +kernel)
    · have hk : keepMessage (longReply.take 240) = .ok (longReply.take 240) :=
        if_pos (by decide +kernel)
      rw [hk] at h
      cases h

end PkgsrcPatches.NDhcp4
