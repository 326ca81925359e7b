import PkgsrcPatches.NDhcp4.Packet
import PkgsrcPatches.Bpf.Walk

/-! `packet-bsd.c`: the sender that builds whole Ethernet frames, the decoder of
a BPF read and the two entry points around it. -/
namespace PkgsrcPatches.NDhcp4
open Lib.Bytes Lib.InternetChecksum Lib.Loop Bpf

/-! ### Sending -/

structure SendAnswers where
  ifIndextoname : Int → Except Errno String
  getifaddrs : Except Errno (List IfAddr)
  writev : List UInt8 → Except Errno Nat

def packetBsdHwaddr (k : SendAnswers) (ifindex : Int) : Except Errno (List UInt8) :=
  match k.ifIndextoname ifindex with
  | .error e => .error e
  | .ok ifname => findHwaddr k.getifaddrs ifname

structure Sent where
  written : Option (List UInt8)
  ret : Except Errno Nat

def bsdFrame (destHaddr : PacketSockaddrLl) (mac : List UInt8) (srcPaddr destPaddr : SockaddrIn)
    (dscp : UInt8) (buf : List UInt8) : List UInt8 :=
  destHaddr.sllAddr.take etherAddrLen ++ mac ++ beBytes 2 ethertypeIp ++
    ipPacket srcPaddr destPaddr dscp buf

def packetSendtoUdpBsd (k : SendAnswers) (buf : List UInt8) (srcPaddr : SockaddrIn)
    (destHaddr : PacketSockaddrLl) (destPaddr : SockaddrIn) (dscp : UInt8) : Sent :=
  if destHaddr.sllHalen.toNat ≠ etherAddrLen then ⟨none, .error .einval⟩ else
  match packetBsdHwaddr k destHaddr.sllIfindex with
  | .error e => ⟨none, .error e⟩
  | .ok mac =>
    let frame := bsdFrame destHaddr mac srcPaddr destPaddr dscp buf
    match k.writev frame with
    | .error e => ⟨some frame, .error e⟩
    | .ok pktlen =>
      if pktlen ≠ etherHdrLen + packetIpHdrLen + udpHdrLen + buf.length then
        ⟨some frame, .error .eio⟩
      else
        ⟨some frame, .ok buf.length⟩

theorem packetBsdHwaddr_length {k : SendAnswers} {ifindex : Int} {mac : List UInt8}
    (h : packetBsdHwaddr k ifindex = .ok mac) : mac.length = etherAddrLen := by
  cases hi : k.ifIndextoname ifindex with
  | error e => simp [packetBsdHwaddr, hi] at h
  | ok ifname =>
    simp only [packetBsdHwaddr, hi] at h
    exact findHwaddr_length h

section Frame
variable {destHaddr : PacketSockaddrLl} {mac : List UInt8} {srcPaddr destPaddr : SockaddrIn}
  {dscp : UInt8} {buf : List UInt8}

theorem etherHdr_length (hm : mac.length = etherAddrLen) :
    (destHaddr.sllAddr.take etherAddrLen ++ mac ++ beBytes 2 ethertypeIp).length = etherHdrLen := by
  have h := destHaddr.sllAddr_room
  simp only [List.length_append, List.length_take, beBytes_length, hm, Nat.min_eq_left h]
  rfl

theorem bsdFrame_length (hm : mac.length = etherAddrLen) :
    (bsdFrame destHaddr mac srcPaddr destPaddr dscp buf).length = 14 + 20 + 8 + buf.length := by
  rw [bsdFrame, List.length_append, etherHdr_length hm, ipPacket_length, etherHdrLen]
  omega

theorem bsdFrame_drop (hm : mac.length = etherAddrLen) :
    (bsdFrame destHaddr mac srcPaddr destPaddr dscp buf).drop etherHdrLen =
      ipPacket srcPaddr destPaddr dscp buf := by
  rw [bsdFrame, ← etherHdr_length hm, List.drop_left]

theorem written_packetSendtoUdpBsd {k : SendAnswers} (halen : destHaddr.sllHalen.toNat = etherAddrLen)
    (hmac : packetBsdHwaddr k destHaddr.sllIfindex = .ok mac) :
    (packetSendtoUdpBsd k buf srcPaddr destHaddr destPaddr dscp).written =
      some (bsdFrame destHaddr mac srcPaddr destPaddr dscp buf) := by
  simp only [packetSendtoUdpBsd, halen, hmac, ne_eq, not_true, if_false]
  split
  · rfl
  · split <;> rfl

end Frame

/-! ### Receiving -/

/-- The checks of `packet_bsd_parse` on one captured frame, in their order. No
read leaves the frame: the outer `none` would be one that does. -/
def packetBsdFrame (frame : List UInt8) (bh : BpfHdr) (nBuf : Nat) : Option (Option Datagram) := do
  if bh.bhCaplen ≠ bh.bhDatalen then pure none else
  if bh.bhCaplen < etherHdrLen + packetIpHdrLen + udpHdrLen then pure none else
  let p := frame.drop etherHdrLen
  let frame := bh.bhCaplen - etherHdrLen
  let vhl ← be? p 0 1
  if vhl / 16 ≠ ipversion then pure none else
  let hdrlen := 4 * (vhl % 16)
  if hdrlen < packetIpHdrLen ∨ frame < hdrlen then pure none else
  if (← be? p 9 1) ≠ ipprotoUdp then pure none else
  let iplen ← be? p 2 2
  if frame < iplen ∨ iplen < hdrlen + udpHdrLen then pure none else
  if checksum (← slice? p 0 hdrlen) ≠ 0 then pure none else
  let udpHdr ← slice? p hdrlen udpHdrLen
  let udplen ← be? udpHdr 4 2
  if udplen < udpHdrLen ∨ iplen < hdrlen + udplen then pure none else
  let udplen := udplen - udpHdrLen
  let sport ← be? udpHdr 0 2
  let dport ← be? udpHdr 2 2
  let sum ← be? udpHdr 6 2
  let src ← be? p 12 4
  let dst ← be? p 16 4
  let data ← slice? p (hdrlen + udpHdrLen) udplen
  if sum ≠ 0 ∧ packetInternetChecksumUdp (.ofNat src) (.ofNat dst) (.ofNat sport) (.ofNat dport)
      data sum ≠ 0 then pure none else
  let udplen := if nBuf < udplen then nBuf else udplen
  let buf ← slice? p (hdrlen + udpHdrLen) udplen
  pure (some ⟨buf, udplen, ⟨.inet, .ofNat src, .ofNat sport⟩⟩)

/-- The loop body of `packet_bsd_parse`: the first usable payload ends it. -/
def visitUdp (nBuf : Nat) (buf : List UInt8) (off : Nat) (bh : BpfHdr) (_ : Unit) :
    Option (Pass Unit (Option Datagram)) := do
  let frame ← slice? buf (off + bh.bhHdrlen) bh.bhCaplen
  match ← packetBsdFrame frame bh nBuf with
  | none => pure (.next ())
  | some d => pure (.done (some d))

variable (abi : Abi)

/-- `packet_bsd_parse`. Every pass moves `off`, so these passes are enough. -/
def packetBsdParse (rbuf : List UInt8) (nBuf : Nat) : Exit (Option Datagram) :=
  run (abi.walkPass rbuf (fun _ => true) (visitUdp nBuf rbuf) fun _ => none)
    (rbuf.length + 1) (0, ())

/-- `packet_recvfrom_udp`: a wakeup that carried nothing is a success that
delivers none. -/
def packetRecvfromUdpBsd (biocgblen : Except Errno Nat) (malloc : Bool)
    (read : Nat → Except Errno (List UInt8)) (nBuf : Nat) : Exit (Except Errno (Option Datagram)) :=
  match biocgblen with
  | .error e => .ret (.error e)
  | .ok blen =>
    if blen = 0 then .ret (.error .eio) else
    if malloc = false then .ret (.error .enomem) else
    match read blen with
    | .error e => .ret (if e = .eagain ∨ e = .eintr then .ok none else .error e)
    | .ok rbuf => match packetBsdParse abi rbuf nBuf with
      | .ret d => .ret (.ok d)
      | .stray => .stray
      | .spin => .spin

def packetShutdownFilter : List Lib.ClassicBpf.Insn := [.ret 0]

/-! ### The decoder in terms of frames -/

variable {abi}

def usable (frame : List UInt8) (datalen nBuf : Nat) : Option Datagram :=
  if frame.length = datalen then deliverable true (frame.drop etherHdrLen) nBuf else none

theorem packetBsdFrame_eq (frame : List UInt8) (datalen hdrlen nBuf : Nat) :
    packetBsdFrame frame ⟨frame.length, datalen, hdrlen⟩ nBuf =
      some (usable frame datalen nBuf) := by
  have hip : (frame.drop etherHdrLen).length = frame.length - etherHdrLen := List.length_drop
  simp only [packetBsdFrame, usable, ← hip]
  generalize frame.drop etherHdrLen = p at hip ⊢
  refine refuse (fun h => if_neg h) fun hd => ?_
  rw [if_pos (not_not.mp hd)]
  refine refuse (fun h => deliverable_eq_none fun u => ?_) fun h0 => ?_
  · have h1 := u.hdr
    have h2 := u.room
    have h3 := u.whole
    simp only [etherHdrLen, packetIpHdrLen, udpHdrLen] at *
    omega
  have hlen : 28 ≤ p.length := by
    simp only [etherHdrLen, packetIpHdrLen, udpHdrLen] at *
    omega
  rw [be?_of_le (by omega), be?_of_le (by omega), be?_of_le (by omega), be?_of_le (by omega),
    be?_of_le (by omega)]
  simp only [Option.bind_eq_bind, Option.bind_some, beAt_ihl, beAt_len]
  refine refuse (fun h => deliverable_eq_none fun u => h u.version) fun hv => ?_
  refine refuse (fun h => deliverable_eq_none fun u => ?_) fun hh => ?_
  · have h1 := u.hdr
    have h2 := u.room
    have h3 := u.whole
    omega
  refine refuse (fun h => deliverable_eq_none fun u => h u.udp) fun hu => ?_
  refine refuse (fun h => deliverable_eq_none fun u => ?_) fun hl => ?_
  · have h2 := u.room
    have h3 := u.whole
    omega
  rw [slice?_of_le (by omega), slice?_of_le (by omega)]
  simp only [Option.bind_some]
  refine refuse (fun h => deliverable_eq_none fun u => h (u.ipSum rfl)) fun hs => ?_
  have hhdr : (slice p (ipHdrLen p) udpHdrLen).length = 8 := slice_length _ _ _ (by omega)
  rw [be?_of_le (by omega), be?_of_le (by omega), be?_of_le (by omega), be?_of_le (by omega)]
  simp only [Option.bind_some]
  rw [beAt_slice _ _ _ 4 2 (by decide), beAt_slice _ _ _ 0 2 (by decide),
    beAt_slice _ _ _ 2 2 (by decide), beAt_slice _ _ _ 6 2 (by decide)]
  simp only [beAt_udpLen, beAt_udpCheck, beAt_udpSport, beAt_udpDport]
  refine refuse (fun h => deliverable_eq_none fun u => ?_) fun hlu => ?_
  · have h2 := u.udpMin
    have h3 := u.udpMax
    omega
  rw [slice?_of_le (show _ + (udpLen p - udpHdrLen) ≤ _ by omega)]
  simp only [Option.bind_some]
  refine refuse (fun h => deliverable_eq_none fun u => ?_) fun hc => ?_
  · cases u.udpSum rfl with
    | inl h0 => exact h.1 h0
    | inr h0 => exact h.2 h0
  rw [slice?_of_le (by split <;> omega)]
  have hudp : UdpPacket true p := {
    version := not_not.mp hv
    hdr := by omega
    udp := not_not.mp hu
    whole := by omega
    room := by omega
    ipSum := fun _ => not_not.mp hs
    udpMin := by omega
    udpMax := by omega
    udpSum := fun _ => by rwa [not_and_not_right, ← Classical.or_iff_not_imp_left] at hc }
  have hcut : (if nBuf < udpLen p - udpHdrLen then nBuf else udpLen p - udpHdrLen) =
      min (udpLen p - udpHdrLen) nBuf := cut_eq_min _ _
  have hbuf : slice p (ipHdrLen p + udpHdrLen) (min (udpLen p - udpHdrLen) nBuf) =
      (udpPayload p).take nBuf := by
    rw [udpPayload, slice, slice, List.take_take, Nat.min_comm]
  rw [deliverable, if_pos hudp, hcut, hbuf]
  rfl

def seeUdp (nBuf : Nat) (r : Record abi) (_ : Unit) : Pass Unit (Option Datagram) :=
  match usable r.frame r.datalen nBuf with
  | none => .next ()
  | some d => .done (some d)

theorem sees_visitUdp (nBuf : Nat) : Sees abi (visitUdp nBuf) (seeUdp nBuf) := by
  intro pre tail r s _ _
  have hf : slice? (pre ++ (r.bytes ++ tail)) (pre.length + r.hdr.length) r.frame.length =
      some r.frame := by
    rw [slice?_append_right, Record.bytes, List.append_assoc, ← Nat.add_zero r.hdr.length,
      slice?_append_right, slice?_append_left _ _ _ _ (by omega), slice?_of_le (by omega), slice_all]
  simp only [visitUdp, seeUdp, Record.bpfHdr, hf, Option.bind_eq_bind, Option.bind_some,
    packetBsdFrame_eq]
  cases usable r.frame r.datalen nBuf <;> rfl

theorem scan_seeUdp (nBuf : Nat) (rs : List (Record abi)) :
    scan (fun _ => true) (seeUdp nBuf) (fun _ => none) rs () =
      (visibleRecs rs).findSome? fun r => usable r.frame r.datalen nBuf := by
  induction rs with
  | nil => rfl
  | cons r rs ih =>
    rw [scan, visibleRecs, List.takeWhile_cons]
    cases hv : r.visible with
    | false => simp
    | true =>
      simp only [Bool.and_self, if_true, List.findSome?_cons, seeUdp]
      cases hu : usable r.frame r.datalen nBuf with
      | none => exact ih
      | some d => rfl

theorem packetBsdParse_buffer (b : Buffer abi) (nBuf : Nat) :
    packetBsdParse abi b.bytes nBuf =
      .ret ((visibleRecs b.recs).findSome? fun r => usable r.frame r.datalen nBuf) := by
  rw [packetBsdParse, run_buffer (sees_visitUdp nBuf) b () _ (by omega), scan_seeUdp]

theorem packetBsdParse_first {r : Record abi} {tail : List UInt8} {nBuf : Nat} {d : Datagram}
    (hs : (r.bytes ++ tail).length < abi.ssizeMax) (hv : r.visible = true)
    (hd : usable r.frame r.datalen nBuf = some d) :
    packetBsdParse abi (r.bytes ++ tail) nBuf = .ret (some d) := by
  have hp := walkPass_record (fun _ => true) (fun _ => none) (sees_visitUdp nBuf) [] tail
    (s := ()) hs rfl hv
  rw [seeUdp, hd] at hp
  exact run_done _ hp

end PkgsrcPatches.NDhcp4
