import PkgsrcPatches.NDhcp4.RawPath
import PkgsrcPatches.HeaderLength

/-! `packet_bsd_parse` returns the first usable payload of a buffer and nothing
else of it matters. -/
namespace PkgsrcPatches.NDhcp4
open Lib.Bytes Lib.Loop Bpf
variable {abi : Abi}

/-- The caller's variables: `buf`, `*n_transmittedp` and what `src` points to,
`none` for a null pointer. -/
structure Outputs where
  buf : List UInt8
  nTransmitted : Nat
  src : Option SockaddrIn
deriving DecidableEq

/-- What a call leaves in `buf` and `src`: without a payload they stay as they were. -/
def Outputs.store (buf : List UInt8) (src : Option SockaddrIn) (found : Option Datagram) : Outputs :=
  found.elim ⟨buf, 0, src⟩ fun d =>
    ⟨d.buf ++ buf.drop d.buf.length, d.nTransmitted, src.map fun _ => d.src⟩

variable (abi) in
/-- `packet_bsd_parse` with the variables it writes. -/
def packetBsdParseInto (rbuf buf : List UInt8) (src : Option SockaddrIn) : Exit Outputs :=
  match packetBsdParse abi rbuf buf.length with
  | .ret d => .ret (.store buf src d)
  | .stray => .stray
  | .spin => .spin

/-- A record the decoder delivers: captured whole, UDP over IPv4, lengths and
checksums in order. -/
def Usable (r : Record abi) : Prop :=
  r.frame.length = r.datalen ∧ UdpPacket true (r.frame.drop etherHdrLen)

instance (r : Record abi) : Decidable (Usable r) := inferInstanceAs (Decidable (_ ∧ _))

theorem usable_of_usable {r : Record abi} (h : Usable r) (nBuf : Nat) :
    usable r.frame r.datalen nBuf = some (datagramOf (r.frame.drop etherHdrLen) nBuf) := by
  rw [usable, if_pos h.1, deliverable, if_pos h.2]

theorem usable_eq_none {r : Record abi} (h : ¬ Usable r) (nBuf : Nat) :
    usable r.frame r.datalen nBuf = none := by
  rw [usable]
  split
  · next hw => exact deliverable_eq_none fun u => h ⟨hw, u⟩
  · rfl

def firstPayload (rs : List (Record abi)) (nBuf : Nat) : Option Datagram :=
  rs.findSome? fun r => usable r.frame r.datalen nBuf

theorem firstPayload_none {rs : List (Record abi)} (h : ∀ r ∈ rs, ¬ Usable r) (nBuf : Nat) :
    firstPayload rs nBuf = none :=
  List.findSome?_eq_none_iff.mpr fun r hr => usable_eq_none (h r hr) nBuf

theorem firstPayload_append (rs qs : List (Record abi)) (nBuf : Nat) :
    firstPayload (rs ++ qs) nBuf = (firstPayload rs nBuf).or (firstPayload qs nBuf) :=
  List.findSome?_append

theorem firstPayload_skip {us : List (Record abi)} (h : ∀ r ∈ us, ¬ Usable r)
    (rs : List (Record abi)) (nBuf : Nat) : firstPayload (us ++ rs) nBuf = firstPayload rs nBuf := by
  rw [firstPayload_append, firstPayload_none h, Option.none_or]

theorem firstPayload_stop {rs : List (Record abi)} (h : ∃ r ∈ rs, Usable r)
    (qs : List (Record abi)) (nBuf : Nat) : firstPayload (rs ++ qs) nBuf = firstPayload rs nBuf := by
  obtain ⟨r, hr, hu⟩ := h
  rw [firstPayload_append, Option.or_of_isSome]
  exact List.findSome?_isSome_iff.mpr ⟨r, hr, by rw [usable_of_usable hu]; rfl⟩

/-- Every record is behind a whole `struct bpf_hdr`. -/
def WholeHdrs (rs : List (Record abi)) : Prop := ∀ r ∈ rs, abi.sizeofBpfHdr ≤ r.hdr.length

theorem packetBsdParseInto_buffer (b : Buffer abi) (buf : List UInt8) (src : Option SockaddrIn) :
    packetBsdParseInto abi b.bytes buf src =
      .ret (.store buf src (firstPayload (visibleRecs b.recs) buf.length)) := by
  rw [packetBsdParseInto, packetBsdParse_buffer]
  rfl

theorem packetBsdParseInto_whole {b : Buffer abi} (h : WholeHdrs b.recs) (buf : List UInt8)
    (src : Option SockaddrIn) : packetBsdParseInto abi b.bytes buf src =
      .ret (.store buf src (firstPayload b.recs buf.length)) := by
  rw [packetBsdParseInto_buffer,
    visibleRecs_eq_self fun r hr => Record.visible_iff.mpr (h r hr)]

theorem visibleRecs_append {rs : List (Record abi)} (h : WholeHdrs rs) (qs : List (Record abi)) :
    visibleRecs (rs ++ qs) = rs ++ visibleRecs qs :=
  List.takeWhile_append_of_pos fun r hr => Record.visible_iff.mpr (h r hr)

theorem packetBsdParseInto_append (b1 b2 : Buffer abi) (h1 : WholeHdrs b1.recs)
    (ha : abi.bpfAlignment ∣ b1.bytes.length)
    (hs : (b1.bytes ++ b2.bytes).length < abi.ssizeMax) (buf : List UInt8)
    (src : Option SockaddrIn) :
    packetBsdParseInto abi (b1.bytes ++ b2.bytes) buf src =
      if ∃ r ∈ b1.recs, Usable r then packetBsdParseInto abi b1.bytes buf src
      else packetBsdParseInto abi b2.bytes buf src := by
  have h := packetBsdParseInto_buffer (b1.append b2 ha hs) buf src
  rw [Buffer.append] at h
  dsimp only at h
  rw [h, visibleRecs_append h1, packetBsdParseInto_whole h1, packetBsdParseInto_buffer]
  split
  · next hu => rw [firstPayload_stop hu]
  · next hu => rw [firstPayload_skip fun r hr hc => hu ⟨r, hr, hc⟩]

theorem packetBsdParseInto_first {b : Buffer abi} (h : WholeHdrs b.recs)
    {us rest : List (Record abi)} {r : Record abi} (hb : b.recs = us ++ r :: rest)
    (hu : ∀ x ∈ us, ¬ Usable x) (hr : Usable r) (buf : List UInt8) (src : Option SockaddrIn) :
    packetBsdParseInto abi b.bytes buf src =
      .ret (.store buf src (some (datagramOf (r.frame.drop etherHdrLen) buf.length))) := by
  have hone : firstPayload [r] buf.length =
      some (datagramOf (r.frame.drop etherHdrLen) buf.length) := by
    rw [firstPayload, List.findSome?_cons, usable_of_usable hr]
  have hstop : firstPayload (r :: rest) buf.length = firstPayload [r] buf.length :=
    firstPayload_stop ⟨r, List.mem_singleton_self r, hr⟩ rest _
  rw [packetBsdParseInto_whole h, hb, firstPayload_skip hu, hstop, hone]

theorem packetBsdParseInto_surround {b b' : Buffer abi} (h : WholeHdrs b.recs)
    (h' : WholeHdrs b'.recs) {us us' rest rest' : List (Record abi)} {r : Record abi}
    (hb : b.recs = us ++ r :: rest) (hb' : b'.recs = us' ++ r :: rest') (hu : ∀ x ∈ us, ¬ Usable x)
    (hu' : ∀ x ∈ us', ¬ Usable x) (hr : Usable r) (buf : List UInt8) (src : Option SockaddrIn) :
    packetBsdParseInto abi b.bytes buf src = packetBsdParseInto abi b'.bytes buf src := by
  rw [packetBsdParseInto_first h hb hu hr, packetBsdParseInto_first h' hb' hu' hr]

theorem packetBsdParseInto_useless {b : Buffer abi} (h : WholeHdrs b.recs)
    (hu : ∀ x ∈ b.recs, ¬ Usable x) (buf : List UInt8) (src : Option SockaddrIn) :
    packetBsdParseInto abi b.bytes buf src = .ret ⟨buf, 0, src⟩ := by
  rw [packetBsdParseInto_whole h, firstPayload_none hu]
  rfl

/-- The first usable payload is returned, and what lies before or behind it makes
no difference; without one, nothing is. -/
theorem packetBsdParse_first_usable (b1 b2 : Buffer abi) (h1 : WholeHdrs b1.recs)
    (ha : abi.bpfAlignment ∣ b1.bytes.length)
    (hs : (b1.bytes ++ b2.bytes).length < abi.ssizeMax) (buf : List UInt8)
    (src : Option SockaddrIn) :
    packetBsdParseInto abi (b1.bytes ++ b2.bytes) buf src =
        (if ∃ r ∈ b1.recs, Usable r then packetBsdParseInto abi b1.bytes buf src
          else packetBsdParseInto abi b2.bytes buf src) ∧
      (∀ (b b' : Buffer abi) (us us' rest rest' : List (Record abi)) (r : Record abi),
        WholeHdrs b.recs → WholeHdrs b'.recs → b.recs = us ++ r :: rest →
        b'.recs = us' ++ r :: rest' → (∀ x ∈ us, ¬ Usable x) → (∀ x ∈ us', ¬ Usable x) →
        Usable r →
        packetBsdParseInto abi b.bytes buf src = packetBsdParseInto abi b'.bytes buf src) ∧
      (∀ (b : Buffer abi) (us rest : List (Record abi)) (r : Record abi),
        WholeHdrs b.recs → b.recs = us ++ r :: rest → (∀ x ∈ us, ¬ Usable x) → Usable r →
        packetBsdParseInto abi b.bytes buf src =
          .ret (.store buf src (some (datagramOf (r.frame.drop etherHdrLen) buf.length)))) ∧
      ∀ b : Buffer abi, WholeHdrs b.recs → (∀ x ∈ b.recs, ¬ Usable x) →
        packetBsdParseInto abi b.bytes buf src = .ret ⟨buf, 0, src⟩ :=
  ⟨packetBsdParseInto_append b1 b2 h1 ha hs buf src,
    fun _ _ _ _ _ _ _ h h' hb hb' hu hu' hr =>
      packetBsdParseInto_surround h h' hb hb' hu hu' hr buf src,
    fun _ _ _ _ h hb hu hr => packetBsdParseInto_first h hb hu hr buf src,
    fun _ h hu => packetBsdParseInto_useless h hu buf src⟩

def offerBuffer : Buffer lp64 := .ofRecords [offerRecord 0x0a000001] (by decide +kernel)

theorem packetBsdParse_first_usable_offer :
    let buf : List UInt8 := List.replicate 576 0
    let src : Option SockaddrIn := some ⟨.unspec, 0, 0⟩
    packetBsdParseInto lp64 (paddedRead.bytes ++ offerBuffer.bytes) buf src =
        (if ∃ r ∈ paddedRead.recs, Usable r then packetBsdParseInto lp64 paddedRead.bytes buf src
          else packetBsdParseInto lp64 offerBuffer.bytes buf src) ∧
      (∀ (b b' : Buffer lp64) (us us' rest rest' : List (Record lp64)) (r : Record lp64),
        WholeHdrs b.recs → WholeHdrs b'.recs → b.recs = us ++ r :: rest →
        b'.recs = us' ++ r :: rest' → (∀ x ∈ us, ¬ Usable x) → (∀ x ∈ us', ¬ Usable x) →
        Usable r →
        packetBsdParseInto lp64 b.bytes buf src = packetBsdParseInto lp64 b'.bytes buf src) ∧
      (∀ (b : Buffer lp64) (us rest : List (Record lp64)) (r : Record lp64),
        WholeHdrs b.recs → b.recs = us ++ r :: rest → (∀ x ∈ us, ¬ Usable x) → Usable r →
        packetBsdParseInto lp64 b.bytes buf src =
          .ret (.store buf src (some (datagramOf (r.frame.drop etherHdrLen) buf.length)))) ∧
      ∀ b : Buffer lp64, WholeHdrs b.recs → (∀ x ∈ b.recs, ¬ Usable x) →
        packetBsdParseInto lp64 b.bytes buf src = .ret ⟨buf, 0, src⟩ :=
  packetBsdParse_first_usable paddedRead offerBuffer (by simp only [WholeHdrs]; decide +kernel)
    (by decide +kernel) (by decide +kernel) _ _

end PkgsrcPatches.NDhcp4
