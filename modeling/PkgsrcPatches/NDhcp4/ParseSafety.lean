import PkgsrcPatches.Bpf.Layout
import PkgsrcPatches.NAcd.ReadArp
import PkgsrcPatches.NDhcp4.PacketBsd

/-! `packet_bsd_parse` on a buffer of which nothing is known. -/
namespace PkgsrcPatches.NDhcp4
open Lib.Bytes Lib.InternetChecksum Lib.Loop Bpf
variable {abi : Abi}

def packetBsdFrameWith (sub : Nat → Nat → Option Nat) (frame : List UInt8) (bh : BpfHdr)
    (nBuf : Nat) : Option (Option Datagram) := do
  if bh.bhCaplen ≠ bh.bhDatalen then pure none else
  if bh.bhCaplen < etherHdrLen + packetIpHdrLen + udpHdrLen then pure none else
  let p := frame.drop etherHdrLen
  let frame ← sub bh.bhCaplen etherHdrLen
  let vhl ← be? p 0 1
  if vhl / 16 ≠ ipversion then pure none else
  let hdrlen := 4 * (vhl % 16)
  if hdrlen < packetIpHdrLen ∨ frame < hdrlen then pure none else
  if (← be? p 9 1) ≠ ipprotoUdp then pure none else
  let iplen ← be? p 2 2
  if frame < iplen ∨ iplen < hdrlen + udpHdrLen then pure none else
  if checksum (← slice? p 0 hdrlen) ≠ 0 then pure none else
  let udpHdr ← slice? p hdrlen udpHdrLen
  let udplen ← be? udpHdr 4 2
  if udplen < udpHdrLen ∨ iplen < hdrlen + udplen then pure none else
  let udplen ← sub udplen udpHdrLen
  let sport ← be? udpHdr 0 2
  let dport ← be? udpHdr 2 2
  let sum ← be? udpHdr 6 2
  let src ← be? p 12 4
  let dst ← be? p 16 4
  let data ← slice? p (hdrlen + udpHdrLen) udplen
  if sum ≠ 0 ∧ packetInternetChecksumUdp (.ofNat src) (.ofNat dst) (.ofNat sport) (.ofNat dport)
      data sum ≠ 0 then pure none else
  let udplen := if nBuf < udplen then nBuf else udplen
  let buf ← slice? p (hdrlen + udpHdrLen) udplen
  pure (some ⟨buf, udplen, ⟨.inet, .ofNat src, .ofNat sport⟩⟩)

def visitUdpWith (sub : Nat → Nat → Option Nat) (nBuf : Nat) (buf : List UInt8) (off : Nat)
    (bh : BpfHdr) (_ : Unit) : Option (Pass Unit (Option Datagram)) := do
  let frame ← slice? buf (off + bh.bhHdrlen) bh.bhCaplen
  let found ← packetBsdFrameWith sub frame bh nBuf
  pure (found.elim (.next ()) fun d => .done (some d))

variable (abi) in
def packetBsdParseWith (sub : Nat → Nat → Option Nat) (passes : Nat) (rbuf : List UInt8)
    (nBuf : Nat) : Exit (Option Datagram) :=
  run (abi.walkPass rbuf (fun _ => true) (visitUdpWith sub nBuf rbuf) fun _ => none)
    passes (0, ())

theorem packetBsdFrameWith_congr {sub sub' : Nat → Nat → Option Nat}
    (h : ∀ a b, b ≤ a → sub a b = sub' a b) : packetBsdFrameWith sub = packetBsdFrameWith sub' := by
  funext frame bh nBuf
  rw [packetBsdFrameWith, packetBsdFrameWith]
  refine ite_congr rfl (fun _ => rfl) fun _ => ?_
  refine ite_congr rfl (fun _ => rfl) fun hlen => ?_
  rw [h _ _ (show etherHdrLen ≤ bh.bhCaplen by omega)]
  refine bind_congr fun left => bind_congr fun vhl => ?_
  refine ite_congr rfl (fun _ => rfl) fun _ => ?_
  refine ite_congr rfl (fun _ => rfl) fun _ => bind_congr fun _ => ?_
  refine ite_congr rfl (fun _ => rfl) fun _ => bind_congr fun iplen => ?_
  refine ite_congr rfl (fun _ => rfl) fun _ => bind_congr fun _ => ?_
  refine ite_congr rfl (fun _ => rfl) fun _ => bind_congr fun _ => bind_congr fun udplen => ?_
  refine ite_congr rfl (fun _ => rfl) fun hudp => ?_
  rw [h _ _ (show udpHdrLen ≤ udplen by omega)]

theorem packetBsdFrameWith_some :
    packetBsdFrameWith (fun a b => some (a - b)) = packetBsdFrame := by
  funext frame bh nBuf
  rw [packetBsdFrameWith, packetBsdFrame]
  rfl

theorem packetBsdFrameWith_sub? : packetBsdFrameWith sub? = packetBsdFrame :=
  (packetBsdFrameWith_congr fun _ _ h => sub?_of_le h).trans packetBsdFrameWith_some

theorem visitUdpWith_sub? : visitUdpWith sub? = visitUdp := by
  funext nBuf buf off bh s
  rw [visitUdpWith, visitUdp, packetBsdFrameWith_sub?]
  refine bind_congr fun frame => bind_congr fun found => ?_
  cases found <;> rfl

/-- What a call stores in the caller's buffer: no more than fits, and the length
reported is the length stored. -/
def Fits (nBuf : Nat) (d : Option Datagram) : Prop :=
  ∀ m, d = some m → m.buf.length = m.nTransmitted ∧ m.nTransmitted ≤ nBuf

theorem fits_none (nBuf : Nat) : Fits nBuf none := fun m h => by cases h

theorem fits_usable (frame : List UInt8) (datalen nBuf : Nat) :
    Fits nBuf (usable frame datalen nBuf) := by
  intro m hm
  rw [usable] at hm
  split at hm
  · rw [deliverable] at hm
    split at hm
    · next u =>
      cases hm
      exact ⟨u.datagram_length nBuf, Nat.min_le_right _ _⟩
    · cases hm
  · cases hm

theorem visitUdp_guarded (nBuf : Nat) {buf : List UInt8} {off : Nat} {bh : BpfHdr}
    (g : Guarded abi buf off bh) :
    ∃ p, visitUdp nBuf buf off bh () = some p ∧ p.Holds (fun _ => True) (Fits nBuf) := by
  obtain ⟨hf, hl⟩ := slice?_guarded g
  generalize slice buf (off + bh.bhHdrlen) bh.bhCaplen = frame at hf hl
  have hu := packetBsdFrame_eq frame bh.bhDatalen bh.bhHdrlen nBuf
  have hfits := fits_usable frame bh.bhDatalen nBuf
  rw [hl] at hu
  simp only [visitUdp, hf, hu, Option.bind_eq_bind, Option.bind_some]
  cases h : usable frame bh.bhDatalen nBuf with
  | none => exact ⟨.next (), rfl, trivial⟩
  | some d => exact ⟨.done (some d), rfl, h ▸ hfits⟩

theorem packetBsdParseWith_safe (h64 : abi.sizeBits = 64) {rbuf : List UInt8}
    (hs : rbuf.length < 2^63) (nBuf passes : Nat) :
    packetBsdParseWith abi sub? passes rbuf nBuf = .spin ∨
      ∃ d, packetBsdParseWith abi sub? passes rbuf nBuf = .ret d ∧ Fits nBuf d := by
  rw [packetBsdParseWith, visitUdpWith_sub?]
  exact walk_safe h64 hs (fun _ _ => fits_none nBuf) (fun _ _ _ g _ _ => visitUdp_guarded nBuf g)
    passes () trivial

theorem packetBsdParseWith_total (h64 : abi.sizeBits = 64) {rbuf : List UInt8}
    (hs : rbuf.length < 2^32) (nBuf : Nat) {passes : Nat} (hp : rbuf.length < passes) :
    ∃ d, packetBsdParseWith abi sub? passes rbuf nBuf = .ret d ∧ Fits nBuf d := by
  rw [packetBsdParseWith, visitUdpWith_sub?]
  exact walk_total h64 hs (fun _ _ => fits_none nBuf) (fun _ _ _ g _ _ => visitUdp_guarded nBuf g)
    passes hp () trivial

theorem packetBsdParse_eq_checked (rbuf : List UInt8) (nBuf : Nat) :
    packetBsdParseWith abi sub? (rbuf.length + 1) rbuf nBuf = packetBsdParse abi rbuf nBuf := by
  rw [packetBsdParseWith, visitUdpWith_sub?, packetBsdParse]

/-! ### Both walkers -/

/-- On any bytes neither walker reads outside the buffer, subtracts below zero or
stores more than the caller has room for, and in a buffer that a `u_int` can size
both come to an end. -/
theorem walkers_safe (abi : Abi) (h64 : abi.sizeBits = 64) (buf : List UInt8)
    (hs : buf.length < 2^63) (nBuf nOut : Nat) :
    (∀ passes, packetBsdParseWith abi sub? passes buf nBuf = .spin ∨
      ∃ d, packetBsdParseWith abi sub? passes buf nBuf = .ret d ∧ Fits nBuf d) ∧
    (∀ passes, NAcd.readArpWith abi sub? passes buf nOut = .spin ∨
      ∃ out, NAcd.readArpWith abi sub? passes buf nOut = .ret out ∧ NAcd.Entries nOut out) ∧
    (buf.length < 2^32 →
      (∃ d, packetBsdParse abi buf nBuf = .ret d ∧ Fits nBuf d) ∧
      ∃ out, NAcd.nAcdBsdReadArp abi (.ok buf) nOut = .ret (.ok out) ∧ NAcd.Entries nOut out) := by
  refine ⟨packetBsdParseWith_safe h64 hs nBuf, NAcd.readArpWith_safe h64 hs nOut,
    fun h32 => ⟨?_, ?_⟩⟩
  · rw [← packetBsdParse_eq_checked]
    exact packetBsdParseWith_total h64 h32 nBuf (Nat.lt_succ_self _)
  · have hp : buf.length < buf.length + nOut + 1 := by omega
    obtain ⟨out, hout, he⟩ := NAcd.readArpWith_total h64 h32 nOut hp
    exact ⟨out, NAcd.nAcdBsdReadArp_eq_checked buf nOut hout, he⟩

theorem walkers_safe_nine :
    (∀ passes, packetBsdParseWith lp64 sub? passes NAcd.nineProbes.bytes 576 = .spin ∨
      ∃ d, packetBsdParseWith lp64 sub? passes NAcd.nineProbes.bytes 576 = .ret d ∧ Fits 576 d) ∧
    (∀ passes, NAcd.readArpWith lp64 sub? passes NAcd.nineProbes.bytes 8 = .spin ∨
      ∃ out, NAcd.readArpWith lp64 sub? passes NAcd.nineProbes.bytes 8 = .ret out ∧
        NAcd.Entries 8 out) ∧
    (NAcd.nineProbes.bytes.length < 2^32 →
      (∃ d, packetBsdParse lp64 NAcd.nineProbes.bytes 576 = .ret d ∧ Fits 576 d) ∧
      ∃ out, NAcd.nAcdBsdReadArp lp64 (.ok NAcd.nineProbes.bytes) 8 = .ret (.ok out) ∧
        NAcd.Entries 8 out) :=
  walkers_safe lp64 rfl NAcd.nineProbes.bytes (by decide +kernel) 576 8

/-- A header of 32 bytes that announces a capture of 2^32 - 32 more, cut short. -/
def wrapHdr : List UInt8 :=
  List.replicate 16 0 ++ [0xe0, 0xff, 0xff, 0xff, 0, 0, 0, 0, 32, 0] ++ List.replicate 6 0

def wrapBuffer : List UInt8 := wrapHdr ++ List.replicate (2^32 - 32) 0

theorem wrapBuffer_length : wrapBuffer.length = 2^32 := by
  rw [wrapBuffer, List.length_append, List.length_replicate]
  rfl

theorem head?_wrapBuffer : lp64.head? wrapBuffer 0 = some (.record ⟨2^32 - 32, 0, 32⟩) := by
  have hh : lp64.bpfHdr? wrapHdr 0 = some ⟨2^32 - 32, 0, 32⟩ := by decide +kernel
  have hb : lp64.bpfHdr? wrapBuffer 0 = some ⟨2^32 - 32, 0, 32⟩ := bpfHdr?_append_left _ _ _ hh
  rw [Abi.head?, wrapBuffer_length, hb, if_pos (by decide)]
  rfl

theorem advance_wrapBuffer : lp64.advance 0 ⟨2^32 - 32, 0, 32⟩ = 0 := by decide

theorem walkPass_wrapBuffer {σ ρ : Type} {live : σ → Bool}
    {visit : Nat → BpfHdr → σ → Option (Pass σ ρ)} {fin : σ → ρ} {s : σ} (hl : live s = true)
    (hv : visit 0 ⟨2^32 - 32, 0, 32⟩ s = some (.next s)) :
    lp64.walkPass wrapBuffer live visit fin (0, s) = some (.next (0, s)) := by
  simp only [Abi.walkPass, hl, if_true, head?_wrapBuffer, Option.bind_eq_bind, Option.bind_some,
    hv, advance_wrapBuffer]
  rfl

/-- In a buffer of 4 GiB the `u_int` sum of the two lengths can be zero, and the
walk stands still. -/
theorem walkers_spin :
    (¬ ∃ passes d, packetBsdParseWith lp64 sub? passes wrapBuffer 576 = .ret d) ∧
      ¬ ∃ passes out, NAcd.readArpWith lp64 sub? passes wrapBuffer 8 = .ret out := by
  constructor
  · rintro ⟨passes, d, h⟩
    have hf := slice?_of_le (b := wrapBuffer) (i := 0 + 32) (n := 2^32 - 32)
      (by rw [wrapBuffer_length]; decide)
    have hcut (frame : List UInt8) : packetBsdFrameWith sub? frame ⟨2^32 - 32, 0, 32⟩ 576 =
      some none := if_pos (by decide)
    have hv : visitUdpWith sub? 576 wrapBuffer 0 ⟨2^32 - 32, 0, 32⟩ () = some (.next ()) := by
      simp only [visitUdpWith, hf, hcut, Option.bind_eq_bind, Option.bind_some]
      rfl
    rw [packetBsdParseWith, run_stuck (walkPass_wrapBuffer rfl hv)] at h
    cases h
  · rintro ⟨passes, out, h⟩
    rw [NAcd.readArpWith, run_stuck (walkPass_wrapBuffer rfl rfl)] at h
    cases h

end PkgsrcPatches.NDhcp4
