import PkgsrcPatches.Bpf.Wrap
import PkgsrcPatches.NDhcp4.ParseSafety

/-! The two walkers where `size_t` has 32 bits. -/
namespace PkgsrcPatches.NDhcp4
open Lib.Bytes Lib.InternetChecksum Lib.Loop Bpf
variable {abi : Abi}

/-- The check of the UDP checksum: the payload is read only where there is one. -/
def udpSumBad (rbuf : List UInt8) (src dst sport dport sum data udplen : Nat) : Option Bool :=
  if sum = 0 then some false else
  (slice? rbuf data udplen).map fun payload =>
    packetInternetChecksumUdp (.ofNat src) (.ofNat dst) (.ofNat sport) (.ofNat dport) payload sum ≠ 0

/-- The checks of `packet_bsd_parse` on the frame at `p`, of which nothing says that it lies in
the buffer: the reads are those the code makes, one by one. -/
def packetBsdFrameAt (rbuf : List UInt8) (p : Nat) (bh : BpfHdr) (nBuf : Nat) :
    Option (Option Datagram) := do
  if bh.bhCaplen ≠ bh.bhDatalen then pure none else
  if bh.bhCaplen < etherHdrLen + packetIpHdrLen + udpHdrLen then pure none else
  let p := p + etherHdrLen
  let frame := bh.bhCaplen - etherHdrLen
  let vhl ← be? rbuf p 1
  if vhl / 16 ≠ ipversion then pure none else
  let hdrlen := 4 * (vhl % 16)
  if hdrlen < packetIpHdrLen ∨ frame < hdrlen then pure none else
  if (← be? rbuf (p + 9) 1) ≠ ipprotoUdp then pure none else
  let iplen ← be? rbuf (p + 2) 2
  if frame < iplen ∨ iplen < hdrlen + udpHdrLen then pure none else
  if checksum (← slice? rbuf p hdrlen) ≠ 0 then pure none else
  let udpHdr ← slice? rbuf (p + hdrlen) udpHdrLen
  let udplen ← be? udpHdr 4 2
  if udplen < udpHdrLen ∨ iplen < hdrlen + udplen then pure none else
  let udplen := udplen - udpHdrLen
  let sport ← be? udpHdr 0 2
  let dport ← be? udpHdr 2 2
  let sum ← be? udpHdr 6 2
  let src ← be? rbuf (p + 12) 4
  let dst ← be? rbuf (p + 16) 4
  let data := p + (hdrlen + udpHdrLen)
  if (← udpSumBad rbuf src dst sport dport sum data udplen) = true then pure none else
  let udplen := if nBuf < udplen then nBuf else udplen
  let buf ← slice? rbuf data udplen
  pure (some ⟨buf, udplen, ⟨.inet, .ofNat src, .ofNat sport⟩⟩)

def Extends {α : Type} (x y : Option α) : Prop := ∀ v, x = some v → y = some v

theorem Extends.refl {α : Type} (x : Option α) : Extends x x := fun _ h => h

theorem Extends.bind {α β : Type} {x y : Option α} {f g : α → Option β} (h : Extends x y)
    (hfg : ∀ a, Extends (f a) (g a)) : Extends (x >>= f) (y >>= g) := by
  intro v hv
  obtain ⟨a, ha, hv⟩ := Option.bind_eq_some_iff.mp hv
  exact Option.bind_eq_some_iff.mpr ⟨a, h a ha, hfg a v hv⟩

theorem Extends.ite {α : Type} {c : Prop} [Decidable c] {x y z : Option α} (h : ¬c → Extends x y) :
    Extends (if c then z else x) (if c then z else y) := by
  by_cases hc : c
  · rw [if_pos hc, if_pos hc]; exact .refl z
  · rw [if_neg hc, if_neg hc]; exact h hc

section Part
variable {b : List UInt8} {k m j : Nat} (h : k + m ≤ b.length) (hj : j ≤ m)
include h hj

theorem slice?_part (i n : Nat) :
    Extends (slice? ((slice b k m).drop j) i n) (slice? b (k + j + i) n) := by
  intro v hv
  rw [slice?, List.length_drop, slice_length b k m h] at hv
  split at hv
  · rw [slice?_of_le (by omega), ← hv, slice_drop, slice_slice _ _ _ _ _ (by omega), Nat.add_assoc]
  · cases hv

theorem be?_part (i n : Nat) :
    Extends (be? ((slice b k m).drop j) i n) (be? b (k + j + i) n) := by
  intro v hv
  obtain ⟨s, hs, hv⟩ := Option.map_eq_some_iff.mp hv
  rw [be?, slice?_part h hj i n s hs, ← hv]
  rfl

end Part

theorem packetBsdFrameAt_extends {rbuf : List UInt8} {p : Nat} {bh : BpfHdr}
    (h : p + bh.bhCaplen ≤ rbuf.length) (nBuf : Nat) :
    Extends (packetBsdFrame (slice rbuf p bh.bhCaplen) bh nBuf) (packetBsdFrameAt rbuf p bh nBuf) := by
  rw [packetBsdFrame, packetBsdFrameAt]
  refine .ite fun _ => .ite fun hlen => ?_
  have hj : etherHdrLen ≤ bh.bhCaplen := by omega
  have hb := be?_part h hj
  have hs := slice?_part h hj
  refine .bind (hb 0 1) fun vhl => .ite fun _ => .ite fun _ => .bind (hb 9 1) fun _ => .ite fun _ => ?_
  refine .bind (hb 2 2) fun iplen => .ite fun _ => ?_
  refine .bind (hs 0 _) fun hdr => .ite fun _ => .bind (hs _ _) fun udp => ?_
  refine .bind (.refl _) fun udplen => .ite fun _ => .bind (.refl _) fun sport => ?_
  refine .bind (.refl _) fun dport => .bind (.refl _) fun sum => ?_
  refine .bind (hb 12 4) fun src => .bind (hb 16 4) fun dst => ?_
  have hstore {n : Nat} {f : List UInt8 → Option (Option Datagram)} :=
    Extends.bind (f := f) (hs (4 * (vhl % 16) + udpHdrLen) n) fun _ => .refl _
  intro v hv
  obtain ⟨data, hdata, hv⟩ := Option.bind_eq_some_iff.mp hv
  have hdata := hs _ _ data hdata
  by_cases hsum : sum = 0
  · rw [if_neg fun hc => hc.1 hsum] at hv
    simpa [udpSumBad, hsum] using hstore v hv
  · simp only [udpSumBad, hsum, hdata, if_false, Option.map_some, Option.bind_eq_bind,
      Option.bind_some, decide_eq_true_eq, ne_eq, not_false_eq_true, true_and] at hv ⊢
    exact Extends.ite (fun _ => hstore) v hv

def visitUdpAt (nBuf : Nat) (buf : List UInt8) (off : Nat) (bh : BpfHdr) (_ : Unit) :
    Option (Pass Unit (Option Datagram)) := do
  let found ← packetBsdFrameAt buf (off + bh.bhHdrlen) bh nBuf
  pure (found.elim (.next ()) fun d => .done (some d))

theorem visitUdpAt_guarded (nBuf : Nat) {buf : List UInt8} {off : Nat} {bh : BpfHdr}
    (g : Guarded abi buf off bh) : visitUdpAt nBuf buf off bh () = visitUdp nBuf buf off bh () := by
  obtain ⟨hf, hl⟩ := slice?_guarded g
  have hu := packetBsdFrame_eq (slice buf (off + bh.bhHdrlen) bh.bhCaplen) bh.bhDatalen bh.bhHdrlen
    nBuf
  rw [hl] at hu
  have hat := packetBsdFrameAt_extends g.inside nBuf _ hu
  simp only [visitUdpAt, visitUdp, hf, hu, hat, Option.bind_eq_bind, Option.bind_some]
  cases usable (slice buf (off + bh.bhHdrlen) bh.bhCaplen) bh.bhDatalen nBuf <;> rfl

def packetBsdWalker (nBuf : Nat) (rbuf : List UInt8) : Walker Unit (Option Datagram) where
  live _ := true
  visit := visitUdpAt nBuf rbuf
  fin _ := none
  start := ()

theorem packetBsdWalker_run (h64 : abi.sizeBits = 64) {rbuf : List UInt8}
    (hs : rbuf.length < 2^63) (nBuf passes : Nat) :
    (packetBsdWalker nBuf rbuf).run abi rbuf passes =
      packetBsdParseWith abi sub? passes rbuf nBuf := by
  rw [packetBsdParseWith, visitUdpWith_sub?]
  have hvisit (off : Nat) (bh : BpfHdr) (s : Unit) (g : Guarded abi rbuf off bh) :
      visitUdpAt nBuf rbuf off bh s = visitUdp nBuf rbuf off bh s := visitUdpAt_guarded nBuf g
  apply run_congr (P := fun x : Nat × Unit => x.1 < 2^63 + 2^15)
  · rintro ⟨off, s⟩ ho
    obtain hstop | ⟨bh, hrec, g⟩ := head?_guarded h64 hs ho
    · rw [Walker.pass, walkPass_stop hstop, walkPass_stop hstop]
      rfl
    · simp only [Walker.pass, Abi.walkPass, hrec, packetBsdWalker, hvisit off bh s g,
        Option.bind_eq_bind, Option.bind_some]
  · rintro ⟨off, s⟩ x ho hnext
    have hsafe : ∀ off bh s, Guarded abi rbuf off bh → true = true → True →
        ∃ p, visitUdpAt nBuf rbuf off bh s = some p ∧ p.Holds (fun _ => True) (Fits nBuf) := by
      intro off bh s g _ _
      rw [hvisit off bh s g]
      exact visitUdp_guarded nBuf g
    obtain ⟨p, hp, hh⟩ := walkPass_guarded h64 hs (fun _ _ => fits_none nBuf) hsafe ho trivial
    have hsame : some p = some (.next x) := hp.symm.trans hnext
    obtain rfl := Option.some.inj hsame
    exact hh.1.1
  · exact Nat.lt_of_lt_of_le (by decide : 0 < 2^15) (Nat.le_add_left _ _)

variable (abi) in
def arpWalker (nOut : Nat) (buf : List UInt8) :
    Walker (List NAcd.EtherArp) (List NAcd.EtherArp) where
  live out := decide (out.length < nOut)
  visit := NAcd.visitArp abi buf
  fin := id
  start := []

/-- With a 32-bit `size_t` the guard does its work on a record, and for each of the two walkers
on a buffer, if and only if the sum it compares does not come round. -/
theorem guard_narrow_iff (abi : Abi) (h32 : abi.sizeBits = 32) (buf : List UInt8)
    (hroom : Addressable abi buf) (nBuf nOut : Nat) :
    (∀ off bh, abi.bpfHdr? buf off = some bh →
      ((abi.head? buf off = some (.record bh) → Kept abi buf off bh) ↔ ¬Wraps abi buf off bh)) ∧
    ((packetBsdWalker nBuf buf).Keeps abi buf ↔ (packetBsdWalker nBuf buf).NeverWraps abi buf) ∧
    ((arpWalker abi nOut buf).Keeps abi buf ↔ (arpWalker abi nOut buf).NeverWraps abi buf) := by
  refine ⟨fun off bh hbh => kept_iff h32 hroom hbh, keeps_iff h32 hroom ?_, keeps_iff h32 hroom ?_⟩
  · intro off bh s g _
    obtain ⟨p, hp, -⟩ := visitUdp_guarded nBuf g
    exact ⟨p, (visitUdpAt_guarded nBuf g).trans hp⟩
  · intro off bh out g _
    have hsize : ∀ v ≤ buf.length, abi.size v = v := by
      intro v hv
      rw [Addressable] at hroom
      have := abi.align_pos
      rw [size_narrow h32, Nat.mod_eq_of_lt (by omega)]
    obtain ⟨more, hnext, -⟩ := NAcd.visitArp_next hsize g out
    exact ⟨_, hnext⟩

def ilp32 : Abi where
  sizeofBpfHdr := 20
  offsetofCaplen := 8
  offsetofDatalen := 12
  offsetofHdrlen := 16
  bpfAlignment := 4
  sizeBits := 32
  bigEndian := false
  caplen_le := by decide
  datalen_le := by decide
  hdrlen_le := by decide
  align_pos := by decide
  align_lt := by decide
  sizeof_lt := by decide
  bits_ge := by decide

def emptyCapture : List UInt8 := List.replicate 16 0 ++ [20, 0, 0, 0]

theorem guard_narrow_iff_empty :
    (∀ off bh, ilp32.bpfHdr? emptyCapture off = some bh →
      ((ilp32.head? emptyCapture off = some (.record bh) → Kept ilp32 emptyCapture off bh) ↔
        ¬Wraps ilp32 emptyCapture off bh)) ∧
    ((packetBsdWalker 576 emptyCapture).Keeps ilp32 emptyCapture ↔
      (packetBsdWalker 576 emptyCapture).NeverWraps ilp32 emptyCapture) ∧
    ((arpWalker ilp32 8 emptyCapture).Keeps ilp32 emptyCapture ↔
      (arpWalker ilp32 8 emptyCapture).NeverWraps ilp32 emptyCapture) :=
  guard_narrow_iff ilp32 rfl emptyCapture (by unfold Addressable; decide) 576 8

/-- A header of 20 bytes that announces a capture of 2^32 - 20 more, of a packet of `datalen`. -/
def wrappedHdr (datalen : List UInt8) : List UInt8 :=
  List.replicate 8 0 ++ [0xec, 0xff, 0xff, 0xff] ++ datalen ++ [20, 0, 0, 0]

def cutShort : List UInt8 := wrappedHdr [0, 0, 0, 0]
def wholeCapture : List UInt8 := wrappedHdr [0xec, 0xff, 0xff, 0xff]

theorem pass_cutShort {σ ρ : Type} {w : Walker σ ρ} (hl : w.live w.start = true)
    (hv : w.visit 0 ⟨2^32 - 20, 0, 20⟩ w.start = some (.next w.start)) :
    w.pass ilp32 cutShort (0, w.start) = some (.next (0, w.start)) := by
  have hrec : ilp32.head? cutShort 0 = some (.record ⟨2^32 - 20, 0, 20⟩) := by rfl
  have hadv : ilp32.advance 0 ⟨2^32 - 20, 0, 20⟩ = 0 := by decide
  simp only [Walker.pass, Abi.walkPass, hl, if_true, hrec, hv, hadv, Option.bind_eq_bind,
    Option.bind_some]
  rfl

/-- A buffer of 20 bytes, all of it one header, passes the guard: both walkers look at it for
ever where the capture is cut short, and read behind the buffer where it is not. -/
theorem guard_narrow_fails :
    (∀ passes, (packetBsdWalker 576 cutShort).run ilp32 cutShort passes = .spin) ∧
      (∀ passes, (arpWalker ilp32 8 cutShort).run ilp32 cutShort passes = .spin) ∧
      (packetBsdWalker 576 wholeCapture).run ilp32 wholeCapture 1 = .stray ∧
      (arpWalker ilp32 8 wholeCapture).run ilp32 wholeCapture 1 = .stray ∧
      ¬(packetBsdWalker 576 cutShort).Keeps ilp32 cutShort ∧
      ¬(arpWalker ilp32 8 cutShort).Keeps ilp32 cutShort := by
  have hudp : ∀ passes, (packetBsdWalker 576 cutShort).run ilp32 cutShort passes = .spin :=
    fun passes => run_stuck (pass_cutShort rfl rfl) passes
  have harp : ∀ passes, (arpWalker ilp32 8 cutShort).run ilp32 cutShort passes = .spin :=
    fun passes => run_stuck (pass_cutShort rfl rfl) passes
  refine ⟨hudp, harp, by rfl, by rfl, fun h => ?_, fun h => ?_⟩
  · obtain ⟨passes, r, hr⟩ := h.ends
    rw [hudp] at hr
    cases hr
  · obtain ⟨passes, r, hr⟩ := h.ends
    rw [harp] at hr
    cases hr

end PkgsrcPatches.NDhcp4
