import PkgsrcPatches.Bpf.Safety
import PkgsrcPatches.NAcd.Batch

/-! `n_acd_bsd_read_arp` on a buffer the kernel laid out and on any other. -/
namespace PkgsrcPatches.NAcd
open Lib.Bytes Lib.Loop Bpf
variable {abi : Abi}

/-! ### Laid buffers -/

def wholeFrames (rs : List (Record abi)) : List (Record abi) :=
  rs.filter fun r => decide (r.frame.length = r.datalen ∧ etherHdrLen ≤ r.datalen)

def payloadOf (r : Record abi) : EtherArp :=
  let len := min (r.datalen - etherHdrLen) sizeofEtherArp
  ⟨slice r.frame etherHdrLen len, len⟩

theorem arpOf_eq_payloadOf {r : Record abi} (h : r.frame.length = r.datalen) :
    arpOf r.frame = payloadOf r := by
  have hd : (r.frame.drop etherHdrLen).length = r.frame.length - etherHdrLen := List.length_drop
  rw [arpOf, payloadOf, slice, ← h, List.take_eq_take_min, hd, Nat.min_comm]

theorem filterMap_arp?_eq (rs : List (Record abi)) :
    rs.filterMap arp? = (wholeFrames rs).map payloadOf := by
  induction rs with
  | nil => rfl
  | cons r rs ih =>
    by_cases h : r.frame.length = r.datalen ∧ etherHdrLen ≤ r.datalen
    · have ha : arp? r = some (payloadOf r) := by
        rw [arp?, if_pos ⟨h.1.symm, h.1 ▸ h.2⟩, arpOf_eq_payloadOf h.1]
      rw [List.filterMap_cons, ha, wholeFrames, List.filter_cons_of_pos (by simpa using h),
        List.map_cons, ih, wholeFrames]
    · have ha : arp? r = none :=
        if_neg fun hc : r.whole ∧ etherHdrLen ≤ r.frame.length => h ⟨hc.1.symm, hc.1 ▸ hc.2⟩
      rw [List.filterMap_cons, ha, wholeFrames, List.filter_cons_of_neg (by simpa using h), ih,
        wholeFrames]

/-- The decoder returns exactly the whole frames, in order, `n_out` at most. -/
theorem nAcdBsdReadArp_laid (b : Buffer abi)
    (hhdr : ∀ r ∈ b.recs, abi.sizeofBpfHdr ≤ r.hdr.length) (nOut : Nat) :
    ∃ out, nAcdBsdReadArp abi (.ok b.bytes) nOut = .ret (.ok out) ∧
      out = ((wholeFrames b.recs).take nOut).map payloadOf ∧
      out.length = min nOut (wholeFrames b.recs).length := by
  have hv : visibleRecs b.recs = b.recs :=
    visibleRecs_eq_self fun r hr => Record.visible_iff.mpr (hhdr r hr)
  refine ⟨_, ?_, rfl, by rw [List.length_map, List.length_take]⟩
  simp only [nAcdBsdReadArp, readArpLoop_buffer, hv, filterMap_arp?_eq, List.map_take]

theorem nAcdBsdReadArp_laid_nine :
    ∃ out, nAcdBsdReadArp lp64 (.ok nineProbes.bytes) 8 = .ret (.ok out) ∧
      out = ((wholeFrames nineProbes.recs).take 8).map payloadOf ∧
      out.length = min 8 (wholeFrames nineProbes.recs).length :=
  nAcdBsdReadArp_laid nineProbes (by decide +kernel) 8

/-! ### Any buffer -/

variable (abi) in
def visitArpWith (sub : Nat → Nat → Option Nat) (buf : List UInt8) (off : Nat) (bh : BpfHdr)
    (out : List EtherArp) : Option (Pass (List EtherArp) (List EtherArp)) :=
  if bh.bhCaplen = bh.bhDatalen ∧ etherHdrLen ≤ bh.bhCaplen then do
    let frame ← sub bh.bhCaplen etherHdrLen
    let payload := abi.size (off + bh.bhHdrlen + etherHdrLen)
    let frame := if sizeofEtherArp < frame then sizeofEtherArp else frame
    (slice? buf payload frame).map fun data => .next (out ++ [⟨data, frame⟩])
  else
    some (.next out)

variable (abi) in
def readArpWith (sub : Nat → Nat → Option Nat) (passes : Nat) (buf : List UInt8) (nOut : Nat) :
    Exit (List EtherArp) :=
  run (abi.walkPass buf (fun out => decide (out.length < nOut)) (visitArpWith abi sub buf) id)
    passes (0, [])

theorem visitArpWith_sub? : visitArpWith abi sub? = visitArp abi := by
  funext buf off bh out
  rw [visitArpWith, visitArp]
  by_cases h : bh.bhCaplen = bh.bhDatalen ∧ etherHdrLen ≤ bh.bhCaplen
  · rw [if_pos h, if_pos h, sub?_of_le h.2]; rfl
  · rw [if_neg h, if_neg h]

def Entries (nOut : Nat) (out : List EtherArp) : Prop :=
  out.length ≤ nOut ∧ ∀ e ∈ out, e.data.length = e.len ∧ e.len ≤ sizeofEtherArp

theorem Entries.nil (nOut : Nat) : Entries nOut [] := ⟨Nat.zero_le _, by simp⟩

theorem visitArp_next {buf : List UInt8} (hsize : ∀ v ≤ buf.length, abi.size v = v) {off : Nat}
    {bh : BpfHdr} (g : Guarded abi buf off bh) (out : List EtherArp) :
    ∃ more, visitArp abi buf off bh out = some (.next (out ++ more)) ∧ more.length ≤ 1 ∧
      ∀ e ∈ more, e.data.length = e.len ∧ e.len ≤ sizeofEtherArp := by
  have hi := g.inside
  rw [visitArp]
  by_cases h : bh.bhCaplen = bh.bhDatalen ∧ etherHdrLen ≤ bh.bhCaplen
  swap
  · exact ⟨[], by rw [if_neg h, List.append_nil], by simp, by simp⟩
  have hroom := h.2
  have hcut := cut_eq_min (bh.bhCaplen - etherHdrLen) sizeofEtherArp
  rw [if_pos h]
  dsimp only
  rw [hcut, hsize _ (by omega), slice?_of_le (by omega)]
  refine ⟨[_], rfl, Nat.le_refl _, fun e hm => ?_⟩
  rw [List.mem_singleton.mp hm]
  exact ⟨slice_length _ _ _ (by omega), Nat.min_le_right _ _⟩

theorem visitArp_guarded (h64 : abi.sizeBits = 64) {buf : List UInt8} (hs : buf.length < 2^63)
    {nOut off : Nat} {bh : BpfHdr} {out : List EtherArp} (g : Guarded abi buf off bh)
    (hl : out.length < nOut) (he : Entries nOut out) :
    ∃ p, visitArp abi buf off bh out = some p ∧ p.Holds (Entries nOut) (Entries nOut) := by
  obtain ⟨more, hnext, hone, hmore⟩ :=
    visitArp_next (fun v hv => size_of_lp64 h64 (by omega)) g out
  refine ⟨_, hnext, ?_, fun e hm => ?_⟩
  · rw [List.length_append]; omega
  · obtain hm | hm := List.mem_append.mp hm
    · exact he.2 e hm
    · exact hmore e hm

theorem readArpWith_safe (h64 : abi.sizeBits = 64) {buf : List UInt8} (hs : buf.length < 2^63)
    (nOut passes : Nat) :
    readArpWith abi sub? passes buf nOut = .spin ∨
      ∃ out, readArpWith abi sub? passes buf nOut = .ret out ∧ Entries nOut out := by
  rw [readArpWith, visitArpWith_sub?]
  exact walk_safe h64 hs (fun _ h => h)
    (fun _ _ out g hl he => visitArp_guarded h64 hs g (of_decide_eq_true hl : out.length < nOut) he)
    passes [] (.nil nOut)

theorem readArpWith_total (h64 : abi.sizeBits = 64) {buf : List UInt8} (hs : buf.length < 2^32)
    (nOut : Nat) {passes : Nat} (hp : buf.length < passes) :
    ∃ out, readArpWith abi sub? passes buf nOut = .ret out ∧ Entries nOut out := by
  rw [readArpWith, visitArpWith_sub?]
  exact walk_total h64 hs (fun _ h => h)
    (fun _ _ out g hl he =>
      visitArp_guarded h64 (by omega) g (of_decide_eq_true hl : out.length < nOut) he)
    passes hp [] (.nil nOut)

theorem nAcdBsdReadArp_eq_checked (buf : List UInt8) (nOut : Nat) {out : List EtherArp}
    (h : readArpWith abi sub? (buf.length + nOut + 1) buf nOut = .ret out) :
    nAcdBsdReadArp abi (.ok buf) nOut = .ret (.ok out) := by
  rw [readArpWith, visitArpWith_sub?] at h
  simp only [nAcdBsdReadArp, readArpLoop, h]

end PkgsrcPatches.NAcd
