import PkgsrcPatches.NAcd.Framing
import PkgsrcPatches.NDhcp4.PacketBsd
import PkgsrcPatches.Bpf.Layout

/-! Where a frame starts: both decoders read `bh_hdrlen`, and both refuse one that
does not count the padding at the end of `struct bpf_hdr`. -/
namespace PkgsrcPatches
open Lib.Loop Bpf NAcd NDhcp4
variable {abi : Abi}

def SameDecoding (b₁ b₂ : Buffer abi) : Prop :=
  (∀ nOut, nAcdBsdReadArp abi (.ok b₁.bytes) nOut = nAcdBsdReadArp abi (.ok b₂.bytes) nOut) ∧
    ∀ nBuf, packetBsdParse abi b₁.bytes nBuf = packetBsdParse abi b₂.bytes nBuf

def captured (r : Record abi) : List UInt8 × Nat := (r.frame, r.datalen)

/-- A frame that some caller is owed: captured whole, and with a header. -/
def Owed (r : Record abi) : Prop := r.whole ∧ etherHdrLen ≤ r.frame.length

theorem visibleRecs_eq_nil {rs : List (Record abi)} (h : ∀ r ∈ rs, r.visible = false) :
    visibleRecs rs = [] := by
  cases rs with
  | nil => rfl
  | cons r rs => simp [visibleRecs, h r (by simp)]

theorem filterMap_arp?_congr {rs₁ rs₂ : List (Record abi)}
    (h : rs₁.map captured = rs₂.map captured) : rs₁.filterMap arp? = rs₂.filterMap arp? := by
  have hf : (arp? : Record abi → Option EtherArp) =
      (fun c : List UInt8 × Nat =>
        if c.2 = c.1.length ∧ etherHdrLen ≤ c.1.length then some (arpOf c.1) else none) ∘
        captured := rfl
  rw [hf, ← List.filterMap_map, ← List.filterMap_map, h]

theorem findSome?_usable_congr {rs₁ rs₂ : List (Record abi)} (nBuf : Nat)
    (h : rs₁.map captured = rs₂.map captured) :
    (rs₁.findSome? fun r => usable r.frame r.datalen nBuf) =
      rs₂.findSome? fun r => usable r.frame r.datalen nBuf := by
  have hf : (fun r : Record abi => usable r.frame r.datalen nBuf) =
      (fun c : List UInt8 × Nat => usable c.1 c.2 nBuf) ∘ captured := rfl
  rw [hf, ← List.findSome?_map, ← List.findSome?_map, h]

theorem owed_of_usable {r : Record abi} {nBuf : Nat} {d : Datagram}
    (h : usable r.frame r.datalen nBuf = some d) : Owed r := by
  rw [usable] at h
  split at h
  · rename_i hw
    refine ⟨hw.symm, ?_⟩
    rw [deliverable] at h
    split at h
    · rename_i u
      have h1 := u.hdr
      have h2 := u.room
      have h3 := u.whole
      rw [List.length_drop] at h3
      simp only [packetIpHdrLen] at h1
      omega
    · cases h
  · cases h

/-- The decoders cannot tell `bh_hdrlen = h` from the padded header exactly when
`h` counts the whole struct, or when there is no frame to lose. -/
theorem hdrlen_indifferent_iff (b₁ b₂ : Buffer abi) (h : Nat)
    (h₁ : ∀ r ∈ b₁.recs, r.hdr.length = h)
    (h₂ : ∀ r ∈ b₂.recs, r.hdr.length = abi.bpfWordalign abi.sizeofBpfHdr)
    (hframes : b₁.recs.map captured = b₂.recs.map captured) :
    SameDecoding b₁ b₂ ↔ abi.sizeofBpfHdr ≤ h ∨ ∀ r ∈ b₁.recs, ¬ Owed r := by
  have hpad : abi.sizeofBpfHdr ≤ abi.bpfWordalign abi.sizeofBpfHdr := by
    have := abi.sizeof_lt
    have := abi.ssizeMax_ge
    exact le_bpfWordalign (by omega)
  have hv₂ : visibleRecs b₂.recs = b₂.recs :=
    visibleRecs_eq_self fun r hr => Record.visible_iff.mpr (by rw [h₂ r hr]; exact hpad)
  have harp := filterMap_arp?_congr hframes
  have hudp (nBuf : Nat) := findSome?_usable_congr nBuf hframes
  simp only [SameDecoding, nAcdBsdReadArp, readArpLoop_buffer, packetBsdParse_buffer, hv₂, ← harp,
    ← hudp]
  by_cases hh : abi.sizeofBpfHdr ≤ h
  · have hv₁ : visibleRecs b₁.recs = b₁.recs :=
      visibleRecs_eq_self fun r hr => Record.visible_iff.mpr (by rw [h₁ r hr]; exact hh)
    simp [hv₁, hh]
  · have hv₁ : visibleRecs b₁.recs = [] :=
      visibleRecs_eq_nil fun r hr => by simpa [Record.visible, h₁ r hr] using hh
    rw [hv₁]
    simp only [hh, false_or]
    constructor
    · intro h r hr ho
      have hone := h.1 (b₁.recs.filterMap arp?).length
      simp only [List.filterMap_nil, List.take_nil, List.take_length, Exit.ret.injEq,
        Except.ok.injEq] at hone
      have ha : arp? r = some (arpOf r.frame) := if_pos ho
      have hm := List.mem_filterMap.mpr ⟨r, hr, ha⟩
      rw [← hone] at hm
      cases hm
    · intro hno
      have ha : b₁.recs.filterMap arp? = [] := by
        rw [List.filterMap_eq_nil_iff]
        exact fun r hr => if_neg (hno r hr)
      refine ⟨fun nOut => by rw [ha]; rfl, fun nBuf => ?_⟩
      have hn : (b₁.recs.findSome? fun r => usable r.frame r.datalen nBuf) = none := by
        rw [List.findSome?_eq_none_iff]
        intro r hr
        cases hu : usable r.frame r.datalen nBuf with
        | none => rfl
        | some d => exact absurd (owed_of_usable hu) (hno r hr)
      rw [hn]
      rfl

def kernelRead : Buffer lp64 :=
  .ofRecords [lp64Record 26 (List.replicate 42 0) (by decide) (by decide)]
    (by decide +kernel)

def paddedRead : Buffer lp64 :=
  .ofRecords [lp64WholeRecord (List.replicate 42 0) (by decide)]
    (by decide +kernel)

theorem hdrlen_indifferent_iff_kernel :
    SameDecoding kernelRead paddedRead ↔
      lp64.sizeofBpfHdr ≤ 26 ∨ ∀ r ∈ kernelRead.recs, ¬ Owed r :=
  hdrlen_indifferent_iff kernelRead paddedRead 26 (by decide +kernel) (by decide +kernel) rfl

/-- The kernel's own layout is received as nothing at all. -/
theorem kernel_hdrlen_differs : ¬ SameDecoding kernelRead paddedRead := by
  intro h
  have h1 : nAcdBsdReadArp lp64 (.ok kernelRead.bytes) 8 = .ret (.ok []) := by
    rw [nAcdBsdReadArp, readArpLoop_buffer]
    rfl
  have h2 : nAcdBsdReadArp lp64 (.ok paddedRead.bytes) 8 =
      .ret (.ok [arpOf (List.replicate 42 0)]) := by
    rw [nAcdBsdReadArp, readArpLoop_buffer]
    rfl
  have h3 := h.1 8
  rw [h1, h2] at h3
  cases h3

end PkgsrcPatches
