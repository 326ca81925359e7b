import PkgsrcPatches.NAcd.Framing
import PkgsrcPatches.NAcd.OsLinux
import PkgsrcPatches.Bpf.Layout

/-! Runs of `n_acd_os_socket_recv`: a BPF read hands over every frame of one
buffer at once, and what does not fit `out` is gone. -/
namespace PkgsrcPatches.NAcd
open Lib.Bytes Lib.ClassicBpf Lib.Loop Bpf
variable {abi : Abi}

def outOf : Exit (Except Errno (List EtherArp)) → List EtherArp
  | .ret (.ok out) => out
  | _ => []

def bsdCalls (g : Globals) (nOut : Nat) (reads : List (Buffer abi)) : List EtherArp :=
  reads.flatMap fun b => outOf (nAcdOsSocketRecv abi g (fun _ => .ok b.bytes) nOut)

def framesOf (reads : List (Buffer abi)) : List (List UInt8) :=
  reads.flatMap fun b => b.recs.map (·.frame)

def IsArp (r : Record abi) : Prop := r.whole ∧ accepts nAcdBsdFilter r.packet

theorem isArp_length {r : Record abi} (h : IsArp r) : etherHdrLen ≤ r.frame.length := by
  have ha := h.2
  rw [accepts_iff_wp] at ha
  simp [nAcdBsdFilter, Size.bytes, Jmp.test, etherHdrLen, Record.packet] at ha
  rw [etherHdrLen]
  omega

theorem arp?_of_isArp {r : Record abi} (h : IsArp r) : arp? r = some (arpOf r.frame) :=
  if_pos ⟨h.1, isArp_length h⟩

theorem arpOf_eq_msgOf (frame : List UInt8) : arpOf frame = msgOf (frame.drop etherHdrLen) := by
  simp [arpOf, msgOf]

theorem filterMap_arp? {rs : List (Record abi)} (h : ∀ r ∈ rs, IsArp r) :
    rs.filterMap arp? = rs.map fun r => arpOf r.frame := by
  induction rs with
  | nil => rfl
  | cons r rs ih =>
    rw [List.filterMap_cons, arp?_of_isArp (h r (by simp)), List.map_cons,
      ih fun x hx => h x (by simp [hx])]

theorem outOf_recv {g : Globals} {c : ReadCall} (hg : readCall g = some c) (b : Buffer abi)
    (nOut : Nat) (h : ∀ r ∈ b.recs, IsArp r) :
    outOf (nAcdOsSocketRecv abi g (fun _ => .ok b.bytes) nOut) =
      ((visibleRecs b.recs).map fun r => arpOf r.frame).take nOut := by
  have hv : ∀ r ∈ visibleRecs b.recs, IsArp r := fun r hr =>
    h r ((List.takeWhile_prefix _).subset hr)
  rw [nAcdOsSocketRecv, hg]
  simp only [nAcdBsdReadArp, readArpLoop_buffer, outOf, filterMap_arp? hv]

theorem take_visible_length (rs : List (Record abi)) (nOut : Nat) :
    (((visibleRecs rs).map fun r => arpOf r.frame).take nOut).length ≤ rs.length ∧
      ((((visibleRecs rs).map fun r => arpOf r.frame).take nOut).length = rs.length ↔
        rs.length ≤ nOut ∧ ∀ r ∈ rs, abi.sizeofBpfHdr ≤ r.hdr.length) := by
  have hp : visibleRecs rs <+: rs := List.takeWhile_prefix _
  have hall : (visibleRecs rs).length = rs.length ↔
      ∀ r ∈ rs, abi.sizeofBpfHdr ≤ r.hdr.length := by
    simp only [← Record.visible_iff]
    rw [← List.takeWhile_eq_self_iff]
    exact ⟨fun h => hp.eq_of_length h, fun h => congrArg List.length h⟩
  have hle := hp.length_le
  rw [← hall, List.length_take, List.length_map]
  omega

theorem flatMap_length_le {α β γ : Type} (f : α → List β) (g : α → List γ) (l : List α)
    (hle : ∀ x ∈ l, (f x).length ≤ (g x).length) :
    (l.flatMap f).length ≤ (l.flatMap g).length ∧
      ((l.flatMap f).length = (l.flatMap g).length → ∀ x ∈ l, (f x).length = (g x).length) := by
  induction l with
  | nil => simp
  | cons y l ih =>
    obtain ⟨h1, h2⟩ := ih fun x hx => hle x (by simp [hx])
    have hy := hle y (by simp)
    simp only [List.flatMap_cons, List.length_append]
    refine ⟨by omega, fun h x hx => ?_⟩
    cases List.mem_cons.mp hx with
    | inl he => rw [he]; omega
    | inr hx => exact h2 (by omega) x hx

/-- Every frame reaches the state machine once and in order, as on Linux, exactly
when no read holds more frames than `out` and none hides behind a header that the
walk refuses. -/
theorem bsd_recv_complete_iff (g : Globals) (c : ReadCall) (hg : readCall g = some c)
    (reads : List (Buffer abi)) (hreads : ∀ b ∈ reads, ∀ r ∈ b.recs, IsArp r) (nOut : Nat)
    (hn : 0 < nOut) (arrivals : List (List (List UInt8)))
    (harr : arrivals.flatten = (framesOf reads).map (·.drop etherHdrLen)) :
    packetsOf (linuxCalls nOut (arrivals ++ List.replicate (framesOf reads).length []) []).1 =
        (framesOf reads).map arpOf ∧
      (bsdCalls g nOut reads = (framesOf reads).map arpOf ↔
        ∀ b ∈ reads, b.recs.length ≤ nOut ∧ ∀ r ∈ b.recs, abi.sizeofBpfHdr ≤ r.hdr.length) := by
  have hlen : arrivals.flatten.length = (framesOf reads).length := by rw [harr, List.length_map]
  have hout (b : Buffer abi) (hb : b ∈ reads) := outOf_recv hg b nOut (hreads b hb)
  refine ⟨?_, fun h => ?_, fun h => ?_⟩
  · rw [linuxCalls_complete hn arrivals (le_of_eq hlen), harr, List.map_map]
    exact List.map_congr_left fun frame _ => (arpOf_eq_msgOf frame).symm
  · have hle : ∀ b ∈ reads, (outOf (nAcdOsSocketRecv abi g (fun _ => .ok b.bytes) nOut)).length ≤
        (b.recs.map (·.frame)).length := fun b hb => by
      rw [hout b hb, List.length_map]
      exact (take_visible_length b.recs nOut).1
    have hsum := congrArg List.length h
    rw [bsdCalls, framesOf, List.length_map] at hsum
    have heq := (flatMap_length_le _ _ reads hle).2 hsum
    intro b hb
    have hb' := heq b hb
    rw [hout b hb, List.length_map] at hb'
    exact (take_visible_length b.recs nOut).2.mp hb'
  · rw [bsdCalls, framesOf, List.map_flatMap]
    refine List.flatMap_congr fun b hb => ?_
    obtain ⟨hfit, hhdr⟩ := h b hb
    have hvis : visibleRecs b.recs = b.recs :=
      visibleRecs_eq_self fun r hr => Record.visible_iff.mpr (hhdr r hr)
    rw [hout b hb, hvis,
      List.take_of_length_le (by rw [List.length_map]; exact hfit), List.map_map]
    rfl

def probeFrame (x : UInt8) : List UInt8 :=
  List.replicate 12 2 ++ beBytes 2 0x0806 ++ beBytes 2 1 ++ x :: List.replicate 25 0

def probeRecord (x : UInt8) : Record lp64 :=
  lp64WholeRecord (probeFrame x) (by simp [probeFrame, beBytes_length])

def nineProbes : Buffer lp64 :=
  .ofRecords ((List.range 9).map fun x => probeRecord x.toUInt8) (by decide +kernel)

theorem bsd_recv_complete_nine :
    packetsOf (linuxCalls 9 ([(framesOf [nineProbes]).map (·.drop etherHdrLen)] ++
        List.replicate (framesOf [nineProbes]).length []) []).1 =
      (framesOf [nineProbes]).map arpOf ∧
    (bsdCalls ⟨some 4096, 4096, []⟩ 9 [nineProbes] = (framesOf [nineProbes]).map arpOf ↔
      ∀ b ∈ [nineProbes], b.recs.length ≤ 9 ∧ ∀ r ∈ b.recs, lp64.sizeofBpfHdr ≤ r.hdr.length) :=
  bsd_recv_complete_iff ⟨some 4096, 4096, []⟩ ⟨4096, 4096⟩ rfl [nineProbes]
    (by simp only [IsArp]; decide +kernel) 9 (by decide) _ (by simp)

/-- The batch of the dispatcher is eight, and the ninth frame never arrives. -/
theorem bsd_recv_loses_ninth :
    bsdCalls ⟨some 4096, 4096, []⟩ 8 [nineProbes] ≠ (framesOf [nineProbes]).map arpOf := by
  decide +kernel

end PkgsrcPatches.NAcd
