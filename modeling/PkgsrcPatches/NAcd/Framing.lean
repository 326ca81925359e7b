import PkgsrcPatches.NAcd.OsBsd

/-! What `n_acd_bsd_read_arp` makes of a read, in terms of frames: the payloads
of the whole ones in order, as far as `out` has room. -/
namespace PkgsrcPatches.NAcd
open Lib.Bytes Lib.Loop Bpf
variable {abi : Abi}

def arpOf (frame : List UInt8) : EtherArp where
  data := (frame.drop etherHdrLen).take sizeofEtherArp
  len := min (frame.length - etherHdrLen) sizeofEtherArp

def arp? (r : Record abi) : Option EtherArp :=
  if r.whole ∧ etherHdrLen ≤ r.frame.length then some (arpOf r.frame) else none

def seeArp (r : Record abi) (out : List EtherArp) : Pass (List EtherArp) (List EtherArp) :=
  .next (out ++ (arp? r).toList)

theorem sees_visitArp : Sees abi (visitArp abi) seeArp := by
  intro pre tail r out hs _
  have hm := abi.ssizeMax_ge
  simp only [Record.bytes, List.length_append] at hs
  rw [visitArp, seeArp, arp?]
  by_cases hw : r.whole ∧ etherHdrLen ≤ r.frame.length
  swap
  · have hw' : ¬ (r.bpfHdr.bhCaplen = r.bpfHdr.bhDatalen ∧ etherHdrLen ≤ r.bpfHdr.bhCaplen) :=
      fun h => hw ⟨h.1.symm, h.2⟩
    rw [if_neg hw, if_neg hw', Option.toList_none, List.append_nil]
  have hw' : r.bpfHdr.bhCaplen = r.bpfHdr.bhDatalen ∧ etherHdrLen ≤ r.bpfHdr.bhCaplen :=
    ⟨hw.1.symm, hw.2⟩
  rw [if_pos hw, if_pos hw']
  have hcut : (if sizeofEtherArp < r.bpfHdr.bhCaplen - etherHdrLen then sizeofEtherArp
      else r.bpfHdr.bhCaplen - etherHdrLen) =
        min (r.frame.length - etherHdrLen) sizeofEtherArp := cut_eq_min _ _
  have hsize : abi.size (pre.length + r.bpfHdr.bhHdrlen + etherHdrLen) =
      pre.length + (r.hdr.length + etherHdrLen) := by
    rw [Record.bpfHdr, Abi.size_of_lt (by simp only [etherHdrLen] at *; omega), Nat.add_assoc]
  have hdata : slice? (pre ++ (r.bytes ++ tail)) (pre.length + (r.hdr.length + etherHdrLen))
      (min (r.frame.length - etherHdrLen) sizeofEtherArp) = some (arpOf r.frame).data := by
    rw [slice?_append_right, Record.bytes, List.append_assoc, slice?_append_right,
      slice?_append_left _ _ _ _ (by omega), slice?_of_le (by omega), slice, arpOf, Nat.min_comm,
      ← List.length_drop, ← List.take_eq_take_min]
  simp only [hcut, hsize, hdata, Option.map_some]
  rfl

theorem scan_seeArp (nOut : Nat) (rs : List (Record abi)) (out : List EtherArp) :
    scan (fun out => decide (out.length < nOut)) seeArp id rs out =
      out ++ ((visibleRecs rs).filterMap arp?).take (nOut - out.length) := by
  induction rs generalizing out with
  | nil => simp [scan, visibleRecs]
  | cons r rs ih =>
    rw [scan, visibleRecs, List.takeWhile_cons]
    by_cases hl : out.length < nOut
    swap
    · simp [hl, show nOut - out.length = 0 by omega]
    cases hv : r.visible with
    | false => simp
    | true =>
      simp only [hl, decide_true, Bool.and_self, if_true, seeArp, ih, visibleRecs]
      cases ha : arp? r with
      | none => simp [ha]
      | some x =>
        have hn : nOut - out.length = nOut - (out.length + 1) + 1 := by omega
        simp [ha, hn, List.append_assoc]

theorem readArpLoop_buffer (b : Buffer abi) (nOut : Nat) :
    readArpLoop abi b.bytes nOut = .ret (((visibleRecs b.recs).filterMap arp?).take nOut) := by
  rw [readArpLoop, run_buffer sees_visitArp b [] _ (by omega), scan_seeArp]
  rfl

end PkgsrcPatches.NAcd
