import PkgsrcPatches.NDhcp4.Device
import PkgsrcPatches.NDhcp4.RawPath
import PkgsrcPatches.NDhcp4.RoundTrip

/-! Runs of a BPF device: arrivals, calls of `packet_recvfrom_udp` and one
`packet_shutdown` in any order. Each buffer read yields its first usable frame. -/
namespace PkgsrcPatches.NDhcp4
open Lib.Bytes Lib.ClassicBpf Lib.Loop Bpf
variable {abi : Abi}

def ownDatagram (nBuf : Nat) (r : Record abi) : Option Datagram :=
  if r.visible then usable r.frame r.datalen nBuf else none

theorem packetBsdParse_own (r : Record abi) (nBuf : Nat) (h : (pack [r]).length < abi.ssizeMax) :
    packetBsdParse abi (pack [r]) nBuf = .ret (ownDatagram nBuf r) := by
  have hp := packetBsdParse_buffer (.ofRecords [r] h) nBuf
  rw [show (Buffer.ofRecords [r] h).bytes = pack [r] from rfl,
    show (Buffer.ofRecords [r] h).recs = [r] from rfl] at hp
  rw [hp, ownDatagram]
  cases hv : r.visible <;> simp [visibleRecs, hv]

/-- A device, the records it ever queued, the ones each call took and what the
calls handed over. -/
structure Device (abi : Abi) where
  queue : List (Record abi)
  isShut : Bool
  arrived : List (Record abi)
  reads : List (List (Record abi))
  handed : List Datagram

def Device.init : Device abi := ⟨[], false, [], [], []⟩

def Device.filter (d : Device abi) : List Insn :=
  if d.isShut then packetShutdownFilter else nDhcp4BsdClientFilter

/-- One event on a device whose kernel writes headers of `h` bytes. What is left
of the queue by `packet_shutdown` is the kernel's business. -/
inductive DeviceStep (blen nBuf h : Nat) : Device abi → Device abi → Prop
  | accept (d : Device abi) (r : Record abi) (hr : r.hdr.length = h) (ha : accepts d.filter r.packet) :
      DeviceStep blen nBuf h d { d with queue := d.queue ++ [r], arrived := d.arrived ++ [r] }
  | reject (d : Device abi) (p : Packet) (ha : ¬ accepts d.filter p) : DeviceStep blen nBuf h d d
  | recv (d : Device abi) (taken rest : List (Record abi)) (o : Option Datagram)
      (hc : BsdRecv abi blen nBuf d.queue taken (.ok o) rest) :
      DeviceStep blen nBuf h d { d with queue := rest, reads := d.reads ++ [taken],
                                        handed := d.handed ++ o.toList }
  | shutdown (d : Device abi) (kept : List (Record abi)) (hs : d.isShut = false)
      (hk : kept.Sublist d.queue) : DeviceStep blen nBuf h d { d with queue := kept, isShut := true }

inductive Reachable (blen nBuf h : Nat) : Device abi → Prop
  | init : Reachable blen nBuf h .init
  | step {d d' : Device abi} (hd : Reachable blen nBuf h d) (hs : DeviceStep blen nBuf h d d') :
      Reachable blen nBuf h d'

structure Device.Inv (nBuf h : Nat) (d : Device abi) : Prop where
  hdr : ∀ r ∈ d.arrived, r.hdr.length = h
  accepted : ∀ r ∈ d.arrived, accepts nDhcp4BsdClientFilter r.packet
  order : (d.reads.flatten ++ d.queue).Sublist d.arrived
  complete : d.isShut = false → d.reads.flatten ++ d.queue = d.arrived
  first : d.handed = d.reads.filterMap fun taken => taken.findSome? (ownDatagram nBuf)

theorem findSome?_visible {h nBuf : Nat} {rs : List (Record abi)} (hh : ∀ r ∈ rs, r.hdr.length = h) :
    ((visibleRecs rs).findSome? fun r => usable r.frame r.datalen nBuf) =
      rs.findSome? (ownDatagram nBuf) := by
  induction rs with
  | nil => rfl
  | cons r rs ih =>
    have ih' := ih fun x hx => hh x (by simp [hx])
    rw [List.findSome?_cons, ownDatagram, visibleRecs, List.takeWhile_cons]
    cases hv : r.visible with
    | true =>
      simp only [if_true, List.findSome?_cons]
      cases usable r.frame r.datalen nBuf with
      | some d => rfl
      | none => exact ih'
    | false =>
      have hno : ∀ x ∈ rs, ownDatagram nBuf x = none := fun x hx => by
        have hx' : x.visible = r.visible := by
          simp only [Record.visible, hh x (by simp [hx]), hh r (by simp)]
        rw [ownDatagram, hx', hv]
        rfl
      simp only [Bool.false_eq_true, if_false, List.findSome?_nil]
      exact (List.findSome?_eq_none_iff.mpr hno).symm

theorem deviceStep_inv {blen nBuf h : Nat} (hb : 0 < blen) {d d' : Device abi}
    (hi : d.Inv nBuf h) (hs : DeviceStep blen nBuf h d d') : d'.Inv nBuf h := by
  cases hs with
  | accept r hr ha =>
    have hopen : d.isShut = false := by
      by_contra hc
      rw [Bool.not_eq_false] at hc
      simp [Device.filter, hc, shutdown_rejects] at ha
    rw [Device.filter, hopen] at ha
    have hcomplete := hi.complete hopen
    refine ⟨fun x hx => ?_, fun x hx => ?_, ?_, fun _ => ?_, hi.first⟩
    · cases List.mem_append.mp hx with
      | inl hx => exact hi.hdr x hx
      | inr hx => rw [List.mem_singleton.mp hx]; exact hr
    · cases List.mem_append.mp hx with
      | inl hx => exact hi.accepted x hx
      | inr hx => rw [List.mem_singleton.mp hx]; exact ha
    · rw [← List.append_assoc, hcomplete]
    · rw [← List.append_assoc, hcomplete]
  | reject p ha => exact hi
  | recv taken rest o hc =>
    obtain ⟨hq, -, ho⟩ := bsdRecv_cases hb hc
    have hflat : (d.reads ++ [taken]).flatten ++ rest = d.reads.flatten ++ d.queue := by
      simp [hq]
    have hmem : ∀ r ∈ taken, r.hdr.length = h := fun r hr =>
      hi.hdr r (hi.order.subset (by simp [hq, hr]))
    refine ⟨hi.hdr, hi.accepted, ?_, fun hopen => ?_, ?_⟩
    · rw [hflat]; exact hi.order
    · rw [hflat]; exact hi.complete hopen
    · rw [Except.ok.inj ho, findSome?_visible hmem, hi.first, List.filterMap_append,
        List.filterMap_cons]
      cases taken.findSome? (ownDatagram nBuf) <;> rfl
  | shutdown kept hs hk =>
    refine ⟨hi.hdr, hi.accepted, ?_, fun hopen => ?_, hi.first⟩
    · exact (List.Sublist.append (List.Sublist.refl _) hk).trans hi.order
    · cases hopen

theorem reachable_inv {blen nBuf h : Nat} (hb : 0 < blen) {d : Device abi}
    (hd : Reachable blen nBuf h d) : d.Inv nBuf h := by
  induction hd with
  | init =>
    exact ⟨by simp [Device.init], by simp [Device.init], List.Sublist.refl _, fun _ => rfl, rfl⟩
  | step _ hs ih => exact deviceStep_inv hb ih hs

/-- The calls hand over exactly the first usable frame of each buffer read. The
frames read are in order of arrival, none of them twice, and until the shutdown
those read and those still queued are all that the filter accepted. -/
theorem first_usable_of_each_read (blen nBuf h : Nat) (hb : 0 < blen) (d : Device abi)
    (hd : Reachable blen nBuf h d) :
    d.handed = d.reads.filterMap (fun taken => taken.findSome? (ownDatagram nBuf)) ∧
      (d.reads.flatten ++ d.queue).Sublist d.arrived ∧
      (d.isShut = false → d.reads.flatten ++ d.queue = d.arrived) ∧
      ∀ r ∈ d.arrived, accepts nDhcp4BsdClientFilter r.packet :=
  have hi := reachable_inv hb hd
  ⟨hi.first, hi.order, hi.complete, hi.accepted⟩

theorem second_of_read_dropped {blen nBuf h : Nat} (hb : 0 < blen) (r₁ r₂ : Record abi)
    {d₁ : Datagram} (hh₁ : r₁.hdr.length = h) (hh₂ : r₂.hdr.length = h)
    (ha₁ : accepts nDhcp4BsdClientFilter r₁.packet) (ha₂ : accepts nDhcp4BsdClientFilter r₂.packet)
    (ho₁ : ownDatagram nBuf r₁ = some d₁) (hlen : (pack [r₁, r₂]).length < abi.ssizeMax) :
    Reachable blen nBuf h ⟨[], false, [r₁, r₂], [[r₁, r₂]], [d₁]⟩ := by
  have h1 : Reachable blen nBuf h ⟨[r₁], false, [r₁], [], []⟩ :=
    .step .init (.accept .init r₁ hh₁ ha₁)
  have h2 : Reachable blen nBuf h ⟨[r₁, r₂], false, [r₁, r₂], [], []⟩ :=
    .step h1 (.accept _ r₂ hh₂ ha₂)
  have hmem : ∀ r ∈ [r₁, r₂], r.hdr.length = h := by
    simp [hh₁, hh₂]
  have hparse : packetBsdParse abi (pack [r₁, r₂]) nBuf = .ret (some d₁) := by
    have hp := packetBsdParse_buffer (.ofRecords [r₁, r₂] hlen) nBuf
    rw [show (Buffer.ofRecords [r₁, r₂] hlen).recs = [r₁, r₂] from rfl, findSome?_visible hmem,
      List.findSome?_cons, ho₁] at hp
    exact hp
  have hread : BsdRecv abi blen nBuf [r₁, r₂] [r₁, r₂] (.ok (some d₁)) [] := by
    refine .read (.ofRecords [r₁, r₂] hlen) [] _ (List.cons_ne_nil _ _) ?_
    have h0 : blen ≠ 0 := by omega
    simp [packetRecvfromUdpBsd, deviceRead, h0, Buffer.ofRecords, hparse]
  exact .step h2 (.recv _ [r₁, r₂] [] (some d₁) hread)

/-! ### Two servers answer at once -/

theorem ownDatagram_offer (server : UInt32) : ownDatagram 1500 (offerRecord server) =
    some ⟨offerPayload, 240, ⟨.inet, server, 67⟩⟩ := by
  have hv : (offerRecord server).visible = true := rfl
  have hd : (offerRecord server).frame.drop etherHdrLen = offer server := rfl
  have hw : (offerRecord server).frame.length = (offerRecord server).datalen := rfl
  have hl := offerPayload_length
  rw [ownDatagram, if_pos hv, usable, if_pos hw, hd, offer,
    deliverable_ipPacket _ _ _ (by rw [hl]; decide) (by rw [hl]; decide), hl]

/-- Both replies are accepted and usable, nothing is left queued, nobody shut the
device, and one reply has not been handed over. -/
theorem second_reply_lost : ∃ d : Device lp64, Reachable 4096 1500 32 d ∧ d.isShut = false ∧
    d.queue = [] ∧ d.handed ≠ d.arrived.filterMap (ownDatagram 1500) := by
  refine ⟨_, second_of_read_dropped (by decide) (offerRecord 0x0a000001) (offerRecord 0x0a000002)
    (lp64Hdr_length (by decide)) (lp64Hdr_length (by decide)) (by decide +kernel)
    (by decide +kernel) (ownDatagram_offer _) (by decide +kernel), rfl, rfl, ?_⟩
  simp [ownDatagram_offer]

theorem first_usable_of_each_read_offers :
    let d₁ : Datagram := ⟨offerPayload, 240, ⟨.inet, 0x0a000001, 67⟩⟩
    let rs := [offerRecord 0x0a000001, offerRecord 0x0a000002]
    let d : Device lp64 := ⟨[], false, rs, [rs], [d₁]⟩
    d.handed = d.reads.filterMap (fun taken => taken.findSome? (ownDatagram 1500)) ∧
      (d.reads.flatten ++ d.queue).Sublist d.arrived ∧
      (d.isShut = false → d.reads.flatten ++ d.queue = d.arrived) ∧
      ∀ r ∈ d.arrived, accepts nDhcp4BsdClientFilter r.packet :=
  first_usable_of_each_read 4096 1500 32 (by decide) _
    (second_of_read_dropped (by decide) _ _ (lp64Hdr_length (by decide))
      (lp64Hdr_length (by decide)) (by decide +kernel) (by decide +kernel) (ownDatagram_offer _)
      (by decide +kernel))

end PkgsrcPatches.NDhcp4
