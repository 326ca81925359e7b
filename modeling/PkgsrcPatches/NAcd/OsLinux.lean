import PkgsrcPatches.NAcd.OsBsd

/-! n-acd's Linux seam: one `recvmmsg` takes as many queued packets as it has
entries for and leaves the rest on the socket. -/
namespace PkgsrcPatches.NAcd

/-- A packet scattered into one entry, and the length `recvmmsg` reports for it. -/
def msgOf (packet : List UInt8) : EtherArp where
  data := packet.take sizeofEtherArp
  len := min packet.length sizeofEtherArp

def recvmmsg (queue : List (List UInt8)) (vlen : Nat) :
    Except Errno (List EtherArp) × List (List UInt8) :=
  if queue = [] then (.error .eagain, [])
  else (.ok ((queue.take vlen).map msgOf), queue.drop vlen)

def nAcdOsSocketRecvLinux (queue : List (List UInt8)) (nOut : Nat) :
    Except Errno (List EtherArp) × List (List UInt8) :=
  match recvmmsg queue nOut with
  | (.error e, rest) => (if e = .eagain ∨ e = .eintr then .ok [] else .error e, rest)
  | (.ok msgs, rest) => (.ok msgs, rest)

theorem nAcdOsSocketRecvLinux_eq (queue : List (List UInt8)) (nOut : Nat) :
    nAcdOsSocketRecvLinux queue nOut = (.ok ((queue.take nOut).map msgOf), queue.drop nOut) := by
  by_cases h : queue = []
  · simp [nAcdOsSocketRecvLinux, recvmmsg, h]
  · simp [nAcdOsSocketRecvLinux, recvmmsg, h]

/-- What calls return when some packets arrive before each of them. -/
def linuxCalls (nOut : Nat) : List (List (List UInt8)) → List (List UInt8) →
    List (Except Errno (List EtherArp)) × List (List UInt8)
  | [], queue => ([], queue)
  | arrived :: later, queue =>
    let call := nAcdOsSocketRecvLinux (queue ++ arrived) nOut
    let rest := linuxCalls nOut later call.2
    (call.1 :: rest.1, rest.2)

def packetsOf (calls : List (Except Errno (List EtherArp))) : List EtherArp :=
  calls.flatMap fun
    | .ok out => out
    | .error _ => []

/-- Nothing is lost, repeated or reordered: what calls returned and what they
left are what was queued and what arrived. -/
theorem linuxCalls_conserves (nOut : Nat) (arrivals : List (List (List UInt8)))
    (queue : List (List UInt8)) :
    packetsOf (linuxCalls nOut arrivals queue).1 ++ (linuxCalls nOut arrivals queue).2.map msgOf =
      (queue ++ arrivals.flatten).map msgOf := by
  induction arrivals generalizing queue with
  | nil => simp [linuxCalls, packetsOf]
  | cons arrived later ih =>
    have h := ih ((queue ++ arrived).drop nOut)
    simp only [linuxCalls, nAcdOsSocketRecvLinux_eq, packetsOf, List.flatMap_cons,
      List.append_assoc] at h ⊢
    rw [h, ← List.map_append, List.flatten_cons, ← List.append_assoc, List.take_append_drop,
      List.append_assoc]

theorem linuxCalls_drains {nOut : Nat} (hn : 0 < nOut) (k : Nat) (queue : List (List UInt8)) :
    (linuxCalls nOut (List.replicate k []) queue).2.length ≤ queue.length - k := by
  induction k generalizing queue with
  | zero => simp [linuxCalls]
  | succ k ih =>
    have h := ih (queue.drop nOut)
    simp only [List.replicate_succ, linuxCalls, nAcdOsSocketRecvLinux_eq, List.append_nil]
    rw [List.length_drop] at h
    omega

theorem linuxCalls_append (nOut : Nat) (a b : List (List (List UInt8)))
    (queue : List (List UInt8)) :
    (linuxCalls nOut (a ++ b) queue).2 = (linuxCalls nOut b (linuxCalls nOut a queue).2).2 := by
  induction a generalizing queue with
  | nil => rfl
  | cons arrived a ih => simp only [List.cons_append, linuxCalls, ih]

theorem linuxCalls_complete {nOut : Nat} (hn : 0 < nOut) (arrivals : List (List (List UInt8)))
    {k : Nat} (hk : arrivals.flatten.length ≤ k) :
    packetsOf (linuxCalls nOut (arrivals ++ List.replicate k []) []).1 =
      arrivals.flatten.map msgOf := by
  have hc := linuxCalls_conserves nOut arrivals []
  have hlen := congrArg List.length hc
  simp only [List.length_append, List.length_map, List.nil_append] at hlen
  have hd := linuxCalls_drains hn k (linuxCalls nOut arrivals []).2
  have hnil : (linuxCalls nOut (arrivals ++ List.replicate k []) []).2 = [] := by
    rw [linuxCalls_append]
    exact List.length_eq_zero_iff.mp (by omega)
  have h := linuxCalls_conserves nOut (arrivals ++ List.replicate k []) []
  rw [hnil] at h
  simpa using h

end PkgsrcPatches.NAcd
