import PkgsrcPatches.NDhcp4.PacketLinux

/-! `n_dhcp4_socket_packet_send` over the Linux `packet_sendto_udp`, before and
after the link address stopped carrying `sll_family` and `sll_protocol`. -/
namespace PkgsrcPatches.NDhcp4

def ethPIp : UInt16 := 0x0800

def withPatchedMembers (m : SendMsg) : SendMsg :=
  { m with name := { m.name with sllFamily := .packet, sllProtocol := ethPIp } }

section
-- The lines that copy the hardware address are upstream's and unchanged: `fill`
-- is what they leave in `sll_addr`, `raw` the bytes of the message.
variable (fill : List UInt8 → UInt8 → { a : List UInt8 // etherAddrLen ≤ a.length })
  (sendmsg : SendMsg → Except Errno Nat) (ifindex : Int) (srcPaddr : SockaddrIn)
  (destHaddr : List UInt8) (halen : UInt8) (destPaddr : SockaddrIn) (dscp : UInt8)
  (raw : List UInt8)

def haddrInit (sllFamily : Family) (sllProtocol : UInt16) : PacketSockaddrLl where
  sllFamily := sllFamily
  sllProtocol := sllProtocol
  sllIfindex := ifindex
  sllHatype := 0
  sllPkttype := 0
  sllHalen := halen
  sllAddr := fill destHaddr halen
  sllAddr_room := (fill destHaddr halen).property

/-- `n_dhcp4_socket_packet_send`: what `packet_sendto_udp` does for it. -/
def nDhcp4SocketPacketSend : SendMsg × Option (Except Errno Nat) :=
  packetSendtoUdpLinux sendmsg raw srcPaddr (haddrInit fill ifindex destHaddr halen .unspec 0)
    destPaddr dscp

def nDhcp4SocketPacketSendRemoved : SendMsg × Option (Except Errno Nat) :=
  packetSendtoUdpLinux sendmsg raw srcPaddr
    (haddrInit fill ifindex destHaddr halen .packet ethPIp) destPaddr dscp

/-- Nobody sets the two members any more: no message is the one the removed code
handed to `sendmsg`, and they are all that is missing. -/
theorem packet_send_never_agrees :
    (nDhcp4SocketPacketSend fill sendmsg ifindex srcPaddr destHaddr halen destPaddr dscp raw).1 ≠
        (nDhcp4SocketPacketSendRemoved fill sendmsg ifindex srcPaddr destHaddr halen destPaddr dscp
          raw).1 ∧
      withPatchedMembers (nDhcp4SocketPacketSend fill sendmsg ifindex srcPaddr destHaddr halen
          destPaddr dscp raw).1 =
        (nDhcp4SocketPacketSendRemoved fill sendmsg ifindex srcPaddr destHaddr halen destPaddr dscp
          raw).1 := by
  refine ⟨fun h => ?_, rfl⟩
  have hf : Family.unspec = Family.packet := congrArg (·.name.sllFamily) h
  cases hf

end

theorem packet_send_differs_broadcast :
    (nDhcp4SocketPacketSend (fun _ _ => ⟨List.replicate 6 0xff, by decide⟩) (fun m => .ok m.bytes.length)
      1 ⟨.inet, 0, 68⟩ (List.replicate 6 0xff) 6 ⟨.inet, 0xffffffff, 67⟩ 0x30 [1]).1 ≠
    (nDhcp4SocketPacketSendRemoved (fun _ _ => ⟨List.replicate 6 0xff, by decide⟩)
      (fun m => .ok m.bytes.length) 1 ⟨.inet, 0, 68⟩ (List.replicate 6 0xff) 6
      ⟨.inet, 0xffffffff, 67⟩ 0x30 [1]).1 := by
  intro h
  have hf : Family.unspec = Family.packet := congrArg (·.name.sllFamily) h
  cases hf

end PkgsrcPatches.NDhcp4
