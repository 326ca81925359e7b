import PkgsrcPatches.Descriptors.Kernel
import PkgsrcPatches.NAcd.OsBsd
import PkgsrcPatches.NDhcp4.ClientUdp

/-! What the two halves of each seam open: the BPF devices and sockets, the pollers and the
timers of n-acd and n-dhcp4, call by call. -/
namespace PkgsrcPatches.Descriptors
open Lib.Syscall NAcd NDhcp4

def enoprotoopt : Errno := .other 92

/-- The numbered nodes in turn; `last` is what the one before said. -/
def openNumbered (last : Errno) : List Nat → Sys Nat
  | [] => .ret (.error last)
  | i :: rest => (openDev (.numbered i)).andThen fun
    | .ok fd => .ret (.ok fd)
    | .error e => if tryNext e then openNumbered e rest else .ret (.error e)

/-- The cloning device, and where there is none the first numbered one that is free. -/
def openBpf : Sys Nat :=
  (openDev .cloning).andThen fun
    | .ok fd => .ret (.ok fd)
    | .error e => if tryNext e then openNumbered e (List.range 256) else .ret (.error e)

def ifrName (ifname : List UInt8) : List UInt8 := ifname.take (ifNamesize - 1)

/-! ### n-acd on the BSDs -/

def nAcdBsdOpenBpf (ifname : List UInt8) : Sys (Nat × Nat) := do
  let fd ← openBpf
  Prog.onError (do
    control fd (.biocsetif (ifrName ifname))
    control fd .biocimmediate
    control fd .biocshdrcmplt
    control fd (.biocsetf nAcdBsdFilter)
    let blen ← biocgblen fd
    control fd .setflNonblock
    pure (fd, blen)) (close fd)

/-- `n_acd_os_socket_new`, where the file-scope buffer has `buflen` bytes. -/
def nAcdOsSocketNewBsd (buflen ifindex : Nat) : Sys Nat := do
  let ifname ← ifIndextoname ifindex
  let (fd, blen) ← nAcdBsdOpenBpf ifname
  if buflen < blen then
    .call (.realloc blen) fun p =>
      if p then .ret (.ok fd) else (close fd).andThen fun _ => .ret (.error .enomem)
  else pure fd

def eventTimer : Nat := 0
def eventSocket : Nat := 1

def nAcdOsPollNewBsd (fdSocket fdTimer : Nat) : Sys Nat := do
  let fd ← create .poller
  (control fd .setfdCloexec).ignored
  Prog.onError (do
    control fd (.watch [(fdSocket, eventSocket), (fdTimer, eventTimer)])
    pure fd) (close fd)

/-- `n_acd_os_poll_del`; either descriptor may be -1. -/
def nAcdOsPollDelBsd (pollFd : Nat) (fdSocket fdTimer : Option Nat) : Sys Unit :=
  (control pollFd (.unwatch [fdSocket, fdTimer])).ignored

def nAcdOsTimerNewBsd : Sys (Nat × Clock) := do
  let fd ← create .timer
  (control fd .setfdCloexec).ignored
  pure (fd, .monotonic)

/-! ### n-acd on Linux -/

def nAcdOsSocketNewLinux (ifindex : Nat) (fdBpfProg : Option Nat) : Sys Nat := do
  let s ← create .packet
  Prog.onError (do
    match fdBpfProg with
      | some prog => control s (.attachBpf prog)
      | none => pure ()
    control s (.bind (.link 0x0806 ifindex 6 [0xff, 0xff, 0xff, 0xff, 0xff, 0xff]))
    pure s) (close s)

def nAcdOsPollNewLinux (fdSocket fdTimer : Nat) : Sys Nat := do
  let fd ← create .poller
  Prog.onError (do
    control fd (.watch [(fdTimer, eventTimer)])
    control fd (.watch [(fdSocket, eventSocket)])
    pure fd) (close fd)

def nAcdOsPollDelLinux (pollFd : Nat) (fdSocket fdTimer : Option Nat) : Sys Unit := do
  (control pollFd (.unwatch [fdSocket])).ignored
  (control pollFd (.unwatch [fdTimer])).ignored

def nAcdOsTimerNewLinux : Sys (Nat × Clock) :=
  (timerfdCreate .boottime).andThen fun
    | .ok fd => .ret (.ok (fd, .boottime))
    | .error e =>
      if e = .einval then (timerfdCreate .monotonic).bind fun fd => .ret (.ok (fd, .monotonic))
      else .ret (.error e)

/-! ### n-dhcp4 on the BSDs -/

def nDhcp4BsdOpenBpf (ifindex : Nat) (insns : List Lib.ClassicBpf.Insn) : Sys Nat := do
  let ifname ← ifIndextoname ifindex
  let fd ← openBpf
  Prog.onError (do
    control fd (.biocsetif (ifrName ifname))
    control fd .biocimmediate
    control fd .biocshdrcmplt
    match insns with
      | [] => pure ()
      | _ => control fd (.biocsetf insns)
    control fd .setflNonblock
    pure fd) (close fd)

def nDhcp4CSocketPacketNewBsd (ifindex : Nat) : Sys Nat :=
  nDhcp4BsdOpenBpf ifindex nDhcp4BsdClientFilter

/-- `socket_bind_if`: there is nothing to bind to here. -/
def socketBindIfBsd (_socket _ifindex : Nat) : Sys Unit := pure ()

def nDhcp4CSocketUdpNewBsd (ifindex : Nat) (clientAddr serverAddr : UInt32) (dscp : UInt8) :
    Sys Nat := do
  let sockfd ← create .udp
  Prog.onError (do
    control sockfd .reuseaddr
    socketBindIfBsd sockfd ifindex
    control sockfd .broadcast
    control sockfd (.ipTos (dscp.toNat * 4))
    control sockfd (.bind (.inet clientAddr 68))
    control sockfd (.connect (.inet serverAddr 67))
    pure sockfd) (close sockfd)

def iptosClassCs6 : Nat := 0xc0

def nDhcp4SSocketUdpNewBsd (ifindex : Nat) : Sys Nat := do
  let sockfd ← create .udp
  Prog.onError (do
    socketBindIfBsd sockfd ifindex
    control sockfd .broadcast
    control sockfd (.ipTos iptosClassCs6)
    control sockfd .recvdstaddr
    control sockfd (.bind (.inet 0 serverPort))
    pure sockfd) (close sockfd)

def nDhcp4OsPollNewBsd : Sys Nat := do
  let fd ← create .poller
  (control fd .setfdCloexec).ignored
  pure fd

def nDhcp4OsTimerNewBsd : Sys Nat := do
  let fd ← create .timer
  (control fd .setfdCloexec).ignored
  pure fd

/-! ### n-dhcp4 on Linux -/

def nDhcp4CSocketPacketNewLinux (ifindex : Nat) : Sys Nat := do
  let sockfd ← create .packet
  Prog.onError (do
    control sockfd (.attachFilter nDhcp4LinuxClientFilter)
    control sockfd .packetAuxdata
    control sockfd (.bind (.link 0x0800 ifindex 0 []))
    pure sockfd) (close sockfd)

def nDhcp4SSocketPacketNewLinux : Sys Nat := create .packet

/-- The name to bind to, empty where the binding is to be removed. -/
def bindName (socket ifindex : Nat) : Sys (List UInt8) :=
  if 0 < ifindex then siocgifname socket ifindex else pure []

def bindByName (socket ifindex : Nat) : Sys Unit := do
  let ifname ← bindName socket ifindex
  control socket (.bindtodevice ifname)

/-- `socket_bind_if`, in the builds with `SO_BINDTOIFINDEX` and in those without. -/
def socketBindIfLinux (bindtoifindex : Bool) (socket ifindex : Nat) : Sys Unit :=
  if bindtoifindex then
    (control socket (.bindtoifindex ifindex)).andThen fun
      | .ok () => .ret (.ok ())
      | .error e => if e = enoprotoopt then bindByName socket ifindex else .ret (.error e)
  else bindByName socket ifindex

def nDhcp4CSocketUdpNewLinux (bindtoifindex : Bool) (ifindex : Nat)
    (clientAddr serverAddr : UInt32) (dscp : UInt8) : Sys Nat := do
  let sockfd ← create .udp
  Prog.onError (do
    control sockfd .reuseaddr
    control sockfd (.attachFilter nDhcp4LinuxClientUdpFilter)
    socketBindIfLinux bindtoifindex sockfd ifindex
    control sockfd .broadcast
    control sockfd (.ipTos (dscp.toNat * 4))
    control sockfd (.bind (.inet clientAddr 68))
    control sockfd (.connect (.inet serverAddr 67))
    pure sockfd) (close sockfd)

def nDhcp4SSocketUdpNewLinux (bindtoifindex : Bool) (ifindex : Nat) : Sys Nat := do
  let sockfd ← create .udp
  Prog.onError (do
    control sockfd (.attachFilter nDhcp4LinuxServerFilter)
    socketBindIfLinux bindtoifindex sockfd ifindex
    control sockfd .broadcast
    control sockfd (.ipTos iptosClassCs6)
    control sockfd .pktinfo
    control sockfd (.bind (.inet 0 serverPort))
    pure sockfd) (close sockfd)

def nDhcp4OsPollNewLinux : Sys Nat := create .poller

def nDhcp4OsTimerNewLinux : Sys Nat :=
  (timerfdCreate .boottime).andThen fun
    | .ok fd => .ret (.ok fd)
    | .error e => if e = .einval then timerfdCreate .monotonic else .ret (.error e)

/-- `n_dhcp4_os_poll_add`, one `kevent` or one `epoll_ctl`. -/
def nDhcp4OsPollAdd (pollfd fd id : Nat) : Sys Unit := control pollfd (.watch [(fd, id)])

/-- `n_dhcp4_os_poll_del`, of which nobody asks how it went. -/
def nDhcp4OsPollDel (pollfd fd : Nat) : Sys Unit :=
  (control pollfd (.unwatch [some fd])).ignored

end PkgsrcPatches.Descriptors
