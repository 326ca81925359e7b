import PkgsrcPatches.Descriptors.Ownership

/-! Every function of the two seams that opens a descriptor, and what its descriptor has been
through when it returns. -/
namespace PkgsrcPatches.Descriptors
open Lib.Syscall NAcd NDhcp4

inductive Constructor where
  | acdSocketBsd (buflen ifindex : Nat)
  | acdSocketLinux (ifindex : Nat) (fdBpfProg : Option Nat)
  | acdPollBsd (fdSocket fdTimer : Nat)
  | acdPollLinux (fdSocket fdTimer : Nat)
  | acdTimerBsd
  | acdTimerLinux
  | cSocketPacketBsd (ifindex : Nat)
  | cSocketPacketLinux (ifindex : Nat)
  | cSocketUdpBsd (ifindex : Nat) (clientAddr serverAddr : UInt32) (dscp : UInt8)
  | cSocketUdpLinux (bindtoifindex : Bool) (ifindex : Nat) (clientAddr serverAddr : UInt32)
      (dscp : UInt8)
  | sSocketPacketLinux
  | sSocketUdpBsd (ifindex : Nat)
  | sSocketUdpLinux (bindtoifindex : Bool) (ifindex : Nat)
  | pollBsd
  | pollLinux
  | timerBsd
  | timerLinux

namespace Constructor

def program : Constructor → Sys Nat
  | acdSocketBsd buflen ifindex => nAcdOsSocketNewBsd buflen ifindex
  | acdSocketLinux ifindex prog => nAcdOsSocketNewLinux ifindex prog
  | acdPollBsd fdSocket fdTimer => nAcdOsPollNewBsd fdSocket fdTimer
  | acdPollLinux fdSocket fdTimer => nAcdOsPollNewLinux fdSocket fdTimer
  | acdTimerBsd => nAcdOsTimerNewBsd.bind fun r => .ret (.ok r.1)
  | acdTimerLinux => nAcdOsTimerNewLinux.bind fun r => .ret (.ok r.1)
  | cSocketPacketBsd ifindex => nDhcp4CSocketPacketNewBsd ifindex
  | cSocketPacketLinux ifindex => nDhcp4CSocketPacketNewLinux ifindex
  | cSocketUdpBsd ifindex c s dscp => nDhcp4CSocketUdpNewBsd ifindex c s dscp
  | cSocketUdpLinux b ifindex c s dscp => nDhcp4CSocketUdpNewLinux b ifindex c s dscp
  | sSocketPacketLinux => nDhcp4SSocketPacketNewLinux
  | sSocketUdpBsd ifindex => nDhcp4SSocketUdpNewBsd ifindex
  | sSocketUdpLinux b ifindex => nDhcp4SSocketUdpNewLinux b ifindex
  | pollBsd => nDhcp4OsPollNewBsd
  | pollLinux => nDhcp4OsPollNewLinux
  | timerBsd => nDhcp4OsTimerNewBsd
  | timerLinux => nDhcp4OsTimerNewLinux

def needs : Constructor → List Nat
  | acdSocketLinux _ prog => prog.toList
  | acdPollBsd fdSocket fdTimer => [fdSocket, fdTimer]
  | acdPollLinux fdSocket fdTimer => [fdSocket, fdTimer]
  | _ => []

end Constructor

/-- A BPF device bound by a name of the interface, with `insns` put on it after that. -/
def FilteredDevice (names : IfNames) (ifindex : Nat) (insns : List Lib.ClassicBpf.Insn)
    (d : Desc) : Prop :=
  ∃ name, names ifindex name ∧ d = ⟨.bpf, [.biocsetif name, .biocimmediate, .biocshdrcmplt,
    .biocsetf insns, .setflNonblock]⟩

/-- How `socket_bind_if` bound a socket; index 0 and the empty name stand for no interface. -/
inductive BoundIf (names : IfNames) (ifindex : Nat) : List Op → Prop
  | byIndex : BoundIf names ifindex [.bindtoifindex ifindex]
  | byName (ifname : List UInt8) (h : if 0 < ifindex then names ifindex ifname else ifname = []) :
    BoundIf names ifindex [.bindtodevice ifname]

def Queue (kind : Kind) (ops : List Op) (d : Desc) : Prop :=
  d = ⟨kind, ops⟩ ∨ d = ⟨kind, .setfdCloexec :: ops⟩

namespace Constructor

def Done (names : IfNames) : Constructor → Desc → Prop
  | acdSocketBsd _ ifindex, d => FilteredDevice names ifindex nAcdBsdFilter d
  | acdSocketLinux ifindex prog, d => d = ⟨.packet, prog.toList.map .attachBpf ++
      [.bind (.link 0x0806 ifindex 6 [0xff, 0xff, 0xff, 0xff, 0xff, 0xff])]⟩
  | acdPollBsd fdSocket fdTimer, d =>
    Queue .poller [.watch [(fdSocket, eventSocket), (fdTimer, eventTimer)]] d
  | acdPollLinux fdSocket fdTimer, d =>
    Queue .poller [.watch [(fdTimer, eventTimer)], .watch [(fdSocket, eventSocket)]] d
  | acdTimerBsd, d => Queue .timer [] d
  | acdTimerLinux, d => Queue .timer [] d
  | cSocketPacketBsd ifindex, d => FilteredDevice names ifindex nDhcp4BsdClientFilter d
  | cSocketPacketLinux ifindex, d => d = ⟨.packet, [.attachFilter nDhcp4LinuxClientFilter,
      .packetAuxdata, .bind (.link 0x0800 ifindex 0 [])]⟩
  | cSocketUdpBsd _ c s dscp, d => d = ⟨.udp, [.reuseaddr, .broadcast, .ipTos (dscp.toNat * 4),
      .bind (.inet c 68), .connect (.inet s 67)]⟩
  | cSocketUdpLinux _ ifindex c s dscp, d => ∃ bound, BoundIf names ifindex bound ∧
      d = ⟨.udp, [.reuseaddr, .attachFilter nDhcp4LinuxClientUdpFilter] ++ bound ++
        [.broadcast, .ipTos (dscp.toNat * 4), .bind (.inet c 68), .connect (.inet s 67)]⟩
  | sSocketPacketLinux, d => d = ⟨.packet, []⟩
  | sSocketUdpBsd _, d => d = ⟨.udp, [.broadcast, .ipTos iptosClassCs6, .recvdstaddr,
      .bind (.inet 0 serverPort)]⟩
  | sSocketUdpLinux _ ifindex, d => ∃ bound, BoundIf names ifindex bound ∧
      d = ⟨.udp, [.attachFilter nDhcp4LinuxServerFilter] ++ bound ++
        [.broadcast, .ipTos iptosClassCs6, .pktinfo, .bind (.inet 0 serverPort)]⟩
  | pollBsd, d => Queue .poller [] d
  | pollLinux, d => Queue .poller [] d
  | timerBsd, d => Queue .timer [] d
  | timerLinux, d => Queue .timer [] d

end Constructor

variable {names : IfNames} {t : Table}

theorem ifrName_of_lt {ifname : List UInt8} (h : ifname.length < ifNamesize) :
    ifrName ifname = ifname := by
  apply List.take_of_length_le
  simp only [ifNamesize] at *
  omega

theorem ifIndextoname_then {α : Type} {R : α → Nat → Desc → Prop} {ifindex : Nat}
    {f : List UInt8 → Sys α}
    (hf : ∀ name, names ifindex name ∧ name.length < ifNamesize →
      (f name).Meets (kernel names) (Opens t R) t) :
    (ifIndextoname ifindex >>= f).Meets (kernel names) (Opens t R) t := by
  refine ⟨trivial, ?_⟩
  intro r hr
  cases r with
  | ok name => exact hf name hr
  | error e => exact (rfl : t = t)

theorem nAcdBsdOpenBpf_opens {ifindex : Nat} {ifname : List UInt8}
    (hn : names ifindex ifname ∧ ifname.length < ifNamesize) :
    (nAcdBsdOpenBpf ifname).Meets (kernel names)
      (Opens t fun a fd d => a.1 = fd ∧ FilteredDevice names ifindex nAcdBsdFilter d) t := by
  apply Opens.bind opens_openBpf
  intro fd' fd d hfree hr
  obtain ⟨rfl, rfl⟩ := hr
  have hwork : Works names t fd' (fun (a : Nat × Nat) d => a.1 = fd' ∧
      FilteredDevice names ifindex nAcdBsdFilter d) (do
      control fd' (.biocsetif (ifrName ifname))
      control fd' .biocimmediate
      control fd' .biocshdrcmplt
      control fd' (.biocsetf nAcdBsdFilter)
      let blen ← biocgblen fd'
      control fd' .setflNonblock
      pure (fd', blen)) ⟨.bpf, []⟩ := by
    rw [ifrName_of_lt hn.2]
    apply Works.step rfl
    apply Works.step rfl
    apply Works.step rfl
    apply Works.step rfl
    apply Works.biocgblen.bind
    intro blen d' hd
    subst hd
    apply Works.step rfl
    exact Works.pure ⟨rfl, ifname, hn.1, rfl⟩
  exact hwork.orClose hfree

theorem opens_ret {R : Nat → Nat → Desc → Prop} {fd : Nat} {d : Desc} (hfree : t fd = none)
    (h : R fd fd d) : (Prog.ret (.ok fd) : Sys Nat).Meets (kernel names) (Opens t R) (t.opened fd d) :=
  ⟨fd, d, hfree, rfl, h⟩

theorem close_opened {α : Type} {R : α → Nat → Desc → Prop} {fd : Nat} {d : Desc} {e : Errno}
    (hfree : t fd = none) :
    ((close fd).andThen fun _ => (.ret (.error e) : Sys α)).Meets (kernel names) (Opens t R)
      (t.opened fd d) := by
  refine ⟨by simp [kernel, allows], ?_⟩
  intro _ _
  exact closed_opened hfree

theorem acdSocketBsd_opens (buflen ifindex : Nat) :
    (nAcdOsSocketNewBsd buflen ifindex).Meets (kernel names)
      (Opens t fun a fd d => a = fd ∧ FilteredDevice names ifindex nAcdBsdFilter d) t := by
  apply ifIndextoname_then
  intro name hn
  apply Opens.bind (nAcdBsdOpenBpf_opens hn)
  intro a fd d hfree hr
  obtain ⟨rfl, hd⟩ := hr
  by_cases hgrow : buflen < a.2
  · simp only [hgrow, if_true]
    refine ⟨trivial, ?_⟩
    intro p _
    cases p with
    | true => exact opens_ret hfree ⟨rfl, hd⟩
    | false => exact close_opened hfree
  · simp only [hgrow, if_false]
    exact opens_ret hfree ⟨rfl, hd⟩

theorem cloexec_then {α : Type} {R : α → Nat → Desc → Prop} {kind : Kind} {f : Nat → Sys α}
    (hf : ∀ fd d, t fd = none → Queue kind [] d →
      (f fd).Meets (kernel names) (Opens t R) (t.opened fd d)) :
    (do
      let fd ← create kind
      (control fd .setfdCloexec).ignored
      f fd).Meets (kernel names) (Opens t R) t := by
  apply Opens.bind (opens_create kind)
  intro a fd d hfree hr
  obtain ⟨rfl, rfl⟩ := hr
  refine ⟨by simp [kernel, allows], ?_⟩
  intro r _
  cases r with
  | ok u =>
    change (f a).Meets (kernel names) (Opens t R)
      (after (t.opened a ⟨kind, []⟩) (.control a .setfdCloexec) (.ok ()))
    rw [after_control]
    exact hf a _ hfree (Or.inr rfl)
  | error e => exact hf a _ hfree (Or.inl rfl)

theorem Queue.did {kind : Kind} {ops : List Op} {op : Op} {d : Desc} (h : Queue kind ops d) :
    Queue kind (ops ++ [op]) (d.did op) := by
  cases h with
  | inl h => exact Or.inl (by rw [h, Desc.did])
  | inr h => exact Or.inr (by rw [h, Desc.did]; rfl)

theorem acdPollBsd_opens {fdSocket fdTimer : Nat} (hs : t fdSocket ≠ none) (ht : t fdTimer ≠ none) :
    (nAcdOsPollNewBsd fdSocket fdTimer).Meets (kernel names) (Opens t fun a fd d => a = fd ∧
      Queue .poller [.watch [(fdSocket, eventSocket), (fdTimer, eventTimer)]] d) t := by
  apply cloexec_then
  intro fd d hfree hq
  have hwork : Works names t fd (fun (a : Nat) d => a = fd ∧
      Queue .poller [.watch [(fdSocket, eventSocket), (fdTimer, eventTimer)]] d) (do
      control fd (.watch [(fdSocket, eventSocket), (fdTimer, eventTimer)])
      pure fd) d := by
    refine (Works.watch ?_).bind ?_
    · intro w hw
      simp only [List.mem_cons, List.not_mem_nil, or_false] at hw
      cases hw with
      | inl h => rw [h]; exact hs
      | inr h => rw [h]; exact ht
    · intro _ d' hd
      subst hd
      exact Works.pure ⟨rfl, hq.did⟩
  exact hwork.orClose hfree

theorem acdPollLinux_opens {fdSocket fdTimer : Nat} (hs : t fdSocket ≠ none)
    (ht : t fdTimer ≠ none) :
    (nAcdOsPollNewLinux fdSocket fdTimer).Meets (kernel names) (Opens t fun a fd d => a = fd ∧
      Queue .poller [.watch [(fdTimer, eventTimer)], .watch [(fdSocket, eventSocket)]] d) t := by
  apply Opens.bind (opens_create .poller)
  intro fd' fd d hfree hr
  obtain ⟨rfl, rfl⟩ := hr
  have hwork : Works names t fd' (fun (a : Nat) d => a = fd' ∧
      Queue .poller [.watch [(fdTimer, eventTimer)], .watch [(fdSocket, eventSocket)]] d) (do
      control fd' (.watch [(fdTimer, eventTimer)])
      control fd' (.watch [(fdSocket, eventSocket)])
      pure fd') ⟨.poller, []⟩ := by
    refine (Works.watch (by simpa using ht)).bind ?_
    intro _ d₁ hd₁
    refine (Works.watch (by simpa using hs)).bind ?_
    intro _ d₂ hd₂
    subst hd₁ hd₂
    exact Works.pure ⟨rfl, Or.inl rfl⟩
  exact hwork.orClose hfree

theorem acdSocketLinux_opens (ifindex : Nat) {prog : Option Nat}
    (hp : ∀ fd, prog = some fd → t fd ≠ none) :
    (nAcdOsSocketNewLinux ifindex prog).Meets (kernel names) (Opens t fun a fd d => a = fd ∧
      Constructor.Done names (.acdSocketLinux ifindex prog) d) t := by
  apply Opens.bind (opens_create .packet)
  intro fd' fd d hfree hr
  obtain ⟨rfl, rfl⟩ := hr
  apply Works.orClose (g := id) hfree
  cases prog with
  | none =>
    apply Works.step rfl
    exact Works.pure ⟨rfl, rfl⟩
  | some prog =>
    have hattach : allows (t.opened fd' ⟨.packet, []⟩) (.control fd' (.attachBpf prog)) :=
      ⟨by simp, opened_ne_none (hp prog rfl)⟩
    refine (Works.control hattach).bind ?_
    intro _ d' hd
    subst hd
    apply Works.step rfl
    exact Works.pure ⟨rfl, rfl⟩

theorem acdTimerBsd_opens : nAcdOsTimerNewBsd.Meets (kernel names)
    (Opens t fun a fd d => a.1 = fd ∧ Queue .timer [] d) t := by
  apply cloexec_then
  intro fd d hfree hq
  exact ⟨fd, d, hfree, rfl, rfl, hq⟩

theorem acdTimerLinux_opens : nAcdOsTimerNewLinux.Meets (kernel names)
    (Opens t fun a fd d => a.1 = fd ∧ Queue .timer [] d) t := by
  refine Prog.Meets.andThen (opens_timerfdCreate .boottime) ?_
  intro t' r hr
  cases r with
  | ok a =>
    obtain ⟨fd, d, hfree, ht, rfl, hd⟩ := hr
    exact ⟨a, d, hfree, ht, rfl, Or.inl hd⟩
  | error e =>
    have ht : t' = t := hr
    subst ht
    dsimp only
    split
    · refine Prog.Meets.bind (opens_timerfdCreate .monotonic) ?_ ?_
      · intro t'' a ha
        obtain ⟨fd, d, hfree, ht, rfl, hd⟩ := ha
        exact ⟨a, d, hfree, ht, rfl, Or.inl hd⟩
      · intro t'' e' he
        exact he
    · exact (rfl : t' = t')

theorem cSocketPacketBsd_opens (ifindex : Nat) :
    (nDhcp4CSocketPacketNewBsd ifindex).Meets (kernel names)
      (Opens t fun a fd d => a = fd ∧ FilteredDevice names ifindex nDhcp4BsdClientFilter d) t := by
  apply ifIndextoname_then
  intro name hn
  apply Opens.bind opens_openBpf
  intro fd' fd d hfree hr
  obtain ⟨rfl, rfl⟩ := hr
  apply Works.orClose (g := id) hfree
  rw [ifrName_of_lt hn.2]
  apply Works.step rfl
  apply Works.step rfl
  apply Works.step rfl
  apply Works.step rfl
  apply Works.step rfl
  exact Works.pure ⟨rfl, name, hn.1, rfl⟩

theorem cSocketPacketLinux_opens (ifindex : Nat) :
    (nDhcp4CSocketPacketNewLinux ifindex).Meets (kernel names)
      (Opens t fun a fd d => a = fd ∧ Constructor.Done names (.cSocketPacketLinux ifindex) d) t := by
  apply Opens.bind (opens_create .packet)
  intro fd' fd d hfree hr
  obtain ⟨rfl, rfl⟩ := hr
  apply Works.orClose (g := id) hfree
  apply Works.step rfl
  apply Works.step rfl
  apply Works.step rfl
  exact Works.pure ⟨rfl, rfl⟩

theorem socketBindIfBsd_works {fd : Nat} {d : Desc} (ifindex : Nat) :
    Works names t fd (fun _ d' => d' = d) (socketBindIfBsd fd ifindex) d := Works.pure rfl

theorem bindByName_works {fd : Nat} {d : Desc} (ifindex : Nat) :
    Works names t fd
      (fun _ d' => ∃ bound, BoundIf names ifindex bound ∧ d' = ⟨d.kind, d.done ++ bound⟩)
      (bindByName fd ifindex) d := by
  have hask : Works names t fd (fun ifname d' =>
      (if 0 < ifindex then names ifindex ifname else ifname = []) ∧ d' = d)
      (bindName fd ifindex) d := by
    rw [bindName]
    by_cases hindex : 0 < ifindex
    · simp only [if_pos hindex]
      exact Works.siocgifname ifindex
    · simp only [if_neg hindex]
      exact Works.pure ⟨rfl, rfl⟩
  apply hask.bind
  intro ifname d' hq
  obtain ⟨hname, rfl⟩ := hq
  apply (Works.plain rfl).imp
  intro _ d₁ hd₁
  exact ⟨_, .byName ifname hname, hd₁⟩

theorem socketBindIfLinux_works {fd : Nat} {d : Desc} (b : Bool) (ifindex : Nat) :
    Works names t fd
      (fun _ d' => ∃ bound, BoundIf names ifindex bound ∧ d' = ⟨d.kind, d.done ++ bound⟩)
      (socketBindIfLinux b fd ifindex) d := by
  rw [socketBindIfLinux]
  cases b with
  | false => exact bindByName_works ifindex
  | true =>
    refine ⟨by simp [kernel, allows], ?_⟩
    intro r _
    cases r with
    | ok u => exact ⟨_, after_control _, fun _ _ => ⟨_, .byIndex, rfl⟩⟩
    | error e =>
      by_cases he : e = enoprotoopt
      · subst he
        exact bindByName_works ifindex
      · change Prog.Meets (kernel names) _ (if e = enoprotoopt then _ else _) _
        rw [if_neg he]
        exact ⟨d, rfl, fun a h => by cases h⟩

theorem cSocketUdpBsd_opens (ifindex : Nat) (c s : UInt32) (dscp : UInt8) :
    (nDhcp4CSocketUdpNewBsd ifindex c s dscp).Meets (kernel names)
      (Opens t fun a fd d => a = fd ∧ Constructor.Done names (.cSocketUdpBsd ifindex c s dscp) d) t := by
  apply Opens.bind (opens_create .udp)
  intro fd' fd d hfree hr
  obtain ⟨rfl, rfl⟩ := hr
  apply Works.orClose (g := id) hfree
  apply Works.step rfl
  refine (socketBindIfBsd_works ifindex).bind ?_
  intro _ d' hd
  subst hd
  apply Works.step rfl
  apply Works.step rfl
  apply Works.step rfl
  apply Works.step rfl
  exact Works.pure ⟨rfl, rfl⟩

theorem cSocketUdpLinux_opens (b : Bool) (ifindex : Nat) (c s : UInt32) (dscp : UInt8) :
    (nDhcp4CSocketUdpNewLinux b ifindex c s dscp).Meets (kernel names)
      (Opens t fun a fd d => a = fd ∧ Constructor.Done names (.cSocketUdpLinux b ifindex c s dscp) d)
      t := by
  apply Opens.bind (opens_create .udp)
  intro fd' fd d hfree hr
  obtain ⟨rfl, rfl⟩ := hr
  apply Works.orClose (g := id) hfree
  apply Works.step rfl
  apply Works.step rfl
  apply (socketBindIfLinux_works b ifindex).bind
  intro _ d' hd
  obtain ⟨bound, hb, rfl⟩ := hd
  apply Works.step rfl
  apply Works.step rfl
  apply Works.step rfl
  apply Works.step rfl
  exact Works.pure ⟨rfl, bound, hb, by simp [Desc.did]⟩

theorem sSocketUdpLinux_opens (b : Bool) (ifindex : Nat) :
    (nDhcp4SSocketUdpNewLinux b ifindex).Meets (kernel names)
      (Opens t fun a fd d => a = fd ∧ Constructor.Done names (.sSocketUdpLinux b ifindex) d) t := by
  apply Opens.bind (opens_create .udp)
  intro fd' fd d hfree hr
  obtain ⟨rfl, rfl⟩ := hr
  apply Works.orClose (g := id) hfree
  apply Works.step rfl
  apply (socketBindIfLinux_works b ifindex).bind
  intro _ d' hd
  obtain ⟨bound, hb, rfl⟩ := hd
  apply Works.step rfl
  apply Works.step rfl
  apply Works.step rfl
  apply Works.step rfl
  exact Works.pure ⟨rfl, bound, hb, by simp [Desc.did]⟩

theorem sSocketUdpBsd_opens (ifindex : Nat) : (nDhcp4SSocketUdpNewBsd ifindex).Meets (kernel names)
    (Opens t fun a fd d => a = fd ∧ Constructor.Done names (.sSocketUdpBsd ifindex) d) t := by
  apply Opens.bind (opens_create .udp)
  intro fd' fd d hfree hr
  obtain ⟨rfl, rfl⟩ := hr
  apply Works.orClose (g := id) hfree
  refine (socketBindIfBsd_works ifindex).bind ?_
  intro _ d' hd
  subst hd
  apply Works.step rfl
  apply Works.step rfl
  apply Works.step rfl
  apply Works.step rfl
  exact Works.pure ⟨rfl, rfl⟩

theorem queueBsd_opens (kind : Kind) : (do
    let fd ← create kind
    (control fd .setfdCloexec).ignored
    pure fd : Sys Nat).Meets (kernel names) (Opens t fun a fd d => a = fd ∧ Queue kind [] d) t := by
  apply cloexec_then
  intro fd d hfree hq
  exact opens_ret hfree ⟨rfl, hq⟩

theorem pollLinux_opens : nDhcp4OsPollNewLinux.Meets (kernel names)
    (Opens t fun a fd d => a = fd ∧ Queue .poller [] d) t := by
  apply (opens_create .poller).imp
  intro t' r ho
  exact ho.imp fun a fd d h => ⟨h.1, Or.inl h.2⟩

theorem timerLinux_opens : nDhcp4OsTimerNewLinux.Meets (kernel names)
    (Opens t fun a fd d => a = fd ∧ Queue .timer [] d) t := by
  have hclock (clock : Clock) : (timerfdCreate clock).Meets (kernel names)
      (Opens t fun a fd d => a = fd ∧ Queue .timer [] d) t := by
    apply (opens_timerfdCreate clock).imp
    intro t' r ho
    exact ho.imp fun a fd d h => ⟨h.1, Or.inl h.2⟩
  refine Prog.Meets.andThen (hclock .boottime) ?_
  intro t' r hr
  cases r with
  | ok a => exact hr
  | error e =>
    have ht : t' = t := hr
    subst ht
    dsimp only
    split
    · exact hclock .monotonic
    · exact (rfl : t' = t')

theorem withoutClock_opens {p : Sys (Nat × Clock)} {P : Desc → Prop}
    (h : p.Meets (kernel names) (Opens t fun a fd d => a.1 = fd ∧ P d) t) :
    (p.bind fun r => .ret (.ok r.1)).Meets (kernel names) (Opens t fun a fd d => a = fd ∧ P d) t := by
  refine Prog.Meets.bind h ?_ ?_
  · intro t' a hq
    exact hq
  · intro t' e hq
    exact hq

theorem Constructor.opens (c : Constructor) (t : Table) (hneeds : ∀ fd ∈ c.needs, t fd ≠ none) :
    c.program.Meets (kernel names) (Opens t fun a fd d => a = fd ∧ c.Done names d) t := by
  cases c with
  | acdSocketBsd buflen ifindex => exact acdSocketBsd_opens buflen ifindex
  | acdSocketLinux ifindex prog =>
    apply acdSocketLinux_opens
    intro fd hfd
    exact hneeds fd (by simp [Constructor.needs, hfd])
  | acdPollBsd fdSocket fdTimer =>
    exact acdPollBsd_opens (hneeds _ List.mem_cons_self) (hneeds _ (by simp [Constructor.needs]))
  | acdPollLinux fdSocket fdTimer =>
    exact acdPollLinux_opens (hneeds _ List.mem_cons_self) (hneeds _ (by simp [Constructor.needs]))
  | acdTimerBsd => exact withoutClock_opens acdTimerBsd_opens
  | acdTimerLinux => exact withoutClock_opens acdTimerLinux_opens
  | cSocketPacketBsd ifindex => exact cSocketPacketBsd_opens ifindex
  | cSocketPacketLinux ifindex => exact cSocketPacketLinux_opens ifindex
  | cSocketUdpBsd ifindex c s dscp => exact cSocketUdpBsd_opens ifindex c s dscp
  | cSocketUdpLinux b ifindex c s dscp => exact cSocketUdpLinux_opens b ifindex c s dscp
  | sSocketPacketLinux => exact opens_create .packet
  | sSocketUdpBsd ifindex => exact sSocketUdpBsd_opens ifindex
  | sSocketUdpLinux b ifindex => exact sSocketUdpLinux_opens b ifindex
  | pollBsd => exact queueBsd_opens .poller
  | pollLinux => exact pollLinux_opens
  | timerBsd => exact queueBsd_opens .timer
  | timerLinux => exact timerLinux_opens

end PkgsrcPatches.Descriptors
