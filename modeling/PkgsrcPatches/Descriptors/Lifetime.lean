import PkgsrcPatches.Descriptors.Constructors
import PkgsrcPatches.Descriptors.Extends

/-! The descriptors of an NAcd and of an NDhcp4Client from their constructors to their
destructors, and a process that makes and frees them in any order. -/
namespace PkgsrcPatches.Descriptors
open Lib Lib.Syscall NAcd NDhcp4

inductive Os where
  | bsd | linux (bindtoifindex : Bool)

/-- What is upstream's and not under the seam: `timer_deinit` gives up the timer's descriptor. -/
structure Upstream where
  timerDeinit : Nat → Sys Unit
  gives_up : ∀ names (t : Table) fd, t fd ≠ none →
    (timerDeinit fd).Meets (kernel names) (fun t' r => r = .ok () ∧ t' = t.closed fd) t

def Upstream.closing : Upstream where
  timerDeinit := close
  gives_up _ _ _ h := ⟨h, fun _ _ => ⟨rfl, rfl⟩⟩

/-- The descriptors of an NAcd; `none` is -1. -/
structure AcdFds where
  fdSocket : Option Nat
  fdBpfMap : Option Nat
  timerFd : Option Nat
  fdPoll : Option Nat
deriving DecidableEq

def AcdFds.null : AcdFds := ⟨none, none, none, none⟩

def AcdFds.fds (acd : AcdFds) : List Nat :=
  acd.fdSocket.toList ++ (acd.fdBpfMap.toList ++ (acd.timerFd.toList ++ acd.fdPoll.toList))

structure ClientFds where
  fdTimer : Option Nat
  fdPoll : Option Nat
deriving DecidableEq

def ClientFds.null : ClientFds := ⟨none, none⟩

def ClientFds.fds (client : ClientFds) : List Nat := client.fdTimer.toList ++ client.fdPoll.toList

variable (up : Upstream) (os : Os)

/-! ### n-acd -/

def nAcdOsTimerNew : Sys (Nat × Clock) :=
  match os with
  | .bsd => nAcdOsTimerNewBsd
  | .linux _ => nAcdOsTimerNewLinux

def nAcdOsSocketNew (buflen ifindex : Nat) (fdBpfProg : Option Nat) : Sys Nat :=
  match os with
  | .bsd => nAcdOsSocketNewBsd buflen ifindex
  | .linux _ => nAcdOsSocketNewLinux ifindex fdBpfProg

def nAcdOsPollNew (fdSocket fdTimer : Nat) : Sys Nat :=
  match os with
  | .bsd => nAcdOsPollNewBsd fdSocket fdTimer
  | .linux _ => nAcdOsPollNewLinux fdSocket fdTimer

def nAcdOsPollDel (pollFd : Nat) (fdSocket fdTimer : Option Nat) : Sys Unit :=
  match os with
  | .bsd => nAcdOsPollDelBsd pollFd fdSocket fdTimer
  | .linux _ => nAcdOsPollDelLinux pollFd fdSocket fdTimer

/-- The map and the program: the fallback leaves neither, the real ones come or do not. -/
def ebpfSetup {α : Type} (k : Ebpf → Sys α) : Sys α :=
  match os with
  | .bsd => k ⟨none, none, none⟩
  | .linux _ => .call .ebpfSetup k

def nAcdFree (acd : AcdFds) : Sys Unit := do
  whenOpen acd.fdPoll fun fdPoll => nAcdOsPollDel os fdPoll acd.fdSocket acd.timerFd
  closeIf acd.fdSocket
  closeIf acd.fdBpfMap
  whenOpen acd.timerFd up.timerDeinit
  closeIf acd.fdPoll

/-- An error of `n_acd_new`: the program's descriptor goes, then the NAcd as far as it got. -/
def nAcdNewFails (acd : AcdFds) (fdBpfProg : Option Nat) (e : Errno) : Sys AcdFds :=
  (closeIf fdBpfProg).andThen fun _ => (nAcdFree up os acd).andThen fun _ => .ret (.error e)

def nAcdNew (buflen ifindex : Nat) : Sys AcdFds :=
  (nAcdOsTimerNew os).andThen fun
    | .error e => nAcdNewFails up os .null none e
    | .ok (timerFd, _) => ebpfSetup os fun b =>
      match b.failed with
      | some e => nAcdNewFails up os ⟨none, b.map, some timerFd, none⟩ b.prog e
      | none => (nAcdOsSocketNew os buflen ifindex b.prog).andThen fun
        | .error e => nAcdNewFails up os ⟨none, b.map, some timerFd, none⟩ b.prog e
        | .ok fdSocket => (nAcdOsPollNew os fdSocket timerFd).andThen fun
          | .error e => nAcdNewFails up os ⟨some fdSocket, b.map, some timerFd, none⟩ b.prog e
          | .ok fdPoll => (closeIf b.prog).andThen fun _ =>
            .ret (.ok ⟨some fdSocket, b.map, some timerFd, some fdPoll⟩)

/-! ### n-dhcp4 -/

def nDhcp4OsPollNew : Sys Nat :=
  match os with
  | .bsd => nDhcp4OsPollNewBsd
  | .linux _ => nDhcp4OsPollNewLinux

def nDhcp4OsTimerNew : Sys Nat :=
  match os with
  | .bsd => nDhcp4OsTimerNewBsd
  | .linux _ => nDhcp4OsTimerNewLinux

def nDhcp4ClientFree (client : ClientFds) : Sys Unit := do
  whenOpen client.fdTimer fun fdTimer =>
    whenOpen client.fdPoll fun fdPoll => nDhcp4OsPollDel fdPoll fdTimer
  closeIf client.fdTimer
  closeIf client.fdPoll

def clientEpollTimer : Nat := 0

/-- `n_dhcp4_client_new` from `n_dhcp4_os_poll_new` on. -/
def nDhcp4ClientNew : Sys ClientFds :=
  (nDhcp4OsPollNew os).andThen fun
    | .error e => (nDhcp4ClientFree .null).andThen fun _ => .ret (.error e)
    | .ok fdPoll => (nDhcp4OsTimerNew os).andThen fun
      | .error e => (nDhcp4ClientFree ⟨none, some fdPoll⟩).andThen fun _ => .ret (.error e)
      | .ok fdTimer => (nDhcp4OsPollAdd fdPoll fdTimer clientEpollTimer).andThen fun
        | .error e => (close fdTimer).andThen fun _ =>
          (nDhcp4ClientFree ⟨none, some fdPoll⟩).andThen fun _ => .ret (.error e)
        | .ok () => .ret (.ok ⟨some fdTimer, some fdPoll⟩)

/-! ### What they leave -/
section
variable {up : Upstream} {os : Os} {names : IfNames} {t₀ t : Table} {rest : List Nat}

theorem leaves_timerDeinit {o : Option Nat} (h : Extends t₀ t (o.toList ++ rest)) :
    (whenOpen o up.timerDeinit).Meets (kernel names) (Leaves t₀ rest) t := by
  apply leaves_whenOpen
  · intro ho
    subst ho
    exact h
  · intro fd ho
    subst ho
    apply (up.gives_up names t fd (h.opened fd List.mem_cons_self)).imp
    intro t' r hq
    obtain ⟨hr, ht⟩ := hq
    rw [ht]
    exact ⟨hr, h.pop⟩

theorem leaves_nAcdOsPollDel {pollFd : Nat} {fdSocket fdTimer : Option Nat}
    (h : Extends t₀ t rest) (hp : pollFd ∈ rest) :
    (nAcdOsPollDel os pollFd fdSocket fdTimer).Meets (kernel names) (Leaves t₀ rest) t := by
  cases os with
  | bsd => exact leaves_ignored (.unwatch _) rfl h hp
  | linux b =>
    refine leaves_then (leaves_ignored (.unwatch _) rfl h hp) ?_
    intro t' h'
    exact leaves_ignored (.unwatch _) rfl h' hp

theorem nAcdFree_gives_back (acd : AcdFds) (h : Extends t₀ t acd.fds) :
    (nAcdFree up os acd).Meets (kernel names) (fun t' r => r = .ok () ∧ t' = t₀) t := by
  have hdel : (whenOpen acd.fdPoll fun fdPoll => nAcdOsPollDel os fdPoll acd.fdSocket
      acd.timerFd).Meets (kernel names) (Leaves t₀ acd.fds) t := by
    apply leaves_whenOpen
    · intro _
      exact h
    · intro fdPoll hp
      apply leaves_nAcdOsPollDel h
      simp [AcdFds.fds, hp]
  have hlast : (nAcdFree up os acd).Meets (kernel names) (Leaves t₀ []) t := by
    apply leaves_then hdel
    intro t₁ h₁
    apply leaves_then (leaves_closeIf h₁)
    intro t₂ h₂
    apply leaves_then (leaves_closeIf h₂)
    intro t₃ h₃
    apply leaves_then (leaves_timerDeinit h₃)
    intro t₄ h₄
    exact leaves_closeIf ((List.append_nil _).symm ▸ h₄)
  apply hlast.imp
  intro t' r hq
  exact ⟨hq.1, hq.2.eq⟩

theorem nDhcp4ClientFree_gives_back (client : ClientFds) (h : Extends t₀ t client.fds) :
    (nDhcp4ClientFree client).Meets (kernel names) (fun t' r => r = .ok () ∧ t' = t₀) t := by
  have hdel : (whenOpen client.fdTimer fun fdTimer => whenOpen client.fdPoll fun fdPoll =>
      nDhcp4OsPollDel fdPoll fdTimer).Meets (kernel names) (Leaves t₀ client.fds) t := by
    apply leaves_whenOpen
    · intro _
      exact h
    · intro fdTimer _
      apply leaves_whenOpen
      · intro _
        exact h
      · intro fdPoll hp
        apply leaves_ignored (.unwatch _) rfl h
        simp [ClientFds.fds, hp]
  have hlast : (nDhcp4ClientFree client).Meets (kernel names) (Leaves t₀ []) t := by
    apply leaves_then hdel
    intro t₁ h₁
    apply leaves_then (leaves_closeIf h₁)
    intro t₂ h₂
    exact leaves_closeIf ((List.append_nil _).symm ▸ h₂)
  apply hlast.imp
  intro t' r hq
  exact ⟨hq.1, hq.2.eq⟩

/-! ### What they make -/

/-- The socket of an NAcd: a device with the ARP filter, or a packet socket bound to broadcast. -/
def SocketReady (names : IfNames) (ifindex : Nat) (d : Desc) : Os → Prop
  | .bsd => FilteredDevice names ifindex nAcdBsdFilter d
  | .linux _ => ∃ prog, Constructor.Done names (.acdSocketLinux ifindex prog) d

/-- The poller of an NAcd: told of its socket and of its timer, each by its tag. -/
def PollerReady (fdSocket fdTimer : Nat) (d : Desc) : Os → Prop
  | .bsd => Queue .poller [.watch [(fdSocket, eventSocket), (fdTimer, eventTimer)]] d
  | .linux _ =>
    Queue .poller [.watch [(fdTimer, eventTimer)], .watch [(fdSocket, eventSocket)]] d

/-- An NAcd whose descriptors are open and set up: for its interface, and its poller for the
other two. -/
def AcdFds.Ready (names : IfNames) (os : Os) (ifindex : Nat) (acd : AcdFds) (t : Table) : Prop :=
  ∃ fdSocket fdTimer fdPoll dSocket dTimer dPoll, acd.fdSocket = some fdSocket ∧
    acd.timerFd = some fdTimer ∧ acd.fdPoll = some fdPoll ∧
    t fdSocket = some dSocket ∧ SocketReady names ifindex dSocket os ∧
    t fdTimer = some dTimer ∧ Queue .timer [] dTimer ∧
    t fdPoll = some dPoll ∧ PollerReady fdSocket fdTimer dPoll os

/-- All or nothing: the descriptors of what is returned on top of the table, or the table. -/
def Makes {α : Type} (t₀ : Table) (fds : α → List Nat) (P : α → Table → Prop) (t' : Table) :
    Except Errno α → Prop
  | .error _ => t' = t₀
  | .ok a => Extends t₀ t' (fds a) ∧ P a t'

theorem nAcdOsTimerNew_opens : (nAcdOsTimerNew os).Meets (kernel names)
    (Opens t fun a fd d => a.1 = fd ∧ Queue .timer [] d) t := by
  cases os with
  | bsd => exact acdTimerBsd_opens
  | linux b => exact acdTimerLinux_opens

theorem nAcdOsSocketNew_opens (buflen ifindex : Nat) {prog : Option Nat}
    (hp : ∀ fd, prog = some fd → t fd ≠ none) :
    (nAcdOsSocketNew os buflen ifindex prog).Meets (kernel names)
      (Opens t fun a fd d => a = fd ∧ SocketReady names ifindex d os) t := by
  cases os with
  | bsd => exact acdSocketBsd_opens buflen ifindex
  | linux b =>
    apply (acdSocketLinux_opens ifindex hp).imp
    intro t' r ho
    exact ho.imp fun a fd d h => ⟨h.1, prog, h.2⟩

theorem nAcdOsPollNew_opens {fdSocket fdTimer : Nat} (hs : t fdSocket ≠ none)
    (ht : t fdTimer ≠ none) : (nAcdOsPollNew os fdSocket fdTimer).Meets (kernel names)
      (Opens t fun a fd d => a = fd ∧ PollerReady fdSocket fdTimer d os) t := by
  cases os with
  | bsd => exact acdPollBsd_opens hs ht
  | linux b => exact acdPollLinux_opens hs ht

theorem nAcdNewFails_gives_back {P : AcdFds → Table → Prop} (acd : AcdFds) (prog : Option Nat)
    (e : Errno) (h : Extends t₀ t (prog.toList ++ acd.fds)) :
    (nAcdNewFails up os acd prog e).Meets (kernel names) (Makes t₀ AcdFds.fds P) t := by
  apply (leaves_closeIf h).andThen
  intro t₁ r₁ h₁
  apply (nAcdFree_gives_back acd h₁.2).andThen
  intro t₂ r₂ h₂
  exact h₂.2

theorem ebpfSetup_then {α : Type} {Q : Table → Except Errno α → Prop} {k : Ebpf → Sys α}
    (h : Extends t₀ t rest)
    (hk : ∀ b t', Extends t₀ t' (b.prog.toList ++ (b.map.toList ++ rest)) →
      (∀ fd, t fd ≠ none → t' fd = t fd) → (k b).Meets (kernel names) Q t') :
    (ebpfSetup os k).Meets (kernel names) Q t := by
  cases os with
  | bsd => exact hk ⟨none, none, none⟩ t h fun _ _ => rfl
  | linux _ =>
    refine ⟨trivial, ?_⟩
    intro b hb
    obtain ⟨hmap, hprog, hne⟩ := hb
    have hfree : ∀ fd, b.prog = some fd → t.openedIf b.map ⟨.ebpf, []⟩ fd = none := by
      intro fd hfd
      cases hm : b.map with
      | none => exact hprog fd hfd
      | some fd' =>
        have hdiff : fd ≠ fd' := fun he => hne fd' hm (he ▸ hfd)
        exact (opened_of_ne hdiff).trans (hprog fd hfd)
    apply hk
    · exact (h.pushIf hmap _).pushIf hfree _
    · intro fd hfd
      have hmapped : t.openedIf b.map ⟨.ebpf, []⟩ fd = t fd := openedIf_of_open hmap hfd
      exact (openedIf_of_open hfree (by rwa [hmapped])).trans hmapped

theorem nAcdNew_sockets {b : Ebpf} {timerFd : Nat} {dTimer : Desc} (buflen ifindex : Nat)
    (h : Extends t₀ t (b.prog.toList ++ (b.map.toList ++ [timerFd])))
    (hT : t timerFd = some dTimer) (hQ : Queue .timer [] dTimer) :
    Prog.Meets (kernel names) (Makes t₀ AcdFds.fds (AcdFds.Ready names os ifindex))
      ((nAcdOsSocketNew os buflen ifindex b.prog).andThen fun
        | .error e => nAcdNewFails up os ⟨none, b.map, some timerFd, none⟩ b.prog e
        | .ok fdSocket => (nAcdOsPollNew os fdSocket timerFd).andThen fun
          | .error e => nAcdNewFails up os ⟨some fdSocket, b.map, some timerFd, none⟩ b.prog e
          | .ok fdPoll => (closeIf b.prog).andThen fun _ =>
            .ret (.ok ⟨some fdSocket, b.map, some timerFd, some fdPoll⟩)) t := by
  have hprog : ∀ fd, b.prog = some fd → t fd ≠ none := fun fd hfd => h.opened fd (by simp [hfd])
  refine Prog.Meets.andThen (nAcdOsSocketNew_opens buflen ifindex hprog) ?_
  intro t₁ r₁ hr₁
  cases r₁ with
  | error e =>
    have ht : t₁ = t := hr₁
    subst ht
    exact nAcdNewFails_gives_back ⟨none, b.map, some timerFd, none⟩ b.prog e h
  | ok fdSocket =>
    obtain ⟨_, dSocket, hfreeS, ht₁, rfl, hS⟩ := hr₁
    have h₁ : Extends t₀ t₁ (fdSocket :: (b.prog.toList ++ (b.map.toList ++ [timerFd]))) :=
      ht₁ ▸ h.push hfreeS dSocket
    have hS₁ : t₁ fdSocket = some dSocket := by rw [ht₁, opened_self]
    have hneT : timerFd ≠ fdSocket := fun he => by
      rw [← he, hT] at hfreeS
      cases hfreeS
    have hT₁ : t₁ timerFd = some dTimer := by rw [ht₁, opened_of_ne hneT, hT]
    refine Prog.Meets.andThen (nAcdOsPollNew_opens (by simp [hS₁]) (by simp [hT₁])) ?_
    intro t₂ r₂ hr₂
    cases r₂ with
    | error e =>
      have ht : t₂ = t₁ := hr₂
      subst ht
      apply nAcdNewFails_gives_back ⟨some fdSocket, b.map, some timerFd, none⟩ b.prog e
      exact h₁.perm List.perm_middle.symm
    | ok fdPoll =>
      obtain ⟨_, dPoll, hfreeP, ht₂, rfl, hP⟩ := hr₂
      have h₂ : Extends t₀ t₂ (fdPoll :: fdSocket :: (b.prog.toList ++ (b.map.toList ++ [timerFd]))) :=
        ht₂ ▸ h₁.push hfreeP dPoll
      have hclose : ∀ fd, b.prog = some fd → t₂ fd ≠ none := fun fd hfd =>
        h₂.opened fd (by simp [hfd])
      apply (meets_closeIf hclose).andThen
      intro t₃ r₃ hq
      obtain ⟨-, ht₃⟩ := hq
      -- the program's descriptor was open before the socket and the poller were
      have hneS : b.prog ≠ some fdSocket := fun hp => hprog fdSocket hp hfreeS
      have hneP : b.prog ≠ some fdPoll := fun hp => h₁.opened fdPoll (by simp [hp]) hfreeP
      have hnePS : fdSocket ≠ fdPoll := fun he => by
        rw [he, hfreeP] at hS₁
        cases hS₁
      have hnePT : timerFd ≠ fdPoll := fun he => by
        rw [he, hfreeP] at hT₁
        cases hT₁
      have hneB : b.prog ≠ some timerFd := fun hp => by
        have hcount := (List.nodup_append.mp h.nodup).2.2 timerFd (by simp [hp]) timerFd (by simp)
        exact hcount rfl
      refine ⟨?_, fdSocket, timerFd, fdPoll, dSocket, dTimer, dPoll, rfl, rfl, rfl, ?_, hS, ?_, hQ,
        ?_, hP⟩
      · rw [ht₃]
        have hperm : (fdPoll :: fdSocket :: (b.prog.toList ++ (b.map.toList ++ [timerFd]))).Perm
            (b.prog.toList ++ (fdSocket :: (b.map.toList ++ ([timerFd] ++ [fdPoll])))) := by
          rw [List.perm_iff_count]
          intro fd
          simp only [List.count_cons, List.count_append, List.count_nil]
          omega
        exact (h₂.perm hperm).popIf
      · rw [ht₃, closedIf_of_ne hneS, ht₂, opened_of_ne hnePS, hS₁]
      · rw [ht₃, closedIf_of_ne hneB, ht₂, opened_of_ne hnePT, hT₁]
      · rw [ht₃, closedIf_of_ne hneP, ht₂, opened_self]

theorem nAcdNew_makes (buflen ifindex : Nat) : (nAcdNew up os buflen ifindex).Meets (kernel names)
    (Makes t AcdFds.fds (AcdFds.Ready names os ifindex)) t := by
  apply nAcdOsTimerNew_opens.andThen
  intro t₁ r₁ hr₁
  cases r₁ with
  | error e =>
    have ht : t₁ = t := hr₁
    subst ht
    exact nAcdNewFails_gives_back .null none e (Extends.refl t₁)
  | ok a =>
    obtain ⟨timerFd, d, hfree, ht₁, rfl, hQ⟩ := hr₁
    have h₁ : Extends t t₁ [a.1] := ht₁ ▸ (Extends.refl t).push hfree d
    have hT : t₁ a.1 = some d := by rw [ht₁, opened_self]
    apply ebpfSetup_then h₁
    intro b t₂ h₂ hkept
    cases hb : b.failed with
    | some e => exact nAcdNewFails_gives_back ⟨none, b.map, some a.1, none⟩ b.prog e h₂
    | none => exact nAcdNew_sockets buflen ifindex h₂ ((hkept a.1 (by simp [hT])).trans hT) hQ

/-- An NDhcp4Client whose descriptors are open and set up: its poller is told of its timer. -/
def ClientFds.Ready (client : ClientFds) (t : Table) : Prop :=
  ∃ fdTimer fdPoll dTimer dPoll, client.fdTimer = some fdTimer ∧ client.fdPoll = some fdPoll ∧
    t fdTimer = some dTimer ∧ Queue .timer [] dTimer ∧
    t fdPoll = some dPoll ∧ Queue .poller [.watch [(fdTimer, clientEpollTimer)]] dPoll

theorem nDhcp4OsPollNew_opens : (nDhcp4OsPollNew os).Meets (kernel names)
    (Opens t fun a fd d => a = fd ∧ Queue .poller [] d) t := by
  cases os with
  | bsd => exact queueBsd_opens .poller
  | linux b => exact pollLinux_opens

theorem nDhcp4OsTimerNew_opens : (nDhcp4OsTimerNew os).Meets (kernel names)
    (Opens t fun a fd d => a = fd ∧ Queue .timer [] d) t := by
  cases os with
  | bsd => exact queueBsd_opens .timer
  | linux b => exact timerLinux_opens

theorem nDhcp4OsPollAdd_works {pollfd fd id : Nat} (hp : t pollfd ≠ none) (hf : t fd ≠ none) :
    (nDhcp4OsPollAdd pollfd fd id).Meets (kernel names)
      (fun t' r => t' = after t (.control pollfd (.watch [(fd, id)])) r) t := by
  refine ⟨⟨hp, ?_⟩, fun _ _ => rfl⟩
  intro w hw
  rw [List.mem_singleton.mp hw]
  exact hf

theorem nDhcp4ClientFree_fails {P : ClientFds → Table → Prop} (client : ClientFds) (e : Errno)
    (h : Extends t₀ t client.fds) :
    Prog.Meets (kernel names) (Makes t₀ ClientFds.fds P)
      ((nDhcp4ClientFree client).andThen fun _ => .ret (.error e)) t := by
  apply (nDhcp4ClientFree_gives_back client h).andThen
  intro t' r hq
  exact hq.2

theorem nDhcp4ClientNew_makes :
    (nDhcp4ClientNew os).Meets (kernel names) (Makes t ClientFds.fds ClientFds.Ready) t := by
  apply nDhcp4OsPollNew_opens.andThen
  intro t₁ r₁ hr₁
  cases r₁ with
  | error e =>
    have ht : t₁ = t := hr₁
    subst ht
    exact nDhcp4ClientFree_fails .null e (Extends.refl t₁)
  | ok fdPoll =>
    obtain ⟨_, dPoll, hfreeP, ht₁, rfl, hP⟩ := hr₁
    have h₁ : Extends t t₁ [fdPoll] := ht₁ ▸ (Extends.refl t).push hfreeP dPoll
    have hP₁ : t₁ fdPoll = some dPoll := by rw [ht₁, opened_self]
    apply nDhcp4OsTimerNew_opens.andThen
    intro t₂ r₂ hr₂
    cases r₂ with
    | error e =>
      have ht : t₂ = t₁ := hr₂
      subst ht
      exact nDhcp4ClientFree_fails ⟨none, some fdPoll⟩ e h₁
    | ok fdTimer =>
      obtain ⟨_, dTimer, hfreeT, ht₂, rfl, hT⟩ := hr₂
      have h₂ : Extends t t₂ [fdTimer, fdPoll] := ht₂ ▸ h₁.push hfreeT dTimer
      have hne : fdPoll ≠ fdTimer := by
        intro he
        rw [he, hfreeT] at hP₁
        cases hP₁
      have hP₂ : t₂ fdPoll = some dPoll := by rw [ht₂, opened_of_ne hne, hP₁]
      have hT₂ : t₂ fdTimer = some dTimer := by rw [ht₂, opened_self]
      refine Prog.Meets.andThen
        (nDhcp4OsPollAdd_works (by rw [hP₂]; simp) (by rw [hT₂]; simp)) ?_
      intro t₃ r₃ ht₃
      have h₃ : Extends t t₃ [fdTimer, fdPoll] := ht₃ ▸ h₂.control (by simp) _ r₃
      cases r₃ with
      | error e =>
        -- closed here, so that the free after it sees a client without a timer
        apply (leaves_close h₃).andThen
        intro t₄ r₄ hq
        exact nDhcp4ClientFree_fails ⟨none, some fdPoll⟩ e hq.2
      | ok u =>
        refine ⟨h₃, fdTimer, fdPoll, dTimer, dPoll.did (.watch [(fdTimer, clientEpollTimer)]),
          rfl, rfl, ?_, hT, ?_, hP.did⟩
        · rw [ht₃, after, Function.update_of_ne hne.symm, hT₂]
        · rw [ht₃, after, Function.update_self, hP₂]
          rfl

end

end PkgsrcPatches.Descriptors
