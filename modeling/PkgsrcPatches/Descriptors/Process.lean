import PkgsrcPatches.Descriptors.Lifetime
import PkgsrcPatches.Lib.Transition

/-! A process that makes and frees NAcds, NDhcp4Clients and the sockets of connections, in any
order and however the kernel answers. -/
namespace PkgsrcPatches.Descriptors
open Lib Lib.Syscall NAcd NDhcp4

inductive Obj where
  | acd (ifindex : Nat) (own : AcdFds)
  | client (own : ClientFds)
  | socket (c : Constructor) (fd : Nat)

def Obj.fds : Obj → List Nat
  | .acd _ own => own.fds
  | .client own => own.fds
  | .socket _ fd => [fd]

def Obj.Ready (names : IfNames) (os : Os) (t : Table) : Obj → Prop
  | .acd ifindex own => own.Ready names os ifindex t
  | .client own => own.Ready t
  | .socket c fd => ∃ d, t fd = some d ∧ c.Done names d

def Obj.free (up : Upstream) (os : Os) : Obj → Sys Unit
  | .acd _ own => nAcdFree up os own
  | .client own => nDhcp4ClientFree own
  | .socket _ fd => close fd

structure Process where
  table : Table
  live : List Obj

def Process.fds (s : Process) : List Nat := s.live.flatMap Obj.fds

def Process.got {α : Type} (live : List Obj) (mk : α → Obj) : Except Errno α → List Obj
  | .ok a => mk a :: live
  | .error _ => live

inductive Step (names : IfNames) (up : Upstream) (os : Os) : Process → Process → Prop
  | acdNew {s : Process} {t : Table} {r : Except Errno AcdFds} (buflen ifindex : Nat)
      (h : (nAcdNew up os buflen ifindex).Ends (kernel names) s.table t r) :
      Step names up os s ⟨t, Process.got s.live (.acd ifindex) r⟩
  | clientNew {s : Process} {t : Table} {r : Except Errno ClientFds}
      (h : (nDhcp4ClientNew os).Ends (kernel names) s.table t r) :
      Step names up os s ⟨t, Process.got s.live .client r⟩
  | socketNew {s : Process} {t : Table} {r : Except Errno Nat} (c : Constructor)
      (hc : c.needs = []) (h : c.program.Ends (kernel names) s.table t r) :
      Step names up os s ⟨t, Process.got s.live (.socket c) r⟩
  | free {s : Process} {t : Table} {r : Except Errno Unit} {A B : List Obj} (o : Obj)
      (hlive : s.live = A ++ o :: B) (h : (o.free up os).Ends (kernel names) s.table t r) :
      Step names up os s ⟨t, A ++ B⟩

variable {names : IfNames} {up : Upstream} {os : Os} {t₀ t t' : Table}

/-- The descriptors open are those of before and those of what is held, no two of which share
one, and all that is held is open and set up. -/
structure Owns (names : IfNames) (os : Os) (t₀ : Table) (s : Process) : Prop where
  extends_start : Extends t₀ s.table s.fds
  ready : ∀ o ∈ s.live, o.Ready names os s.table

theorem Obj.Ready.congr {o : Obj} (h : o.Ready names os t) (hsame : ∀ fd ∈ o.fds, t' fd = t fd) :
    o.Ready names os t' := by
  cases o with
  | acd ifindex own =>
    obtain ⟨fdSocket, fdTimer, fdPoll, dSocket, dTimer, dPoll, hs, ht, hp, hts, hS, htt, hT, htp,
      hP⟩ := h
    refine ⟨fdSocket, fdTimer, fdPoll, dSocket, dTimer, dPoll, hs, ht, hp, ?_, hS, ?_, hT, ?_, hP⟩
    · rw [hsame fdSocket (by simp [Obj.fds, AcdFds.fds, hs]), hts]
    · rw [hsame fdTimer (by simp [Obj.fds, AcdFds.fds, ht]), htt]
    · rw [hsame fdPoll (by simp [Obj.fds, AcdFds.fds, hp]), htp]
  | client own =>
    obtain ⟨fdTimer, fdPoll, dTimer, dPoll, ht, hp, htt, hT, htp, hP⟩ := h
    refine ⟨fdTimer, fdPoll, dTimer, dPoll, ht, hp, ?_, hT, ?_, hP⟩
    · rw [hsame fdTimer (by simp [Obj.fds, ClientFds.fds, ht]), htt]
    · rw [hsame fdPoll (by simp [Obj.fds, ClientFds.fds, hp]), htp]
  | socket c fd =>
    obtain ⟨d, hd, hdone⟩ := h
    exact ⟨d, (hsame fd (by simp [Obj.fds])).trans hd, hdone⟩

theorem Owns.made {α : Type} {s : Process} {fds : α → List Nat} {P : α → Table → Prop}
    {mk : α → Obj} {r : Except Errno α} (h : Owns names os t₀ s) (hm : Makes s.table fds P t r)
    (hfds : ∀ a, (mk a).fds = fds a) (hP : ∀ a, P a t → (mk a).Ready names os t) :
    Owns names os t₀ ⟨t, Process.got s.live mk r⟩ := by
  cases r with
  | error e =>
    have ht : t = s.table := hm
    subst ht
    exact ⟨h.extends_start, h.ready⟩
  | ok a =>
    obtain ⟨hext, hready⟩ := hm
    refine ⟨?_, ?_⟩
    · have htop := h.extends_start.trans hext
      rw [← hfds a] at htop
      exact htop
    · intro o ho
      cases List.mem_cons.mp ho with
      | inl he => exact he ▸ hP a hready
      | inr hmem =>
        apply (h.ready o hmem).congr
        intro fd hfd
        apply hext.same
        intro hnew
        exact h.extends_start.opened fd (List.mem_flatMap.mpr ⟨o, hmem, hfd⟩) (hext.fresh fd hnew)

theorem Constructor.makes (c : Constructor) (hc : c.needs = []) :
    c.program.Meets (kernel names)
      (Makes t (fun fd => [fd]) fun fd t' => ∃ d, t' fd = some d ∧ c.Done names d) t := by
  apply (c.opens t (by simp [hc])).imp
  intro t' r ho
  cases r with
  | error e => exact ho
  | ok fd =>
    obtain ⟨_, d, hfree, ht, rfl, hdone⟩ := ho
    exact ⟨ht ▸ (Extends.refl t).push hfree d, d, by rw [ht, opened_self], hdone⟩

theorem Obj.free_gives_back (o : Obj) (h : Extends t₀ t o.fds) :
    (o.free up os).Meets (kernel names) (fun t' r => r = .ok () ∧ t' = t₀) t := by
  cases o with
  | acd ifindex own => exact nAcdFree_gives_back own h
  | client own => exact nDhcp4ClientFree_gives_back own h
  | socket c fd =>
    apply (leaves_close h).imp
    intro t' r hq
    exact ⟨hq.1, hq.2.eq⟩

theorem Owns.freed {s : Process} {A B : List Obj} {o : Obj} (h : Owns names os t₀ s)
    (hlive : s.live = A ++ o :: B) :
    (o.free up os).Meets (kernel names) (fun t' r => r = .ok () ∧ Owns names os t₀ ⟨t', A ++ B⟩)
      s.table := by
  have hperm : s.fds.Perm (o.fds ++ (A ++ B).flatMap Obj.fds) := by
    rw [Process.fds, hlive]
    exact List.perm_middle.flatMap_right Obj.fds
  have htop := h.extends_start.perm hperm
  obtain ⟨hrest, hmine⟩ := htop.split
  apply (o.free_gives_back hmine).imp
  intro t' r hq
  obtain ⟨hr, ht⟩ := hq
  subst ht
  refine ⟨hr, hrest, ?_⟩
  intro o' ho'
  have hmem : o' ∈ s.live := by
    rw [hlive]
    exact List.perm_middle.mem_iff.mpr (List.mem_cons_of_mem o ho')
  apply (h.ready o' hmem).congr
  intro fd hfd
  apply if_neg
  intro hown
  exact (List.nodup_append.mp htop.nodup).2.2 fd hown fd (List.mem_flatMap.mpr ⟨o', ho', hfd⟩) rfl

theorem Owns.step {s s' : Process} (h : Owns names os t₀ s) (hs : Step names up os s s') :
    Owns names os t₀ s' := by
  cases hs with
  | acdNew buflen ifindex hr =>
    exact h.made ((nAcdNew_makes buflen ifindex).ends hr) (fun _ => rfl) fun _ hP => hP
  | clientNew hr => exact h.made (nDhcp4ClientNew_makes.ends hr) (fun _ => rfl) fun _ hP => hP
  | socketNew c hc hr => exact h.made ((c.makes hc).ends hr) (fun _ => rfl) fun _ hP => hP
  | free o hlive hr => exact ((h.freed hlive).ends hr).2

end PkgsrcPatches.Descriptors
