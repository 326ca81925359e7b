import Mathlib.Logic.Function.Basic
import PkgsrcPatches.Lib.CString
import PkgsrcPatches.Lib.FileMode
import PkgsrcPatches.Lib.Transition

/-! The per-user directory of emacsserver, emacsclient and the Lisp side: each makes and
checks it in several system calls, while other users act in its parent. -/
namespace PkgsrcPatches.Mule
open Lib

inductive Kind where
  | dir | file | symlink
deriving DecidableEq

structure Inode where
  kind : Kind
  owner : Nat
  mode : Mode
deriving DecidableEq

/-- Where one of our processes is. The names before the check of the directory come first. -/
inductive Pc where
  | serverMkdir | serverLstat | clientLstat
  | lispAttrs | lispMkdir | lispAttrsAgain | lispModes (attrs : Inode)
  | serverUnlink | serverBind | clientStat | clientConnect | lispUse | used
  | exited
deriving DecidableEq

def Pc.Proceeds : Pc → Prop
  | .serverUnlink | .serverBind | .clientStat | .clientConnect | .lispUse | .used => True
  | _ => False

abbrev Name := CString

/-- The parent directory, the inodes, what directories hold, and our processes. -/
structure World where
  entry : Name → Option Nat
  inode : Nat → Option Inode
  inner : Nat → Name → Option Nat
  procs : Nat → Pc

/-- `me` is our user, `name` the entry of the per-user directory. -/
structure Setup where
  me : Nat
  name : Name
  umask : Mode

variable (u : Setup)

def World.lstat (s : World) : Option Inode := (s.entry u.name).bind s.inode

/-- A real directory, ours, with no group or other permission bits. -/
def Inode.isSafe (i : Inode) : Bool :=
  i.kind = .dir ∧ i.owner = u.me ∧ i.mode &&& groupOther = 0#12

/-- An inode another user may do something inside of. -/
def World.MayEnter (s : World) (i : Nat) : Prop :=
  ∃ n, s.inode i = some n ∧ (n.owner ≠ u.me ∨ n.mode &&& groupOther ≠ 0#12)

/-- An entry of the parent another user may rename or remove: not one of ours. -/
def World.MayTake (s : World) (n : Name) (i : Nat) : Prop :=
  s.entry n = some i ∧ ∃ a, s.inode i = some a ∧ a.owner ≠ u.me

inductive OtherStep (s : World) : World → Prop
  | create (n : Name) (i : Nat) (a : Inode) (hn : s.entry n = none) (hi : s.inode i = none)
      (ha : a.owner ≠ u.me) :
      OtherStep s { s with entry := Function.update s.entry n (some i),
                           inode := Function.update s.inode i (some a) }
  | link (n : Name) (i : Nat) (a : Inode) (hn : s.entry n = none) (hi : s.inode i = some a)
      (ha : a.kind ≠ .dir) : OtherStep s { s with entry := Function.update s.entry n (some i) }
  | remove (n : Name) (i : Nat) (hn : s.MayTake u n i) :
      OtherStep s { s with entry := Function.update s.entry n none }
  | rename (n n' : Name) (i : Nat) (hn : s.MayTake u n i) (hne : n ≠ n')
      (hn' : s.entry n' = none ∨ ∃ j, s.MayTake u n' j) :
      OtherStep s { s with entry := Function.update (Function.update s.entry n' (some i)) n none }
  | moveIn (n : Name) (i : Nat) (a : Inode) (hi : s.inode i = some a) (ha : a.owner ≠ u.me)
      (hn : s.entry n = none ∨ ∃ j, s.MayTake u n j) :
      OtherStep s { s with entry := Function.update s.entry n (some i) }
  | chmod (i : Nat) (a : Inode) (m : Mode) (hi : s.inode i = some a) (ha : a.owner ≠ u.me) :
      OtherStep s { s with inode := Function.update s.inode i (some { a with mode := m }) }
  | newInode (i : Nat) (a : Inode) (hi : s.inode i = none) (ha : a.owner ≠ u.me) :
      OtherStep s { s with inode := Function.update s.inode i (some a) }
  | inside (i : Nat) (n : Name) (e : Option Nat) (hi : s.MayEnter u i) :
      OtherStep s { s with inner := Function.update s.inner i (Function.update (s.inner i) n e) }

def World.goto (s : World) (p : Nat) (pc : Pc) : World :=
  { s with procs := Function.update s.procs p pc }

def World.mkdir (s : World) (i : Nat) (m : Mode) : World :=
  { s with entry := Function.update s.entry u.name (some i),
           inode := Function.update s.inode i (some ⟨.dir, u.me, m⟩) }

def World.setInner (s : World) (n : Name) (e : Option Nat) : World :=
  match s.entry u.name with
  | none => s
  | some i => { s with inner := Function.update s.inner i (Function.update (s.inner i) n e) }

/-- What `file-modes` answers: it follows a link, wherever that leads. -/
def World.FileModes (s : World) (m : Mode) : Prop :=
  ∃ a, s.lstat u = some a ∧ (a.kind ≠ .symlink → a.mode = m)

/-- One system call of process `p`, at `s.procs p`. Any call may fail, and the program exits. -/
inductive OurStep (s : World) (p : Nat) : World → Prop
  | fails (hp : s.procs p ≠ .used) : OurStep s p (s.goto p .exited)
  -- ensure_safe_dir of emacsserver, then unlink and bind
  | mkdir (i : Nat) (hp : s.procs p = .serverMkdir) (hn : s.entry u.name = none)
      (hi : s.inode i = none) :
      OurStep s p ((s.mkdir u i (0o700 &&& ~~~u.umask)).goto p .serverLstat)
  | mkdirExists (i : Nat) (hp : s.procs p = .serverMkdir) (hn : s.entry u.name = some i) :
      OurStep s p (s.goto p .serverLstat)
  | serverLstat (a : Inode) (hp : s.procs p = .serverLstat) (ha : s.lstat u = some a)
      (hs : a.isSafe u) : OurStep s p (s.goto p .serverUnlink)
  | serverUnlink (sock : Name) (hp : s.procs p = .serverUnlink) :
      OurStep s p ((s.setInner u sock none).goto p .serverBind)
  | serverBind (sock : Name) (i : Nat) (hp : s.procs p = .serverBind) :
      OurStep s p ((s.setInner u sock (some i)).goto p .used)
  -- the check of emacsclient, then stat and connect
  | clientLstat (a : Inode) (hp : s.procs p = .clientLstat) (ha : s.lstat u = some a)
      (hs : a.isSafe u) : OurStep s p (s.goto p .clientStat)
  | clientStat (hp : s.procs p = .clientStat) : OurStep s p (s.goto p .clientConnect)
  | clientConnect (hp : s.procs p = .clientConnect) : OurStep s p (s.goto p .used)
  -- mule-ensure-safe-dir, its own umask in force, then whatever is done in the directory
  | lispAttrs (a : Inode) (hp : s.procs p = .lispAttrs) (ha : s.lstat u = some a) :
      OurStep s p (s.goto p (.lispModes a))
  | lispNoAttrs (hp : s.procs p = .lispAttrs) : OurStep s p (s.goto p .lispMkdir)
  | lispMkdir (i : Nat) (hp : s.procs p = .lispMkdir) (hn : s.entry u.name = none)
      (hi : s.inode i = none) : OurStep s p ((s.mkdir u i 0o700).goto p .lispAttrsAgain)
  | lispAttrsAgain (a : Inode) (hp : s.procs p = .lispAttrsAgain) (ha : s.lstat u = some a) :
      OurStep s p (s.goto p (.lispModes a))
  | lispModes (a : Inode) (m : Mode) (hp : s.procs p = .lispModes a) (hd : a.kind = .dir)
      (ho : a.owner = u.me) (hm : s.FileModes u m) (hs : m &&& groupOther = 0#12) :
      OurStep s p (s.goto p .lispUse)
  | lispUse (n : Name) (e : Option Nat) (hp : s.procs p = .lispUse) :
      OurStep s p ((s.setInner u n e).goto p .used)

inductive WorldStep (s s' : World) : Prop
  | other (h : OtherStep u s s')
  | ours (p : Nat) (h : OurStep u s p s')

/-- Any state of the parent, with our processes not yet past their first call. -/
def Starts (s : World) : Prop :=
  ∀ p, s.procs p = .serverMkdir ∨ s.procs p = .clientLstat ∨ s.procs p = .lispAttrs

def WorldReaches : World → Prop := Reaches Starts (WorldStep u)

/-- The name denotes the inode `i`, which is `a` and ours. -/
structure World.Ours (s : World) (i : Nat) (a : Inode) : Prop where
  entry : s.entry u.name = some i
  inode : s.inode i = some a
  owner : a.owner = u.me

theorem World.Ours.not_mayTake {s : World} {i : Nat} {a : Inode} (h : s.Ours u i a) (j : Nat) :
    ¬ s.MayTake u u.name j := by
  intro ht
  obtain ⟨he, b, hb, hne⟩ := ht
  rw [h.entry, Option.some.injEq] at he
  subst he
  rw [h.inode, Option.some.injEq] at hb
  exact hne (hb ▸ h.owner)

theorem World.Ours.ne_of_free {s : World} {i : Nat} {a : Inode} (h : s.Ours u i a) {n : Name}
    (hn : s.entry n = none ∨ ∃ j, s.MayTake u n j) : u.name ≠ n := by
  intro he
  subst he
  cases hn with
  | inl hn => exact absurd (h.entry.symm.trans hn) (Option.some_ne_none i)
  | inr hn =>
    obtain ⟨j, hj⟩ := hn
    exact h.not_mayTake u j hj

theorem World.Ours.ne_of_inode {s : World} {i j : Nat} {a : Inode} (h : s.Ours u i a)
    (hj : s.inode j = none ∨ ∃ b, s.inode j = some b ∧ b.owner ≠ u.me) : i ≠ j := by
  intro he
  subst he
  cases hj with
  | inl hj => exact absurd (h.inode.symm.trans hj) (Option.some_ne_none a)
  | inr hj =>
    obtain ⟨b, hb, hne⟩ := hj
    rw [h.inode, Option.some.injEq] at hb
    exact hne (hb ▸ h.owner)

theorem otherStep_ours {s s' : World} {i : Nat} {a : Inode} (h : s.Ours u i a)
    (hs : OtherStep u s s') : s'.Ours u i a := by
  cases hs with
  | create n j b hn hj hb =>
    refine ⟨?_, ?_, h.owner⟩
    · exact (Function.update_of_ne (h.ne_of_free u (Or.inl hn)) _ _).trans h.entry
    · exact (Function.update_of_ne (h.ne_of_inode u (Or.inl hj)) _ _).trans h.inode
  | link n j b hn hj hb =>
    exact ⟨(Function.update_of_ne (h.ne_of_free u (Or.inl hn)) _ _).trans h.entry, h.inode, h.owner⟩
  | remove n j hn =>
    exact ⟨(Function.update_of_ne (h.ne_of_free u (Or.inr ⟨j, hn⟩)) _ _).trans h.entry, h.inode,
      h.owner⟩
  | rename n n' j hn hne hn' =>
    refine ⟨?_, h.inode, h.owner⟩
    have hfrom := Function.update_of_ne (h.ne_of_free u (Or.inr ⟨j, hn⟩)) none
      (Function.update s.entry n' (some j))
    have hto := Function.update_of_ne (h.ne_of_free u hn') (some j) s.entry
    exact (hfrom.trans hto).trans h.entry
  | moveIn n j b hj hb hn =>
    exact ⟨(Function.update_of_ne (h.ne_of_free u hn) _ _).trans h.entry, h.inode, h.owner⟩
  | chmod j b m hj hb =>
    refine ⟨h.entry, ?_, h.owner⟩
    exact (Function.update_of_ne (h.ne_of_inode u (Or.inr ⟨b, hj, hb⟩)) _ _).trans h.inode
  | newInode j b hj hb =>
    exact ⟨h.entry, (Function.update_of_ne (h.ne_of_inode u (Or.inl hj)) _ _).trans h.inode, h.owner⟩
  | inside j n e hj => exact ⟨h.entry, h.inode, h.owner⟩

theorem World.setInner_entry (s : World) (n : Name) (e : Option Nat) :
    (s.setInner u n e).entry = s.entry := by
  unfold World.setInner
  cases s.entry u.name <;> rfl

theorem World.setInner_inode (s : World) (n : Name) (e : Option Nat) :
    (s.setInner u n e).inode = s.inode := by
  unfold World.setInner
  cases s.entry u.name <;> rfl

theorem World.setInner_procs (s : World) (n : Name) (e : Option Nat) :
    (s.setInner u n e).procs = s.procs := by
  unfold World.setInner
  cases s.entry u.name <;> rfl

theorem World.Ours.setInner {s : World} {i : Nat} {a : Inode} (h : s.Ours u i a) (n : Name)
    (e : Option Nat) : (s.setInner u n e).Ours u i a :=
  ⟨(congrFun (s.setInner_entry u n e) _).trans h.entry,
    (congrFun (s.setInner_inode u n e) _).trans h.inode, h.owner⟩

theorem World.Ours.goto {s : World} {i : Nat} {a : Inode} (h : s.Ours u i a) (p : Nat)
    (pc : Pc) : (s.goto p pc).Ours u i a :=
  ⟨h.entry, h.inode, h.owner⟩

theorem ourStep_ours {s s' : World} {i p : Nat} {a : Inode} (h : s.Ours u i a)
    (hs : OurStep u s p s') : s'.Ours u i a := by
  cases hs with
  | mkdir j hp hn hj => exact absurd (h.entry.symm.trans hn) (Option.some_ne_none i)
  | lispMkdir j hp hn hj => exact absurd (h.entry.symm.trans hn) (Option.some_ne_none i)
  | serverUnlink sock hp => exact (h.setInner u sock none).goto u p _
  | serverBind sock j hp => exact (h.setInner u sock (some j)).goto u p _
  | lispUse n e hp => exact (h.setInner u n e).goto u p _
  | _ => exact h.goto u p _

theorem worldStep_ours {s s' : World} {i : Nat} {a : Inode} (h : s.Ours u i a)
    (hs : WorldStep u s s') : s'.Ours u i a := by
  cases hs with
  | other hs => exact otherStep_ours u h hs
  | ours p hs => exact ourStep_ours u h hs

/-- What a process at `pc` has found out and still holds. -/
def World.Knows (s : World) (pc : Pc) : Prop :=
  (pc.Proceeds → ∃ i a, s.Ours u i a ∧ a.isSafe u = true) ∧
    ∀ a, pc = .lispModes a → a.owner = u.me → ∃ i, s.Ours u i a

theorem World.Knows.step {s s' : World} {pc : Pc} (h : s.Knows u pc) (hs : WorldStep u s s') :
    s'.Knows u pc := by
  refine ⟨?_, ?_⟩
  · intro hp
    obtain ⟨i, a, ho, hsafe⟩ := h.1 hp
    exact ⟨i, a, worldStep_ours u ho hs, hsafe⟩
  · intro a he hown
    obtain ⟨i, ho⟩ := h.2 a he hown
    exact ⟨i, worldStep_ours u ho hs⟩

theorem World.ours_of_lstat {s : World} {a : Inode} (h : s.lstat u = some a)
    (ho : a.owner = u.me) : ∃ i, s.Ours u i a := by
  obtain ⟨i, he, hi⟩ := Option.bind_eq_some_iff.mp h
  exact ⟨i, he, hi, ho⟩

theorem isSafe_iff (a : Inode) :
    a.isSafe u = true ↔ a.kind = .dir ∧ a.owner = u.me ∧ a.mode &&& groupOther = 0#12 := by
  simp [Inode.isSafe]

theorem World.knows_of_lstat {s : World} {a : Inode} (h : s.lstat u = some a)
    (hs : a.isSafe u = true) {pc : Pc} (hpc : ∀ b, pc ≠ .lispModes b) : s.Knows u pc := by
  obtain ⟨i, ho⟩ := World.ours_of_lstat u h ((isSafe_iff u a).mp hs).2.1
  exact ⟨fun _ => ⟨i, a, ho, hs⟩, fun b he => absurd he (hpc b)⟩

theorem World.knows_nothing (s : World) {pc : Pc} (hp : ¬ pc.Proceeds)
    (hpc : ∀ b, pc ≠ .lispModes b) : s.Knows u pc :=
  ⟨fun h => absurd h hp, fun b he => absurd he (hpc b)⟩

theorem World.knows_attrs {s : World} {a : Inode} (h : s.lstat u = some a) :
    s.Knows u (.lispModes a) := by
  refine ⟨fun hp => absurd hp id, ?_⟩
  intro b he ho
  cases he
  exact World.ours_of_lstat u h ho

/-- The second look of the Lisp side, `file-modes`, sees the directory the first one saw:
it was ours then, so it still is what the name denotes. -/
theorem World.Knows.fileModes {s : World} {a : Inode} {m : Mode} (h : s.Knows u (.lispModes a))
    (hd : a.kind = .dir) (ho : a.owner = u.me) (hm : s.FileModes u m) (hs : m &&& groupOther = 0#12) :
    s.Knows u .lispUse := by
  obtain ⟨i, hown⟩ := h.2 a rfl ho
  obtain ⟨b, hb, hmode⟩ := hm
  have hlstat : s.lstat u = some a := Option.bind_eq_some_iff.mpr ⟨i, hown.entry, hown.inode⟩
  rw [hlstat, Option.some.injEq] at hb
  subst hb
  have hma : a.mode = m := hmode (by rw [hd]; decide)
  have hsafe : a.isSafe u = true := (isSafe_iff u a).mpr ⟨hd, ho, hma ▸ hs⟩
  exact ⟨fun _ => ⟨i, a, hown, hsafe⟩, fun c he => nomatch he⟩

theorem World.goto_procs_self (s : World) (p : Nat) (pc : Pc) : (s.goto p pc).procs p = pc := by
  simp only [World.goto, Function.update_self]

theorem World.goto_procs_of_ne (s : World) {p q : Nat} (h : q ≠ p) (pc : Pc) :
    (s.goto p pc).procs q = s.procs q := by
  simp only [World.goto, Function.update_of_ne h]

theorem ourStep_procs_of_ne {s s' : World} {p q : Nat} (hs : OurStep u s p s') (h : q ≠ p) :
    s'.procs q = s.procs q := by
  cases hs with
  | serverUnlink sock hp =>
    exact (World.goto_procs_of_ne _ h _).trans (congrFun (s.setInner_procs u sock none) q)
  | serverBind sock i hp =>
    exact (World.goto_procs_of_ne _ h _).trans (congrFun (s.setInner_procs u sock (some i)) q)
  | lispUse n e hp =>
    exact (World.goto_procs_of_ne _ h _).trans (congrFun (s.setInner_procs u n e) q)
  | _ => exact World.goto_procs_of_ne _ h _

theorem otherStep_procs {s s' : World} (hs : OtherStep u s s') : s'.procs = s.procs := by
  cases hs <;> rfl

theorem World.Knows.goOn {s s' : World} {pc pc' : Pc} (h : s.Knows u pc) (hp : pc.Proceeds)
    (hpc : ∀ b, pc' ≠ .lispModes b) (hs : WorldStep u s s') : s'.Knows u pc' := by
  have hknows : s.Knows u pc' := ⟨fun _ => h.1 hp, fun b he => absurd he (hpc b)⟩
  exact hknows.step u hs

theorem ourStep_knows {s s' : World} {p : Nat} (h : s.Knows u (s.procs p)) (hs : OurStep u s p s') :
    s'.Knows u (s'.procs p) := by
  have hstep : WorldStep u s s' := .ours p hs
  cases hs with
  | fails hp =>
    rw [World.goto_procs_self]
    exact World.knows_nothing u _ id nofun
  | mkdir i hp hn hi =>
    rw [World.goto_procs_self]
    exact World.knows_nothing u _ id nofun
  | mkdirExists i hp hn =>
    rw [World.goto_procs_self]
    exact World.knows_nothing u _ id nofun
  | serverLstat a hp ha hs =>
    have hknows : s.Knows u .serverUnlink := World.knows_of_lstat u ha hs nofun
    rw [World.goto_procs_self]
    exact hknows.step u hstep
  | serverUnlink sock hp =>
    rw [hp] at h
    rw [World.goto_procs_self]
    exact h.goOn u trivial nofun hstep
  | serverBind sock i hp =>
    rw [hp] at h
    rw [World.goto_procs_self]
    exact h.goOn u trivial nofun hstep
  | clientLstat a hp ha hs =>
    have hknows : s.Knows u .clientStat := World.knows_of_lstat u ha hs nofun
    rw [World.goto_procs_self]
    exact hknows.step u hstep
  | clientStat hp =>
    rw [hp] at h
    rw [World.goto_procs_self]
    exact h.goOn u trivial nofun hstep
  | clientConnect hp =>
    rw [hp] at h
    rw [World.goto_procs_self]
    exact h.goOn u trivial nofun hstep
  | lispAttrs a hp ha =>
    rw [World.goto_procs_self]
    exact (World.knows_attrs u ha).step u hstep
  | lispNoAttrs hp =>
    rw [World.goto_procs_self]
    exact World.knows_nothing u _ id nofun
  | lispMkdir i hp hn hi =>
    rw [World.goto_procs_self]
    exact World.knows_nothing u _ id nofun
  | lispAttrsAgain a hp ha =>
    rw [World.goto_procs_self]
    exact (World.knows_attrs u ha).step u hstep
  | lispModes a m hp hd ho hm hs =>
    rw [World.goto_procs_self]
    rw [hp] at h
    exact (h.fileModes u hd ho hm hs).step u hstep
  | lispUse n e hp =>
    rw [hp] at h
    rw [World.goto_procs_self]
    exact h.goOn u trivial nofun hstep

theorem worldStep_knows (s s' : World) (h : ∀ p, s.Knows u (s.procs p)) (hs : WorldStep u s s') :
    ∀ p, s'.Knows u (s'.procs p) := by
  intro q
  cases hs with
  | other ho =>
    rw [otherStep_procs u ho]
    exact (h q).step u (.other ho)
  | ours p ho =>
    by_cases hq : q = p
    · subst hq
      exact ourStep_knows u (h q) ho
    · rw [ourStep_procs_of_ne u ho hq]
      exact (h q).step u (.ours p ho)

theorem worldReaches_knows {s : World} (h : WorldReaches u s) : ∀ p, s.Knows u (s.procs p) := by
  refine h.invariant ?_ (worldStep_knows u)
  intro s hs p
  cases hs p with
  | inl hp => exact hp ▸ World.knows_nothing u _ id nofun
  | inr hp =>
    cases hp with
    | inl hp => exact hp ▸ World.knows_nothing u _ id nofun
    | inr hp => exact hp ▸ World.knows_nothing u _ id nofun

theorem World.Ours.not_mayEnter {s : World} {i : Nat} {a : Inode} (h : s.Ours u i a)
    (hs : a.isSafe u = true) : ¬ s.MayEnter u i := by
  intro he
  obtain ⟨b, hb, hdo⟩ := he
  rw [h.inode, Option.some.injEq] at hb
  subst hb
  obtain ⟨-, howner, hmode⟩ := (isSafe_iff u a).mp hs
  cases hdo with
  | inl hne => exact hne howner
  | inr hne => exact hne hmode

theorem otherStep_inner {s s' : World} {i : Nat} (hs : OtherStep u s s') (h : ¬ s.MayEnter u i) :
    s'.inner i = s.inner i := by
  cases hs with
  | inside j n e hj =>
    have hne : i ≠ j := by
      intro he
      subst he
      exact h hj
    exact Function.update_of_ne hne _ _
  | _ => rfl

/-- From the check until the use, in every run, the name denotes one and the same real
directory of ours without group and other permissions: no step changes that, and no other
user reaches or changes an entry inside it. -/
theorem private_directory (s : World) (h : WorldReaches u s) (p : Nat) (hp : (s.procs p).Proceeds) :
    ∃ i a, s.entry u.name = some i ∧ s.inode i = some a ∧ a.isSafe u = true ∧ ¬ s.MayEnter u i ∧
      ∀ s', WorldStep u s s' → s'.entry u.name = some i ∧ s'.inode i = some a ∧
        (OtherStep u s s' → s'.inner i = s.inner i) := by
  obtain ⟨i, a, ho, hs⟩ := (worldReaches_knows u h p).1 hp
  have henter := ho.not_mayEnter u hs
  refine ⟨i, a, ho.entry, ho.inode, hs, henter, ?_⟩
  intro s' hstep
  have ho' := worldStep_ours u ho hstep
  exact ⟨ho'.entry, ho'.inode, fun hother => otherStep_inner u hother henter⟩

theorem private_directory_made :
    ∃ i a, Function.update (Function.update (fun _ => none) (CString.lit "emacs1000") (some 0))
        (CString.lit "emacs1001") (some 1) (CString.lit "emacs1000") = some i ∧
      (Function.update (Function.update (fun _ => none) 0 (some ⟨.dir, 1000, 0o700⟩)) 1
        (some ⟨.dir, 1001, 0o777⟩) : Nat → Option Inode) i = some a ∧
      a.isSafe ⟨1000, .lit "emacs1000", 0o022⟩ = true := by
  have h0 : WorldReaches ⟨1000, .lit "emacs1000", 0o022⟩
      ⟨fun _ => none, fun _ => none, fun _ _ => none, fun _ => .serverMkdir⟩ :=
    .start fun _ => Or.inl rfl
  have h1 := h0.next (.ours 0 (.mkdir 0 rfl rfl rfl))
  have h2 := h1.next (.other (.create (.lit "emacs1001") 1 ⟨.dir, 1001, 0o777⟩ (by rfl) (by rfl)
    (by decide)))
  have h3 := h2.next (.ours 0 (.serverLstat ⟨.dir, 1000, 0o700⟩ rfl (by rfl) (by decide)))
  obtain ⟨i, a, he, hi, hs, -⟩ := private_directory ⟨1000, .lit "emacs1000", 0o022⟩ _ h3 0
    (by trivial)
  exact ⟨i, a, he, hi, hs⟩

end PkgsrcPatches.Mule
