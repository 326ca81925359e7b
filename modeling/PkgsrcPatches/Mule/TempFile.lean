import PkgsrcPatches.Mule.SafeDir

/-! `make-temp-file`: a name, an exclusive create and a loop around both, while other
processes make and remove entries. -/
namespace PkgsrcPatches.Mule
open Lib

/-! ### What a failing create signals -/

inductive SysErrno where
  | eexist
  | other (n : Nat)
deriving DecidableEq

inductive Condition where
  | fileError | fileAlreadyExists
deriving DecidableEq

def Condition.errorConditions : Condition → List Condition
  | .fileError => [.fileError]
  | .fileAlreadyExists => [.fileAlreadyExists, .fileError]

def reportFileError (_ : SysErrno) : Condition := .fileError

def writeRegionSignal (mustbenewExcl : Bool) (e : SysErrno) : Condition :=
  if mustbenewExcl ∧ e = .eexist then .fileAlreadyExists else reportFileError e

def makeDirectorySignal (e : SysErrno) : Condition := reportFileError e

/-- The body of the loop: a directory, or a file with `excl`. -/
def attemptSignal (dirFlag : Bool) (e : SysErrno) : Condition :=
  if dirFlag then makeDirectorySignal e else writeRegionSignal true e

def Condition.isHandled (c : Condition) : Bool := .fileAlreadyExists ∈ c.errorConditions

/-! ### A call among other processes -/

structure Made where
  kind : Kind
  ours : Bool
deriving DecidableEq

/-- Where the call is. A condition is raised with the error number it was made from. -/
inductive TempPc where
  | naming
  | creating (file : Name)
  | raised (c : Condition) (e : SysErrno)
  | returned (file : Name)
  | signalled (e : SysErrno)
deriving DecidableEq

/-- The entries there are and where the call is. -/
structure TempRun where
  entries : Name → Option Made
  pc : TempPc

inductive TempEvent where
  /-- Another process makes, replaces or removes an entry. -/
  | others (n : Name) (k : Option Kind)
  | makeTempName (n : Name)
  /-- `open` or `mkdir` succeeds. -/
  | created
  | failed (e : SysErrno)
  /-- The file was opened, but what `write-region` does next fails. -/
  | writeFailed (n : Nat)
  /-- `condition-case` looks at what was raised. -/
  | caught
deriving DecidableEq

def newKind (dirFlag : Bool) : Kind := if dirFlag then .dir else .file

def TempRun.create (dirFlag : Bool) (s : TempRun) (n : Name) (pc : TempPc) : TempRun where
  entries := Function.update s.entries n (some ⟨newKind dirFlag, true⟩)
  pc := pc

/-- One event, if it can happen: `mkdir` and `open` with `O_EXCL` succeed only where there is no
entry, and report `EEXIST` only where there is one. -/
def tempStep (dirFlag : Bool) (s : TempRun) : TempEvent → Option TempRun
  | .others n k =>
    some { s with entries := Function.update s.entries n (k.map fun k => ⟨k, false⟩) }
  | .makeTempName n => if s.pc = .naming then some { s with pc := .creating n } else none
  | .created => match s.pc with
    | .creating n => if s.entries n = none then some (s.create dirFlag n (.returned n)) else none
    | _ => none
  | .failed e => match s.pc with
    | .creating n =>
      if e = .eexist ∧ s.entries n = none then none
      else some { s with pc := .raised (attemptSignal dirFlag e) e }
    | _ => none
  | .writeFailed k => match s.pc with
    | .creating n =>
      if dirFlag = false ∧ s.entries n = none then
        some (s.create dirFlag n (.raised (reportFileError (.other k)) (.other k)))
      else none
    | _ => none
  | .caught => match s.pc with
    | .raised c e => some { s with pc := if c.isHandled then .naming else .signalled e }
    | _ => none

def tempRun (dirFlag : Bool) (s : TempRun) (evs : List TempEvent) : Option TempRun :=
  evs.foldlM (tempStep dirFlag) s

def TempRun.start (entries : Name → Option Made) : TempRun := ⟨entries, .naming⟩

def CreatedIn (dirFlag : Bool) (s : TempRun) (evs : List TempEvent) (n : Name) : Prop :=
  ∃ pre s', pre ++ [.created] <+: evs ∧ tempRun dirFlag s pre = some s' ∧
    s'.pc = .creating n ∧ s'.entries n = none

/-- A collision is raised as what the loop catches, and never comes out of it. -/
def TempPc.Retries : TempPc → Prop
  | .raised c e => e = .eexist → c.isHandled = true
  | .signalled e => e ≠ .eexist
  | _ => True

def Throughout (P : TempRun → Prop) (dirFlag : Bool) (s : TempRun) (evs : List TempEvent) : Prop :=
  ∀ pre, pre <+: evs → ∀ s', tempRun dirFlag s pre = some s' → P s'

theorem tempRun_snoc (dirFlag : Bool) (s : TempRun) (evs : List TempEvent) (ev : TempEvent) :
    tempRun dirFlag s (evs ++ [ev]) = (tempRun dirFlag s evs).bind fun s' => tempStep dirFlag s' ev := by
  simp only [tempRun, List.foldlM_append, List.foldlM_cons, List.foldlM_nil, bind_pure]
  rfl

theorem tempRun_snoc_eq_some {dirFlag : Bool} {s s' : TempRun} {evs : List TempEvent}
    {ev : TempEvent} (h : tempRun dirFlag s (evs ++ [ev]) = some s') :
    ∃ t, tempRun dirFlag s evs = some t ∧ tempStep dirFlag t ev = some s' := by
  rw [tempRun_snoc] at h
  exact Option.bind_eq_some_iff.mp h

inductive TempMove (dirFlag : Bool) (t : TempRun) : TempEvent → TempPc → Prop
  | others (n : Name) (k : Option Kind) : TempMove dirFlag t (.others n k) t.pc
  | named (n : Name) (h : t.pc = .naming) : TempMove dirFlag t (.makeTempName n) (.creating n)
  | created (n : Name) (h : t.pc = .creating n) (hfree : t.entries n = none) :
      TempMove dirFlag t .created (.returned n)
  | failed (n : Name) (e : SysErrno) (h : t.pc = .creating n) :
      TempMove dirFlag t (.failed e) (.raised (attemptSignal dirFlag e) e)
  | writeFailed (k : Nat) :
      TempMove dirFlag t (.writeFailed k) (.raised (reportFileError (.other k)) (.other k))
  | handled (c : Condition) (e : SysErrno) (h : t.pc = .raised c e) (hc : c.isHandled = true) :
      TempMove dirFlag t .caught .naming
  | unhandled (c : Condition) (e : SysErrno) (h : t.pc = .raised c e) (hc : c.isHandled = false) :
      TempMove dirFlag t .caught (.signalled e)

theorem tempMove_of_step {dirFlag : Bool} {t s : TempRun} {ev : TempEvent}
    (h : tempStep dirFlag t ev = some s) : TempMove dirFlag t ev s.pc := by
  cases ev with
  | others n k =>
    cases h
    exact .others n k
  | makeTempName n =>
    simp only [tempStep] at h
    split at h
    · next hpc => cases h; exact .named n hpc
    · cases h
  | created =>
    simp only [tempStep] at h
    split at h
    · next n hpc =>
      split at h
      · next hfree => cases h; exact .created n hpc hfree
      · cases h
    · cases h
  | failed e =>
    simp only [tempStep] at h
    split at h
    · next n hpc =>
      split at h
      · cases h
      · cases h; exact .failed n e hpc
    · cases h
  | writeFailed k =>
    simp only [tempStep] at h
    split at h
    · split at h
      · cases h; exact .writeFailed k
      · cases h
    · cases h
  | caught =>
    simp only [tempStep] at h
    split at h
    · next c e hpc =>
      cases h
      cases hc : c.isHandled with
      | true => exact .handled c e hpc hc
      | false => exact .unhandled c e hpc hc
    · cases h

theorem returned_created {dirFlag : Bool} {entries : Name → Option Made} (evs : List TempEvent)
    {s : TempRun} {n : Name} (h : tempRun dirFlag (.start entries) evs = some s)
    (hn : s.pc = .returned n) : CreatedIn dirFlag (.start entries) evs n := by
  induction evs using List.reverseRecOn generalizing s with
  | nil =>
    cases h
    cases hn
  | append_singleton evs ev ih =>
    obtain ⟨t, ht, hstep⟩ := tempRun_snoc_eq_some h
    have hmove := tempMove_of_step hstep
    rw [hn] at hmove
    generalize hpc' : TempPc.returned n = pc at hmove
    cases hmove with
    | others m k =>
      obtain ⟨pre, s', hpre, hs'⟩ := ih ht hpc'.symm
      exact ⟨pre, s', hpre.trans (List.prefix_append _ _), hs'⟩
    | created m hpc hfree =>
      cases hpc'
      exact ⟨evs, t, List.prefix_rfl, ht, hpc, hfree⟩
    | named m hpc => cases hpc'
    | failed m e hpc => cases hpc'
    | writeFailed k => cases hpc'
    | handled c e hpc hc => cases hpc'
    | unhandled c e hpc hc => cases hpc'

/-! ### Collisions -/

theorem attemptSignal_handled_iff (dirFlag : Bool) :
    (attemptSignal dirFlag .eexist).isHandled = true ↔ dirFlag = false := by
  cases dirFlag <;> decide

theorem tempStep_retries {dirFlag : Bool} {t s : TempRun} {ev : TempEvent}
    (h : tempStep dirFlag t ev = some s) (ht : t.pc.Retries)
    (hev : dirFlag = true → ev ≠ .failed .eexist) : s.pc.Retries := by
  have hmove := tempMove_of_step h
  generalize s.pc = pc at hmove
  cases hmove with
  | others n k => exact ht
  | named n hpc => trivial
  | created n hpc hfree => trivial
  | failed n e hpc =>
    rintro rfl
    rw [attemptSignal_handled_iff]
    cases hd : dirFlag with
    | false => rfl
    | true => exact absurd rfl (hev hd)
  | writeFailed k =>
    intro he
    cases he
  | handled c e hpc hc => trivial
  | unhandled c e hpc hc =>
    rintro rfl
    rw [hpc] at ht
    rw [ht rfl] at hc
    cases hc

theorem tempRun_retries {dirFlag : Bool} {entries : Name → Option Made} (evs : List TempEvent)
    (hev : dirFlag = true → .failed .eexist ∉ evs) {s : TempRun}
    (h : tempRun dirFlag (.start entries) evs = some s) : s.pc.Retries := by
  induction evs using List.reverseRecOn generalizing s with
  | nil =>
    cases h
    trivial
  | append_singleton evs ev ih =>
    obtain ⟨t, ht, hstep⟩ := tempRun_snoc_eq_some h
    refine tempStep_retries hstep (ih (fun hd hm => hev hd (by simp [hm])) ht) fun hd he => ?_
    exact hev hd (by simp [he])

theorem not_retries_of_collision {t s : TempRun} (h : tempStep true t (.failed .eexist) = some s) :
    ¬ s.pc.Retries := by
  have hmove := tempMove_of_step h
  generalize s.pc = pc at hmove
  cases hmove with
  | failed n e hpc => exact fun hr => absurd (hr rfl) (by decide)

theorem tempRun_beginning {dirFlag : Bool} {s : TempRun} {pre evs : List TempEvent}
    (hpre : pre <+: evs) (h : (tempRun dirFlag s evs).isSome) : (tempRun dirFlag s pre).isSome := by
  obtain ⟨rest, rfl⟩ := hpre
  rw [tempRun, List.foldlM_append] at h
  exact Option.isSome_of_isSome_bind h

/-- Whatever is returned was created by this call, and a collision is tried again in all
states of a run exactly when the run has none or makes a file. -/
theorem makeTempFile_iff (dirFlag : Bool) (entries : Name → Option Made) (evs : List TempEvent)
    (hrun : (tempRun dirFlag (.start entries) evs).isSome) :
    (∀ pre, pre <+: evs → ∀ s, tempRun dirFlag (.start entries) pre = some s → ∀ n,
        s.pc = .returned n → CreatedIn dirFlag (.start entries) pre n) ∧
      (Throughout (·.pc.Retries) dirFlag (.start entries) evs ↔
        (dirFlag = true → .failed .eexist ∉ evs)) := by
  refine ⟨fun pre _ s hs n hn => returned_created pre hs hn, ?_, ?_⟩
  · rintro h rfl hmem
    obtain ⟨pre, rest, rfl⟩ := List.append_of_mem hmem
    have hpre : pre ++ [.failed .eexist] <+: pre ++ .failed .eexist :: rest :=
      ⟨rest, by rw [List.append_assoc, List.singleton_append]⟩
    obtain ⟨s, hs⟩ := Option.isSome_iff_exists.mp (tempRun_beginning hpre hrun)
    obtain ⟨t, -, hstep⟩ := tempRun_snoc_eq_some hs
    exact not_retries_of_collision hstep (h _ hpre s hs)
  · intro h pre hpre s hs
    exact tempRun_retries pre (fun hd hm => h hd (hpre.subset hm)) hs

def noEntries : Name → Option Made := fun _ => none

/-- Somebody takes the first name before it is created; the second is free. -/
def takenOnce : List TempEvent :=
  [.makeTempName (.lit "/tmp/foo1"), .others (.lit "/tmp/foo1") (some .file), .failed .eexist, .caught,
    .makeTempName (.lit "/tmp/foo2"), .created]

theorem makeTempFile_iff_takenOnce :
    (∀ pre, pre <+: takenOnce → ∀ s, tempRun false (.start noEntries) pre = some s → ∀ n,
        s.pc = .returned n → CreatedIn false (.start noEntries) pre n) ∧
      (Throughout (·.pc.Retries) false (.start noEntries) takenOnce ↔
        (false = true → .failed .eexist ∉ takenOnce)) :=
  makeTempFile_iff false noEntries takenOnce (by decide +kernel)

/-- The same for a directory ends in an error. -/
theorem makeTempFile_dir_signals :
    (tempRun true (.start noEntries) (takenOnce.take 4)).map (·.pc) = some (.signalled .eexist) ∧
      ¬ Throughout (·.pc.Retries) true (.start noEntries) (takenOnce.take 4) := by
  have hrun : (tempRun true (.start noEntries) (takenOnce.take 4)).map (·.pc) =
      some (.signalled .eexist) := by decide +kernel
  refine ⟨hrun, fun h => ?_⟩
  obtain ⟨s, hs, hpc⟩ := Option.map_eq_some_iff.mp hrun
  have hret : s.pc.Retries := h _ List.prefix_rfl s hs
  rw [hpc] at hret
  exact hret rfl

end PkgsrcPatches.Mule
