import Mathlib.Data.Nat.Digits.Defs
import PkgsrcPatches.Lib.CString
import PkgsrcPatches.Lib.Path
import PkgsrcPatches.Mule.SafeDir

/-! The path of the server's socket as emacsserver and emacsclient work it out, and the buffers
it goes through: `system_name[32]`, `dir[1024]` and `sun_path`. Neither program looks at a
length. -/
namespace PkgsrcPatches.Mule
open Lib Lib.Path

structure Env where
  tmpdir : Option CString
  tmp : Option CString
  temp : Option CString

def slashTmp : Text := [47, 116, 109, 112]

def decimalNat (n : Nat) : Text :=
  if n = 0 then [48] else (Nat.digits 10 n).reverse.map fun d => UInt8.ofNat (48 + d)

def decimal (i : Int) : Text := (if i < 0 then [45] else []) ++ decimalNat i.natAbs

def emacsName (i : Int) : Text := [101, 109, 97, 99, 115] ++ decimal i

def cInt (uid : Nat) : Int := (uid : Int).bmod (2 ^ 32)

/-- The base the C programs use: `TMPDIR` unless it is unset or empty. -/
def tmpdirOrSlashTmp (env : Env) : Text :=
  match env.tmpdir with
  | some t => if t.bytes = [] then slashTmp else t.bytes
  | none => slashTmp

/-- A `sprintf` into a buffer of `size` bytes; past its end nothing can be said. -/
def sprintfInto (size : Nat) (text : Text) : Option Text :=
  if text.length + 1 ≤ size then some text else none

/-- The machine: the size of `sun_path` and the host name. -/
structure Host where
  sunPathSize : Nat
  systemName : CString

def systemNameSize : Nat := 32
def dirSize : Nat := 1024

/-- What `gethostname` writes: the name, with its terminator as long as there is room. -/
def gethostname (h : Host) (size : Nat) : Text := (h.systemName.bytes ++ [0]).take size

/-- What `%s` reads of an array. One without a NUL is read past its end. -/
def stringIn? (arr : Text) : Option Text :=
  if (0 : UInt8) ∈ arr then some (arr.takeWhile (· ≠ 0)) else none

inductive MkdirAnswer where
  | made | exist | failed
deriving DecidableEq

structure DirAnswers where
  mkdir : Text → MkdirAnswer
  lstat : Text → Option Inode

/-- `S_ISDIR`, the owner and the group and other bits. -/
def ownPrivateDir (uid : Nat) (st : Option Inode) : Bool :=
  st.any fun i => i.kind = .dir ∧ i.owner = uid ∧ i.mode &&& groupOther = 0#12

/-- `ensure_safe_dir`; where it answers false the server exits. -/
def ensureSafeDir (k : DirAnswers) (uid : Nat) (dir : Text) : Bool :=
  if k.mkdir dir = .failed then false else ownPrivateDir uid (k.lstat dir)

/-- The client's own check: it does not make the directory. -/
def clientDirCheck (k : DirAnswers) (uid : Nat) (dir : Text) : Bool := ownPrivateDir uid (k.lstat dir)

/-- How far a program gets with the path. Past a buffer nothing more can be said. -/
inductive PathRun where
  | refused
  | built (dir sunPath : Text)
  | pastDir | pastSystemName | pastSunPath
deriving DecidableEq

variable (h : Host) (env : Env) (uid : Nat)

def emacsDirText : Text := tmpdirOrSlashTmp env ++ slash :: emacsName (cInt uid)

/-- The lines both programs share, around the check `safe` each makes of the directory. -/
def socketPath (safe : Text → Bool) : PathRun :=
  let systemName := gethostname h systemNameSize
  match sprintfInto dirSize (emacsDirText env uid) with
  | none => .pastDir
  | some dir =>
    if safe dir = false then .refused else
    match stringIn? systemName with
    | none => .pastSystemName
    | some name => match sprintfInto h.sunPathSize (dir ++ [47, 101, 115, 114, 118, 45] ++ name) with
      | none => .pastSunPath
      | some path => .built dir path

def emacsserverPath (k : DirAnswers) : PathRun := socketPath h env uid (ensureSafeDir k uid)
def emacsclientPath (k : DirAnswers) : PathRun := socketPath h env uid (clientDirCheck k uid)

/-- The program refuses, or every string fits its buffer and ends in it. -/
def PathRun.InBounds (sunPathSize : Nat) : PathRun → Prop
  | .refused => True
  | .built dir path => dir.length + 1 ≤ dirSize ∧ path.length + 1 ≤ sunPathSize
  | _ => False

/-- The host name ends inside `system_name` and the path inside `sun_path`. -/
def PathFits : Prop :=
  h.systemName.strlen < systemNameSize ∧
    (emacsDirText env uid).length + h.systemName.strlen + 7 ≤ h.sunPathSize

theorem mem_gethostname (size : Nat) :
    (0 : UInt8) ∈ gethostname h size ↔ h.systemName.strlen < size := by
  rw [gethostname, List.take_append, List.mem_append]
  have hno : (0 : UInt8) ∉ h.systemName.bytes.take size := fun hc =>
    h.systemName.noNul (List.mem_of_mem_take hc)
  constructor
  · intro hm
    obtain hm | hm := hm
    · exact absurd hm hno
    · by_contra hge
      have h0 : size - h.systemName.bytes.length = 0 := Nat.sub_eq_zero_of_le (Nat.not_lt.mp hge)
      rw [h0] at hm
      exact absurd hm List.not_mem_nil
  · intro hlt
    rw [List.take_of_length_le (l := [0]) (by simp only [CString.strlen] at hlt; simp; omega)]
    exact Or.inr (List.mem_singleton_self _)

theorem stringIn?_gethostname (size : Nat) :
    stringIn? (gethostname h size) =
      if h.systemName.strlen < size then some h.systemName.bytes else none := by
  rw [stringIn?]
  by_cases hlt : h.systemName.strlen < size
  · have hall : gethostname h size = h.systemName.bytes ++ [0] :=
      List.take_of_length_le (by simp only [CString.strlen] at hlt; simp; omega)
    rw [if_pos ((mem_gethostname h size).mpr hlt), if_pos hlt, hall, List.takeWhile_append_of_pos]
    · simp
    · intro c hc
      simpa using fun h0 : c = 0 => h.systemName.noNul (h0 ▸ hc)
  · rw [if_neg (mt (mem_gethostname h size).mp hlt), if_neg hlt]

theorem sprintfInto_of_le {size : Nat} {t : Text} (hle : t.length + 1 ≤ size) :
    sprintfInto size t = some t := if_pos hle

theorem sprintfInto_of_lt {size : Nat} {t : Text} (hlt : ¬ t.length + 1 ≤ size) :
    sprintfInto size t = none := if_neg hlt

theorem length_esrv (dir name : Text) :
    (dir ++ [47, 101, 115, 114, 118, 45] ++ name).length = dir.length + name.length + 6 := by
  simp only [List.length_append, List.length_cons, List.length_nil]
  omega

theorem socketPath_eq (safe : Text → Bool) : socketPath h env uid safe =
    if ¬ (emacsDirText env uid).length + 1 ≤ dirSize then .pastDir else
    if safe (emacsDirText env uid) = false then .refused else
    if ¬ h.systemName.strlen < systemNameSize then .pastSystemName else
    if ¬ (emacsDirText env uid).length + h.systemName.strlen + 7 ≤ h.sunPathSize then .pastSunPath else
    .built (emacsDirText env uid)
      (emacsDirText env uid ++ [47, 101, 115, 114, 118, 45] ++ h.systemName.bytes) := by
  rw [socketPath]
  by_cases hdir : (emacsDirText env uid).length + 1 ≤ dirSize
  swap
  · simp only [sprintfInto_of_lt hdir, if_pos hdir]
  simp only [sprintfInto_of_le hdir, not_true, if_false, hdir]
  refine ite_congr rfl (fun _ => rfl) fun _ => ?_
  rw [stringIn?_gethostname]
  by_cases hname : h.systemName.strlen < systemNameSize
  swap
  · simp only [if_neg hname, if_pos hname]
  have hlen : (emacsDirText env uid ++ [47, 101, 115, 114, 118, 45] ++ h.systemName.bytes).length =
      (emacsDirText env uid).length + h.systemName.strlen + 6 := length_esrv _ _
  simp only [hname, if_true, not_true, if_false]
  by_cases hpath : (emacsDirText env uid).length + h.systemName.strlen + 7 ≤ h.sunPathSize
  · rw [sprintfInto_of_le (by rw [hlen]; exact hpath)]
    simp only [hpath, not_true, if_false]
  · rw [sprintfInto_of_lt (by rw [hlen]; exact hpath)]
    simp only [hpath, not_false_eq_true, if_true]

theorem socketPath_inBounds_iff (safe : Text → Bool) :
    (socketPath h env uid safe).InBounds h.sunPathSize ↔
      (emacsDirText env uid).length + 1 ≤ dirSize ∧
        (safe (emacsDirText env uid) = true → PathFits h env uid) := by
  rw [socketPath_eq]
  by_cases hdir : (emacsDirText env uid).length + 1 ≤ dirSize
  swap
  · simp [hdir, PathRun.InBounds]
  by_cases hsafe : safe (emacsDirText env uid) = true
  swap
  · simp [hdir, hsafe, PathRun.InBounds]
  simp only [hdir, hsafe, not_true, if_false, true_and, forall_const, PathFits]
  rw [if_neg (by decide)]
  by_cases hname : h.systemName.strlen < systemNameSize
  swap
  · simp [hname, PathRun.InBounds]
  by_cases hpath : (emacsDirText env uid).length + h.systemName.strlen + 7 ≤ h.sunPathSize
  swap
  · simp [hname, hpath, PathRun.InBounds]
  simp only [hname, hpath, not_true, if_false, PathRun.InBounds, length_esrv, and_self, iff_true]
  exact ⟨hdir, hpath⟩

/-- Both programs stay inside their buffers exactly when the directory name fits `dir`, and
the host name and the path fit theirs wherever the directory is not refused. -/
theorem socket_path_inBounds_iff (k : DirAnswers) :
    ((emacsserverPath h env uid k).InBounds h.sunPathSize ↔
      (emacsDirText env uid).length + 1 ≤ dirSize ∧
        (ensureSafeDir k uid (emacsDirText env uid) = true → PathFits h env uid)) ∧
    ((emacsclientPath h env uid k).InBounds h.sunPathSize ↔
      (emacsDirText env uid).length + 1 ≤ dirSize ∧
        (clientDirCheck k uid (emacsDirText env uid) = true → PathFits h env uid)) :=
  ⟨socketPath_inBounds_iff h env uid _, socketPath_inBounds_iff h env uid _⟩

def privateEverywhere : DirAnswers := ⟨fun _ => .made, fun _ => some ⟨.dir, 1000, 0o700⟩⟩

def longName (n : Nat) : CString := ⟨List.replicate n 97, by simp [List.mem_replicate]⟩

def longTmpdir (n : Nat) : Env := ⟨some (longName n), none, none⟩

def longHost (n : Nat) : Host := ⟨104, longName n⟩

/-- A `TMPDIR` of 1100 characters overruns `dir`, one of 90 overruns `sun_path`, and a host name
of 40 leaves `system_name` without an end. -/
theorem socket_path_overruns :
    ¬ (emacsserverPath (longHost 4) (longTmpdir 1100) 1000 privateEverywhere).InBounds
        (longHost 4).sunPathSize ∧
      ¬ (emacsclientPath (longHost 4) (longTmpdir 90) 1000 privateEverywhere).InBounds
        (longHost 4).sunPathSize ∧
      ¬ (emacsserverPath (longHost 40) (longTmpdir 4) 1000 privateEverywhere).InBounds
        (longHost 40).sunPathSize := by
  rw [emacsserverPath, emacsclientPath, emacsserverPath, socketPath_inBounds_iff,
    socketPath_inBounds_iff, socketPath_inBounds_iff]
  refine ⟨fun h => ?_, fun h => ?_, fun h => ?_⟩
  · exact absurd h.1 (by decide +kernel)
  · exact absurd (h.2 (by decide +kernel)).2 (by decide +kernel)
  · exact absurd (h.2 (by decide +kernel)).1 (by decide +kernel)

end PkgsrcPatches.Mule
