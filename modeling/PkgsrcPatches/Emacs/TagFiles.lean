import Mathlib.Data.List.Infix
import Mathlib.Data.List.TakeWhile
import Mathlib.Logic.Function.Basic
import PkgsrcPatches.Emacs.EscapeArg
import PkgsrcPatches.Lib.Lines
import PkgsrcPatches.Lib.Syscall

/-! `clean_matched_file_tag`, `do_move_file` and their loop over the arguments in the later
`etags`, as programs over a file system whose every call may fail. -/
namespace PkgsrcPatches.Emacs.TagUpdate
open Lib Lib.Syscall Function

abbrev Content := List UInt8

/-- `otags_f` and `tag_f`, `src_f` and `dst_f`. -/
inductive Stream where
  | otags | tag | src | dst
deriving DecidableEq

inductive Call where
  | fopenRead (s : Stream) (name : CString)
  | fopenWrite (s : Stream) (name : CString)
  | readline (s : Stream)
  | ferror (s : Stream)
  | fprintf (s : Stream) (text : Content)
  | fgetc (s : Stream)
  | fputc (s : Stream) (c : UInt8)
  | fclose (s : Stream)
  | rename (src dst : CString)
  | unlink (name : CString)

/-- What a call says, and beside it what only the kernel knows: whether reading went wrong, and
how much is in the file where closing it did. -/
abbrev Answer : Call → Type
  | .readline _ => Option Content × Bool
  | .fgetc _ => Option UInt8 × Bool
  | .fclose _ => Option Nat
  | _ => Bool

/-- The files; of each stream what is left to read, the file it writes and its error indicator;
and whether something has gone wrong that the code has no eye for. -/
structure Disk where
  files : CString → Option Content
  rest : Stream → Content
  name : Stream → Option CString
  failed : Stream → Bool
  missed : Bool

def nl : UInt8 := 10

def Disk.line (d : Disk) (s : Stream) : Option Content :=
  (Lines.lines nl (d.rest s)).head?.map (Lines.chomp nl)

def Disk.append (d : Disk) (s : Stream) (text : Content) : Disk :=
  match d.name s with
  | some name => { d with files := update d.files name ((d.files name).map (· ++ text)) }
  | none => d

def answers (d : Disk) : (c : Call) → Answer c → Prop
  | .fopenRead _ name, ok => ok = true → (d.files name).isSome
  | .readline s, (line, wrong) => wrong = false → line = d.line s
  | .ferror s, a => a = d.failed s
  | .fgetc s, (c, wrong) => c = if wrong then none else (d.rest s).head?
  | .rename src _, ok => ok = true → (d.files src).isSome
  | _, _ => True

def after (d : Disk) : (c : Call) → Answer c → Disk
  | .fopenRead s name, ok =>
    if ok then { d with rest := update d.rest s ((d.files name).getD []), name := update d.name s none,
                        failed := update d.failed s false }
    else d
  | .fopenWrite s name, ok =>
    if ok then { d with files := update d.files name (some []), name := update d.name s (some name),
                        failed := update d.failed s false }
    else d
  | .readline s, (line, wrong) =>
    if wrong then { d with failed := update d.failed s true, missed := d.missed || line.isNone }
    else { d with rest := update d.rest s (Lines.lines nl (d.rest s)).tail.flatten }
  | .ferror _, _ => d
  | .fprintf s text, ok => if ok then d.append s text else { d with missed := true }
  | .fgetc s, (_, wrong) =>
    if wrong then { d with failed := update d.failed s true, missed := true }
    else { d with rest := update d.rest s (d.rest s).tail }
  | .fputc s c, ok => if ok then d.append s [c] else d
  | .fclose s, there =>
    match there, d.name s with
    | some n, some name => { d with files := update d.files name ((d.files name).map (·.take n)) }
    | _, _ => d
  | .rename src dst, ok =>
    if ok ∧ src ≠ dst then { d with files := update (update d.files dst (d.files src)) src none } else d
  | .unlink name, ok => if ok then { d with files := update d.files name none } else d

def kernel (P : Disk → Prop) : Kernel Call Answer Disk where
  allows d _ := P d
  answers := answers
  after := after

inductive Stop where
  | pfatal (text : CString)
  | spin

abbrev Sys := Prog Call Answer Stop

def perform (c : Call) : Sys (Answer c) := .call c fun a => .ret (.ok a)

def pfatalIf (b : Bool) (text : CString) : Sys Unit :=
  if b then .ret (.error (.pfatal text)) else .ret (.ok ())

def otags : CString := .lit "OTAGS"

/-- What is before the terminator of the line's buffer. -/
def cstring (line : Content) : Content := line.takeWhile (· ≠ 0)

/-- The body of the `if` in the loop of `clean_matched_file_tag`. -/
def writeLine (tagfile : CString) (line : Content) : Sys Unit := do
  let _ ← perform (.fprintf .otags (cstring line ++ [nl]))
  pfatalIf (← perform (.ferror .tag)) tagfile

def copyLines (tagfile : CString) (buf : Content) : Nat → Sys Unit
  | 0 => .ret (.error .spin)
  | n + 1 => do
    match (← perform (.readline .tag)).1 with
    | none => pure ()
    | some line =>
      pfatalIf (← perform (.ferror .tag)) tagfile
      if buf <:+: cstring line then pure () else writeLine tagfile line
      copyLines tagfile buf n

def copyBytes (src dst : CString) : Nat → Sys Unit
  | 0 => .ret (.error .spin)
  | n + 1 => do
    match (← perform (.fgetc .src)).1 with
    | none => pure ()
    | some c =>
      pfatalIf (← perform (.ferror .src)) src
      pfatalIf (← perform (.ferror .dst)) dst
      pfatalIf (!(← perform (.fputc .dst c))) (.lit "cannot write")
      copyBytes src dst n

def doMoveFile (n : Nat) (src dst : CString) : Sys Unit := do
  if ← perform (.rename src dst) then pure ()
  else
    let srcF ← perform (.fopenRead .src src)
    let dstF ← perform (.fopenWrite .dst dst)
    pfatalIf (!srcF) src
    pfatalIf (!dstF) dst
    copyBytes src dst n
    pfatalIf (← perform (.fclose .src)).isSome src
    pfatalIf (← perform (.fclose .dst)).isSome dst
    pfatalIf (!(← perform (.unlink src))) (.lit "unlink error")

def cleanMatchedFileTag (n : Nat) (tagfile matchFileName : CString) : Sys Unit := do
  let otagsF ← perform (.fopenWrite .otags otags)
  let tagF ← perform (.fopenRead .tag tagfile)
  pfatalIf (!otagsF) otags
  pfatalIf (!tagF) tagfile
  copyLines tagfile (snprintf (matchFileName.strlen + 5) (patternOf matchFileName).bytes) n
  pfatalIf (← perform (.fclose .otags)).isSome otags
  pfatalIf (← perform (.fclose .tag)).isSome tagfile
  doMoveFile n otags tagfile

/-- The body of the loop over the arguments; the `continue` is `atOther`. -/
def updateArgument (n : Nat) (tagfile : CString) (a : Argument) : Sys Unit :=
  match a.argType with
  | .atFilename => cleanMatchedFileTag n tagfile a.what
  | .atOther => pure ()

def updateTags (n : Nat) (tagfile : CString) : List Argument → Sys Unit
  | [] => pure ()
  | a :: args => do
    updateArgument n tagfile a
    updateTags n tagfile args

/-! ### Rules -/

section
variable {α : Type} {P : Disk → Prop} {d : Disk}

theorem after_ferror (s : Stream) (a : Bool) : after d (.ferror s) a = d := rfl

def Post (P Q : Disk → Prop) (d : Disk) : Except Stop α → Prop
  | .ok _ => Q d
  | .error (.pfatal _) => P d
  | .error .spin => False

theorem meets_perform {Q : Disk → Except Stop α → Prop} {c : Call} {f : Answer c → Sys α}
    (hd : P d) (h : ∀ a, answers d c a → (f a).Meets (kernel P) Q (after d c a)) :
    (perform c >>= f).Meets (kernel P) Q d := ⟨hd, h⟩

theorem meets_pfatalIf {Q : Disk → Prop} {b : Bool} {text : CString} {f : Unit → Sys α}
    (hd : P d) (h : b = false → (f ()).Meets (kernel P) (Post P Q) d) :
    (pfatalIf b text >>= f).Meets (kernel P) (Post P Q) d := by
  cases b with
  | true => exact hd
  | false => exact h rfl

theorem meets_then {Q R : Disk → Prop} {p : Sys Unit} {f : Unit → Sys α}
    (hp : p.Meets (kernel P) (Post P Q) d)
    (hf : ∀ d', Q d' → (f ()).Meets (kernel P) (Post P R) d') :
    (p >>= f).Meets (kernel P) (Post P R) d := by
  apply hp.bind
  · intro d' a hq
    exact hf d' hq
  · intro d' e he
    cases e with
    | pfatal text => exact he
    | spin => exact he.elim

end

theorem after_readline {d : Disk} {s : Stream} {l : Content} {ls : List Content}
    (h : Lines.lines nl (d.rest s) = l :: ls) :
    d.line s = some (Lines.chomp nl l) ∧
      ∃ d', after d (.readline s) (d.line s, false) = d' ∧ d'.files = d.files ∧ d'.name = d.name ∧
        d'.missed = d.missed ∧ Lines.lines nl (d'.rest s) = ls := by
  refine ⟨by rw [Disk.line, h]; rfl, _, rfl, rfl, rfl, rfl, ?_⟩
  have hrest := Lines.lines_rest nl (d.rest s)
  rw [h, List.tail_cons] at hrest
  simp only [after, h, List.tail_cons]
  rw [if_neg Bool.false_ne_true]
  dsimp only
  rw [update_self]
  exact hrest

end PkgsrcPatches.Emacs.TagUpdate
