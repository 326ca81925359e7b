import PkgsrcPatches.Lib.Pieces

/-! `egg/anthyipc.el` of tamago: requests to the conversion agent and the answers read from its
buffer, however they arrive. -/
namespace PkgsrcPatches.Tamago
open Lib.Pieces

/-- Why a function does not return: output is waited for that does not come, or an error. -/
inductive Stop where
  | hang
  | protocolError (text : List Char)
  | killed
  | endOfBuffer
  | misread
  | wrongType
  | badFormat
  | spin

/-- What works on the process buffer: the text from point on, and the output to come. -/
abbrev Ipc := EStateM Stop (Incoming Char)

def waitLine : Ipc Unit := fun w =>
  match await (fun text => decide ('\n' ∈ text)) w.text w.arriving with
  | some w => .ok () w
  | none => .error .hang w

def charAfter : Ipc (Option Char) := fun w => .ok w.text.head? w

def forwardChar (n : Nat) : Ipc Unit := fun w =>
  if n ≤ w.text.length then .ok () { w with text := w.text.drop n } else .error .endOfBuffer w

def gotoMax : Ipc Unit := fun w => .ok () { w with text := [] }

/-- `(egg-error "protocol error: %s" (buffer-substring (point) (point-max)))` -/
def eggError {α : Type} : Ipc α := fun w => .error (.protocolError w.text) w

/-- No `%` that wants an argument. -/
def formats : List Char → Bool
  | '%' :: '%' :: text => formats text
  | '%' :: _ => false
  | _ :: text => formats text
  | [] => true

/-- `(message (buffer-substring (point-min) (1- (point-max))))`, with point where it was at the
start. -/
def message : Ipc Unit := fun w => if formats w.text.dropLast then .ok () w else .error .badFormat w

def decimal (n : Nat) : List Char := Nat.toDigits 10 n

def delimits (c : Char) : Bool := c.toNat ≤ 32 || "\"';()[]`,".toList.contains c

def readNumber : Ipc Nat := fun w =>
  let text := w.text.dropWhile fun c => c.toNat ≤ 32
  let token := text.takeWhile fun c => !delimits c
  if token ≠ [] ∧ token.all Char.isDigit then
    .ok (Nat.ofDigitChars 10 token 0) { w with text := text.dropWhile fun c => !delimits c }
  else .error .misread w

def readWord : Ipc (List Char) := fun w =>
  .ok (w.text.takeWhile fun c => c ≠ ' ' && c ≠ '\n')
    { w with text := w.text.dropWhile fun c => c ≠ ' ' && c ≠ '\n' }

def readString : Ipc (List Char) := do
  if (← charAfter) = some ' ' then forwardChar 1
  readWord

/-- `[ <env> <source> <converted> <candidates> <candidate-pos> <seg-no> ]` -/
structure Bunsetsu where
  env : Nat
  source : List Char
  converted : List Char
  candidates : List (List Char)
  candidatePos : Nat
  segNo : Nat
deriving DecidableEq

def makeBunsetsu (env : Nat) (source converted : List Char) (segNo : Nat) : Bunsetsu :=
  ⟨env, source, converted, [], 0, segNo⟩

def acceptOk : Ipc Unit := do
  waitLine
  if (← charAfter) = some '+' then gotoMax else eggError

def acceptNumber : Ipc Nat := do
  waitLine
  if (← charAfter) = some '+' then
    forwardChar 4
    let n ← readNumber
    gotoMax
    pure n
  else eggError

def segmentsLoop (env : Nat) : Nat → Nat → List Bunsetsu → Ipc (List Bunsetsu)
  | 0, _, _ => throw .spin
  | n + 1, i, segmentList => do
    forwardChar 1
    waitLine
    if (← charAfter) = some '\n' then pure segmentList
    else
      let _ ← readNumber
      let converted ← readString
      let source ← readString
      segmentsLoop env n (i + 1) (makeBunsetsu env source converted i :: segmentList)

/-- `(SEG-NO . (NUM-SEGMENTS-REMOVED . SEGMENT-LIST))` -/
structure Segments where
  segNo : Nat
  removed : Nat
  list : List Bunsetsu

/-- `anthyipc-accept-segments`, which gives `t` for a plain answer. -/
def acceptSegments (n env : Nat) : Ipc (Option Segments) := do
  waitLine
  if (← charAfter) = some '+' then
    forwardChar 1
    if (← charAfter) = some 'O' then
      gotoMax
      pure none
    else
      forwardChar 5
      let segNo ← readNumber
      let numSegmentsRemoved ← readNumber
      let _ ← readNumber
      let segmentList ← segmentsLoop env n segNo []
      forwardChar 1
      pure (some ⟨segNo, numSegmentsRemoved, segmentList.reverse⟩)
  else eggError

def candidatesLoop : Nat → List (List Char) → Ipc (List (List Char))
  | 0, _ => throw .spin
  | n + 1, candidateList => do
    forwardChar 1
    waitLine
    if (← charAfter) = some '\n' then pure candidateList
    else
      let candidate ← readString
      candidatesLoop n (candidate :: candidateList)

def acceptCandidates (n : Nat) : Ipc (Nat × List (List Char)) := do
  waitLine
  if (← charAfter) = some '+' then
    forwardChar 6
    let offset ← readNumber
    let _ ← readNumber
    let candidateList ← candidatesLoop n []
    forwardChar 1
    pure (offset, candidateList.reverse)
  else eggError

def anthyMaxCandidates : Nat := 9999

/-- The functions that send a request, with their arguments. -/
inductive Request where
  | newContext
  | releaseContext (cont : Nat)
  | convert (cont : Nat) (yomi : List Char)
  | commit (cont cancel : Nat)
  | getCandidates (cont segNo : Nat)
  | selectCandidate (cont segNo candidateNo : Nat)
  | resizeSegment (cont segNo incDec : Nat)

namespace Request

def line : Request → List Char
  | newContext => "NEW-CONTEXT INPUT=#18 OUTPUT=#18".toList ++ ['\n']
  | releaseContext cont => "RELEASE-CONTEXT ".toList ++ decimal cont ++ ['\n']
  | convert cont yomi => "CONVERT ".toList ++ decimal cont ++ [' '] ++ yomi ++ ['\n']
  | commit cont cancel => "COMMIT ".toList ++ decimal cont ++ [' '] ++ decimal cancel ++ ['\n']
  | getCandidates cont segNo => "GET-CANDIDATES ".toList ++ decimal cont ++ [' '] ++ decimal segNo ++
      [' '] ++ decimal 0 ++ [' '] ++ decimal anthyMaxCandidates ++ ['\n']
  | selectCandidate cont segNo candidateNo => "SELECT-CANDIDATE ".toList ++ decimal cont ++ [' '] ++
      decimal segNo ++ [' '] ++ decimal candidateNo ++ ['\n']
  | resizeSegment cont segNo incDec => "RESIZE-SEGMENT ".toList ++ decimal cont ++ [' '] ++
      decimal segNo ++ [' '] ++ decimal incDec ++ ['\n']

def OneLine : Request → Prop
  | convert _ yomi => '\n' ∉ yomi
  | _ => True

abbrev Value : Request → Type
  | newContext => Nat
  | releaseContext _ | commit _ _ => Unit
  | convert _ _ | resizeSegment _ _ _ => List Bunsetsu
  | getCandidates _ _ => List (List Char)
  | selectCandidate _ _ _ => Option Segments

def receive (n : Nat) : (q : Request) → Ipc q.Value
  | newContext => acceptNumber
  | releaseContext _ | commit _ _ => acceptOk
  | convert cont _ | resizeSegment cont _ _ => do
    match ← acceptSegments n cont with
    | some r => pure r.list
    | none => throw .wrongType
  | getCandidates _ _ => do
    let r ← acceptCandidates n
    pure r.2
  | selectCandidate cont _ _ => acceptSegments n cont

end Request

end PkgsrcPatches.Tamago
