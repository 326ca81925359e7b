import PkgsrcPatches.Lib.Transition
import PkgsrcPatches.Tamago.Replies

/-! `egg/anthy.el` of tamago: conversions and the contexts of the agent they work in. -/
namespace PkgsrcPatches.Tamago
open Lib Lib.Pieces
variable {σ α : Type}

/-- A conversion agent: what it writes when it starts and in answer to what is sent to it, in the
pieces in which it comes. -/
structure Agent (σ : Type) where
  greeting : List (List Char)
  start : σ
  serve : σ → List Char → List (List Char) × σ

/-- `anthy-proc`, `anthy-environment-pool` and `anthy-environments-in-use`; the output of the agent
that is still to be accepted, and the agent. -/
structure Emacs (σ : Type) where
  proc : Bool
  pool : List Nat
  inUse : List Nat
  arriving : List (List Char)
  agent : σ

abbrev Egg (σ : Type) := EStateM Stop (Emacs σ)

section
variable (A : Agent σ)

def callWithProc (send : List Char) (receive : Ipc α) : Egg σ α := fun e =>
  if e.proc then
    let sent := if send = [] then ([], e.agent) else A.serve e.agent send
    match receive ⟨[], e.arriving ++ sent.1⟩ with
    | .ok a w => .ok a { e with arriving := w.arriving, agent := sent.2 }
    | .error x w => .error x { e with arriving := w.arriving, agent := sent.2 }
  else .error .killed e

def call (n : Nat) (q : Request) : Egg σ q.Value := callWithProc A q.line (q.receive n)

def getGreeting : Egg σ Unit := callWithProc A [] do
  waitLine
  message

def startProcess : Egg σ Unit := modify fun e =>
  if e.proc then e else { e with proc := true, arriving := A.greeting, agent := A.start }

def newEnvironment (n : Nat) : Egg σ Nat := do
  startProcess A
  getGreeting A
  call A n .newContext

def getEnvironment (n : Nat) : Egg σ Nat := do
  match (← get).pool with
  | env :: pool =>
    modify fun e => { e with pool := pool, inUse := env :: e.inUse }
    pure env
  | [] =>
    let env ← newEnvironment A n
    modify fun e => { e with inUse := env :: e.inUse }
    pure env

def convert (n : Nat) (yomi : List Char) : Egg σ (List Bunsetsu) := do
  let env ← getEnvironment A n
  call A n (.convert env yomi)

def commit (n : Nat) (b : Bunsetsu) (abort : Bool) : Egg σ Unit := do
  call A n (.commit b.env (if abort then 1 else 0))
  modify fun e => { e with pool := b.env :: e.pool, inUse := e.inUse.filter (· ≠ b.env) }

def getCandidates (n : Nat) (b : Bunsetsu) : Egg σ ((Nat × List (List Char)) × Bunsetsu) := do
  if b.candidates ≠ [] then pure ((b.candidatePos, b.candidates), b)
  else
    let cands ← call A n (.getCandidates b.env b.segNo)
    pure ((0, cands), { b with candidatePos := 0, candidates := cands })

def selectCandidate (n : Nat) (b : Bunsetsu) (candidatePos : Nat) : Egg σ Bunsetsu := do
  let _ ← call A n (.selectCandidate b.env b.segNo candidatePos)
  pure { b with candidatePos := candidatePos }

/-- `anthy-resize-segment`: the first segment of the answer and the rest. -/
def resizeSegment (n : Nat) (b : Bunsetsu) (len : Nat) : Egg σ (List Bunsetsu × List Bunsetsu) := do
  let r ← call A n (.resizeSegment b.env b.segNo (if b.source.length < len then 0 else 1))
  pure (r.take 1, r.drop 1)

end

def procSentinel (e : Emacs σ) : Emacs σ := { e with proc := false, inUse := [], pool := [] }

/-- `anthy-finalize-backend`: the sentinel runs when the process is deleted. -/
def finalizeBackend (e : Emacs σ) : Emacs σ := if e.proc then procSentinel e else e

/-- An agent that greets with a line and gives each request one answer of its kind. -/
structure Agent.Documented (A : Agent σ) where
  reply : σ → Request → Reply
  fits : ∀ s (q : Request), q.fits (reply s q)
  writes : ∀ s (q : Request), q.OneLine → (A.serve s q.line).1.flatten = (reply s q).text
  greets : ∃ line, '\n' ∉ line ∧ formats line = true ∧ A.greeting.flatten = line ++ ['\n']

variable {A : Agent σ}

/-! ### Calls -/

theorem egg_bind {β : Type} {x : Egg σ α} {e e' : Emacs σ} {a : α} (h : x e = .ok a e')
    (f : α → Egg σ β) : (x >>= f) e = f a e' := by
  change EStateM.bind x f e = _
  rw [EStateM.bind, h]

theorem egg_bind_error {β : Type} {x : Egg σ α} {e e' : Emacs σ} {y : Stop} (h : x e = .error y e')
    (f : α → Egg σ β) : (x >>= f) e = .error y e' := by
  change EStateM.bind x f e = _
  rw [EStateM.bind, h]

theorem line_ne (q : Request) : q.line ≠ [] := by
  cases q <;> exact List.append_ne_nil_of_right_ne_nil _ (List.cons_ne_nil _ _)

/-- How a function ends with as many turns of its loops as it needs. -/
def Ends (f : Nat → Egg σ α) (e : Emacs σ) (r : EStateM.Result Stop (Emacs σ) α) : Prop :=
  ∃ N, ∀ n, N ≤ n → f n e = r

theorem Ends.unique {f : Nat → Egg σ α} {e : Emacs σ} {r r' : EStateM.Result Stop (Emacs σ) α}
    (h : Ends f e r) (h' : Ends f e r') : r = r' := by
  obtain ⟨N, h⟩ := h
  obtain ⟨N', h'⟩ := h'
  rw [← h (max N N') (Nat.le_max_left N N'), h' (max N N') (Nat.le_max_right N N')]

theorem Ends.bind {β : Type} {f : Nat → Egg σ α} {g : Nat → α → Egg σ β} {e e' : Emacs σ} {a : α}
    {r : EStateM.Result Stop (Emacs σ) β} (h : Ends f e (.ok a e')) (hg : Ends (fun n => g n a) e' r) :
    Ends (fun n => f n >>= g n) e r := by
  obtain ⟨N, h⟩ := h
  obtain ⟨N', hg⟩ := hg
  refine ⟨max N N', ?_⟩
  intro n hn
  exact (egg_bind (h n (by omega)) _).trans (hg n (by omega))

theorem Ends.bind_error {β : Type} {f : Nat → Egg σ α} {g : Nat → α → Egg σ β} {e e' : Emacs σ}
    {y : Stop} (h : Ends f e (.error y e')) : Ends (fun n => f n >>= g n) e (.error y e') := by
  obtain ⟨N, h⟩ := h
  exact ⟨N, fun n hn => egg_bind_error (h n hn) _⟩

theorem call_ends (D : A.Documented) {e : Emacs σ} (hp : e.proc = true)
    (hq : e.arriving.flatten = []) {q : Request} (h1 : q.OneLine) :
    ∃ cs : List (List Char), cs.flatten = [] ∧
      Ends (fun n => call A n q) e (ending (q.answer (D.reply e.agent q))
        { e with arriving := cs, agent := (A.serve e.agent q.line).2 }) := by
  have hall : (Incoming.mk [] (e.arriving ++ (A.serve e.agent q.line).1)).all =
      (D.reply e.agent q).text := by
    rw [Incoming.all, List.nil_append, List.flatten_append, hq, List.nil_append, D.writes _ _ h1]
  obtain ⟨w', hend, hw'⟩ := receive_answer q (D.fits e.agent q) hall
  refine ⟨w'.arriving, hend, (D.reply e.agent q).turns + 1, ?_⟩
  intro n hn
  simp only [call, callWithProc, hp, if_true, if_neg (line_ne q), hw' n hn]
  cases q.answer (D.reply e.agent q) with
  | ok a => rfl
  | error x => rfl

theorem call_killed {e : Emacs σ} (hp : e.proc = false) (n : Nat) (q : Request) :
    call A n q e = .error .killed e := by
  simp [call, callWithProc, hp]

theorem getGreeting_hangs {e : Emacs σ} (hp : e.proc = true) (hq : e.arriving.flatten = []) :
    ∃ e', getGreeting A e = .error .hang e' := by
  have hnone : await (fun text => decide ('\n' ∈ text)) [] e.arriving = none := by
    rw [Option.eq_none_iff_forall_ne_some]
    intro w hw
    obtain ⟨hm, hall, -⟩ := await_some hw
    rw [hq, List.append_nil] at hall
    have htext : w.text = [] := (List.append_eq_nil_iff.mp hall).1
    simp [htext] at hm
  have hwait : waitLine ⟨[], e.arriving⟩ = .error .hang ⟨[], e.arriving⟩ := by
    rw [waitLine, hnone]
  have hgreet : (do waitLine; message : Ipc Unit) ⟨[], e.arriving⟩ = .error .hang ⟨[], e.arriving⟩ :=
    ipc_bind_error hwait _
  simp only [getGreeting, callWithProc, hp, if_true, List.append_nil, hgreet]
  exact ⟨_, rfl⟩

theorem getGreeting_started (D : A.Documented) {e : Emacs σ} (hp : e.proc = true)
    (hq : e.arriving = A.greeting) :
    ∃ cs : List (List Char), cs.flatten = [] ∧ getGreeting A e = .ok () { e with arriving := cs } := by
  obtain ⟨line, hline, hformats, hg⟩ := D.greets
  have hall : (Incoming.mk [] e.arriving).all = line ++ ['\n'] := by rw [Incoming.all, hq, ← hg]; rfl
  obtain ⟨t, cs, hwait, hrest⟩ := waitLine_line hall hline
  obtain ⟨rfl, hcs⟩ := List.append_eq_nil_iff.mp hrest
  have hmessage : message ⟨line ++ ['\n'], cs⟩ = .ok () ⟨line ++ ['\n'], cs⟩ := by
    rw [message, List.dropLast_concat, if_pos hformats]
  have hgreet : (do waitLine; message : Ipc Unit) ⟨[], e.arriving⟩ = .ok () ⟨line ++ ['\n'], cs⟩ :=
    (ipc_bind hwait _).trans hmessage
  refine ⟨cs, hcs, ?_⟩
  simp only [getGreeting, callWithProc, hp, if_true, List.append_nil, hgreet]

theorem answer_error {q : Request} {r : Reply} (hfit : q.fits r) {x : Stop}
    (h : q.answer r = .error x) : ∃ text, x = .protocolError text := by
  cases r with
  | complaint c =>
    cases q <;> exact ⟨_, (Except.error.inj h).symm⟩
  | ok | number | segments | candidates =>
    cases q <;> first | exact hfit.elim | cases h

/-! ### Conversions -/

/-- The agent runs and has nothing left to say. -/
structure Alive (e : Emacs σ) : Prop where
  proc : e.proc = true
  quiet : e.arriving.flatten = []

theorem getEnvironment_pool {e : Emacs σ} {env : Nat} {pool : List Nat} (h : e.pool = env :: pool) :
    Ends (getEnvironment A) e (.ok env { e with pool := pool, inUse := env :: e.inUse }) := by
  refine ⟨0, ?_⟩
  intro n _
  have hget : getEnvironment A n e = (match e.pool with
      | env :: pool => do
        modify fun e => { e with pool := pool, inUse := env :: e.inUse }
        pure env
      | [] => do
        let env ← newEnvironment A n
        modify fun e => { e with inUse := env :: e.inUse }
        pure env : Egg σ Nat) e := rfl
  rw [hget, h]
  rfl

theorem getEnvironment_empty {e : Emacs σ} (h : e.pool = []) (n : Nat) :
    getEnvironment A n e = (do
      let env ← newEnvironment A n
      modify fun e => { e with inUse := env :: e.inUse }
      pure env : Egg σ Nat) e := by
  have hget : getEnvironment A n e = (match e.pool with
      | env :: pool => do
        modify fun e => { e with pool := pool, inUse := env :: e.inUse }
        pure env
      | [] => do
        let env ← newEnvironment A n
        modify fun e => { e with inUse := env :: e.inUse }
        pure env : Egg σ Nat) e := rfl
  rw [hget, h]

theorem getEnvironment_hangs {e : Emacs σ} (he : Alive e) (h : e.pool = []) :
    ∃ e', ∀ n, getEnvironment A n e = .error .hang e' := by
  obtain ⟨e', hg⟩ := getGreeting_hangs (A := A) he.proc he.quiet
  have hstart : startProcess A e = .ok () e := by
    change EStateM.Result.ok () (if e.proc then _ else _) = _
    rw [he.proc, if_pos rfl]
  refine ⟨e', ?_⟩
  intro n
  rw [getEnvironment_empty h]
  apply egg_bind_error
  rw [newEnvironment, egg_bind hstart]
  exact egg_bind_error hg _

theorem getEnvironment_starts (D : A.Documented) {e : Emacs σ} (hp : e.proc = false)
    (h : e.pool = []) :
    ∃ e', Alive e' ∧ e'.pool = [] ∧ e'.inUse = e.inUse ∧
      match Request.newContext.answer (D.reply A.start .newContext) with
      | .ok env => Ends (getEnvironment A) e (.ok env { e' with inUse := env :: e.inUse })
      | .error x => Ends (getEnvironment A) e (.error x e') := by
  have hstart : startProcess A e =
      .ok () { e with proc := true, arriving := A.greeting, agent := A.start } := by
    change EStateM.Result.ok () (if e.proc then _ else _) = _
    rw [hp, if_neg Bool.false_ne_true]
  obtain ⟨cs, hcs, hgreet⟩ := getGreeting_started D
    (e := { e with proc := true, arriving := A.greeting, agent := A.start }) rfl rfl
  obtain ⟨cs', hcs', N, hcall⟩ := call_ends D
    (e := { e with proc := true, arriving := cs, agent := A.start }) rfl hcs (q := .newContext) trivial
  refine ⟨{ e with
    proc := true, arriving := cs', agent := (A.serve A.start Request.newContext.line).2 },
    ⟨rfl, hcs'⟩, h, rfl, ?_⟩
  have hnew (n : Nat) (hn : N ≤ n) : newEnvironment A n e =
      ending (Request.newContext.answer (D.reply A.start .newContext)) { e with
        proc := true, arriving := cs', agent := (A.serve A.start Request.newContext.line).2 } := by
    rw [newEnvironment, egg_bind hstart, egg_bind hgreet]
    exact hcall n hn
  cases ha : Request.newContext.answer (D.reply A.start .newContext) with
  | ok env =>
    refine ⟨N, ?_⟩
    intro n hn
    have hok := hnew n hn
    rw [ha] at hok
    rw [getEnvironment_empty h]
    exact egg_bind hok _
  | error x =>
    refine ⟨N, ?_⟩
    intro n hn
    have herror := hnew n hn
    rw [ha] at herror
    rw [getEnvironment_empty h]
    exact egg_bind_error herror _

theorem bunsetsuFrom_env (env : Nat) (lines : List SegmentLine) (i : Nat) :
    ∀ b ∈ bunsetsuFrom env i lines, b.env = env := by
  induction lines generalizing i with
  | nil => simp [bunsetsuFrom]
  | cons l lines ih =>
    intro b hb
    cases List.mem_cons.mp hb with
    | inl h => exact h ▸ rfl
    | inr h => exact ih _ b h

theorem convert_answer_env {cont : Nat} {yomi : List Char} {r : Reply}
    (hfit : (Request.convert cont yomi).fits r) {l : List Bunsetsu}
    (h : (Request.convert cont yomi).answer r = .ok l) : ∀ b ∈ l, b.env = cont := by
  cases r with
  | segments segNo numRemoved numInserted lines =>
    obtain rfl := Except.ok.inj h
    exact bunsetsuFrom_env cont lines segNo
  | complaint c => cases h
  | ok | number | candidates => exact hfit.elim

/-- How a conversion ends that does not wait for good: without a context, because the agent gave
none, or with one, spare before or the first, that the segments name. -/
inductive Converted (e : Emacs σ) : EStateM.Result Stop (Emacs σ) (List Bunsetsu) → Prop
  | refused {text : List Char} {e' : Emacs σ} (halive : Alive e') (hproc : e.proc = false)
      (hpool : e'.pool = e.pool) (hinUse : e'.inUse = e.inUse) :
      Converted e (.error (.protocolError text) e')
  | failed {text : List Char} {env : Nat} {e' : Emacs σ} (halive : Alive e')
      (hpool : e.pool = env :: e'.pool ∨ e.proc = false ∧ e'.pool = e.pool)
      (hinUse : e'.inUse = env :: e.inUse) : Converted e (.error (.protocolError text) e')
  | done {l : List Bunsetsu} {env : Nat} {e' : Emacs σ} (halive : Alive e')
      (hpool : e.pool = env :: e'.pool ∨ e.proc = false ∧ e'.pool = e.pool)
      (hinUse : e'.inUse = env :: e.inUse) (henv : ∀ b ∈ l, b.env = env) : Converted e (.ok l e')

theorem converted_in (D : A.Documented) {e e₁ : Emacs σ} {env : Nat} {yomi : List Char}
    (h1 : '\n' ∉ yomi) (h : Ends (getEnvironment A) e (.ok env e₁)) (he₁ : Alive e₁) :
    ∃ e', Alive e' ∧ e'.pool = e₁.pool ∧ e'.inUse = e₁.inUse ∧ Ends (fun n => convert A n yomi) e
      (ending ((Request.convert env yomi).answer (D.reply e₁.agent (.convert env yomi))) e') := by
  obtain ⟨cs, hcs, hcall⟩ := call_ends D he₁.proc he₁.quiet (q := .convert env yomi) h1
  exact ⟨{ e₁ with
    arriving := cs, agent := (A.serve e₁.agent (Request.convert env yomi).line).2 },
    ⟨he₁.proc, hcs⟩, rfl, rfl, Ends.bind h hcall⟩

theorem converted_of (D : A.Documented) {e e₁ : Emacs σ} {env : Nat} {yomi : List Char}
    (h1 : '\n' ∉ yomi) (h : Ends (getEnvironment A) e (.ok env e₁)) (he₁ : Alive e₁)
    (hpool : e.pool = env :: e₁.pool ∨ e.proc = false ∧ e₁.pool = e.pool)
    (hinUse : e₁.inUse = env :: e.inUse) :
    ∃ r, Ends (fun n => convert A n yomi) e r ∧ Converted e r := by
  obtain ⟨e', halive, hpool', hinUse', hends⟩ := converted_in D h1 h he₁
  refine ⟨_, hends, ?_⟩
  rw [← hpool'] at hpool
  cases ha : (Request.convert env yomi).answer (D.reply e₁.agent (.convert env yomi)) with
  | ok l => exact .done halive hpool (hinUse'.trans hinUse) (convert_answer_env (D.fits _ _) ha)
  | error x =>
    obtain ⟨text, rfl⟩ := answer_error (D.fits _ _) ha
    exact .failed halive hpool (hinUse'.trans hinUse)

theorem convert_ends (D : A.Documented) {e : Emacs σ}
    (hquiet : e.proc = true → e.arriving.flatten = []) (hidle : e.proc = false → e.pool = [])
    {yomi : List Char} (h1 : '\n' ∉ yomi) :
    (e.proc = true ∧ e.pool = [] ∧ ∃ e', Ends (fun n => convert A n yomi) e (.error .hang e')) ∨
      ¬ (e.proc = true ∧ e.pool = []) ∧
        ∃ r, Ends (fun n => convert A n yomi) e r ∧ Converted e r := by
  cases hp : e.proc with
  | false =>
    right
    refine ⟨by simp, ?_⟩
    obtain ⟨e', halive, hpool, hinUse, hget⟩ := getEnvironment_starts D hp (hidle hp)
    have hsame : e'.pool = e.pool := hpool.trans (hidle hp).symm
    cases ha : Request.newContext.answer (D.reply A.start .newContext) with
    | ok env =>
      rw [ha] at hget
      exact converted_of D h1 hget ⟨halive.proc, halive.quiet⟩ (Or.inr ⟨hp, hsame⟩) rfl
    | error x =>
      rw [ha] at hget
      obtain ⟨text, rfl⟩ := answer_error (D.fits _ _) ha
      exact ⟨_, hget.bind_error, .refused halive hp hsame hinUse⟩
  | true =>
    have halive : Alive e := ⟨hp, hquiet hp⟩
    cases hpool : e.pool with
    | nil =>
      obtain ⟨e', hget⟩ := getEnvironment_hangs (A := A) halive hpool
      have hends : Ends (getEnvironment A) e (.error .hang e') := ⟨0, fun n _ => hget n⟩
      exact Or.inl ⟨rfl, rfl, e', hends.bind_error⟩
    | cons env pool =>
      right
      refine ⟨by simp, ?_⟩
      exact converted_of D h1 (getEnvironment_pool hpool) ⟨hp, halive.quiet⟩ (Or.inl hpool) rfl

end PkgsrcPatches.Tamago
