import PkgsrcPatches.Tamago.Anthy

/-! Runs of conversions with an agent that may die between two requests. -/
namespace PkgsrcPatches.Tamago
open Lib
variable {σ α : Type}

/-- How many agents there have been, the conversions in progress, the agent and the context of each,
and whether a commit ever went to an agent where its conversion was not in progress. -/
structure System (σ : Type) where
  emacs : Emacs σ
  generation : Nat
  active : List (Nat × Nat)
  mixed : Bool

def System.newest (s : System σ) : Nat :=
  if s.emacs.proc then s.generation else s.generation + 1

def System.begin (s : System σ) (e : Emacs σ) (l : List Bunsetsu) : System σ :=
  ⟨e, s.newest, (l.head?.map fun b => (s.newest, b.env)).toList ++ s.active, s.mixed⟩

def System.finish (s : System σ) (e : Emacs σ) (g : Nat) (b : Bunsetsu) : System σ :=
  ⟨e, s.generation, s.active.erase (g, b.env),
    s.mixed || !(g == s.generation && s.active.contains (g, b.env))⟩

/-- A function has returned, or has signalled an error, and left this behind. -/
inductive Leaves (f : Nat → Egg σ α) (e e' : Emacs σ) : Prop
  | ok {a : α} (h : Ends f e (.ok a e'))
  | error {x : Stop} (h : Ends f e (.error x e')) (hx : x ≠ .hang)

inductive Step (A : Agent σ) (s : System σ) : System σ → Prop
  | convert {yomi : List Char} {l : List Bunsetsu} {e : Emacs σ} (h1 : '\n' ∉ yomi)
      (h : Ends (fun n => convert A n yomi) s.emacs (.ok l e)) : Step A s (s.begin e l)
  | convertFails {yomi : List Char} {x : Stop} {e : Emacs σ} (h1 : '\n' ∉ yomi)
      (h : Ends (fun n => convert A n yomi) s.emacs (.error x e)) (hx : x ≠ .hang) :
      Step A s (s.begin e [])
  | getCandidates (b : Bunsetsu) {e : Emacs σ} (h : Leaves (fun n => getCandidates A n b) s.emacs e) :
      Step A s { s with emacs := e }
  | selectCandidate (b : Bunsetsu) (candidatePos : Nat) {e : Emacs σ}
      (h : Leaves (fun n => selectCandidate A n b candidatePos) s.emacs e) :
      Step A s { s with emacs := e }
  | resizeSegment (b : Bunsetsu) (len : Nat) {e : Emacs σ}
      (h : Leaves (fun n => resizeSegment A n b len) s.emacs e) : Step A s { s with emacs := e }
  -- the segments do not say which agent made them
  | commit (g : Nat) (b : Bunsetsu) (abort : Bool) {e : Emacs σ}
      (h : Ends (fun n => commit A n b abort) s.emacs (.ok () e)) : Step A s (s.finish e g b)
  | commitFails (b : Bunsetsu) (abort : Bool) {x : Stop} {e : Emacs σ}
      (h : Ends (fun n => commit A n b abort) s.emacs (.error x e)) (hx : x ≠ .hang) :
      Step A s { s with emacs := e }
  | forget (c : Nat × Nat) : Step A s { s with active := s.active.erase c }
  -- not while an answer is waited for: that wait would never end
  | dies : Step A s { s with emacs := procSentinel s.emacs }
  | finalize : Step A s { s with emacs := finalizeBackend s.emacs }

def System.Idle (s : System σ) : Prop :=
  s.emacs.proc = false ∧ s.emacs.pool = [] ∧ s.emacs.inUse = [] ∧ s.active = []

/-- Each conversion of the agent has a context of its own, of which there is one. -/
structure System.Apart (s : System σ) : Prop where
  one : (s.emacs.pool ++ s.emacs.inUse).length ≤ 1
  held : s.emacs.proc = true → ∀ c ∈ s.active, c.1 = s.generation → c.2 ∈ s.emacs.inUse
  single : s.active.countP (fun c => c.1 == s.generation) ≤ 1

structure System.Inv (s : System σ) : Prop where
  quiet : s.emacs.proc = true → s.emacs.arriving.flatten = []
  idle : s.emacs.proc = false → s.emacs.pool = [] ∧ s.emacs.inUse = []
  past : ∀ c ∈ s.active, c.1 ≤ s.generation
  apart : s.mixed = false → s.Apart

variable {A : Agent σ} {s s' : System σ}

theorem System.Idle.inv (h : s.Idle) : s.Inv := by
  obtain ⟨hp, hpool, hinUse, hactive⟩ := h
  refine ⟨by simp [hp], fun _ => ⟨hpool, hinUse⟩, by simp [hactive], fun _ => ?_⟩
  exact ⟨by simp [hpool, hinUse], by simp [hactive], by simp [hactive]⟩

structure Untouched (e e' : Emacs σ) : Prop where
  proc : e'.proc = e.proc
  pool : e'.pool = e.pool
  inUse : e'.inUse = e.inUse
  quiet : e'.proc = true → e'.arriving.flatten = []

theorem call_untouched (D : A.Documented) {e : Emacs σ}
    (hquiet : e.proc = true → e.arriving.flatten = []) {q : Request} (h1 : q.OneLine) :
    ∃ e' x, Untouched e e' ∧ Ends (fun n => call A n q) e (ending x e') := by
  cases hp : e.proc with
  | true =>
    obtain ⟨cs, hcs, h⟩ := call_ends D hp (hquiet hp) h1
    exact ⟨{ e with arriving := cs, agent := (A.serve e.agent q.line).2 }, _,
      ⟨rfl, rfl, rfl, fun _ => hcs⟩, h⟩
  | false => exact ⟨e, .error .killed, ⟨rfl, rfl, rfl, hquiet⟩, 0, fun n _ => call_killed hp n q⟩

theorem Leaves.untouched (D : A.Documented) {e e₁ : Emacs σ}
    (hquiet : e.proc = true → e.arriving.flatten = []) {q : Request} (h1 : q.OneLine)
    {g : q.Value → α} (h : Leaves (fun n => call A n q >>= fun a => pure (g a)) e e₁) :
    Untouched e e₁ := by
  obtain ⟨e', x, hun, hcall⟩ := call_untouched D hquiet h1
  have he : e₁ = e' := by
    cases x with
    | ok a =>
      have hends : Ends (fun n => call A n q >>= fun a => (pure (g a) : Egg σ α)) e (.ok (g a) e') :=
        Ends.bind hcall ⟨0, fun _ _ => rfl⟩
      cases h with
      | ok h =>
        cases h.unique hends
        rfl
      | error h hx => cases h.unique hends
    | error y =>
      have hends : Ends (fun n => call A n q >>= fun a => (pure (g a) : Egg σ α)) e (.error y e') :=
        Ends.bind_error hcall
      cases h with
      | ok h => cases h.unique hends
      | error h hx =>
        cases h.unique hends
        rfl
  exact he ▸ hun

theorem System.Inv.untouched {e : Emacs σ} (hs : s.Inv) (h : Untouched s.emacs e) :
    System.Inv { s with emacs := e } where
  quiet := h.quiet
  idle := by
    intro hp
    obtain ⟨h1, h2⟩ := hs.idle (h.proc ▸ hp)
    exact ⟨h.pool.trans h1, h.inUse.trans h2⟩
  past := hs.past
  apart := by
    intro hm
    obtain ⟨hone, hheld, hsingle⟩ := hs.apart hm
    refine ⟨?_, ?_, hsingle⟩
    · dsimp only
      rw [h.pool, h.inUse]
      exact hone
    · intro hp
      dsimp only
      rw [h.inUse]
      exact hheld (h.proc ▸ hp)

theorem System.Inv.dead (hs : s.Inv) : System.Inv { s with emacs := procSentinel s.emacs } where
  quiet := by
    intro h
    cases h
  idle := fun _ => ⟨rfl, rfl⟩
  past := hs.past
  apart := by
    intro hm
    refine ⟨Nat.zero_le 1, ?_, (hs.apart hm).single⟩
    intro h
    cases h

theorem newest_le (s : System σ) : s.generation ≤ s.newest := by
  rw [System.newest]
  split <;> omega

theorem System.Inv.none_of_newest (hs : s.Inv) (hm : s.mixed = false)
    (h : s.emacs.proc = false ∨ s.emacs.inUse = []) : ∀ c ∈ s.active, c.1 ≠ s.newest := by
  intro c hc hn
  have hle := hs.past c hc
  cases hp : s.emacs.proc with
  | false =>
    rw [System.newest, hp, if_neg Bool.false_ne_true] at hn
    omega
  | true =>
    rw [System.newest, hp, if_pos rfl] at hn
    cases h with
    | inl h => exact absurd (h.symm.trans hp) Bool.false_ne_true
    | inr h =>
      have hheld := (hs.apart hm).held hp c hc hn
      rw [h] at hheld
      cases hheld

theorem System.Inv.begun (hs : s.Inv) {e : Emacs σ} {l : List Bunsetsu} (halive : Alive e)
    (hl : ∀ b ∈ l, b.env ∈ e.inUse) (h : s.mixed = false →
      (e.pool ++ e.inUse).length ≤ 1 ∧ ∀ c ∈ s.active, c.1 ≠ s.newest) : (s.begin e l).Inv := by
  have hnew : ∀ c ∈ (l.head?.map fun b => (s.newest, b.env)).toList,
      c.1 = s.newest ∧ c.2 ∈ e.inUse := by
    intro c hc
    obtain ⟨b, hb, rfl⟩ := Option.map_eq_some_iff.mp (Option.mem_toList.mp hc)
    exact ⟨rfl, hl b (List.mem_of_head? hb)⟩
  refine ⟨fun _ => halive.quiet, ?_, ?_, ?_⟩
  · intro hp
    exact absurd (hp.symm.trans halive.proc) Bool.false_ne_true
  · intro c hc
    cases List.mem_append.mp hc with
    | inl hc => exact Nat.le_of_eq (hnew c hc).1
    | inr hc => exact Nat.le_trans (hs.past c hc) (newest_le s)
  · intro hm
    obtain ⟨hone, hnone⟩ := h hm
    refine ⟨hone, ?_, ?_⟩
    · intro _ c hc hn
      cases List.mem_append.mp hc with
      | inl hc => exact (hnew c hc).2
      | inr hc => exact absurd hn (hnone c hc)
    · have hold : s.active.countP (fun c => c.1 == s.newest) = 0 := by
        rw [List.countP_eq_zero]
        intro c hc
        simpa using hnone c hc
      rw [System.begin, List.countP_append, hold, Nat.add_zero]
      apply Nat.le_trans List.countP_le_length
      cases l.head? with
      | none => exact Nat.zero_le 1
      | some b => exact Nat.le_refl 1

theorem System.Inv.taken (hs : s.Inv) {e : Emacs σ} {env : Nat}
    (hpool : s.emacs.pool = env :: e.pool ∨ s.emacs.proc = false ∧ e.pool = s.emacs.pool)
    (hinUse : e.inUse = env :: s.emacs.inUse) (hm : s.mixed = false) :
    (e.pool ++ e.inUse).length ≤ 1 ∧ ∀ c ∈ s.active, c.1 ≠ s.newest := by
  have hone := (hs.apart hm).one
  cases hpool with
  | inl h =>
    rw [h, List.length_append, List.length_cons] at hone
    refine ⟨?_, hs.none_of_newest hm (Or.inr (List.eq_nil_of_length_eq_zero (by omega)))⟩
    rw [hinUse, List.length_append, List.length_cons]
    omega
  | inr h =>
    obtain ⟨hp, hsame⟩ := h
    obtain ⟨h1, h2⟩ := hs.idle hp
    refine ⟨?_, hs.none_of_newest hm (Or.inl hp)⟩
    simp [hinUse, hsame, h1, h2]

theorem System.Inv.converted (hs : s.Inv) {l : List Bunsetsu} {e : Emacs σ}
    (h : Converted s.emacs (.ok l e)) : (s.begin e l).Inv := by
  cases h with
  | done halive hpool hinUse henv =>
    apply hs.begun halive _ (hs.taken hpool hinUse)
    intro b hb
    rw [henv b hb, hinUse]
    exact List.mem_cons_self

theorem System.Inv.notConverted (hs : s.Inv) {x : Stop} {e : Emacs σ}
    (h : Converted s.emacs (.error x e)) : (s.begin e []).Inv := by
  cases h with
  | refused halive hproc hpool hinUse =>
    apply hs.begun halive (by simp)
    intro hm
    obtain ⟨h1, h2⟩ := hs.idle hproc
    exact ⟨by simp [hpool, hinUse, h1, h2], hs.none_of_newest hm (Or.inl hproc)⟩
  | failed halive hpool hinUse => exact hs.begun halive (by simp) (hs.taken hpool hinUse)

theorem commit_leaves (D : A.Documented) {e : Emacs σ}
    (hquiet : e.proc = true → e.arriving.flatten = []) (b : Bunsetsu) (abort : Bool)
    {r : EStateM.Result Stop (Emacs σ) Unit} (h : Ends (fun n => commit A n b abort) e r) :
    ∃ e', Untouched e e' ∧ ((∃ x, r = .error x e') ∨ e.proc = true ∧
      r = .ok () { e' with pool := b.env :: e'.pool, inUse := e'.inUse.filter (· ≠ b.env) }) := by
  obtain ⟨e', x, hun, hcall⟩ := call_untouched D hquiet
    (q := .commit b.env (if abort then 1 else 0)) trivial
  refine ⟨e', hun, ?_⟩
  cases x with
  | error y => exact Or.inl ⟨y, h.unique hcall.bind_error⟩
  | ok a =>
    have hends : Ends (fun n => commit A n b abort) e
        (.ok () { e' with pool := b.env :: e'.pool, inUse := e'.inUse.filter (· ≠ b.env) }) :=
      Ends.bind hcall ⟨0, fun _ _ => rfl⟩
    refine Or.inr ⟨?_, h.unique hends⟩
    cases hp : e.proc with
    | true => rfl
    | false =>
      have hkilled : Ends (fun n => call A n (.commit b.env (if abort then 1 else 0))) e
          (.error .killed e) := ⟨0, fun n _ => call_killed hp n _⟩
      cases hcall.unique hkilled

theorem System.Apart.committed (hs : s.Apart) {b : Bunsetsu} (hp : s.emacs.proc = true)
    (hb : (s.generation, b.env) ∈ s.active) {e : Emacs σ} (h : Untouched s.emacs e) :
    (s.finish { e with pool := b.env :: e.pool, inUse := e.inUse.filter (· ≠ b.env) }
      s.generation b).Apart := by
  have hheld := hs.held hp _ hb rfl
  have hone := hs.one
  -- the context is the only one there is
  obtain ⟨hpool, hinUse⟩ : s.emacs.pool = [] ∧ s.emacs.inUse = [b.env] := by
    rw [List.length_append] at hone
    have hpos := List.length_pos_of_mem hheld
    refine ⟨List.eq_nil_of_length_eq_zero (by omega), ?_⟩
    obtain ⟨a, ha⟩ := List.length_eq_one_iff.mp (show s.emacs.inUse.length = 1 by omega)
    rw [ha, List.mem_singleton] at hheld
    rw [ha, ← hheld]
  have hnone : (s.active.erase (s.generation, b.env)).countP (fun c => c.1 == s.generation) = 0 := by
    have hsingle := hs.single
    rw [(List.perm_cons_erase hb).countP_eq, List.countP_cons_of_pos (by simp)] at hsingle
    omega
  refine ⟨?_, ?_, Nat.le_trans (Nat.le_of_eq hnone) (Nat.zero_le 1)⟩
  · simp [System.finish, h.pool, hpool, h.inUse, hinUse]
  · intro _ c hc hn
    have hold : c.1 = s.generation := hn
    rw [List.countP_eq_zero] at hnone
    exact absurd (by simpa using hold) (hnone c hc)

theorem System.Inv.committed (hs : s.Inv) (g : Nat) {b : Bunsetsu} (hp : s.emacs.proc = true)
    {e : Emacs σ} (h : Untouched s.emacs e) :
    (s.finish { e with pool := b.env :: e.pool, inUse := e.inUse.filter (· ≠ b.env) } g b).Inv where
  quiet := h.quiet
  idle := by
    intro hp'
    exact absurd (hp'.symm.trans (h.proc.trans hp)) Bool.false_ne_true
  past := fun c hc => hs.past c (List.mem_of_mem_erase hc)
  apart := by
    intro hm
    rw [System.finish, Bool.or_eq_false_iff, Bool.not_eq_false', Bool.and_eq_true, beq_iff_eq,
      List.contains_iff_mem] at hm
    obtain ⟨hm, rfl, hb⟩ := hm
    exact (hs.apart hm).committed hp hb h

theorem System.Inv.forget (hs : s.Inv) (c : Nat × Nat) :
    System.Inv { s with active := s.active.erase c } where
  quiet := hs.quiet
  idle := hs.idle
  past := fun x hx => hs.past x (List.mem_of_mem_erase hx)
  apart := by
    intro hm
    obtain ⟨hone, hheld, hsingle⟩ := hs.apart hm
    exact ⟨hone, fun hp x hx => hheld hp x (List.mem_of_mem_erase hx),
      Nat.le_trans List.erase_sublist.countP_le hsingle⟩

theorem System.Inv.step (D : A.Documented) (hs : s.Inv) (h : Step A s s') : s'.Inv := by
  cases h with
  | convert h1 h =>
    obtain ⟨-, -, e', hhang⟩ | ⟨-, r, hr, hc⟩ :=
      convert_ends D hs.quiet (fun hp => (hs.idle hp).1) h1
    · cases h.unique hhang
    · obtain rfl := hr.unique h
      exact hs.converted hc
  | convertFails h1 h hx =>
    obtain ⟨-, -, e', hhang⟩ | ⟨-, r, hr, hc⟩ :=
      convert_ends D hs.quiet (fun hp => (hs.idle hp).1) h1
    · cases h.unique hhang
      exact absurd rfl hx
    · obtain rfl := hr.unique h
      exact hs.notConverted hc
  | getCandidates b h =>
    by_cases hb : b.candidates ≠ []
    · have hsame (n : Nat) : getCandidates A n b s.emacs =
          .ok ((b.candidatePos, b.candidates), b) s.emacs := by
        rw [getCandidates, if_pos hb]
        rfl
      have hends : Ends (fun n => getCandidates A n b) s.emacs
          (.ok ((b.candidatePos, b.candidates), b) s.emacs) := ⟨0, fun n _ => hsame n⟩
      cases h with
      | ok h =>
        cases h.unique hends
        exact hs
      | error h hx => cases h.unique hends
    · have hask : (fun n => getCandidates A n b) = fun n => call A n (.getCandidates b.env b.segNo) >>=
          fun cands => pure ((0, cands), { b with candidatePos := 0, candidates := cands }) := by
        funext n
        rw [getCandidates, if_neg hb]
      rw [hask] at h
      exact hs.untouched (Leaves.untouched D hs.quiet (q := .getCandidates b.env b.segNo) trivial h)
  | selectCandidate b candidatePos h =>
    exact hs.untouched (Leaves.untouched D hs.quiet
      (q := .selectCandidate b.env b.segNo candidatePos) trivial h)
  | resizeSegment b len h =>
    exact hs.untouched (Leaves.untouched D hs.quiet
      (q := .resizeSegment b.env b.segNo (if b.source.length < len then 0 else 1)) trivial h)
  | commit g b abort h =>
    obtain ⟨e', hun, hx | hok⟩ := commit_leaves D hs.quiet b abort h
    · obtain ⟨x, hx⟩ := hx
      cases hx
    · obtain ⟨hp, hr⟩ := hok
      cases hr
      exact hs.committed g hp hun
  | commitFails b abort h hx =>
    obtain ⟨e', hun, hx | hok⟩ := commit_leaves D hs.quiet b abort h
    · obtain ⟨x, hx⟩ := hx
      cases hx
      exact hs.untouched hun
    · cases hok.2
  | forget c => exact hs.forget c
  | dies => exact hs.dead
  | finalize =>
    rw [finalizeBackend]
    split
    · exact hs.dead
    · exact hs

/-- An agent that takes every request and gives its contexts the same numbers whenever it starts. -/
structure Agent.Obliging (A : Agent σ) (D : A.Documented) (env : Nat) : Prop where
  context : Request.newContext.answer (D.reply A.start .newContext) = .ok env
  converts : ∀ a yomi, ∃ b l, (Request.convert env yomi).answer (D.reply a (.convert env yomi)) =
    .ok (b :: l)
  commits : ∀ a cancel, (Request.commit env cancel).answer (D.reply a (.commit env cancel)) = .ok ()

theorem Agent.Obliging.convert {D : A.Documented} {env : Nat} (hA : A.Obliging D env) {e₁ : Emacs σ}
    (h : Ends (getEnvironment A) s.emacs (.ok env e₁)) (he₁ : Alive e₁) :
    ∃ e, Alive e ∧ e.pool = e₁.pool ∧
      Step A s ⟨e, s.newest, (s.newest, env) :: s.active, s.mixed⟩ := by
  have h1 : '\n' ∉ ['a'] := by decide
  obtain ⟨e, halive, hpool, -, hends⟩ := converted_in D h1 h he₁
  obtain ⟨b, l, ha⟩ := hA.converts e₁.agent ['a']
  have henv : b.env = env := convert_answer_env (D.fits _ _) ha b List.mem_cons_self
  rw [ha] at hends
  have hstep := Step.convert (s := s) h1 hends
  rw [System.begin, List.head?_cons, Option.map_some, henv] at hstep
  exact ⟨e, halive, hpool, hstep⟩

theorem Agent.Obliging.starts {D : A.Documented} {env : Nat} (hA : A.Obliging D env)
    (hp : s.emacs.proc = false) (h : s.emacs.pool = []) :
    ∃ e, Alive e ∧ e.pool = [] ∧
      Step A s ⟨e, s.generation + 1, (s.generation + 1, env) :: s.active, s.mixed⟩ := by
  obtain ⟨e₁, halive, hpool, -, hget⟩ := getEnvironment_starts D hp h
  rw [hA.context] at hget
  have hnewest : s.newest = s.generation + 1 := by rw [System.newest, hp, if_neg Bool.false_ne_true]
  obtain ⟨e, he, hpool', hstep⟩ := hA.convert hget ⟨halive.proc, halive.quiet⟩
  rw [hnewest] at hstep
  exact ⟨e, he, hpool'.trans hpool, hstep⟩

theorem Agent.Obliging.commit {D : A.Documented} {env : Nat} (hA : A.Obliging D env) {e : Emacs σ}
    (he : Alive e) : ∃ e', Alive e' ∧ e'.pool = env :: e.pool ∧
      Ends (fun n => commit A n (makeBunsetsu env [] [] 0) true) e (.ok () e') := by
  obtain ⟨cs, hcs, hcall⟩ := call_ends D he.proc he.quiet (q := .commit env 1) trivial
  rw [hA.commits] at hcall
  refine ⟨_, ?_, ?_, Ends.bind hcall ⟨0, fun _ _ => rfl⟩⟩
  · exact ⟨he.proc, hcs⟩
  · rfl

/-- With a mix-up two conversions can get one context: the first outlives its agent, and when it is
committed the context of the second is spare. -/
theorem mixed_shares {D : A.Documented} {env : Nat} (hA : A.Obliging D env) :
    ∃ s, Reaches System.Idle (Step A) s ∧ s.emacs.proc = true ∧
      s.active = [(s.generation, env), (s.generation, env)] := by
  have h₀ : Reaches System.Idle (Step A) ⟨⟨false, [], [], [], A.start⟩, 0, [], false⟩ :=
    .start ⟨rfl, rfl, rfl, rfl⟩
  obtain ⟨e₁, -, -, h₁⟩ := hA.starts
    (s := ⟨⟨false, [], [], [], A.start⟩, 0, [], false⟩) rfl rfl
  obtain ⟨e₂, he₂, -, h₂⟩ := hA.starts
    (s := ⟨procSentinel e₁, 1, [(1, env)], false⟩) rfl rfl
  -- the commit of the first conversion, to the agent of the second
  obtain ⟨e₃, he₃, hpool, hcommit⟩ := hA.commit he₂
  have h₃ := Step.commit (s := ⟨e₂, 2, [(2, env), (1, env)], false⟩) 1 _ _ hcommit
  rw [show System.finish _ e₃ 1 _ = ⟨e₃, 2, [(2, env)], true⟩ by
    simp [System.finish, makeBunsetsu]] at h₃
  obtain ⟨e₄, he₄, -, h₄⟩ := hA.convert (s := ⟨e₃, 2, [(2, env)], true⟩) (getEnvironment_pool hpool)
    ⟨he₃.proc, he₃.quiet⟩
  rw [System.newest, he₃.proc, if_pos rfl] at h₄
  refine ⟨_, .next (.next (.next (.next (.next h₀ h₁) .dies) h₂) h₃) h₄, he₄.proc, rfl⟩

end PkgsrcPatches.Tamago
