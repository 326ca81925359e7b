import PkgsrcPatches.Lib.LoopRuns

/-! The functions that `syntax-propertize-rules` of `elisp-compat` makes: every rule goes through
the region by `re-search-forward` and gives the groups of each match their syntax. -/
namespace PkgsrcPatches.Elisp.SyntaxRules
open Lib.Loop

/-- A raw syntax descriptor: a code, if the class has one, and the matching character. -/
structure Syn where
  code : Option Nat
  matching : Option Char
deriving DecidableEq

def e20SyntaxCodes : List (Char × Nat) :=
  [(' ', 0), ('-', 0), ('.', 1), ('w', 2), ('_', 3), ('(', 4), (')', 5), ('\'', 6), ('"', 7),
    ('$', 8), ('\\', 9), ('/', 10), ('<', 11), ('>', 12), ('@', 13), ('!', 14), ('|', 15)]

def flagBit (c : Char) : Nat :=
  if c = '1' then 1 <<< 16
  else if c = '2' then 1 <<< 17
  else if c = '3' then 1 <<< 18
  else if c = '4' then 1 <<< 19
  else if c = 'p' then 1 <<< 20
  else if c = 'b' then 1 <<< 21
  else if c = 'n' then 1 <<< 22
  else 0

/-- `string-to-syntax`; an error is `none`. -/
def stringToSyntax : List Char → Option Syn
  | [] => none
  | [c] => some ⟨e20SyntaxCodes.lookup c, none⟩
  | c :: m :: flags =>
    let matching := if m = ' ' then none else some m
    match flags, e20SyntaxCodes.lookup c with
    | [], code => some ⟨code, matching⟩
    | _ :: _, none => none
    | flags, some code => some ⟨some (flags.foldl (fun code c => code ||| flagBit c) code), matching⟩

abbrev Chars := List (Char × Option Syn)

abbrev MatchBounds := List (Option (Nat × Nat))

def group (md : MatchBounds) (k : Nat) : Option (Nat × Nat) := (md[k]?).join

/-- `re-search-forward` from a position up to a bound. What it finds is between the two, and
groups are inside the match. -/
structure Searcher (R : Type) where
  search : R → Chars → (point bound : Nat) → Option MatchBounds
  whole {re : R} {cs : Chars} {point bound : Nat} {md : MatchBounds}
    (h : search re cs point bound = some md) :
    ∃ b e, group md 0 = some (b, e) ∧ point ≤ b ∧ b ≤ e ∧ e ≤ bound ∧
      ∀ k b' e', group md k = some (b', e') → b ≤ b' ∧ e' ≤ e

/-- `(GROUP STRING)`, of a string that is a descriptor. -/
structure Act where
  group : Nat
  string : List Char
  descriptor : (stringToSyntax string).isSome

structure Rule (R : Type) where
  regexp : R
  acts : List Act

variable {R : Type}

/-- `put-text-property` of the characters from a position up to another. -/
def putSyntax (cs : Chars) (b e : Nat) (syn : Syn) : Chars :=
  cs.mapIdx fun i c => if b ≤ i + 1 ∧ i + 1 < e then (c.1, some syn) else c

def Act.put (md : MatchBounds) (cs : Chars) (a : Act) : Chars :=
  match SyntaxRules.group md a.group with
  | none => cs
  | some (b, e) => putSyntax cs b e ((stringToSyntax a.string).get a.descriptor)

/-- One turn of a rule's loop, from the buffer and point. -/
def rulePass (E : Searcher R) (r : Rule R) (stop : Nat) (s : Chars × Nat) :
    Option (Pass (Chars × Nat) Chars) :=
  match E.search r.regexp s.1 s.2 stop with
  | none => some (.done s.1)
  | some md => (group md 0).map fun m => .next (r.acts.foldl (Act.put md) s.1, m.2)

/-- The function made of the rules, each loop of it with `n` turns at most. -/
def applyRules (E : Searcher R) (n start stop : Nat) : List (Rule R) → Chars → Exit Chars
  | [], cs => .ret cs
  | r :: rules, cs => match run (rulePass E r stop) n (cs, start) with
    | .ret cs' => applyRules E n start stop rules cs'
    | .stray => .stray
    | .spin => .spin

section
variable {E : Searcher R} {r : Rule R} {start stop : Nat}

theorem rulePass_cases (cs : Chars) (p : Nat) :
    (E.search r.regexp cs p stop = none ∧ rulePass E r stop (cs, p) = some (.done cs)) ∨
      ∃ md b e, E.search r.regexp cs p stop = some md ∧ group md 0 = some (b, e) ∧ p ≤ b ∧ b ≤ e ∧
        e ≤ stop ∧ rulePass E r stop (cs, p) = some (.next (r.acts.foldl (Act.put md) cs, e)) := by
  cases hs : E.search r.regexp cs p stop with
  | none => exact Or.inl ⟨rfl, by simp only [rulePass, hs]⟩
  | some md =>
    obtain ⟨b, e, hg, hpb, hbe, he, -⟩ := E.whole hs
    exact Or.inr ⟨md, b, e, rfl, hg, hpb, hbe, he, by simp only [rulePass, hs, hg, Option.map_some]⟩

theorem putSyntax_empty (cs : Chars) {b e : Nat} (h : e ≤ b) (syn : Syn) : putSyntax cs b e syn = cs := by
  apply List.ext_getElem?
  intro i
  rw [putSyntax, List.getElem?_mapIdx]
  cases cs[i]? with
  | none => rfl
  | some c => rw [Option.map_some, if_neg (by omega)]

theorem put_empty {md : MatchBounds} {cs : Chars} {p stop : Nat} {re : R}
    (h : E.search re cs p stop = some md) {b : Nat} (hg : group md 0 = some (b, b)) (acts : List Act) :
    acts.foldl (Act.put md) cs = cs := by
  obtain ⟨b', e', hg', -, -, -, hin⟩ := E.whole h
  rw [hg, Option.some.injEq, Prod.mk.injEq] at hg'
  obtain ⟨rfl, rfl⟩ := hg'
  induction acts with
  | nil => rfl
  | cons a acts ih =>
    have hput : a.put md cs = cs := by
      rw [Act.put]
      cases ha : group md a.group with
      | none => rfl
      | some be =>
        obtain ⟨h1, h2⟩ := hin _ _ _ ha
        exact putSyntax_empty cs (Nat.le_trans h2 h1) _
    rw [List.foldl_cons, hput, ih]

/-- Point where a rule's loop stays for good: the search finds nothing there, and says so by a
match. -/
def Stalls (E : Searcher R) (r : Rule R) (stop : Nat) (s : Chars × Nat) : Prop :=
  ∃ md, E.search r.regexp s.1 s.2 stop = some md ∧ group md 0 = some (s.2, s.2)

theorem stalls_spin {s : Chars × Nat} (h : Stalls E r stop s) (n : Nat) :
    run (rulePass E r stop) n s = .spin := by
  obtain ⟨md, hs, hg⟩ := h
  apply run_stuck
  simp only [rulePass, hs, hg, Option.map_some, put_empty hs hg]

theorem rule_returns {s : Chars × Nat} (hs : s.2 ≤ stop)
    (h : ∀ s', Comes (rulePass E r stop) s s' → ¬ Stalls E r stop s') {n : Nat}
    (hn : stop - s.2 < n) : ∃ cs, run (rulePass E r stop) n s = .ret cs := by
  have hbody : ∀ s', Comes (rulePass E r stop) s s' ∧ s'.2 ≤ stop → ∃ p,
      rulePass E r stop s' = some p ∧ p.Holds (fun s'' =>
        (Comes (rulePass E r stop) s s'' ∧ s''.2 ≤ stop) ∧ stop - s''.2 < stop - s'.2)
        fun _ => True := by
    intro s' hs'
    obtain ⟨hcomes, hle⟩ := hs'
    cases rulePass_cases (E := E) (r := r) s'.1 s'.2 with
    | inl hfail => exact ⟨_, hfail.2, trivial⟩
    | inr hfound =>
      obtain ⟨md, b, e, hsearch, hg, hpb, hbe, he, hpass⟩ := hfound
      refine ⟨_, hpass, ⟨hcomes.next hpass, he⟩, ?_⟩
      have hmove : e ≠ s'.2 := by
        intro heq
        apply h s' hcomes
        have hb : b = s'.2 := by omega
        exact ⟨md, hsearch, by rw [hg, heq, hb]⟩
      dsimp only
      omega
  obtain ⟨cs, hrun, -⟩ := run_total (fun s' => stop - s'.2) hbody n s ⟨.start, hs⟩ hn
  exact ⟨cs, hrun⟩

/-- Some rule stalls, in the buffer that those before it have left. -/
inductive RulesStall (E : Searcher R) (start stop : Nat) : List (Rule R) → Chars → Prop
  | here {r : Rule R} {rules : List (Rule R)} {cs : Chars} {s : Chars × Nat}
      (h : Comes (rulePass E r stop) (cs, start) s) (hs : Stalls E r stop s) :
      RulesStall E start stop (r :: rules) cs
  | later {r : Rule R} {rules : List (Rule R)} {cs cs' : Chars} {n : Nat}
      (h : run (rulePass E r stop) n (cs, start) = .ret cs') (hs : RulesStall E start stop rules cs') :
      RulesStall E start stop (r :: rules) cs

theorem applyRules_cons {n : Nat} {rules : List (Rule R)} {cs cs' : Chars} :
    applyRules E n start stop (r :: rules) cs = .ret cs' ↔
      ∃ cs₁, run (rulePass E r stop) n (cs, start) = .ret cs₁ ∧
        applyRules E n start stop rules cs₁ = .ret cs' := by
  rw [applyRules]
  cases run (rulePass E r stop) n (cs, start) with
  | ret cs₁ => simp
  | stray => simp
  | spin => simp

theorem applyRules_stalls {rules : List (Rule R)} {cs : Chars} (h : RulesStall E start stop rules cs)
    (n : Nat) (cs' : Chars) : applyRules E n start stop rules cs ≠ .ret cs' := by
  induction h with
  | here hcomes hs =>
    intro h
    obtain ⟨cs₁, hrun, -⟩ := applyRules_cons.mp h
    rw [hcomes.stuck (stalls_spin hs) n] at hrun
    cases hrun
  | later hr _ ih =>
    intro h
    obtain ⟨cs₁, hrun, hrest⟩ := applyRules_cons.mp h
    exact ih (run_unique hrun hr ▸ hrest)

theorem applyRules_or (hle : start ≤ stop) (rules : List (Rule R)) (cs : Chars) :
    RulesStall E start stop rules cs ∨
      ∃ cs', applyRules E (stop - start + 1) start stop rules cs = .ret cs' := by
  induction rules generalizing cs with
  | nil => exact Or.inr ⟨cs, rfl⟩
  | cons r rules ih =>
    by_cases hstall : ∃ s, Comes (rulePass E r stop) (cs, start) s ∧ Stalls E r stop s
    · obtain ⟨s, hcomes, hs⟩ := hstall
      exact Or.inl (.here hcomes hs)
    · obtain ⟨cs₁, hrun⟩ := rule_returns (E := E) (r := r) (s := (cs, start)) hle
        (fun s' hs' hst => hstall ⟨s', hs', hst⟩) (Nat.lt_succ_self _)
      cases ih cs₁ with
      | inl hs => exact Or.inl (.later hrun hs)
      | inr h =>
        obtain ⟨cs', h⟩ := h
        exact Or.inr ⟨cs', applyRules_cons.mpr ⟨cs₁, hrun, h⟩⟩

theorem applyRules_unique {rules : List (Rule R)} {cs a b : Chars} {n m : Nat}
    (hn : applyRules E n start stop rules cs = .ret a)
    (hm : applyRules E m start stop rules cs = .ret b) : a = b := by
  induction rules generalizing cs with
  | nil =>
    rw [applyRules] at hn hm
    exact Exit.ret.inj (hn.symm.trans hm)
  | cons r rules ih =>
    obtain ⟨cs₁, hrun, hrest⟩ := applyRules_cons.mp hn
    obtain ⟨cs₂, hrun', hrest'⟩ := applyRules_cons.mp hm
    exact ih hrest (run_unique hrun hrun' ▸ hrest')

theorem applyRules_returns (hle : start ≤ stop) (rules : List (Rule R)) (cs : Chars) :
    (∃ n cs', applyRules E n start stop rules cs = .ret cs') ↔ ¬ RulesStall E start stop rules cs := by
  constructor
  · intro h hs
    obtain ⟨n, cs', h⟩ := h
    exact applyRules_stalls hs n cs' h
  · intro h
    obtain ⟨cs', hret⟩ := (applyRules_or hle rules cs).resolve_left h
    exact ⟨_, cs', hret⟩

end

/-- The function returns, for which as many turns as the region has places are enough, exactly
when no rule comes to an empty match at point. -/
theorem applyRules_returns_iff (E : Searcher R) {start stop : Nat} (hle : start ≤ stop)
    (rules : List (Rule R)) (cs : Chars) :
    ((∃ n cs', applyRules E n start stop rules cs = .ret cs') ↔ ¬ RulesStall E start stop rules cs) ∧
      ∀ n cs', applyRules E n start stop rules cs = .ret cs' →
        applyRules E (stop - start + 1) start stop rules cs = .ret cs' := by
  refine ⟨applyRules_returns hle rules cs, ?_⟩
  intro n cs' h
  have hno : ¬RulesStall E start stop rules cs := fun hs => applyRules_stalls hs n cs' h
  obtain ⟨cs'', hret⟩ := (applyRules_or hle rules cs).resolve_left hno
  rw [hret, applyRules_unique hret h]

def charSearch (c : Char) (cs : Chars) (point bound : Nat) : Option MatchBounds :=
  ((List.range' point (bound - point)).find? fun i => (cs[i - 1]?).map Prod.fst = some c).map
    fun i => [some (i, i + 1)]

def charEngine : Searcher Char where
  search := charSearch
  whole := by
    intro c cs point bound md h
    obtain ⟨i, hfind, rfl⟩ := Option.map_eq_some_iff.mp h
    have hmem := List.mem_of_find?_eq_some hfind
    rw [List.mem_range'_1] at hmem
    refine ⟨i, i + 1, rfl, hmem.1, Nat.le_succ i, by omega, ?_⟩
    intro k b' e' hg
    cases k with
    | zero =>
      obtain ⟨rfl, rfl⟩ := hg
      exact ⟨Nat.le_refl _, Nat.le_refl _⟩
    | succ k => simp [group] at hg

theorem applyRules_returns_iff_char :
    (∃ n cs', applyRules charEngine n 1 3 [⟨'#', [⟨0, ['<'], rfl⟩]⟩] [('a', none), ('#', none)] =
      .ret cs') ↔
    ¬ RulesStall charEngine 1 3 [⟨'#', [⟨0, ['<'], rfl⟩]⟩] [('a', none), ('#', none)] :=
  (applyRules_returns_iff charEngine (by decide) _ _).1

end PkgsrcPatches.Elisp.SyntaxRules
