import PkgsrcPatches.Elisp.SyntaxRules
import PkgsrcPatches.Lib.Transition

/-! `syntax-propertize` of `elisp-compat` and the two hooks it hangs on, in a buffer that
commands edit, narrow and give other modes. -/
namespace PkgsrcPatches.Elisp.Propertize
open Lib Lib.Loop SyntaxRules
variable {R : Type}

/-- `buffer-undo-list` by its length, `none` where it is `t`; and whether
`after-change-functions` has `e20-after-change`. -/
structure Buffer (R : Type) where
  chars : Chars
  pointMin : Nat
  pointMax : Nat
  modified : Bool
  undo : Option Nat
  hooked : Bool
  parseSexpLookupProperties : Bool
  function : Option (List (Rule R))
  done : Int

def Buffer.text (b : Buffer R) : List Char := b.chars.map Prod.fst

def Buffer.change (b : Buffer R) (cs : Chars) : Buffer R :=
  { b with
    chars := cs, modified := true, undo := b.undo.map (· + 1),
    done := if b.hooked then -1 else b.done }

def Buffer.widen (b : Buffer R) : Buffer R := { b with pointMin := 1, pointMax := b.chars.length + 1 }

def clear (cs : Chars) : Chars := cs.map fun c => (c.1, none)

/-- The function's work on a buffer, each loop of it with `n` turns at most. -/
def Buffer.apply (E : Searcher R) (n : Nat) (rules : List (Rule R)) (b : Buffer R) : Exit (Buffer R) :=
  match applyRules E n b.pointMin b.pointMax rules b.chars with
  | .ret cs => .ret (b.change cs)
  | .stray => .stray
  | .spin => .spin

def syntaxPropertize (E : Searcher R) (n : Nat) (b : Buffer R) : Exit (Buffer R) :=
  match b.function with
  | none => .ret b
  | some rules =>
    if b.done < b.pointMax then
      let b := { b with parseSexpLookupProperties := true }
      -- the `let` and the two `save-` forms
      let inside := { b with undo := none, hooked := false }.widen
      match (inside.change (clear inside.chars)).apply E n rules with
      | .ret after => .ret { after with
          pointMin := b.pointMin, pointMax := b.pointMax, modified := b.modified, undo := b.undo,
          hooked := b.hooked, done := b.pointMax }
      | .stray => .stray
      | .spin => .spin
    else .ret b

def e20PropertizeMaybe (E : Searcher R) (n : Nat) (b : Buffer R) : Exit (Buffer R) :=
  match b.function with
  | none => .ret b
  | some _ => syntaxPropertize E n { b with parseSexpLookupProperties := true }

/-- What a command does to a buffer; the last is what Emacs does after each. -/
inductive BufferStep (E : Searcher R) : Buffer R → Buffer R → Prop
  | edit (b : Buffer R) (cs : Chars) (pointMax : Nat) :
      BufferStep E b { b.change cs with pointMax := pointMax }
  | narrow (b : Buffer R) (pointMin pointMax : Nat) :
      BufferStep E b { b with pointMin := pointMin, pointMax := pointMax }
  | widen (b : Buffer R) : BufferStep E b b.widen
  | save (b : Buffer R) : BufferStep E b { b with modified := false }
  | mode (b : Buffer R) (function : Option (List (Rule R))) :
      BufferStep E b { b with function := function, done := -1, parseSexpLookupProperties := false }
  | propertize {b b' : Buffer R} (n : Nat) (h : e20PropertizeMaybe E n b = .ret b') :
      BufferStep E b b'

/-- The properties are those that the rules give to the text, the whole of it. -/
def Fresh (E : Searcher R) (rules : List (Rule R)) (cs : Chars) : Prop :=
  ∃ n, applyRules E n 1 (cs.length + 1) rules (clear cs) = .ret cs

structure SameBut (b b' : Buffer R) : Prop where
  text : b'.text = b.text
  pointMin : b'.pointMin = b.pointMin
  pointMax : b'.pointMax = b.pointMax
  modified : b'.modified = b.modified
  undo : b'.undo = b.undo
  hooked : b'.hooked = b.hooked
  function : b'.function = b.function

section
variable {E : Searcher R} {b b' : Buffer R} {n : Nat}

theorem putSyntax_text (cs : Chars) (s e : Nat) (syn : Syn) :
    (putSyntax cs s e syn).map Prod.fst = cs.map Prod.fst := by
  apply List.ext_getElem?
  intro i
  rw [List.getElem?_map, List.getElem?_map, putSyntax, List.getElem?_mapIdx]
  cases cs[i]? with
  | none => rfl
  | some c =>
    rw [Option.map_some, Option.map_some, Option.map_some]
    split <;> rfl

theorem put_text (md : MatchBounds) (acts : List Act) (cs : Chars) :
    (acts.foldl (Act.put md) cs).map Prod.fst = cs.map Prod.fst := by
  induction acts generalizing cs with
  | nil => rfl
  | cons a acts ih =>
    rw [List.foldl_cons, ih, Act.put]
    split
    · rfl
    · exact putSyntax_text _ _ _ _

theorem rule_text {r : Rule R} {stop : Nat} {s : Chars × Nat} {cs : Chars}
    (h : run (rulePass E r stop) n s = .ret cs) : cs.map Prod.fst = s.1.map Prod.fst := by
  induction n generalizing s with
  | zero => cases h
  | succ n ih =>
    cases rulePass_cases (E := E) (r := r) s.1 s.2 with
    | inl hfail =>
      rw [run_done n hfail.2, Exit.ret.injEq] at h
      rw [← h]
    | inr hfound =>
      obtain ⟨md, p, e, -, -, -, -, -, hpass⟩ := hfound
      rw [run_next n hpass] at h
      rw [ih h]
      exact put_text md r.acts s.1

theorem applyRules_text {start stop : Nat} {rules : List (Rule R)} {cs cs' : Chars}
    (h : applyRules E n start stop rules cs = .ret cs') : cs'.map Prod.fst = cs.map Prod.fst := by
  induction rules generalizing cs with
  | nil =>
    rw [applyRules, Exit.ret.injEq] at h
    rw [h]
  | cons r rules ih =>
    rw [applyRules] at h
    cases hr : run (rulePass E r stop) n (cs, start) with
    | ret c =>
      rw [hr] at h
      rw [ih h, rule_text hr]
    | stray =>
      rw [hr] at h
      cases h
    | spin =>
      rw [hr] at h
      cases h

theorem clear_text (cs : Chars) : (clear cs).map Prod.fst = cs.map Prod.fst := by
  rw [clear, List.map_map]
  rfl

theorem clear_of_text {cs cs' : Chars} (h : cs'.map Prod.fst = cs.map Prod.fst) :
    clear cs' = clear cs := by
  have hclear (cs : Chars) : clear cs = (cs.map Prod.fst).map fun c => (c, none) := by
    rw [clear, List.map_map]
    rfl
  rw [hclear, hclear, h]

theorem e20PropertizeMaybe_none (hf : b.function = none) : e20PropertizeMaybe E n b = .ret b := by
  rw [e20PropertizeMaybe]
  split
  · rfl
  · rename_i hsome
    rw [hf] at hsome
    cases hsome

theorem e20PropertizeMaybe_some {rules : List (Rule R)} (hf : b.function = some rules) :
    e20PropertizeMaybe E n b = syntaxPropertize E n { b with parseSexpLookupProperties := true } := by
  rw [e20PropertizeMaybe]
  split
  · rename_i hnone
    rw [hf] at hnone
    cases hnone
  · rfl

theorem syntaxPropertize_idle (hd : ¬ b.done < b.pointMax) : syntaxPropertize E n b = .ret b := by
  rw [syntaxPropertize]
  split
  · rfl
  · exact if_neg hd

theorem syntaxPropertize_works {rules : List (Rule R)} (hf : b.function = some rules)
    (hd : b.done < b.pointMax) :
    syntaxPropertize E n b = match applyRules E n 1 (b.chars.length + 1) rules (clear b.chars) with
      | .ret cs => .ret { b with chars := cs, parseSexpLookupProperties := true, done := b.pointMax }
      | .stray => .stray
      | .spin => .spin := by
  rw [syntaxPropertize]
  split
  · rename_i hnone
    rw [hf] at hnone
    cases hnone
  · rename_i rules' hsome
    obtain rfl := Option.some.inj (hf.symm.trans hsome)
    have hlen : (clear b.chars).length = b.chars.length := List.length_map _
    rw [if_pos hd]
    simp only [Buffer.apply, Buffer.change, Buffer.widen]
    cases applyRules E n 1 (b.chars.length + 1) rules (clear b.chars) with
    | ret cs => rfl
    | stray => rfl
    | spin => rfl

/-- What the invariant of the buffer is: unless a change or a new mode has reset `done`, the
properties are fresh. -/
def Buffer.Valid (E : Searcher R) (b : Buffer R) : Prop :=
  b.hooked = true ∧ (b.done = -1 ∨ ∃ rules, b.function = some rules ∧ Fresh E rules b.chars)

theorem e20PropertizeMaybe_fresh (hv : b.Valid E) (h : e20PropertizeMaybe E n b = .ret b') :
    SameBut b b' ∧ b'.Valid E ∧ ∀ rules, b.function = some rules → Fresh E rules b'.chars := by
  cases hf : b.function with
  | none =>
    rw [e20PropertizeMaybe_none hf, Exit.ret.injEq] at h
    subst h
    exact ⟨⟨rfl, rfl, rfl, rfl, rfl, rfl, rfl⟩, hv, fun _ hr => by cases hr⟩
  | some rules =>
    rw [e20PropertizeMaybe_some hf] at h
    by_cases hd : b.done < b.pointMax
    · rw [syntaxPropertize_works (b := { b with parseSexpLookupProperties := true }) hf hd] at h
      dsimp only at h
      cases ha : applyRules E n 1 (b.chars.length + 1) rules (clear b.chars) with
      | ret cs =>
        rw [ha] at h
        obtain rfl := Exit.ret.inj h
        have htext : cs.map Prod.fst = b.chars.map Prod.fst := (applyRules_text ha).trans (clear_text b.chars)
        have hlen : cs.length = b.chars.length := by
          rw [← List.length_map Prod.fst, htext, List.length_map]
        have hfresh : Fresh E rules cs := by
          refine ⟨n, ?_⟩
          rw [hlen, clear_of_text htext]
          exact ha
        refine ⟨⟨htext, rfl, rfl, rfl, rfl, rfl, rfl⟩, ⟨hv.1, Or.inr ⟨rules, hf, hfresh⟩⟩, ?_⟩
        intro rules' hr
        obtain rfl := Option.some.inj hr
        exact hfresh
      | stray =>
        rw [ha] at h
        cases h
      | spin =>
        rw [ha] at h
        cases h
    · -- nothing to do: `done` is no -1, so nothing has changed since the properties were made
      have hdone : b.done ≠ -1 := by omega
      rw [syntaxPropertize_idle (b := { b with parseSexpLookupProperties := true }) hd,
        Exit.ret.injEq] at h
      subst h
      obtain ⟨rules', hr, hfresh⟩ := hv.2.resolve_left hdone
      refine ⟨⟨rfl, rfl, rfl, rfl, rfl, rfl, rfl⟩, ⟨hv.1, Or.inr ⟨rules', hr, hfresh⟩⟩, ?_⟩
      intro rules'' hr'
      obtain rfl := Option.some.inj (hf.symm.trans hr)
      obtain rfl := Option.some.inj hr'
      exact hfresh

theorem valid_step (hv : b.Valid E) (h : BufferStep E b b') : b'.Valid E := by
  cases h with
  | edit cs pointMax => exact ⟨hv.1, Or.inl (if_pos hv.1)⟩
  | narrow pointMin pointMax => exact hv
  | widen => exact hv
  | save => exact hv
  | mode function => exact ⟨hv.1, Or.inl rfl⟩
  | propertize n h => exact (e20PropertizeMaybe_fresh hv h).2.1

end

/-- In every run of edits, narrowings, saves, new modes and hooks: when the hook has run after a
command, the whole text has the properties that the rules give it, whatever part was accessible
then or earlier; text, restriction, the modified flag and the undo list are as before; and the
hook returns unless there is something to do and a rule of the mode stalls. -/
theorem hook_leaves_fresh (E : Searcher R) {b : Buffer R}
    (h : Reaches (fun b => b.hooked = true ∧ b.done = -1) (BufferStep E) b) :
    (∀ n b', e20PropertizeMaybe E n b = .ret b' → SameBut b b' ∧
        ∀ rules, b.function = some rules → Fresh E rules b'.chars) ∧
      ((∃ n b', e20PropertizeMaybe E n b = .ret b') ↔ ∀ rules, b.function = some rules →
        b.done < b.pointMax → ¬ RulesStall E 1 (b.chars.length + 1) rules (clear b.chars)) := by
  have hv : b.Valid E := h.invariant (fun b hb => ⟨hb.1, Or.inl hb.2⟩) fun b b' => valid_step
  refine ⟨?_, ?_⟩
  · intro n b' hret
    obtain ⟨hsame, -, hfresh⟩ := e20PropertizeMaybe_fresh hv hret
    exact ⟨hsame, hfresh⟩
  · cases hf : b.function with
    | none =>
      refine iff_of_true ⟨0, b, e20PropertizeMaybe_none hf⟩ ?_
      intro rules hr
      cases hr
    | some rules =>
      have hiff := applyRules_returns (E := E) (Nat.succ_le_succ (Nat.zero_le b.chars.length)) rules
        (clear b.chars)
      by_cases hd : b.done < b.pointMax
      · have hwork (n : Nat) := (e20PropertizeMaybe_some (E := E) (n := n) hf).trans
          (syntaxPropertize_works (b := { b with parseSexpLookupProperties := true }) hf hd)
        dsimp only at hwork
        constructor
        · intro hret rules' hr _
          obtain rfl := Option.some.inj hr
          obtain ⟨n, b', hret⟩ := hret
          rw [hwork] at hret
          apply hiff.mp
          cases ha : applyRules E n 1 (b.chars.length + 1) rules (clear b.chars) with
          | ret cs => exact ⟨n, cs, ha⟩
          | stray =>
            rw [ha] at hret
            cases hret
          | spin =>
            rw [ha] at hret
            cases hret
        · intro hno
          obtain ⟨n, cs, ha⟩ := hiff.mpr (hno rules rfl hd)
          rw [Nat.succ_eq_add_one] at ha
          refine ⟨n, { b with chars := cs, parseSexpLookupProperties := true, done := b.pointMax }, ?_⟩
          rw [hwork, ha]
      · refine iff_of_true ⟨0, _, (e20PropertizeMaybe_some hf).trans
          (syntaxPropertize_idle (b := { b with parseSexpLookupProperties := true }) hd)⟩ ?_
        intro rules' _ hlt
        exact absurd hlt hd

def hashBuffer : Buffer Char where
  chars := [('a', none), ('#', none)]
  pointMin := 1
  pointMax := 3
  modified := false
  undo := some 0
  hooked := true
  parseSexpLookupProperties := false
  function := some [⟨'#', [⟨0, ['<'], rfl⟩]⟩]
  done := -1

theorem hook_leaves_fresh_hash :
    (∀ n b', e20PropertizeMaybe charEngine n hashBuffer = .ret b' → SameBut hashBuffer b' ∧
        ∀ rules, hashBuffer.function = some rules → Fresh charEngine rules b'.chars) ∧
      ((∃ n b', e20PropertizeMaybe charEngine n hashBuffer = .ret b') ↔
        ∀ rules, hashBuffer.function = some rules → hashBuffer.done < hashBuffer.pointMax →
          ¬ RulesStall charEngine 1 (hashBuffer.chars.length + 1) rules (clear hashBuffer.chars)) :=
  hook_leaves_fresh charEngine (.start ⟨rfl, rfl⟩)

end PkgsrcPatches.Elisp.Propertize
