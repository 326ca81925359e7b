import PkgsrcPatches.Elisp.After
import PkgsrcPatches.Elisp.Scan

/-! The pass of `e20-translate` with the places of the characters it puts out. What
is copied keeps its place, also where an interval repeats it. -/
namespace PkgsrcPatches.Elisp

def intervalAt (re : List Char) : Option (List Char) :=
  if re.take 2 = ['\\', '{'] then (throughInterval (re.drop 2)).map Prod.fst else none

/-- What is put out for the start of a text: where the two agree the characters are those of the
text, and from there on all have one place. -/
def placed : List Char → List Char → Marked
  | a, [] => a.map (·, 0)
  | [], _ :: _ => []
  | c :: a, c' :: re =>
    if c = c' then (c, re.length + 1) :: placed a re else (c :: a).map (·, re.length + 1)

def Translation.traced (t t' : Translation) (m : Marked) (re : List Char) : Marked :=
  match intervalAt re with
  | none => m ++ placed (t'.emitted.drop t.emitted.length) re
  | some spec =>
    let a := ((t.atoms.headD .missing).offset).getD 0
    m.take a ++ copied (e20Bounds spec).1 (e20Bounds spec).2 ('*', re.length) ('?', re.length)
      (m.drop a)

def e20TracedLoop (fold : Bool) : Nat → Translation → Marked → List Char → Option Marked
  | _, _, m, [] => some m
  | 0, _, _, _ :: _ => none
  | n+1, t, m, c :: re => match e20Step fold t (c :: re) with
    | none => none
    | some (t', re') => e20TracedLoop fold n t' (t.traced t' m (c :: re)) re'

/-- The translated regexp with the place of each character. -/
def e20Traced (fold : Bool) (re : List Char) : Option Marked :=
  e20TracedLoop fold re.length .start [] re

section Erase
variable {fold : Bool} {t t' : Translation} {re re' : List Char}

theorem copied_text (lo : Nat) (hi : Option Nat) (q : Nat) (d : Marked) :
    Marked.text (copied lo hi ('*', q) ('?', q) d) = e20Rep lo hi d.text := by
  have hrep : ∀ n (u : Marked), Marked.text (List.replicate n u).flatten =
      (List.replicate n u.text).flatten := by
    intro n u
    simp [Marked.text, List.map_flatten]
  rw [e20Rep_eq]
  cases hi with
  | none =>
    simp only [copied, Marked.text, List.map_append]
    exact congrArg₂ _ (hrep lo d) rfl
  | some h =>
    simp only [copied, Marked.text, List.map_append]
    exact congrArg₂ _ (hrep lo d) ((hrep _ _).trans (by simp [Marked.text]))

theorem map_mark (a : List Char) (p : Nat) : Marked.text (a.map (·, p)) = a := by
  simp [Marked.text, Function.comp_def]

theorem placed_text (a re : List Char) : (placed a re).text = a := by
  induction a generalizing re with
  | nil => cases re <;> rfl
  | cons c a ih =>
    cases re with
    | nil => exact map_mark _ 0
    | cons c' re =>
      rw [placed]
      split
      · exact congrArg (c :: ·) (ih re)
      · exact map_mark _ _

@[simp] theorem placed_nil (re : List Char) : placed [] re = [] := by
  cases re <;> rfl

theorem placed_append (u v x : List Char) :
    placed (u ++ v) (u ++ (v ++ x)) = placed u (u ++ (v ++ x)) ++ placed v (v ++ x) := by
  induction u with
  | nil => simp
  | cons c u ih =>
    simp only [List.cons_append, placed, if_true]
    rw [ih]

theorem placed_ne {c c' : Char} (h : c ≠ c') (a re : List Char) :
    placed (c :: a) (c' :: re) = (c :: a).map (·, (c' :: re).length) := if_neg h

theorem escape_appends {d : Char} (hd : d ≠ '{') (h : e20Escape t d re = some (t', re')) :
    ∃ a, t'.emitted = t.emitted ++ a := by
  unfold e20Escape at h
  split at h
  · split at h
    · obtain ⟨rfl, -⟩ := Prod.mk.inj (Option.some.inj h)
      exact ⟨_, t.openGroup_emitted⟩
    · obtain ⟨rfl, -⟩ := Prod.mk.inj (Option.some.inj h)
      exact ⟨_, t.openGroup_emitted⟩
  · split at h
    · obtain ⟨rfl, -⟩ := Prod.mk.inj (Option.some.inj h)
      exact ⟨_, t.closeGroup_emitted⟩
    · split at h
      · obtain ⟨rfl, -⟩ := Prod.mk.inj (Option.some.inj h)
        exact ⟨_, t.atom_emitted _⟩
      · obtain ⟨rfl, -⟩ := Prod.mk.inj (Option.some.inj h)
        exact ⟨_, t.atom_emitted _⟩

theorem openBracket_appends (h : e20OpenBracket fold t re = some (t', re')) :
    ∃ a, t'.emitted = t.emitted ++ a := by
  unfold e20OpenBracket at h
  split at h
  · cases h
  · split at h
    · cases h
    · obtain ⟨rfl, -⟩ := Prod.mk.inj (Option.some.inj h)
      split
      · exact ⟨_, t.atom_emitted _⟩
      · exact ⟨_, t.atom_emitted _⟩
  · obtain ⟨rfl, -⟩ := Prod.mk.inj (Option.some.inj h)
    exact ⟨_, t.atom_emitted _⟩

theorem interval_emitted {spec : List Char} (h : t.interval spec = some t') :
    ∃ a, (t.atoms.headD .missing).offset = some a ∧ a ≤ t.emitted.length ∧
      t'.emitted = t.emitted.take a ++
        e20Rep (e20Bounds spec).1 (e20Bounds spec).2 (t.emitted.drop a) := by
  unfold Translation.interval at h
  split at h
  · cases h
  · rename_i a ha
    split at h
    · rename_i hle
      obtain rfl := Option.some.inj h
      exact ⟨a, ha, hle, List.append_nil _⟩
    · cases h

/-- A pass puts copies in place of the end of the output, or something behind it. -/
theorem step_emitted (h : e20Step fold t re = some (t', re')) :
    (intervalAt re = none → ∃ a, t'.emitted = t.emitted ++ a) ∧
      ∀ spec, intervalAt re = some spec → t.interval spec = some t' := by
  have happends : intervalAt re = none → (∃ a, t'.emitted = t.emitted ++ a) →
      (intervalAt re = none → ∃ a, t'.emitted = t.emitted ++ a) ∧
        ∀ spec, intervalAt re = some spec → t.interval spec = some t' := by
    intro hat ha
    refine ⟨fun _ => ha, fun spec hspec => ?_⟩
    rw [hat] at hspec
    cases hspec
  cases re with
  | nil => cases h
  | cons c re =>
    simp only [e20Step] at h
    split at h
    · rename_i hc
      cases re with
      | nil =>
        obtain ⟨rfl, -⟩ := Prod.mk.inj (Option.some.inj h)
        exact happends (if_neg (by simp)) ⟨_, t.atom_emitted _⟩
      | cons d re =>
        by_cases hd : d = '{'
        · subst hc hd
          have hat : intervalAt ('\\' :: '{' :: re) = (throughInterval re).map Prod.fst := rfl
          have hsymbol : ¬('{' = '_' ∧ (re.head? = some '<' ∨ re.head? = some '>')) := by simp
          simp only [e20Escape, if_neg (by decide : ¬ '{' = '('), if_neg (by decide : ¬ '{' = ')'),
            if_neg hsymbol, if_true] at h
          rw [hat]
          cases hthrough : throughInterval re with
          | none =>
            rw [hthrough] at h
            cases h
          | some p =>
            rw [hthrough] at h
            obtain ⟨t'', ht, hp⟩ := Option.map_eq_some_iff.mp h
            obtain ⟨rfl, -⟩ := Prod.mk.inj hp
            refine ⟨fun hnone => (by cases hnone), fun spec hspec => ?_⟩
            rw [← Option.some.inj hspec]
            exact ht
        · exact happends (if_neg (by simp [hd])) (escape_appends hd h)
    · rename_i hc
      have hat : intervalAt (c :: re) = none := if_neg (by
        cases re <;> simp [hc])
      split at h
      · exact happends hat (openBracket_appends h)
      · obtain ⟨rfl, -⟩ := Prod.mk.inj (Option.some.inj h)
        exact happends hat ⟨_, t.atom_emitted _⟩

theorem traced_text (h : e20Step fold t re = some (t', re')) {m : Marked}
    (hm : m.text = t.emitted) : (t.traced t' m re).text = t'.emitted := by
  obtain ⟨hbehind, hinterval⟩ := step_emitted h
  unfold Translation.traced
  cases hat : intervalAt re with
  | none =>
    obtain ⟨a, ha⟩ := hbehind hat
    rw [ha, List.drop_left, Marked.text_append, hm, placed_text]
  | some spec =>
    obtain ⟨a, ha, -, hemit⟩ := interval_emitted (hinterval spec hat)
    simp only [ha, Option.getD_some]
    rw [Marked.text, List.map_append, hemit, ← hm]
    exact congrArg₂ _ List.map_take ((copied_text _ _ _ _).trans (by rw [Marked.text, List.map_drop]))

theorem tracedLoop_text (n : Nat) {m : Marked} (hm : m.text = t.emitted) :
    (e20TracedLoop fold n t m re).map Marked.text =
      (e20Loop fold n t re).map Translation.emitted := by
  induction n generalizing t m re with
  | zero =>
    cases re with
    | nil => exact congrArg some hm
    | cons c re => rfl
  | succ n ih =>
    cases re with
    | nil => exact congrArg some hm
    | cons c re =>
      rw [e20TracedLoop, e20Loop]
      cases hstep : e20Step fold t (c :: re) with
      | none => rfl
      | some p => exact ih (traced_text hstep hm)

/-- Without the places it is the translation. -/
theorem e20Traced_text (fold : Bool) (re : List Char) :
    (e20Traced fold re).map Marked.text = (e20Translate fold re).map Prod.fst := by
  rw [e20Traced, tracedLoop_text re.length rfl, e20Translate, Option.map_map]
  rfl

end Erase

/-! ### Runs -/

def Traces (fold : Bool) : Translation × Marked × List Char → Translation × Marked × List Char → Prop :=
  Relation.ReflTransGen fun a b =>
    e20Step fold a.1 a.2.2 = some (b.1, b.2.2) ∧ b.2.1 = a.1.traced b.1 a.2.1 a.2.2

section Runs
variable {fold : Bool} {t t' : Translation} {m m' : Marked} {re re' : List Char}

theorem Traces.runs {a b : Translation × Marked × List Char} (h : Traces fold a b) :
    Runs fold (a.1, a.2.2) (b.1, b.2.2) := by
  induction h with
  | refl => exact .refl
  | tail _ hstep ih => exact ih.tail hstep.1

theorem Traces.loop (h : Traces fold (t, m, re) (t', m', [])) {n : Nat} (hn : re.length ≤ n) :
    e20TracedLoop fold n t m re = some m' := by
  suffices ∀ a : Translation × Marked × List Char, Traces fold a (t', m', []) →
      ∀ n, a.2.2.length ≤ n → e20TracedLoop fold n a.1 a.2.1 a.2.2 = some m' from this _ h n hn
  intro a ha
  induction ha using Relation.ReflTransGen.head_induction_on with
  | refl =>
    intro n _
    cases n <;> rfl
  | head hstep hrest ih =>
    rename_i a b
    obtain ⟨t₁, m₁, re₁⟩ := a
    obtain ⟨t₂, m₂, re₂⟩ := b
    intro n hn
    obtain ⟨hstep, hm⟩ := hstep
    simp only at hstep hm hn
    subst hm
    have hlt := e20Step_length hstep
    cases re₁ with
    | nil => cases hstep
    | cons c re₁ =>
      cases n with
      | zero => exact (Nat.not_succ_le_zero _ hn).elim
      | succ n =>
        simp only [e20TracedLoop, hstep]
        exact ih n (by simp only [List.length_cons] at hlt hn ⊢; omega)

theorem Traces.head {b : Translation × Marked × List Char}
    (h : e20Step fold t re = some (t', re')) (hrest : Traces fold (t', t.traced t' m re, re') b) :
    Traces fold (t, m, re) b :=
  Relation.ReflTransGen.head ⟨h, rfl⟩ hrest

theorem Traces.step {a : List Char} {b : Translation × Marked × List Char}
    (h : e20Step fold t re = some (t', re')) (hat : intervalAt re = none)
    (hemit : t'.emitted = t.emitted ++ a)
    (hrest : Traces fold (t', m ++ placed a re, re') b) : Traces fold (t, m, re) b := by
  refine .head h ?_
  rwa [Translation.traced, hat, hemit, List.drop_left]

theorem intervalAt_of_ne {c : Char} (hc : c ≠ '\\') (x : List Char) : intervalAt (c :: x) = none :=
  if_neg (by cases x <;> simp [hc])

theorem intervalAt_escape {c : Char} (hc : c ≠ '{') (x : List Char) :
    intervalAt ('\\' :: c :: x) = none :=
  if_neg (by simp [hc])

theorem intervalAt_text (i : Interval) (x : List Char) :
    intervalAt ((Suffix.interval i).text ++ x) = some i.spec := by
  have htext : (Suffix.interval i).text ++ x = '\\' :: '{' :: (i.spec ++ '\\' :: '}' :: x) := by
    simp [Suffix.text]
  rw [htext]
  exact congrArg (Option.map Prod.fst) (throughInterval_text (fun c hc => (spec_text i c hc).1) x)

end Runs

end PkgsrcPatches.Elisp
