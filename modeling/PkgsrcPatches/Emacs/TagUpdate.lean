import PkgsrcPatches.Emacs.TagClean

/-! The loop over the arguments of the later `etags`: what all the file names together leave of
the tags. -/
namespace PkgsrcPatches.Emacs.TagUpdate
open Lib Lib.Syscall Function

def texts (old : Content) : List Content :=
  (Lines.lines nl old).map fun l => cstring (Lines.chomp nl l)

def namesNone (names : List CString) (line : Content) : Bool :=
  names.all fun f => ¬ (patternOf f).bytes <:+: line

theorem mem_texts {old l : Content} (h : l ∈ texts old) : nl ∉ l ∧ 0 ∉ l := by
  obtain ⟨l, -, rfl⟩ := List.mem_map.mp h
  refine ⟨?_, ?_⟩
  · intro hm
    have hchomp := (List.takeWhile_sublist _).subset hm
    exact absurd (List.mem_takeWhile_imp hchomp) (by simp)
  · intro hm
    exact absurd (List.mem_takeWhile_imp hm) (by simp)

theorem texts_written {ls : List Content} (h : ∀ l ∈ ls, nl ∉ l ∧ 0 ∉ l) :
    texts (ls.flatMap (· ++ [nl])) = ls := by
  induction ls with
  | nil => rfl
  | cons l ls ih =>
    obtain ⟨hnl, hnul⟩ := h l List.mem_cons_self
    have hchomp : Lines.chomp nl (l ++ [nl]) = l := by
      rw [Lines.chomp, List.takeWhile_append_of_pos]
      · simp
      · intro c hc
        simp [ne_of_mem_of_not_mem hc hnl]
    have hstring : cstring l = l := by
      rw [cstring, List.takeWhile_eq_self_iff]
      intro c hc
      simp [ne_of_mem_of_not_mem hc hnul]
    have hrest := ih fun l' hl' => h l' (List.mem_cons_of_mem l hl')
    rw [texts] at hrest ⊢
    rw [List.flatMap_cons, List.append_assoc, List.singleton_append, Lines.lines_line hnl, List.map_cons,
      hchomp, hstring, hrest]

theorem cleaned_eq (f : CString) (old : Content) :
    cleaned f old = ((texts old).filter (namesNone [f])).flatMap (· ++ [nl]) := by
  rw [cleaned, kept, texts]
  congr 2
  funext l
  simp [namesNone]

theorem cleaned_foldl {names : List CString} (h : names ≠ []) (old : Content) :
    names.foldl (fun c f => cleaned f c) old =
      ((texts old).filter (namesNone names)).flatMap (· ++ [nl]) := by
  induction names generalizing old with
  | nil => exact absurd rfl h
  | cons f names ih =>
    rw [List.foldl_cons]
    by_cases hn : names = []
    · rw [hn]
      exact cleaned_eq f old
    · rw [ih hn, cleaned_eq, texts_written, List.filter_filter]
      · congr 2
        funext l
        simp [namesNone, Bool.and_comm]
      · intro l hl
        exact mem_texts (List.mem_filter.mp hl).1

section
variable {tagfile : CString} {old : Content} {files₀ : CString → Option Content} {d : Disk}

/-- Somewhere are the tags without some first of the names; unless something was missed. -/
structure SafeAll (tagfile : CString) (old : Content) (names : List CString)
    (files₀ : CString → Option Content) (d : Disk) : Prop where
  tags : ∃ A B, names = A ++ B ∧
    (d.files tagfile = some (A.foldl (fun c f => cleaned f c) old) ∨
      d.files otags = some (A.foldl (fun c f => cleaned f c) old))
  others : ∀ name, name ≠ tagfile → name ≠ otags → d.files name = files₀ name

theorem after_missed {c : Call} {a : Answer c} (h : d.missed = true) : (after d c a).missed = true := by
  cases c with
  | fopenRead s name => cases a <;> exact h
  | fopenWrite s name => cases a <;> exact h
  | readline s =>
    obtain ⟨line, wrong⟩ := a
    cases wrong with
    | false => exact h
    | true => exact Bool.or_eq_true_iff.mpr (Or.inl h)
  | ferror s => exact h
  | fprintf s text =>
    cases a with
    | false => rfl
    | true =>
      rw [show after d (.fprintf s text) true = d.append s text from rfl, Disk.append]
      cases d.name s <;> exact h
  | fgetc s =>
    obtain ⟨c, wrong⟩ := a
    cases wrong with
    | false => exact h
    | true => rfl
  | fputc s c =>
    cases a with
    | false => exact h
    | true =>
      rw [show after d (.fputc s c) true = d.append s [c] from rfl, Disk.append]
      cases d.name s <;> exact h
  | fclose s =>
    simp only [after]
    split <;> exact h
  | rename src dst =>
    simp only [after]
    split <;> exact h
  | unlink name => cases a <;> exact h

theorem missed_meets {P : Disk → Prop} {Q : Disk → Except Stop Unit → Prop} (p : Sys Unit)
    (h : d.missed = true) :
    p.Meets (kernel fun d => d.missed = true ∨ P d) (fun d r => d.missed = true ∨ Q d r) d := by
  induction p generalizing d with
  | ret r => exact Or.inl h
  | call c k ih => exact ⟨Or.inl h, fun a _ => ih a (after_missed h)⟩

theorem meets_weaken {P P' : Disk → Prop} {Q : Disk → Except Stop Unit → Prop} {p : Sys Unit}
    (h : p.Meets (kernel P) Q d) (hP : ∀ d, P d → P' d) : p.Meets (kernel P') Q d := by
  induction p generalizing d with
  | ret r => exact h
  | call c k ih => exact ⟨hP d h.1, fun a ha => ih a (h.2 a ha)⟩

def fileNames (args : List Argument) : List CString :=
  (args.filter fun a => a.argType = .atFilename).map Argument.what

def cleanedAll (names : List CString) (old : Content) : Content :=
  names.foldl (fun c f => cleaned f c) old

/-- Turns enough for the tags as they are before and after each name. -/
def Enough (n : Nat) (names : List CString) (old : Content) : Prop :=
  ∀ A B, names = A ++ B →
    (Lines.lines nl (cleanedAll A old)).length < n ∧ (cleanedAll A old).length < n

structure Updated (tagfile : CString) (old : Content) (names : List CString)
    (files₀ : CString → Option Content) (d : Disk) : Prop where
  tags : d.files tagfile = some (cleanedAll names old)
  gone : names ≠ [] → d.files otags = none
  others : ∀ name, name ≠ tagfile → name ≠ otags → d.files name = files₀ name

theorem cleanedAll_concat (A : List CString) (f : CString) :
    cleanedAll (A ++ [f]) old = cleaned f (cleanedAll A old) := by
  rw [cleanedAll, cleanedAll, List.foldl_append]
  rfl

theorem updateArgument_meets (hne : tagfile ≠ otags) {n : Nat} {A B : List CString} (a : Argument)
    (h : Updated tagfile old A files₀ d) (hn : Enough n (A ++ (fileNames [a] ++ B)) old) :
    (updateArgument n tagfile a).Meets
      (kernel fun d => d.missed = true ∨ SafeAll tagfile old (A ++ (fileNames [a] ++ B)) files₀ d)
      (fun d r => d.missed = true ∨ Post (SafeAll tagfile old (A ++ (fileNames [a] ++ B)) files₀)
        (Updated tagfile old (A ++ fileNames [a]) files₀) d r) d := by
  obtain ⟨argType, f⟩ := a
  cases argType with
  | atOther =>
    right
    rw [show fileNames [⟨.atOther, f⟩] = [] from rfl, List.append_nil]
    exact h
  | atFilename =>
    rw [show fileNames [⟨.atFilename, f⟩] = [f] from rfl] at hn ⊢
    have hfuel := hn A ([f] ++ B) rfl
    have hfuel' := hn (A ++ [f]) B (List.append_assoc ..).symm
    rw [cleanedAll_concat] at hfuel'
    have hsafe (d : Disk) (hs : Safe tagfile (cleanedAll A old) (cleaned f (cleanedAll A old)) files₀ d) :
        d.missed = true ∨ SafeAll tagfile old (A ++ ([f] ++ B)) files₀ d := by
      obtain ⟨htags, hothers⟩ := hs
      rw [← cleanedAll_concat] at htags
      apply htags.imp_right
      intro htags
      refine ⟨?_, hothers⟩
      cases htags with
      | inl hold => exact ⟨A, [f] ++ B, rfl, Or.inl hold⟩
      | inr hnew => exact ⟨A ++ [f], B, (List.append_assoc ..).symm, hnew.symm⟩
    have hmeets := cleanMatchedFileTag_meets (f := f) hne h.tags h.others hfuel.1 hfuel'.2
    apply (meets_weaken hmeets hsafe).imp
    intro d r hr
    cases r with
    | ok _ =>
      obtain ⟨hothers, hdone⟩ := hr
      rw [← cleanedAll_concat] at hdone
      exact hdone.imp_right fun hd => ⟨hd.2, fun _ => hd.1, hothers⟩
    | error e =>
      cases e with
      | pfatal text => exact hsafe d hr
      | spin => exact hr.elim

theorem updateTags_meets (hne : tagfile ≠ otags) {n : Nat} {A : List CString} (args : List Argument)
    (h : Updated tagfile old A files₀ d) (hn : Enough n (A ++ fileNames args) old) :
    (updateTags n tagfile args).Meets
      (kernel fun d => d.missed = true ∨ SafeAll tagfile old (A ++ fileNames args) files₀ d)
      (fun d r => d.missed = true ∨ Post (SafeAll tagfile old (A ++ fileNames args) files₀)
        (Updated tagfile old (A ++ fileNames args) files₀) d r) d := by
  induction args generalizing A d with
  | nil =>
    right
    rw [show fileNames [] = [] from rfl, List.append_nil]
    exact h
  | cons a args ih =>
    have hnames : fileNames (a :: args) = fileNames [a] ++ fileNames args := by
      rw [fileNames, fileNames, fileNames, ← List.singleton_append, List.filter_append, List.map_append]
    rw [hnames] at hn ⊢
    apply (updateArgument_meets hne a h hn).bind
    · intro d' _ hd'
      cases hd' with
      | inl hm => exact missed_meets _ hm
      | inr hu =>
        rw [← List.append_assoc] at hn ⊢
        exact ih hu hn
    · intro d' e he
      cases e with
      | pfatal text => exact he
      | spin => exact he

theorem exists_enough (names : List CString) (old : Content) : ∃ N, ∀ n, N ≤ n → Enough n names old := by
  induction names using List.reverseRecOn with
  | nil =>
    refine ⟨(Lines.lines nl old).length + old.length + 1, ?_⟩
    intro n hn A B hAB
    obtain ⟨rfl, -⟩ := List.append_eq_nil_iff.mp hAB.symm
    rw [cleanedAll, List.foldl_nil]
    omega
  | append_singleton names f ih =>
    obtain ⟨N, hN⟩ := ih
    refine ⟨N + (Lines.lines nl (cleanedAll (names ++ [f]) old)).length +
      (cleanedAll (names ++ [f]) old).length + 1, ?_⟩
    intro n hn A B hAB
    obtain rfl | ⟨B, g, rfl⟩ := B.eq_nil_or_concat'
    · rw [List.append_nil] at hAB
      rw [← hAB]
      omega
    · rw [← List.append_assoc] at hAB
      obtain ⟨hAB, -⟩ := List.append_singleton_inj.mp hAB
      exact hN n (by omega) A B hAB

end

/-- The loop over the arguments: unless something of those three was missed, the tags without
some first of the names are in a file at every call; and where it returns, the tags file has the
lines in which no name stands between tabs, each with its newline, whatever the order of the
names and however often they are given. -/
theorem update_removes_names {tagfile : CString} (hne : tagfile ≠ otags) (args : List Argument)
    {d : Disk} {old : Content} (hold : d.files tagfile = some old) :
    (∃ N, ∀ n, N ≤ n → (updateTags n tagfile args).Meets
      (kernel fun d' => d'.missed = true ∨ SafeAll tagfile old (fileNames args) d.files d')
      (fun d' r => d'.missed = true ∨ Post (SafeAll tagfile old (fileNames args) d.files)
        (Updated tagfile old (fileNames args) d.files) d' r) d) ∧
      (fileNames args ≠ [] → cleanedAll (fileNames args) old =
        ((texts old).filter (namesNone (fileNames args))).flatMap (· ++ [nl])) := by
  refine ⟨?_, fun h => cleaned_foldl h old⟩
  obtain ⟨N, hN⟩ := exists_enough (fileNames args) old
  refine ⟨N, ?_⟩
  intro n hn
  have hstart : Updated tagfile old [] d.files d :=
    ⟨hold, fun h => absurd rfl h, fun _ _ _ => rfl⟩
  exact updateTags_meets hne args hstart (hN n hn)

theorem update_removes_names_one :
    let args : List Argument := [⟨.atFilename, .lit "a.c"⟩, ⟨.atOther, .lit "c"⟩]
    let old := (CString.lit "f\ta.c\t1").bytes
    (∃ N, ∀ n, N ≤ n → (updateTags n (.lit "tags") args).Meets
      (kernel fun d' => d'.missed = true ∨ SafeAll (.lit "tags") old (fileNames args) oneTag.files d')
      (fun d' r => d'.missed = true ∨ Post (SafeAll (.lit "tags") old (fileNames args) oneTag.files)
        (Updated (.lit "tags") old (fileNames args) oneTag.files) d' r) oneTag) ∧
      (fileNames args ≠ [] → cleanedAll (fileNames args) old =
        ((texts old).filter (namesNone (fileNames args))).flatMap (· ++ [nl])) := by
  intro args old
  have hne : CString.lit "tags" ≠ otags := by decide
  exact update_removes_names hne args oneTag_tags

end PkgsrcPatches.Emacs.TagUpdate
