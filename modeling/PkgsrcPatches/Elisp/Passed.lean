import PkgsrcPatches.Elisp.Followed

/-! The pass over the regexps it follows, with what Emacs 20 makes of the output. -/
namespace PkgsrcPatches.Elisp

section Runs
variable {fold : Bool}

/-! ### Tokens -/

theorem angle_iff (u v : List Char) {x : List Char} (hx : Closes x) {a : Char} (ha : a = '<' ∨ a = '>') :
    (u ++ (v ++ x)).head? = some a ↔ (u ++ v).head? = some a := by
  have hback : a ≠ '\\' := by
    obtain rfl | rfl := ha <;> decide
  rw [← List.append_assoc]
  constructor
  · exact fun h => head_of_closes hx h hback
  · intro h
    rw [List.head?_append, h]
    rfl

variable (fold) in
theorem traces_through (u : List Char) {h h' : Held} {y x : List Char} (hsym : h ≠ .symbol)
    (hu : h.through u y = some h') (hx : Closes x) {t : Translation} (ht : t.Bounded) (m : Marked) :
    ∃ t' d, Traces fold (t, m, h.text ++ (u ++ (y ++ x))) (t', m ++ d, h'.text ++ (y ++ x)) ∧
      t.After t' d.text [] 0 (List.replicate (h.tokens u) true) ∧ d.text ++ h'.text = h.text ++ u := by
  induction u generalizing h t m with
  | nil =>
    obtain rfl := Option.some.inj hu
    exact ⟨t, [], by rw [List.append_nil]; exact .refl, .refl ht, by simp⟩
  | cons c u ih =>
    -- a token that is complete, and the rest
    have htoken : ∀ (a : List Char), a ≠ [] → h.text ++ [c] = a →
        h.tokens (c :: u) = Held.nothing.tokens u + 1 →
        Held.nothing.through u y = some h' →
        e20Step fold t (h.text ++ (c :: u ++ (y ++ x))) = some (t.atom a, u ++ (y ++ x)) →
        intervalAt (h.text ++ (c :: u ++ (y ++ x))) = none →
        ∃ t' d, Traces fold (t, m, h.text ++ (c :: u ++ (y ++ x))) (t', m ++ d, h'.text ++ (y ++ x)) ∧
          t.After t' d.text [] 0 (List.replicate (h.tokens (c :: u)) true) ∧
            d.text ++ h'.text = h.text ++ (c :: u) := by
      intro a hne ha htokens hthrough hstep hat
      have hatom := Translation.after_atom ht hne []
      obtain ⟨t', d, hruns, hafter, htext⟩ := ih (h := .nothing) (by decide) hthrough hatom.bounded
        (m ++ placed a (h.text ++ (c :: u ++ (y ++ x))))
      rw [List.append_assoc] at hruns
      have hall : Marked.text (placed a (h.text ++ (c :: u ++ (y ++ x))) ++ d) = a ++ d.text := by
        rw [Marked.text_append, placed_text]
      have hafters := hatom.trans hafter
      rw [← List.replicate_succ', ← hall] at hafters
      refine ⟨t', _, .step hstep hat hatom.emitted hruns, htokens ▸ hafters, ?_⟩
      rw [hall, List.append_assoc, htext, ← ha, List.append_assoc]
      rfl
    cases h with
    | symbol => exact (hsym rfl).elim
    | nothing =>
      rw [Held.through] at hu
      · split at hu
        · cases hu
        · rename_i hopen
          by_cases hback : c = '\\'
          · subst hback
            rw [if_pos rfl] at hu
            obtain ⟨t', d, hruns, hafter, htext⟩ := ih (h := .backslash) (by decide) hu ht m
            exact ⟨t', d, hruns, hafter, htext⟩
          · rw [if_neg hback] at hu
            exact htoken [c] (List.cons_ne_nil _ _) rfl (if_neg hback) hu
              (step_char fold t hback hopen _) (intervalAt_of_ne hback _)
      · exact fun h => by cases h
    | backslash =>
      rw [Held.through] at hu
      split at hu
      · cases hu
      · rename_i hno
        simp only [List.mem_cons, List.not_mem_nil, or_false, not_or] at hno
        obtain ⟨⟨hopen, hclose, hbrace⟩, hsymbol⟩ := hno
        rw [← angle_iff u y hx (Or.inl rfl), ← angle_iff u y hx (Or.inr rfl)] at hsymbol
        refine htoken ['\\', c] (List.cons_ne_nil _ _) rfl rfl hu ?_ (intervalAt_escape hbrace _)
        exact step_other fold t hopen hclose hbrace hsymbol

/-! ### What Emacs 20 reads -/

theorem Leaf.NoClass.bracket {l : Leaf} (h : l.NoClass fold) :
    ∀ b, l = .bracket b → ∀ i ∈ b.items, ¬i.IsClass := by
  rintro b rfl
  exact h.2

theorem Reads.of_marks {m m' : Mode} {d : Marked} {u : List Char} {R : List Nat}
    (h : Reads m m' (u.map (·, 0)) [] R) (hm' : ∀ q, m' ≠ .escaped q) (hd : d.text = u) :
    Reads m m' d [] R :=
  h.of_text hm' ((map_mark u 0).trans hd.symm)

theorem leaf_reads {d' : Dialect} {l : Leaf} {ctx : Ctx} (hl : l.Wf d' ctx)
    (hno : ∀ b, l = .bracket b → ∀ i ∈ b.items, ¬i.IsClass) {d : Marked} (hd : d.text = l.text) :
    Reads .plain .plain d [] l.refs := by
  cases l with
  | char c =>
    refine .chars fun a ha => ?_
    rw [hd] at ha
    rw [List.mem_singleton.mp ha]
    exact ⟨hl.1, hl.2.1⟩
  | escape c =>
    have hc : c ≠ '(' ∧ c ∉ ['s', 'S', 'c', 'C'] := by
      cases d' with
      | emacs20 => simp_all [Leaf.Wf, Dialect.reserved]
      | emacs21 => simp_all [Leaf.Wf, Dialect.reserved]
    exact Reads.escape hc.1 hc.2 hd
  | coded k c =>
    have hall := (Reads.code hl 0 0).append (.coded (a := (c, 0)) (d := []) fun a ha => by cases ha)
    exact hall.of_marks (fun _ h => by cases h) hd
  | bracket b =>
    have hread := (copyBracket_cut hl []).2.2 0
    have hcopy := copyBracket_text hl (hno b rfl) []
    rw [List.append_nil] at hcopy
    rw [hcopy] at hread
    exact hread.of_marks (fun _ h => by cases h) hd

theorem suffix_reads (s : Suffix) {d : Marked} (hd : d.text = s.text) :
    Reads .plain .plain d [] [] := by
  cases s with
  | ops o =>
    refine .chars ?_
    rw [hd]
    exact ops_plain o
  | interval i =>
    have hopen := Reads.escape (c := '{') (by decide) (by decide) (d := [('\\', 0), ('{', 0)]) rfl
    have hspec : Reads .plain .plain (i.spec.map (·, 0)) [] [] :=
      .chars (by rw [map_mark]; exact spec_text i)
    have hclose := Reads.escape (c := '}') (by decide) (by decide) (d := [('\\', 0), ('}', 0)]) rfl
    have hall := hopen.append (hspec.append hclose)
    refine Reads.of_marks (u := (Suffix.interval i).text) ?_ (by simp) hd
    have hrefs : (Leaf.escape '{').refs = [] ∧ (Leaf.escape '}').refs = [] := by decide
    simpa [Suffix.text, hrefs] using hall

theorem Reads.beside {m m' m'' : Mode} {u v x : List Char} {O O' R R' : List Nat}
    (h : Reads m m' (placed u (u ++ (v ++ x))) O R) (h' : Reads m' m'' (placed v (v ++ x)) O' R') :
    Reads m m'' (placed (u ++ v) (u ++ v ++ x)) (O ++ O') (R ++ R') := by
  rw [List.append_assoc, placed_append]
  exact h.append h'

/-- On a regexp of Emacs 20 the groups and references it makes are those of the tree. -/
theorem scan_text (r : Regexp) {ctx : Ctx} (hwf : r.Wf .emacs20 ctx) (x : List Char) :
    Reads .plain .plain (placed r.text (r.text ++ x)) (r.places x.length) r.refs := by
  induction r generalizing ctx x with
  | nil =>
    rw [Regexp.text, placed_nil]
    exact .nil .plain
  | leaf l s rest ih =>
    obtain ⟨hl, hs, -, hrest⟩ := hwf
    have hno : ∀ b, l = .bracket b → ∀ i ∈ b.items, ¬i.IsClass := by
      rintro b rfl
      exact wf20_noClass hl.1
    have hbehind := Reads.beside (suffix_reads s (placed_text _ _)) (ih hrest x)
    have hall := Reads.beside (leaf_reads hl hno (placed_text _ _)) hbehind
    cases s with
    | ops o => exact hall
    | interval i => cases hs
  | group k body s rest ihbody ih =>
    obtain ⟨hk, hbody, hs, hrest⟩ := hwf
    have hclose : Reads .plain .plain
        (placed ['\\', ')'] (['\\', ')'] ++ (s.text ++ rest.text ++ x))) [] [] :=
      .escape (c := ')') (by decide) (by decide) (placed_text _ _)
    have hbehind := hclose.beside (Reads.beside (suffix_reads s (placed_text _ _)) (ih hrest x))
    have hinside := (ihbody hbody _).beside hbehind
    let y := body.text ++ (['\\', ')'] ++ (s.text ++ rest.text))
    have hparen : placed ['\\', '('] (['\\', '('] ++ (y ++ x)) =
        [('\\', (y ++ x).length + 2), ('(', (y ++ x).length + 1)] := by
      simp [placed]
    have hopen : Reads .plain .plain (placed ['\\', '('] (['\\', '('] ++ (y ++ x)))
        [(y ++ x).length + 2] [] := hparen ▸ .openParen _ _
    have hall := hopen.beside hinside
    cases k with
    | shy => cases hk
    | capturing =>
      cases s with
      | interval i => cases hs
      | ops o =>
        have hplace : (y ++ x).length + 2 =
            (Regexp.group .capturing body (.ops o) rest).text.length + x.length := by
          simp [Regexp.text, Kind.text, y]
          omega
        have hlen : (['\\', ')'] ++ ((Suffix.ops o).text ++ rest.text) ++ x).length =
            2 + (Suffix.ops o).text.length + rest.text.length + x.length := by
          simp
          omega
        rw [hplace, hlen] at hall
        exact hall
  | bar rest ih =>
    have hor : Reads .plain .plain (placed ['\\', '|'] (['\\', '|'] ++ (rest.text ++ x))) [] [] :=
      .escape (c := '|') (by decide) (by decide) (placed_text _ _)
    exact hor.beside (ih hwf x)

/-! ### Leaves -/

def Leaf.Passed (fold : Bool) (s : Suffix) (rest x : List Char) (h : Held) (μ : Mode)
    (t : Translation) (m : Marked) (l : Leaf) : Prop :=
  ∃ t' d μ', Traces fold (t, m, h.text ++ (l.text ++ (s.text ++ (rest ++ x))))
      (t', m ++ d, (h.next s rest l).text ++ (rest ++ x)) ∧
    t.After t' d.text (l.opens fold) 0 (l.stacked fold s rest h) ∧
    Reads μ μ' d (opened ((l.openers fold s).map (·, (l.text ++ (s.text ++ (rest ++ x))).length)))
      (if s.copies = 0 then [] else l.refs) ∧
    (h.next s rest l).Settles μ'

theorem opened_openers (l : Leaf) (s : Suffix) (p : Nat) :
    opened ((l.openers fold s).map (·, p)) =
      (List.replicate s.copies (if l.opens fold = [] then [] else [p])).flatten := by
  unfold Leaf.openers
  split
  · simp
  · simp [Opener.width, List.flatten_replicate_singleton]

theorem written_mem {s : Suffix} {a : List Char} {c : Char} (h : c ∈ s.written a) :
    c ∈ a ∨ c = '*' ∨ c = '+' ∨ c = '?' := by
  cases s with
  | ops o =>
    refine (List.mem_append.mp h).imp_right fun h => ?_
    obtain ⟨b, _, rfl⟩ := List.mem_map.mp h
    cases b <;> simp [PostOp.char]
  | interval i =>
    have hrep : ∀ n (u : List Char), c ∈ (List.replicate n u).flatten → c ∈ u :=
      fun n u h => (mem_flatten_replicate.mp h).2
    cases List.mem_append.mp h with
    | inl h => exact Or.inl (hrep _ _ h)
    | inr h =>
      split at h
      · cases List.mem_append.mp h with
        | inl h => exact Or.inl h
        | inr h => exact Or.inr (Or.inl (List.mem_singleton.mp h))
      · cases List.mem_append.mp (hrep _ _ h) with
        | inl h => exact Or.inl h
        | inr h => exact Or.inr (Or.inr (Or.inr (List.mem_singleton.mp h)))

theorem written_plain {s : Suffix} {a : List Char} (h : ∀ c ∈ a, c ≠ '\\' ∧ c ≠ '[') :
    ∀ c ∈ s.written a, c ≠ '\\' ∧ c ≠ '[' := by
  intro c hc
  obtain hc | rfl | rfl | rfl := written_mem hc
  · exact h c hc
  · decide
  · decide
  · decide

theorem written_cons {s : Suffix} {c : Char} {a : List Char} (h : s.copies ≠ 0) :
    ∃ u, s.written (c :: a) = c :: u := by
  cases s with
  | ops o => exact ⟨a ++ o.map PostOp.char, rfl⟩
  | interval i =>
    rw [Suffix.written, e20Rep_eq]
    cases hhi : i.hi with
    | none => cases i.lo <;> exact ⟨_, rfl⟩
    | some m =>
      cases m with
      | zero => exact (h (by simp [Suffix.copies, hhi])).elim
      | succ m => cases i.lo <;> exact ⟨_, rfl⟩

section Passed
variable {s : Suffix} {rest x : List Char} {t : Translation} {m : Marked}

theorem passed_token {l : Leaf} (ht : t.Bounded) (hm : m.text = t.emitted)
    (hstep : e20Step fold t (l.text ++ (s.text ++ (rest ++ x))) =
      some ({ t.atom (l.copyText fold) with groups := l.opens fold ++ t.groups },
        s.text ++ (rest ++ x)))
    (hat : intervalAt (l.text ++ (s.text ++ (rest ++ x))) = none)
    (hnext : Held.next s rest .nothing l = .nothing)
    (hstack : l.stacked fold s rest .nothing = s.leaves [true])
    (hread : Reads .plain .plain (placed (l.copyText fold) (l.text ++ (s.text ++ (rest ++ x))))
      (if l.opens fold = [] then [] else [(l.text ++ (s.text ++ (rest ++ x))).length]) l.refs) :
    l.Passed fold s rest x .nothing .plain t m := by
  rw [← opens_reverse l] at hstep
  obtain ⟨t', d, hruns, hafter, -, hreads⟩ := traces_token ht hm (copyText_ne_nil l) hstep hat
  refine ⟨t', d, .plain, ?_, ?_, ?_, ?_⟩
  · rw [hnext]
    exact hruns
  · rw [hstack]
    exact hafter
  · rw [opened_openers]
    exact hreads _ _ hread
  · rw [hnext]
    rfl

theorem passed_char {ctx : Ctx} {c : Char} (hl : (Leaf.char c).Wf .emacs21 ctx) (ht : t.Bounded)
    (hm : m.text = t.emitted) : (Leaf.char c).Passed fold s rest x .nothing .plain t m :=
  passed_token ht hm (step_char fold t hl.1 hl.2.1 _) (intervalAt_of_ne hl.1 _) rfl rfl
    (leaf_reads hl (by simp) (placed_text _ _))

theorem passed_escape {ctx : Ctx} {c : Char} (hl : (Leaf.escape c).Wf .emacs21 ctx) (hx : Closes x)
    (ht : t.Bounded) (hm : m.text = t.emitted) :
    (Leaf.escape c).Passed fold s rest x .nothing .plain t m := by
  by_cases hsym : c = '_' ∧ ((s.text ++ rest).head? = some '<' ∨ (s.text ++ rest).head? = some '>')
  · -- nothing is read before the angle bracket
    have hnext : Held.next s rest .nothing (.escape c) = .symbol := if_pos hsym
    have hs : s = .ops [] := by
      cases s with
      | ops o =>
        cases o with
        | nil => rfl
        | cons a o => cases a <;> simp [Suffix.text, PostOp.char] at hsym
      | interval i => simp [Suffix.text] at hsym
    have hstack : (Leaf.escape c).stacked fold s rest .nothing = [] := if_pos hnext
    obtain ⟨rfl, -⟩ := hsym
    refine ⟨t, [], .plain, ?_, ?_, ?_, ?_⟩
    · rw [hnext, List.append_nil, hs]
      exact .refl
    · rw [hstack]
      exact .refl ht
    · rw [opened_openers, hs]
      exact .nil .plain
    · rw [hnext]
      rfl
  · have hnext : Held.next s rest .nothing (.escape c) = .nothing := if_neg hsym
    have hstack : (Leaf.escape c).stacked fold s rest .nothing = s.leaves [true] :=
      if_neg (by rw [Leaf.symbol, if_neg hsym]; decide)
    have hbrace : c ≠ '{' := fun hc => hl (by rw [hc]; decide)
    refine passed_token ht hm (step_escape fold t hl fun hc => ?_) (intervalAt_escape hbrace _) hnext
      hstack (leaf_reads hl (by simp) (placed_text _ _))
    constructor
    · exact fun h => hsym ⟨hc, Or.inl ((angle_iff s.text rest hx (Or.inl rfl)).mp h)⟩
    · exact fun h => hsym ⟨hc, Or.inr ((angle_iff s.text rest hx (Or.inr rfl)).mp h)⟩

theorem joined_group {alts : List (List Char)} (h : (e20Joined alts).2 = true) :
    ∃ u, (e20Joined alts).1 = '\\' :: u := by
  match alts with
  | [] => cases h
  | [a] => cases h
  | a :: b :: alts => exact ⟨_, rfl⟩

theorem passed_class {b : Bracket} (hb : b.Wf .emacs21) (hpath : b.OnClassPath fold)
    (hknown : ItemsKnown b.items) (hcaret : e20Chars b.sel = ['^'] → b.all = true)
    (ht : t.Bounded) (hm : m.text = t.emitted) :
    (Leaf.bracket b).Passed fold s rest x .nothing .plain t m := by
  refine passed_token ht hm (step_bracket fold t hb (by rwa [if_pos hpath]) _)
    (intervalAt_of_ne (by decide) _) rfl (congrArg s.leaves (if_pos hpath)) ?_
  let re := (Leaf.bracket b).text ++ (s.text ++ (rest ++ x))
  have hread := b.reads_joined hb hcaret re.length
  rw [Leaf.copyText, if_pos hpath]
  cases hgroup : (e20Joined (b.alts.map Bracket.text)).2 with
  | true =>
    have hopens : (Leaf.bracket b).opens fold = [none] := if_pos ⟨hpath, hgroup⟩
    obtain ⟨u, hu⟩ := joined_group hgroup
    have hplaced : placed ('\\' :: u) re = ('\\' :: u).map (·, re.length) :=
      placed_ne (by decide) _ _
    rw [hgroup, hu] at hread
    rw [hopens, hu, hplaced]
    exact hread
  | false =>
    have hopens : (Leaf.bracket b).opens fold = [] := if_neg fun h => by
      rw [hgroup] at h
      cases h.2
    rw [hgroup] at hread
    rw [hopens]
    exact hread.of_text (fun _ h => by cases h) ((map_mark _ _).trans (placed_text _ _).symm)

theorem step_copied {b : Bracket} (hb : b.Wf .emacs21) (hpath : ¬b.OnClassPath fold) (y : List Char) :
    e20Step fold t (b.text ++ y) =
      some (t.atom (copyBracket b.text.tail).1, (copyBracket b.text.tail).2 ++ y) := by
  have hopen : b.text = '[' :: b.text.tail := rfl
  have htest := classPath_append fold hb y
  rw [classPath_false fold hpath, hopen, List.cons_append] at htest
  obtain ⟨hcopy, -, -⟩ := copyBracket_cut hb y
  rw [hopen, List.cons_append]
  simp only [e20Step, if_neg (by decide : ¬('[' = '\\')), if_true, e20OpenBracket, htest, hcopy]
  rfl

/-- A bracket expression that is copied, up to what the code takes for its end; the rest is
characters. -/
theorem passed_copied {b : Bracket} (hb : b.Wf .emacs21) (hpath : ¬b.OnClassPath fold)
    (hleft : ∀ c ∈ (copyBracket b.text.tail).2, c ≠ '\\' ∧ c ≠ '[') (ht : t.Bounded)
    (hm : m.text = t.emitted) : (Leaf.bracket b).Passed fold s rest x .nothing .plain t m := by
  obtain ⟨-, htext, hreads⟩ := copyBracket_cut hb []
  have hne : (copyBracket b.text.tail).1 ≠ [] := List.cons_ne_nil _ _
  have hstep := fun y => step_copied (t := t) hb hpath y
  have hopens : (Leaf.bracket b).opens fold = [] := if_neg fun h => hpath h.1
  have hstack : (Leaf.bracket b).stacked fold s rest .nothing =
      s.leaves (List.replicate ((copyBracket b.text.tail).2.length + 1) true) :=
    congrArg s.leaves (if_neg hpath)
  have hrefs : ∀ n : Nat, (if n = 0 then [] else (Leaf.bracket b).refs) = [] := by
    intro n
    split <;> rfl
  generalize (copyBracket b.text.tail).1 = a at hne hstep hreads
  generalize (copyBracket b.text.tail).2 = v at hleft hstep hstack
  let re := b.text ++ (s.text ++ (rest ++ x))
  have hat : intervalAt re = none := intervalAt_of_ne (by decide) _
  have hfirst : Reads .plain .plain (placed a re) [] [] :=
    (hreads 0).of_marks (fun _ h => by cases h) (placed_text a re)
  unfold Leaf.Passed
  rw [opened_openers, hopens, hrefs, hstack, if_pos rfl, List.flatten_replicate_nil]
  obtain rfl | ⟨v, c, rfl⟩ := List.eq_nil_or_concat' v
  · obtain ⟨t', d, hruns, hafter, -, hread⟩ := traces_token (g := []) ht hm hne (hstep _) hat
    have hd := hread _ _ hfirst
    rw [List.flatten_replicate_nil, ite_self] at hd
    exact ⟨t', d, .plain, hruns, hafter, hd, rfl⟩
  · -- the last of them is what an interval repeats
    have hatom := Translation.after_atom ht hne []
    have hv : ∀ c ∈ v, c ≠ '\\' ∧ c ≠ '[' := fun c hc => hleft c (List.mem_append_left _ hc)
    obtain ⟨hback, hopen⟩ := hleft c (List.mem_append_right _ (List.mem_singleton_self c))
    obtain ⟨t₁, d₁, hruns₁, hafter₁, htext₁⟩ := traces_chars fold v hv hatom.bounded
      (m ++ placed a re) (c :: (s.text ++ (rest ++ x)))
    have hm₁ : Marked.text (m ++ placed a re ++ d₁) = t₁.emitted := by
      rw [hafter₁.emitted, hatom.emitted, ← hm, Marked.text_append, Marked.text_append, placed_text]
    obtain ⟨t', d, hruns, hafter, htext', -⟩ := traces_token (x := rest ++ x) (s := s) (g := [])
      hafter₁.bounded hm₁ (List.cons_ne_nil c []) (step_char fold t₁ hback hopen _)
      (intervalAt_of_ne hback _)
    have hall := hruns₁.trans hruns
    rw [List.append_assoc, List.append_assoc] at hall
    refine ⟨t', placed a re ++ (d₁ ++ d), .plain, ?_, ?_, ?_, rfl⟩
    · refine .step (hstep _) hat (t.atom_emitted a) ?_
      rw [List.append_assoc]
      exact hall
    · have hafters := hatom.trans (hafter₁.trans hafter)
      have hentries : s.leaves (List.replicate ((v ++ [c]).length + 1) true) =
          s.leaves [true] ++ List.replicate v.length true ++ [true] := by
        rw [List.length_append, List.length_singleton]
        cases s with
        | ops o =>
          rw [Suffix.leaves, Suffix.leaves, List.append_assoc, List.append_assoc,
            ← List.replicate_succ', List.singleton_append, ← List.replicate_succ]
        | interval i =>
          rw [Suffix.leaves, Suffix.leaves, List.tail_replicate]
          exact List.replicate_succ'
      rw [hentries, Marked.text_append, Marked.text_append, placed_text]
      exact hafters
    · have hplain : ∀ a ∈ [c], a ≠ '\\' ∧ a ≠ '[' := by
        intro a ha
        rw [List.mem_singleton.mp ha]
        exact ⟨hback, hopen⟩
      have hchars := (Reads.chars (d := d₁) (by rwa [htext₁])).append
        (Reads.chars (d := d) (by rw [htext']; exact written_plain hplain))
      exact hfirst.append hchars

theorem passed_symbol {c : Char} (hc : c = '<' ∨ c = '>') (ht : t.Bounded)
    (hm : m.text = t.emitted) : (Leaf.char c).Passed fold s rest x .symbol .plain t m := by
  have hstep : e20Step fold t ('\\' :: '_' :: c :: (s.text ++ (rest ++ x))) =
      some (t.atom ['\\', c], s.text ++ (rest ++ x)) := by
    obtain rfl | rfl := hc <;> rfl
  obtain ⟨t', d, hruns, hafter, -, hread⟩ := traces_token (x := rest ++ x) (s := s) (g := []) ht hm
    (List.cons_ne_nil _ _) hstep (intervalAt_escape (by decide) _)
  have hescape : ∀ re, Reads .plain .plain (placed ['\\', c] re) [] [] := by
    intro re
    obtain rfl | rfl := hc
    · exact .escape (c := '<') (by decide) (by decide) (placed_text _ _)
    · exact .escape (c := '>') (by decide) (by decide) (placed_text _ _)
  have hrefs : (if s.copies = 0 then [] else (Leaf.char c).refs) = [] := by split <;> rfl
  refine ⟨t', d, .plain, hruns, hafter, ?_, rfl⟩
  rw [opened_openers, hrefs]
  have hd := hread _ _ (hescape _)
  rw [ite_self] at hd
  exact hd

/-! ### Leaves that are copied as other atoms -/

theorem opens_noClass {l : Leaf} (hno : l.NoClass fold) : l.opens fold = [] := by
  cases l with
  | bracket b => exact if_neg fun h => hno.1 h.1
  | char c => rfl
  | escape c => rfl
  | coded k c => rfl

theorem opened_noClass {l : Leaf} (hno : l.NoClass fold) (s : Suffix) (p : Nat) :
    opened ((l.openers fold s).map (·, p)) = [] := by
  rw [opened_openers, opens_noClass hno, if_pos rfl, List.flatten_replicate_nil]

section Misread
variable {h : Held} {μ : Mode} {l : Leaf} {ctx : Ctx}

theorem passed_whole (hl : l.Wf .emacs21 ctx) (hno : l.NoClass fold) (hsym : h ≠ .symbol)
    (hμ : h.Settles μ) (hnext : h.next s rest l = l.left s rest h)
    (hstack : l.stacked fold s rest h = l.copiedEntries s rest h) (hrep : ¬l.Repeated s rest h)
    (hf : h.through (l.text ++ s.text) rest ≠ none) (hx : Closes x) (ht : t.Bounded) :
    l.Passed fold s rest x h μ t m := by
  obtain ⟨h', hthrough⟩ := Option.ne_none_iff_exists'.mp hf
  have hnext' : h.next s rest l = h' := by
    rw [hnext, Leaf.left, if_neg hrep, hthrough]
    rfl
  have hstack' : l.stacked fold s rest h = List.replicate (h.tokens (l.text ++ s.text)) true := by
    rw [hstack, Leaf.copiedEntries, if_neg hrep]
  -- an interval on what refers to a group is one for the code too
  have hrefs : (if s.copies = 0 then [] else l.refs) = l.refs := by
    split
    · rename_i hzero
      have hi : s.IsInterval := by
        cases s with
        | ops o => cases hzero
        | interval i => trivial
      have hfirst : h.through l.text (s.text ++ rest) ≠ none := by
        intro hnone
        rw [Held.through_append, hnone] at hthrough
        cases hthrough
      obtain ⟨h₁, hfirst⟩ := Option.ne_none_iff_exists'.mp hfirst
      cases h₁ with
      | nothing => exact (hrep ⟨hi, hfirst⟩).elim
      | backslash => exact (Leaf.refs_of_backslash hsym hfirst).symm
      | symbol => exact (Held.through_ne_symbol hsym hfirst rfl).elim
    · rfl
  obtain ⟨t', d, hruns, hafter, htext⟩ := traces_through fold (l.text ++ s.text) hsym hthrough hx ht m
  obtain ⟨μ', hread, hμ'⟩ := Held.settle hsym (Held.through_ne_symbol hsym hthrough) hμ htext
    (R := l.refs) (by
      intro e he
      obtain ⟨d₁, d₂, rfl, hleaf, hsuffix⟩ := List.map_eq_append_iff.mp he
      have hall := (leaf_reads hl hno.bracket hleaf).append (suffix_reads s hsuffix)
      rwa [List.append_nil, List.append_nil] at hall)
  rw [List.append_assoc] at hruns
  refine ⟨t', d, μ', ?_, ?_, ?_, ?_⟩
  · rw [hnext']
    exact hruns
  · rw [hstack', opens_noClass hno]
    exact hafter
  · rw [opened_noClass hno, hrefs]
    exact hread
  · rw [hnext']
    exact hμ'

theorem passed_one (hl : l.Wf .emacs21 ctx) (hno : l.NoClass fold) (hsym : h ≠ .symbol)
    (hμ : h.Settles μ) (hnext : h.next s rest l = l.left s rest h)
    (hstack : l.stacked fold s rest h = l.copiedEntries s rest h) (hrep : l.Repeated s rest h)
    (hone : s.copies = 1) (hx : Closes x) (ht : t.Bounded) : l.Passed fold s rest x h μ t m := by
  have hnext' : h.next s rest l = .nothing := by rw [hnext, Leaf.left, if_pos hrep]
  have hstack' : l.stacked fold s rest h = (List.replicate (h.tokens l.text) true).tail := by
    rw [hstack, Leaf.copiedEntries, if_pos hrep]
  obtain ⟨hi, hthrough⟩ := hrep
  obtain ⟨t₁, d₁, hruns₁, hafter₁, htext⟩ := traces_through fold l.text hsym hthrough hx ht m
  obtain ⟨μ₁, hread₁, hμ₁⟩ := Held.settle hsym (by decide) hμ htext
    (R := l.refs) fun e he => leaf_reads hl hno.bracket he
  obtain rfl : μ₁ = .plain := hμ₁
  have hpos : 0 < h.tokens l.text :=
    Held.tokens_pos hthrough (List.length_pos_iff.mp (Regexp.text_pos l))
  obtain ⟨n, hn⟩ := Nat.exists_eq_succ_of_ne_zero (Nat.ne_of_gt hpos)
  have hhead : (t₁.atoms.map Start.IsNumber).head? = some true := by
    rw [hafter₁.entries, hn]
    rfl
  obtain ⟨k, htop, hmem⟩ := Translation.exists_number_of_head hhead
  cases s with
  | ops o => exact hi.elim
  | interval i =>
    obtain ⟨t', d₂, hruns₂, hafter₂, -, hread₂⟩ := traces_one (k := k) hafter₁
      (by rw [hn]; exact List.cons_ne_nil _ _) hone (by rw [htop]; rfl) (hafter₁.bounded.atoms k hmem) m
      (rest ++ x)
    rw [List.append_assoc] at hruns₁
    refine ⟨t', d₁ ++ d₂, .plain, ?_, ?_, ?_, ?_⟩
    · rw [hnext']
      exact hruns₁.trans hruns₂
    · rw [hstack', opens_noClass hno]
      exact hafter₂
    · rw [opened_noClass hno, hone]
      have hall := hread₁.append hread₂
      rwa [List.append_nil, List.append_nil] at hall
    · rw [hnext']
      rfl

theorem passed_last (hl : l.Wf .emacs21 ctx) (hno : l.NoClass fold) (hsym : h ≠ .symbol)
    (hμ : h.Settles μ) (hnext : h.next s rest l = l.left s rest h)
    (hstack : l.stacked fold s rest h = l.copiedEntries s rest h) (hrep : l.Repeated s rest h)
    (hcopies : s.copies ≠ 0) (halone : l.Alone s rest h) (hx : Closes x) (ht : t.Bounded)
    (hm : m.text = t.emitted) : l.Passed fold s rest x h μ t m := by
  have hnext' : h.next s rest l = .nothing := by rw [hnext, Leaf.left, if_pos hrep]
  have hstack' : l.stacked fold s rest h = (List.replicate (h.tokens l.text) true).tail := by
    rw [hstack, Leaf.copiedEntries, if_pos hrep]
  obtain ⟨hi, hthrough⟩ := hrep
  have hleaves : s.leaves [true] = [] := by
    cases s with
    | ops o => exact hi.elim
    | interval i => rfl
  obtain hnil | ⟨u, c, hu⟩ := List.eq_nil_or_concat' l.text
  · exact (List.length_pos_iff.mp (Regexp.text_pos l) hnil).elim
  rw [Leaf.Alone, hu, List.dropLast_concat, List.getLast?_concat] at halone
  have hc : c ≠ '[' ∧ c ≠ '\\' := by
    have hlast : h.through u ([c] ++ (s.text ++ rest)) = some .nothing := halone
    rw [hu, Held.through_append, hlast] at hthrough
    simp only [Option.bind_some, Held.through] at hthrough
    split at hthrough
    · cases hthrough
    · rename_i hopen
      refine ⟨hopen, fun hback => ?_⟩
      rw [if_pos hback] at hthrough
      cases hthrough
  have htokens : h.tokens l.text = h.tokens u + 1 := by
    rw [hu, Held.tokens_append halone]
    simp [Held.tokens, hc.2]
  obtain ⟨t₁, d₁, hruns₁, hafter₁, htext₁⟩ := traces_through fold u hsym halone hx ht m
  have hm₁ := hafter₁.marked hm
  obtain ⟨t', d₂, hruns₂, hafter₂, htext₂, -⟩ := traces_token (x := rest ++ x) (s := s) (g := [])
    hafter₁.bounded hm₁ (List.cons_ne_nil c []) (step_char fold _ hc.2 hc.1 _) (intervalAt_of_ne hc.2 _)
  have hstart : Traces fold (t, m, h.text ++ (u ++ ([c] ++ (s.text ++ (rest ++ x)))))
      (t₁, m ++ d₁, c :: (s.text ++ (rest ++ x))) := by
    simpa [Held.text] using hruns₁
  have hruns : Traces fold (t, m, h.text ++ (l.text ++ (s.text ++ (rest ++ x))))
      (t', m ++ (d₁ ++ d₂), rest ++ x) := by
    rw [List.append_assoc] at hruns₂
    rw [hu, List.append_assoc]
    exact hstart.trans hruns₂
  have hplain : ∀ a ∈ s.written [c], a ≠ '\\' ∧ a ≠ '[' := by
    refine written_plain fun a ha => ?_
    rw [List.mem_singleton.mp ha]
    exact ⟨hc.2, hc.1⟩
  obtain ⟨w, hw⟩ := written_cons (c := c) (a := []) hcopies
  rw [hw] at htext₂ hplain
  cases d₂ with
  | nil => cases htext₂
  | cons a d₂ =>
    obtain ⟨ha, rfl⟩ := List.cons.inj htext₂
    -- up to the first copy it is the caller's leaf
    have hfirst : Marked.text (d₁ ++ [a]) ++ Held.nothing.text = h.text ++ l.text := by
      rw [hu, ← List.append_assoc, ← htext₁, Marked.text, List.map_append, List.map_singleton, ha]
      simp [Held.text]
    obtain ⟨μ', hread, rfl⟩ := Held.settle hsym (by decide) hμ hfirst
      (R := l.refs) fun e he => leaf_reads hl hno.bracket he
    refine ⟨t', d₁ ++ a :: d₂, .plain, ?_, ?_, ?_, ?_⟩
    · rw [hnext']
      exact hruns
    · have hall := hafter₁.trans hafter₂
      rw [hleaves, ← List.map_append] at hall
      rw [hstack', htokens, opens_noClass hno]
      exact hall
    · have hall := hread.append (.chars fun b hb => hplain b (List.mem_cons_of_mem _ hb))
      rw [opened_noClass hno, if_neg hcopies]
      simpa using hall
    · rw [hnext']
      rfl

theorem passed_misread (hl : l.Wf .emacs21 ctx) (hno : l.NoClass fold) (hsym : h ≠ .symbol)
    (hμ : h.Settles μ) (hnext : h.next s rest l = l.left s rest h)
    (hstack : l.stacked fold s rest h = l.copiedEntries s rest h) (hf : l.Copied s rest h)
    (hx : Closes x) (ht : t.Bounded) (hm : m.text = t.emitted) :
    l.Passed fold s rest x h μ t m := by
  by_cases hrep : l.Repeated s rest h
  · rw [Leaf.Copied, if_pos hrep] at hf
    obtain hone | ⟨hcopies, halone⟩ := hf
    · exact passed_one hl hno hsym hμ hnext hstack hrep hone hx ht
    · exact passed_last hl hno hsym hμ hnext hstack hrep hcopies halone hx ht hm
  · rw [Leaf.Copied, if_neg hrep] at hf
    exact passed_whole hl hno hsym hμ hnext hstack hrep hf hx ht

end Misread

theorem passed_leaf {l : Leaf} {ctx : Ctx} {h : Held} {μ : Mode} (hl : l.Wf .emacs21 ctx)
    (hf : l.Followed fold s rest h) (hknown : ¬l.Unknown fold) (hμ : h.Settles μ) (hx : Closes x)
    (ht : t.Bounded) (hm : m.text = t.emitted) : l.Passed fold s rest x h μ t m := by
  cases h with
  | nothing =>
    obtain rfl : μ = .plain := hμ
    cases l with
    | char c => exact passed_char hl ht hm
    | escape c => exact passed_escape hl hx ht hm
    | coded k c =>
      exact passed_misread hl hf.1 (by decide) rfl rfl rfl hf.2 hx ht hm
    | bracket b =>
      have hfollowed : b.Followed fold := hf
      by_cases hpath : b.OnClassPath fold
      · rw [Bracket.Followed, if_pos hpath] at hfollowed
        have hitems : ItemsKnown b.items := by_contra fun hno => hknown ⟨hpath, hno⟩
        exact passed_class hl hpath hitems (hfollowed hitems) ht hm
      · rw [Bracket.Followed, if_neg hpath] at hfollowed
        exact passed_copied hl hpath hfollowed ht hm
  | backslash =>
    have hmisread : l.NoClass fold ∧ l.Copied s rest .backslash := by cases l <;> exact hf
    have hnext : Held.next s rest .backslash l = l.left s rest .backslash := by cases l <;> rfl
    have hstack : l.stacked fold s rest .backslash = l.copiedEntries s rest .backslash := by
      cases l <;> rfl
    exact passed_misread hl hmisread.1 (by decide) hμ hnext hstack hmisread.2 hx ht hm
  | symbol =>
    obtain rfl : μ = .plain := hμ
    cases l with
    | char c => exact passed_symbol hf ht hm
    | escape c => exact hf.elim
    | coded k c => exact hf.elim
    | bracket b => exact hf.elim

end Passed

/-! ### Bodies -/

theorem traces_bar {h : Held} (hsym : h ≠ .symbol) {μ : Mode} (hμ : h.Settles μ) {y x : List Char}
    (hx : Closes x) {t : Translation} (ht : t.Bounded) (m : Marked) :
    ∃ t' d, Traces fold (t, m, h.text ++ (['\\', '|'] ++ (y ++ x))) (t', m ++ d, y ++ x) ∧
      t.After t' d.text [] 0 (List.replicate (h.tokens ['\\', '|']) true) ∧
      Reads μ .plain d [] [] := by
  have hthrough : h.through ['\\', '|'] y = some .nothing := by
    cases h with
    | symbol => exact (hsym rfl).elim
    | nothing => simp [Held.through]
    | backslash => simp [Held.through]
  obtain ⟨t', d, hruns, hafter, htext⟩ := traces_through fold _ hsym hthrough hx ht m
  obtain ⟨μ', hread, rfl⟩ := Held.settle hsym (by decide : Held.nothing ≠ .symbol) hμ htext (R := [])
    fun e he => .escape (c := '|') (by decide) (by decide) he
  exact ⟨t', d, hruns, hafter, hread⟩

/-- The induction over the body: the groups of the output are those of the tree, with their places. -/
theorem traces_regexp (r : Regexp) {ctx : Ctx} {h : Held} {μ : Mode} (hwf : r.Wf .emacs21 ctx)
    (hf : r.Followed fold h) (hno : ¬r.Stops fold h) (hμ : h.Settles μ) {t : Translation}
    (ht : t.Bounded) {m : Marked} (hm : m.text = t.emitted) {x : List Char} (hx : Closes x) :
    ∃ t' d μ', Traces fold (t, m, h.text ++ (r.text ++ x)) (t', m ++ d, (r.held h).text ++ x) ∧
      t.After t' d.text (r.recorded fold t.orig) r.captures (r.stacked fold h) ∧
      Reads μ μ' d (opened (r.located fold x.length)) r.refs ∧ (r.held h).Settles μ' := by
  induction r generalizing ctx h μ t m x with
  | nil => exact ⟨t, [], μ, by rw [List.append_nil]; exact .refl, .refl ht, .nil _, hμ⟩
  | leaf l s rest ih =>
    obtain ⟨hl, _, _, hrest⟩ := hwf
    obtain ⟨hfl, hfrest⟩ := hf
    obtain ⟨hknown, hnorest⟩ := not_or.mp hno
    obtain ⟨t₁, d₁, μ₁, hruns, hafter, hread, hμ₁⟩ :=
      passed_leaf hl hfl hknown hμ hx ht hm
    have hm₁ := hafter.marked hm
    obtain ⟨t', d, μ', hruns', hafter', hread', hμ'⟩ :=
      ih hrest hfrest hnorest hμ₁ hafter.bounded hm₁ hx
    rw [List.append_assoc] at hruns'
    refine ⟨t', d₁ ++ d, μ', ?_, ?_, ?_, hμ'⟩
    · rw [Regexp.text, List.append_assoc, List.append_assoc]
      exact hruns.trans hruns'
    · have hall := hafter.trans hafter'
      rw [Nat.zero_add, hafter.orig] at hall
      rw [Marked.text_append]
      exact hall
    · have hplace : (l.text ++ (s.text ++ (rest.text ++ x))).length =
          (Regexp.leaf l s rest).text.length + x.length := by
        simp [Regexp.text, Nat.add_assoc]
      rw [hplace] at hread
      rw [Regexp.located, opened_append]
      exact hread.append hread'
  | group k body s rest ihbody ih =>
    obtain ⟨hkwf, hbody, _, hrest⟩ := hwf
    obtain ⟨rfl, hfbody, hheld, hone, hfrest⟩ := hf
    obtain rfl : μ = .plain := hμ
    obtain ⟨hnobody, hno⟩ := not_or.mp hno
    obtain ⟨htop, hnorest⟩ := not_or.mp hno
    have hnumber : s.IsInterval → (body.stacked fold .nothing ++ [true]).head? = some true :=
      fun hi => by_contra fun h => htop ⟨hi, h⟩
    have hcopies : s.IsInterval → s.copies = 1 := fun hi => hone hi (hnumber hi)
    have hopen := Translation.after_open ht k
    let y := '\\' :: ')' :: (s.text ++ (rest.text ++ x))
    let p := (k.text ++ (body.text ++ y)).length
    have hplace : p = (Regexp.group k body s rest).text.length + x.length := by
      simp [p, Regexp.text, y]
      omega
    have hm₀ : Marked.text (m ++ [('\\', p), ('(', p - 1)]) = (k.opened t).emitted := by
      rw [hopen.emitted, Marked.text_append, hm]
      rfl
    obtain ⟨tb, db, μb, hruns, hafter, hread, hμb⟩ := ihbody hbody hfbody hnobody Held.settles_nothing
      hopen.bounded hm₀ (x := y) (Or.inr ⟨_, rfl⟩)
    rw [hheld] at hruns hμb
    obtain rfl : μb = .plain := hμb
    obtain ⟨t₁, d₁, hgroup, hafter₁, hread₁⟩ := traces_group (take_of_wf hkwf) ht rfl hruns hafter hread
      fun hi => ⟨hcopies hi, hnumber hi⟩
    have hm₁ := hafter₁.marked hm
    obtain ⟨t', d, μ', hruns', hafter', hread', hμ'⟩ :=
      ih hrest hfrest hnorest Held.settles_nothing hafter₁.bounded hm₁ hx
    rw [List.append_assoc] at hruns'
    have hnone : (if s.copies = 0 then [] else body.refs) = body.refs := by
      cases s with
      | ops o => rfl
      | interval i => rw [hcopies trivial]; rfl
    refine ⟨t', d₁ ++ d, μ', ?_, ?_, ?_, hμ'⟩
    · have htext : (Regexp.group k body s rest).text ++ x = k.text ++ (body.text ++ y) := by
        simp [Regexp.text, y]
      rw [htext]
      exact hgroup.trans hruns'
    · have hall := hafter₁.trans hafter'
      have horig : t₁.orig = t.orig + k.captures + body.captures := by
        rw [hafter₁.orig, Nat.add_assoc]
      have horig' : (k.opened t).orig = t.orig + k.captures := hopen.orig
      rw [horig, horig'] at hall
      rw [Marked.text_append]
      exact hall
    · have hlen : y.length = 2 + s.text.length + rest.text.length + x.length := by
        simp [y]
        omega
      have hall := hread₁.append hread'
      have hwidth : k.opener.width = 1 := by cases k <;> rfl
      change Reads _ _ _ (p :: _ ++ _) _ at hall
      rw [hlen, hplace] at hall
      rw [Regexp.located, opened_cons, opened_append, hwidth, Regexp.refs, hnone]
      exact hall
  | bar rest ih =>
    obtain ⟨hsym, hfrest⟩ := hf
    obtain ⟨t₁, d₁, hruns, hafter, hread⟩ := traces_bar hsym hμ (y := rest.text) hx ht m
    have hm₁ := hafter.marked hm
    obtain ⟨t', d, μ', hruns', hafter', hread', hμ'⟩ :=
      ih hwf hfrest hno Held.settles_nothing hafter.bounded hm₁ hx
    rw [List.append_assoc] at hruns'
    refine ⟨t', d₁ ++ d, μ', hruns.trans hruns', ?_, hread.append hread', hμ'⟩
    have hall := hafter.trans hafter'
    rw [Nat.zero_add, hafter.orig] at hall
    rw [Marked.text_append]
    exact hall

end Runs

end PkgsrcPatches.Elisp
