import PkgsrcPatches.Elisp.Traced

/-! The pass over single atoms and over what makes a group of a body, with the places of
what it puts out and with what Emacs 20 makes of that. -/
namespace PkgsrcPatches.Elisp

section Runs
variable {fold : Bool}

/-! ### Atoms -/

theorem Translation.After.marked {t t' : Translation} {m d : Marked} {g : List (Option Nat)} {n : Nat}
    {e : List Bool} (h : t.After t' d.text g n e) (hm : m.text = t.emitted) :
    Marked.text (m ++ d) = t'.emitted := by
  rw [h.emitted, Marked.text_append, hm]

variable (fold) in
theorem traces_chars (u : List Char) (hu : ∀ c ∈ u, c ≠ '\\' ∧ c ≠ '[') {t : Translation}
    (ht : t.Bounded) (m : Marked) (x : List Char) :
    ∃ t' d, Traces fold (t, m, u ++ x) (t', m ++ d, x) ∧
      t.After t' d.text [] 0 (List.replicate u.length true) ∧ d.text = u := by
  induction u generalizing t m with
  | nil => exact ⟨t, [], by rw [List.append_nil]; exact .refl, .refl ht, rfl⟩
  | cons c u ih =>
    obtain ⟨⟨hback, hopen⟩, hu⟩ := List.forall_mem_cons.mp hu
    have hatom := Translation.after_atom ht (List.cons_ne_nil c []) []
    obtain ⟨t', d, hruns, hafter, htext⟩ := ih hu hatom.bounded (m ++ placed [c] (c :: (u ++ x)))
    rw [List.append_assoc] at hruns
    have hall : Marked.text (placed [c] (c :: (u ++ x)) ++ d) = [c] ++ d.text := by
      rw [Marked.text_append, placed_text]
    refine ⟨t', _, .step (step_char fold t hback hopen _) (intervalAt_of_ne hback _)
      hatom.emitted hruns, ?_, by rw [hall, htext]; rfl⟩
    have hafters := hatom.trans hafter
    rw [← List.replicate_succ', ← hall] at hafters
    exact hafters

theorem ops_plain (o : List PostOp) : ∀ c ∈ o.map PostOp.char, c ≠ '\\' ∧ c ≠ '[' := by
  intro c hc
  obtain ⟨a, _, rfl⟩ := List.mem_map.mp hc
  cases a <;> decide

theorem Reads.copied {d : Marked} {O R : List Nat} (h : Reads .plain .plain d O R) (i : Interval)
    (p : Nat) : Reads .plain .plain (copied i.lo i.hi ('*', p) ('?', p) d)
      (List.replicate (Suffix.interval i).copies O).flatten
      (if (Suffix.interval i).copies = 0 then [] else R) := by
  have hop : ∀ c : Char, c ≠ '\\' → c ≠ '[' → Reads .plain .plain (d ++ [(c, p)]) O R := by
    intro c hback hopen
    have hall := h.append (.chars (d := [(c, p)]) fun a ha => by
      rw [List.mem_singleton.mp ha]
      exact ⟨hback, hopen⟩)
    rwa [List.append_nil, List.append_nil] at hall
  have hrefs : ∀ n k, k ∈ (List.replicate n R).flatten ↔ k ∈ if n = 0 then [] else R := by
    intro n k
    rw [mem_flatten_replicate]
    split <;> simp_all
  cases hhi : i.hi with
  | none =>
    have hall := (h.replicate i.lo).append (hop '*' (by decide) (by decide))
    have hcopies : (Suffix.interval i).copies = i.lo + 1 := by simp [Suffix.copies, hhi]
    rw [hcopies, List.replicate_succ', List.flatten_append, List.flatten_singleton]
    refine hall.congr_refs fun n => ?_
    rw [List.mem_append, hrefs]
    split <;> simp_all
  | some m =>
    have hle := Interval.lo_le_hi hhi
    have hall := (h.replicate i.lo).append ((hop '?' (by decide) (by decide)).replicate (m - i.lo))
    have hcopies : (Suffix.interval i).copies = m := by simp [Suffix.copies, hhi]
    have hjoin : ∀ l : List Nat, (List.replicate i.lo l).flatten ++ (List.replicate (m - i.lo) l).flatten =
        (List.replicate m l).flatten := by
      intro l
      rw [← List.flatten_append, List.replicate_append_replicate, Nat.add_sub_cancel' hle]
    rw [hjoin, hjoin] at hall
    rw [hcopies]
    exact hall.congr_refs (hrefs m)

variable (fold) in
theorem traces_suffix (s : Suffix) {t : Translation} (ht : t.Bounded) {m : Marked}
    (hm : m.text = t.emitted) {a : Marked} (ha : a.text ≠ []) (g : List (Option Nat)) (x : List Char) :
    ∃ t' d, Traces fold ({ t.atom a.text with groups := g.reverse ++ t.groups },
        m ++ a, s.text ++ x) (t', m ++ d, x) ∧
      t.After t' d.text g 0 (s.leaves [true]) ∧ d.text = s.written a.text ∧
      ∀ O R, Reads .plain .plain a O R →
        Reads .plain .plain d (List.replicate s.copies O).flatten (if s.copies = 0 then [] else R) := by
  have hatom := Translation.after_atom ht ha g
  cases s with
  | ops o =>
    obtain ⟨t', d, hruns, hafter, htext⟩ :=
      traces_chars fold _ (ops_plain o) hatom.bounded (m ++ a) x
    rw [List.append_assoc] at hruns
    rw [List.length_map] at hafter
    have hboth : Marked.text (a ++ d) = a.text ++ o.map PostOp.char := by
      rw [Marked.text_append, htext]
    refine ⟨t', _, hruns, ?_, hboth, fun O R h => ?_⟩
    · have hall := hatom.trans hafter
      rw [htext, ← hboth, List.append_nil] at hall
      exact hall
    · have hall := h.append (.chars (d := d) (by rw [htext]; exact ops_plain o))
      simpa [Suffix.copies] using hall
  | interval i =>
    have hstep := step_interval fold { t.atom a.text with groups := g.reverse ++ t.groups } i x
    rw [interval_atom] at hstep
    have hlen : m.length = t.emitted.length := by rw [← hm, Marked.text, List.length_map]
    have hafter := Translation.after_interval ht i a.text g
    let q := ((Suffix.interval i).text ++ x).length
    -- the characters repeated are those of the atom
    have htraced : Traces fold ({ t.atom a.text with groups := g.reverse ++ t.groups },
        m ++ a, (Suffix.interval i).text ++ x)
        ({ t with out := [t.emitted ++ e20Rep i.lo i.hi a.text], groups := g.reverse ++ t.groups },
          m ++ copied i.lo i.hi ('*', q) ('?', q) a, x) := by
      refine .head hstep ?_
      have htop : ({ t.atom a.text with groups := g.reverse ++ t.groups } :
          Translation).atoms.headD .missing = .number m.length := by rw [hlen]; rfl
      simp only [Translation.traced, intervalAt_text, htop, Start.offset, Option.getD_some,
        e20Bounds_spec, List.take_left, List.drop_left]
      exact .refl
    have htext := copied_text i.lo i.hi q a
    refine ⟨_, _, htraced, ?_, htext, fun O R h => h.copied i _⟩
    rw [htext]
    exact hafter

theorem traces_token {s : Suffix} {t : Translation} (ht : t.Bounded) {m : Marked}
    (hm : m.text = t.emitted) {a re x : List Char} (ha : a ≠ []) {g : List (Option Nat)}
    (hstep : e20Step fold t re =
      some ({ t.atom a with groups := g.reverse ++ t.groups }, s.text ++ x))
    (hat : intervalAt re = none) :
    ∃ t' d, Traces fold (t, m, re) (t', m ++ d, x) ∧ t.After t' d.text g 0 (s.leaves [true]) ∧
      d.text = s.written a ∧ ∀ O R, Reads .plain .plain (placed a re) O R →
        Reads .plain .plain d (List.replicate s.copies O).flatten (if s.copies = 0 then [] else R) := by
  have htext := placed_text a re
  obtain ⟨t', d, hruns, hafter⟩ := traces_suffix fold s ht hm (a := placed a re) (by rwa [htext]) g x
  rw [htext] at hruns hafter
  exact ⟨t', d, .step hstep hat (t.atom_emitted a) hruns, hafter⟩

theorem traces_one {t u : Translation} {d : Marked} {g : List (Option Nat)} {n : Nat} {e : List Bool}
    (h : t.After u d.text g n e) (hne : e ≠ []) {i : Interval}
    (hone : (Suffix.interval i).copies = 1) {k : Nat}
    (htop : (u.atoms.headD .missing).offset = some k) (hk : k ≤ u.emitted.length) (m : Marked)
    (x : List Char) :
    ∃ t' d', Traces fold (u, m ++ d, (Suffix.interval i).text ++ x) (t', m ++ (d ++ d'), x) ∧
      t.After t' (Marked.text (d ++ d')) g n e.tail ∧
      Marked.text (d ++ d') = (Suffix.interval i).written d.text ∧ Reads .plain .plain d' [] [] := by
  obtain ⟨t', hinterval, hafter⟩ := h.one hne hone htop hk
  have hstep := step_interval fold u i x
  rw [hinterval] at hstep
  let r := ((Suffix.interval i).text ++ x).length
  have hread := (Reads.nil .plain).copied i r
  rw [hone] at hread
  have htext : Marked.text (d ++ copied i.lo i.hi ('*', r) ('?', r) []) = d.text ++ e20Rep i.lo i.hi [] := by
    rw [Marked.text_append, copied_text]
    rfl
  refine ⟨t', copied i.lo i.hi ('*', r) ('?', r) [], .head hstep ?_, htext ▸ hafter, ?_, hread⟩
  · -- with one copy nothing moves
    simp only [Translation.traced, intervalAt_text, e20Bounds_spec]
    rw [copied_one hone, ← List.append_assoc, List.take_append_drop, List.append_assoc]
    exact .refl
  · rw [htext, Suffix.written, e20Rep_one hone d.text]

/-! ### Groups -/

/-- From behind the closing parenthesis of a group on. -/
theorem traces_closed {k : Kind} {body : List Char} {s : Suffix} {g : List (Option Nat)} {n : Nat}
    {e : List Bool} {t tb : Translation} (ht : t.Bounded) (hbody : (k.opened t).After tb body g n e)
    {d : Marked} (hd : d.text = '\\' :: '(' :: (body ++ ['\\', ')']))
    (hone : s.IsInterval → s.copies = 1 ∧ (e ++ [true]).head? = some true) (m : Marked)
    (rest : List Char) :
    ∃ t' d', Traces fold (tb.closeGroup, m ++ d, s.text ++ rest) (t', m ++ (d ++ d'), rest) ∧
      t.After t' (Marked.text (d ++ d')) (k.recorded t.orig :: g) (k.captures + n)
        (s.leaves (false :: (e ++ [true]).tail)) ∧
      Marked.text (d ++ d') = s.written d.text ∧ Reads .plain .plain d' [] [] := by
  have hclosed := Translation.after_group ht k hbody
  rw [← hd] at hclosed
  cases s with
  | ops o =>
    obtain ⟨t', d', hops, hafter, htext⟩ :=
      traces_chars fold _ (ops_plain o) hclosed.bounded (m ++ d) rest
    have hall := hclosed.trans hafter
    rw [List.append_assoc] at hops
    rw [List.length_map, List.append_nil, ← Marked.text_append] at hall
    have hboth : Marked.text (d ++ d') = d.text ++ o.map PostOp.char := by
      rw [Marked.text_append, htext]
    exact ⟨t', d', hops, hall, hboth, .chars (by rw [htext]; exact ops_plain o)⟩
  | interval i =>
    obtain ⟨hcopies, htop⟩ := hone trivial
    obtain ⟨q, hoffset, hle⟩ := hbody.closed_offset ht htop
    exact traces_one hclosed (List.cons_ne_nil _ _) hcopies hoffset hle m rest

theorem traces_group {k : Kind} {body rest : List Char} {s : Suffix} {g : List (Option Nat)} {n : Nat}
    {e : List Bool} {O R : List Nat} (hk : k = .capturing → body.take 2 ≠ ['?', ':'])
    {t tb : Translation} (ht : t.Bounded) {m d : Marked} {p : Nat}
    (hp : (k.text ++ (body ++ '\\' :: ')' :: (s.text ++ rest))).length = p)
    (hruns : Traces fold
      (k.opened t, m ++ [('\\', p), ('(', p - 1)], body ++ '\\' :: ')' :: (s.text ++ rest))
      (tb, m ++ [('\\', p), ('(', p - 1)] ++ d, '\\' :: ')' :: (s.text ++ rest)))
    (hbody : (k.opened t).After tb d.text g n e) (hread : Reads .plain .plain d O R)
    (hone : s.IsInterval → s.copies = 1 ∧ (e ++ [true]).head? = some true) :
    ∃ t' d', Traces fold (t, m, k.text ++ (body ++ '\\' :: ')' :: (s.text ++ rest))) (t', m ++ d', rest) ∧
      t.After t' d'.text (k.recorded t.orig :: g) (k.captures + n)
        (s.leaves (false :: (e ++ [true]).tail)) ∧
      Reads .plain .plain d' (p :: O) R := by
  let y := '\\' :: ')' :: (s.text ++ rest)
  have hparen : placed ['\\', '('] (k.text ++ (body ++ y)) = [('\\', p), ('(', p - 1)] := by
    cases k with
    | capturing => subst hp; simp [placed, Kind.text, y]
    | shy => subst hp; simp [placed, Kind.text, y]
  have hopen : ∀ b, Traces fold (k.opened t, m ++ [('\\', p), ('(', p - 1)], body ++ y) b →
      Traces fold (t, m, k.text ++ (body ++ y)) b := by
    intro b hb
    refine .step (step_open fold t k hk _) ?_ (Translation.after_open ht k).emitted (hparen ▸ hb)
    cases k <;> exact intervalAt_escape (by decide) _
  let d₁ : Marked := [('\\', p), ('(', p - 1)] ++ (d ++ placed ['\\', ')'] y)
  have hclose : ∀ b, Traces fold (tb.closeGroup, m ++ d₁, s.text ++ rest) b →
      Traces fold (t, m, k.text ++ (body ++ y)) b := by
    intro b hb
    have hrest := Traces.step (m := m ++ [('\\', p), ('(', p - 1)] ++ d) (step_close fold tb _)
      (intervalAt_escape (by decide) _) tb.closeGroup_emitted (b := b) (by
        rw [List.append_assoc, List.append_assoc]
        exact hb)
    exact hopen b (hruns.trans hrest)
  have hread₁ : Reads .plain .plain d₁ (p :: O) R := by
    have hend : Reads .plain .plain (placed ['\\', ')'] y) [] [] :=
      .escape (c := ')') (by decide) (by decide) (placed_text _ _)
    have hall := (Reads.openParen p (p - 1)).append (hread.append hend)
    rw [List.append_nil, List.append_nil] at hall
    exact hall
  have htext₁ : d₁.text = '\\' :: '(' :: (d.text ++ ['\\', ')']) := by
    rw [Marked.text_append, Marked.text_append, placed_text]
    rfl
  obtain ⟨t', d₂, hruns', hafter, -, hread₂⟩ := traces_closed ht hbody htext₁ hone m rest
  refine ⟨t', _, hclose _ hruns', hafter, ?_⟩
  have hall := hread₁.append hread₂
  rwa [List.append_nil, List.append_nil] at hall

end Runs

end PkgsrcPatches.Elisp
