import PkgsrcPatches.Elisp.ClassText
import PkgsrcPatches.Elisp.Traced

/-! Emacs 20 at what is put in the place of a bracket expression: where it is
copied, and where a class makes alternatives of it. -/
namespace PkgsrcPatches.Elisp

namespace Reads

theorem bracket (neg : Bool) {i : Char} {w : List Char} (hi : neg = false → i ≠ '^')
    (hw : ∀ c ∈ w, c ≠ ']') (p : Nat) : Reads .plain .plain
      (('[' :: ((if neg then ['^'] else []) ++ i :: (w ++ [']']))).map (·, p)) [] [] := by
  have hend : Reads .inside .plain ((w ++ [']']).map (·, p)) [] [] := by
    rw [List.map_append]
    exact (inside (by rwa [map_mark])).append (step (fun _ h => by cases h) (nil .plain))
  refine step (fun _ h => by cases h) ?_
  cases neg with
  | true => exact step (fun _ h => by cases h) (step (fun _ h => by cases h) hend)
  | false =>
    refine step (fun _ h => by cases h) ?_
    have hnext : Mode.next i p (Mode.next '[' p .plain) = .inside := if_neg (hi rfl)
    rw [hnext]
    exact hend

theorem members {u : List Char} (hne : u ≠ []) (hcaret : u ≠ ['^']) (hu : ∀ c ∈ u.tail, c ≠ ']')
    (p : Nat) : Reads .plain .plain (('[' :: (u ++ [']'])).map (·, p)) [] [] := by
  cases u with
  | nil => exact (hne rfl).elim
  | cons c v =>
    by_cases hc : c = '^'
    · subst hc
      cases v with
      | nil => exact (hcaret rfl).elim
      | cons i w =>
        exact bracket true (fun h => by cases h)
          (fun c h => hu c (List.mem_cons_of_mem _ h)) p
    · exact bracket false (fun _ => hc) hu p

theorem alternatives {a b : List Char} {p : Nat}
    (ha : Reads .plain .plain (a.map (·, p)) [] []) (hb : Reads .plain .plain (b.map (·, p)) [] []) :
    Reads .plain .plain (('\\' :: '(' :: (a ++ '\\' :: '|' :: (b ++ ['\\', ')']))).map (·, p))
      [p] [] := by
  have hor : Reads .plain .plain (['\\', '|'].map (·, p)) [] [] :=
    escape (c := '|') (by decide) (by decide) rfl
  have hclose : Reads .plain .plain (['\\', ')'].map (·, p)) [] [] :=
    escape (c := ')') (by decide) (by decide) rfl
  have hall := (openParen p p).append (ha.append (hor.append (hb.append hclose)))
  simpa using hall

end Reads

/-! ### Copied as it is -/

/-- The copy ends at the first `]` behind the first member, and so does Emacs 20's reading. -/
theorem copyBracket_cut {d : Dialect} {b : Bracket} (hb : b.Wf d) (x : List Char) :
    copyBracket (b.text.tail ++ x) =
      ((copyBracket b.text.tail).1, (copyBracket b.text.tail).2 ++ x) ∧
    b.text = (copyBracket b.text.tail).1 ++ (copyBracket b.text.tail).2 ∧
    ∀ p, Reads .plain .plain ((copyBracket b.text.tail).1.map (·, p)) [] [] := by
  obtain ⟨i, v, hitems⟩ : ∃ i v, itemsText b.items = i :: v := by
    cases h : itemsText b.items with
    | cons i v => exact ⟨i, v, rfl⟩
    | nil =>
      have hwf := hb.1
      rw [Bracket.itemsText_eq_nil.mp h] at hwf
      cases hwf
  have hcaret : b.neg = false → i ≠ '^' := by
    intro hneg hi
    have hno := hb.2 hneg
    rw [hitems, hi] at hno
    exact hno rfl
  have hmem : ']' ∈ v ++ [']'] := List.mem_append_right _ (List.mem_singleton_self _)
  obtain ⟨w, l, hv, hw⟩ := List.eq_append_cons_of_mem hmem
  have hw' : ∀ c ∈ w, c ≠ ']' := fun c hc h => hw (h ▸ hc)
  have htail : ∀ y, b.text.tail ++ y = (if b.neg then ['^'] else []) ++ i :: (w ++ ']' :: (l ++ y)) := by
    intro y
    have hy : v ++ ']' :: y = w ++ ']' :: (l ++ y) := by
      have happ := congrArg (· ++ y) hv
      simpa using happ
    simp only [Bracket.text, hitems, List.tail_cons, List.cons_append, List.append_assoc,
      List.nil_append, hy]
  have hcopy : ∀ y, copyBracket (b.text.tail ++ y) =
      ('[' :: ((if b.neg then ['^'] else []) ++ i :: (w ++ [']'])), l ++ y) := by
    intro y
    rw [htail]
    cases hneg : b.neg with
    | true =>
      by_cases hi : i = ']'
      · simp [copyBracket, hi, takeWhile_body hw']
      · simp [copyBracket, hi, takeWhile_body hw']
    | false =>
      have hno := hcaret hneg
      by_cases hi : i = ']'
      · simp [copyBracket, hi, takeWhile_body hw']
      · simp [copyBracket, hi, hno, takeWhile_body hw']
  have hnil := hcopy []
  rw [List.append_nil, List.append_nil] at hnil
  refine ⟨by rw [hcopy, hnil], ?_, fun p => ?_⟩
  · have htext := htail []
    rw [List.append_nil, List.append_nil] at htext
    have hopen : b.text = '[' :: b.text.tail := rfl
    rw [hnil, hopen, htext]
    simp
  · rw [hnil]
    exact .bracket b.neg hcaret hw' p

/-! ### The alternatives -/

/-- Nothing beyond ASCII ends a bracket expression, unless it comes first. -/
theorem far_noClose {d : Dialect} {first : Bool} {items : List Item} (h : ItemsWf d first items) :
    (first = false → ∀ c ∈ itemsText (items.filter fun i => ¬i.IsAscii), c ≠ ']') ∧
      ∀ c ∈ (itemsText (items.filter fun i => ¬i.IsAscii)).tail, c ≠ ']' := by
  induction items generalizing first with
  | nil => exact ⟨fun _ c hc => (by cases hc), fun c hc => (by cases hc)⟩
  | cons i items ih =>
    have hrest := (ih (itemsWf_tail h)).1 rfl
    by_cases hi : i.IsAscii
    · rw [List.filter_cons_of_neg (by simpa using hi)]
      exact ⟨fun _ => hrest, fun c hc => hrest c (List.mem_of_mem_tail hc)⟩
    · rw [List.filter_cons_of_pos (by simpa using hi), itemsText_cons]
      cases i with
      | char a =>
        refine ⟨fun hfirst c hc => ?_, fun c hc => hrest c hc⟩
        cases List.mem_append.mp hc with
        | inl hc =>
          rw [List.mem_singleton.mp hc]
          intro ha
          have hf := h.1 ha
          rw [hfirst] at hf
          cases hf
        | inr hc => exact hrest c hc
      | range a b =>
        have htail : ∀ c ∈ '-' :: b :: itemsText (items.filter fun i => ¬i.IsAscii), c ≠ ']' := by
          rw [List.forall_mem_cons, List.forall_mem_cons]
          exact ⟨by decide, h.2.1, hrest⟩
        refine ⟨fun hfirst c hc => ?_, htail⟩
        cases List.mem_cons.mp hc with
        | inl hc =>
          rw [hc]
          intro ha
          have hf := h.1 ha
          rw [hfirst] at hf
          cases hf
        | inr hc => exact htail c hc
      | cls name => exact (hi trivial).elim

namespace Bracket

theorem chars_noClose (sel : Nat → Bool) : ∀ c ∈ (e20Chars sel).tail, c ≠ ']' := by
  have hmid : ∀ c ∈ midChars sel ++ (if sel 45 then ['-'] else []), c ≠ ']' := by
    intro c hc
    cases List.mem_append.mp hc with
    | inl hc => exact (midChars_ne sel c hc).1
    | inr hc =>
      split at hc
      · rw [List.mem_singleton.mp hc]
        decide
      · cases hc
  rw [e20Chars_eq, List.append_assoc]
  split
  · exact hmid
  · exact fun c hc => hmid c (List.mem_of_mem_tail hc)

theorem extras_ne_caret (b : Bracket) : itemsText b.extras ≠ ['^'] := by
  intro h
  have hall : ∀ i ∈ b.extras, ¬i.IsAscii := fun i hi => ((b.mem_extras i).mp hi).2
  cases hx : b.extras with
  | nil =>
    rw [hx] at h
    cases h
  | cons i items =>
    rw [hx] at h hall
    have hi := hall i List.mem_cons_self
    cases i with
    | char c =>
      obtain ⟨rfl, -⟩ := List.cons.inj h
      exact hi (by decide)
    | range a b => cases h
    | cls name => exact hi trivial

/-- Unless a `^` is all there is to put out, the alternatives are read as they are meant to be; and
with everything beyond ASCII behind it no harm is done. -/
theorem reads_joined {d : Dialect} {b : Bracket} (hb : b.Wf d)
    (hcaret : e20Chars b.sel = ['^'] → b.all = true) (p : Nat) :
    Reads .plain .plain ((e20Joined (b.alts.map text)).1.map (·, p))
      (if (e20Joined (b.alts.map text)).2 then [p] else []) [] := by
  have hone : e20Chars b.sel ≠ [] → e20Chars b.sel ≠ ['^'] →
      Reads .plain .plain (('[' :: (e20Chars b.sel ++ [']'])).map (·, p)) [] [] := fun hne hno =>
    .members hne hno (chars_noClose b.sel) p
  have hfar : b.extras ≠ [] →
      Reads .plain .plain ((⟨false, b.extras⟩ : Bracket).text.map (·, p)) [] [] := by
    intro hne
    have hmembers := Reads.members (p := p) (u := itemsText b.extras)
      (fun h => hne (itemsText_eq_nil.mp h)) b.extras_ne_caret (far_noClose hb.1).2
    simpa [text] using hmembers
  have hdash : ∀ k, Char.ofNat k ≠ ']' → ∀ c ∈ ['-', Char.ofNat k], c ≠ ']' := by
    intro k hk
    simp [hk]
  have hbeyond : Reads .plain .plain (nonAscii.text.map (·, p)) [] [] :=
    .bracket true (i := Char.ofNat 0) (w := ['-', Char.ofNat 127]) (fun h => by cases h)
      (hdash 127 (by decide)) p
  have halts : b.alts = if b.all then b.asciiPart ++ [nonAscii]
      else if b.extras ≠ [] ∧ b.neg = false then b.asciiPart ++ [⟨false, b.extras⟩]
      else b.asciiPart := rfl
  rw [halts]
  unfold asciiPart
  by_cases hempty : e20Chars b.sel = []
  · rw [if_pos hempty]
    split
    · exact hbeyond
    · split
      · exact hfar ‹_ ∧ _›.1
      · exact .bracket true (i := Char.ofNat 0) (w := ['-', Char.ofNat 255])
          (fun h => by cases h) (hdash 255 (by decide)) p
  · rw [if_neg hempty]
    have htext : (⟨false, (e20Chars b.sel).map .char⟩ : Bracket).text =
        '[' :: (e20Chars b.sel ++ [']']) := by simp [text, itemsText_map_char]
    by_cases hall : b.all = true
    · rw [if_pos hall]
      by_cases hlone : e20Chars b.sel = ['^']
      · rw [hlone]
        exact ⟨rfl, rfl, fun _ => Iff.rfl⟩
      · have hgroup := Reads.alternatives (hone hempty hlone) hbeyond
        simpa [e20Joined, htext, List.intercalate] using hgroup
    · have hlone : e20Chars b.sel ≠ ['^'] := fun h => hall (hcaret h)
      rw [if_neg hall]
      split
      · rename_i hextras
        have hgroup := Reads.alternatives (hone hempty hlone) (hfar hextras.1)
        simpa [e20Joined, htext, List.intercalate] using hgroup
      · have hsingle := hone hempty hlone
        simpa [e20Joined, htext] using hsingle

end Bracket

end PkgsrcPatches.Elisp
