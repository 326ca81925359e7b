import PkgsrcPatches.Elisp.Groups

/-! The places of the groups in the caller's regexp: the length of the text from where
a group opens. Further on in the text they are smaller. -/
namespace PkgsrcPatches.Elisp

def Kind.places (p : Nat) : Kind → List Nat
  | .capturing => [p]
  | .shy => []

namespace Regexp

/-- The places of the caller's groups, with `n` characters behind the regexp. -/
def places : Nat → Regexp → List Nat
  | _, nil => []
  | n, leaf _ _ rest => rest.places n
  | n, group k body s rest =>
    k.places ((group k body s rest).text.length + n) ++
      (body.places (2 + s.text.length + rest.text.length + n) ++ rest.places n)
  | n, bar rest => rest.places n

/-- All that makes groups in the translation, each with its place. -/
def located (fold : Bool) : Nat → Regexp → List (Opener × Nat)
  | _, nil => []
  | n, leaf l s rest =>
    (l.openers fold s).map (·, (leaf l s rest).text.length + n) ++ rest.located fold n
  | n, group k body s rest =>
    (k.opener, (group k body s rest).text.length + n) ::
      (body.located fold (2 + s.text.length + rest.text.length + n) ++ rest.located fold n)
  | n, bar rest => rest.located fold n

end Regexp

def opened (L : List (Opener × Nat)) : List Nat := L.flatMap fun e => List.replicate e.1.width e.2

@[simp] theorem opened_nil : opened [] = [] := rfl

@[simp] theorem opened_cons (e : Opener × Nat) (L : List (Opener × Nat)) :
    opened (e :: L) = List.replicate e.1.width e.2 ++ opened L := rfl

@[simp] theorem opened_append (L L' : List (Opener × Nat)) :
    opened (L ++ L') = opened L ++ opened L' := List.flatMap_append

theorem opened_length (L : List (Opener × Nat)) : (opened L).length = width (L.map Prod.fst) := by
  induction L with
  | nil => rfl
  | cons e L ih => simp [width, ih]

theorem mem_opened {L : List (Opener × Nat)} {p : Nat} (h : p ∈ opened L) : ∃ e ∈ L, e.2 = p := by
  obtain ⟨e, he, hp⟩ := List.mem_flatMap.mp h
  exact ⟨e, he, (List.mem_replicate.mp hp).2.symm⟩

theorem getElem?_split {A B : List Nat} {p : Nat} (hA : p ∉ A) (hB : p ∉ B) (j : Nat) :
    (A ++ p :: B)[j]? = some p ↔ j = A.length := by
  constructor
  · intro h
    obtain hlt | heq | hgt := Nat.lt_trichotomy j A.length
    · rw [List.getElem?_append_left hlt] at h
      exact (hA (List.mem_of_getElem? h)).elim
    · exact heq
    · obtain ⟨i, rfl⟩ := Nat.exists_eq_add_of_lt hgt
      rw [List.getElem?_append_right (by omega)] at h
      have hi : A.length + i + 1 - A.length = i + 1 := by omega
      rw [hi, List.getElem?_cons_succ] at h
      exact (hB (List.mem_of_getElem? h)).elim
  · intro h
    rw [h, List.getElem?_append_right (Nat.le_refl _), Nat.sub_self]
    rfl

namespace Regexp
variable (fold : Bool)

theorem located_openers (r : Regexp) (n : Nat) : (r.located fold n).map Prod.fst = r.openers fold := by
  induction r generalizing n with
  | nil => rfl
  | leaf l s rest ih =>
    rw [located, openers, List.map_append, ih, List.map_map]
    exact congrArg (· ++ _) (List.map_id _)
  | group k body s rest ihbody ih =>
    rw [located, openers, List.map_cons, List.map_append, ihbody, ih]
  | bar rest ih => exact ih n

theorem located_places (r : Regexp) (n : Nat) :
    ((r.located fold n).filter fun e => e.1 = .capturing).map Prod.snd = r.places n := by
  induction r generalizing n with
  | nil => rfl
  | leaf l s rest ih =>
    have hleaf : ∀ p : Nat, ((l.openers fold s).map (·, p)).filter (fun e => e.1 = .capturing) = [] := by
      intro p
      unfold Leaf.openers
      split <;> rfl
    rw [located, places, List.filter_append, hleaf, List.nil_append, ih]
  | group k body s rest ihbody ih =>
    cases k with
    | capturing => simp [located, places, Kind.opener, Kind.places, ihbody, ih]
    | shy => simp [located, places, Kind.opener, Kind.places, ihbody, ih]
  | bar rest ih => exact ih n

theorem text_pos (l : Leaf) : 0 < l.text.length := by
  cases l <;> simp [Leaf.text, Bracket.text]

theorem located_bounds (r : Regexp) (n : Nat) :
    ∀ e ∈ r.located fold n, n < e.2 ∧ e.2 ≤ r.text.length + n := by
  induction r generalizing n with
  | nil => exact fun e he => by cases he
  | leaf l s rest ih =>
    intro e he
    have hpos := text_pos l
    have hlen : (leaf l s rest).text.length = l.text.length + (s.text.length + rest.text.length) := by
      simp [text]
    cases List.mem_append.mp he with
    | inl he =>
      obtain ⟨o, _, rfl⟩ := List.mem_map.mp he
      simp only
      omega
    | inr he =>
      have hrest := ih n e he
      omega
  | group k body s rest ihbody ih =>
    intro e he
    have hlen : (group k body s rest).text.length =
        k.text.length + (body.text.length + (s.text.length + rest.text.length + 2)) := by
      simp [text]
    cases List.mem_cons.mp he with
    | inl he =>
      subst he
      simp only
      omega
    | inr he =>
      cases List.mem_append.mp he with
      | inl he =>
        have hbody := ihbody _ e he
        omega
      | inr he =>
        have hrest := ih n e he
        omega
  | bar rest ih =>
    intro e he
    have hrest := ih n e he
    simp only [text, List.length_cons]
    omega

theorem located_sorted (r : Regexp) (n : Nat) :
    (r.located fold n).Pairwise fun e e' => e'.2 < e.2 := by
  induction r generalizing n with
  | nil => exact .nil
  | leaf l s rest ih =>
    have hlen : (leaf l s rest).text.length = l.text.length + (s.text.length + rest.text.length) := by
      simp [text]
    rw [located, List.pairwise_append]
    refine ⟨?_, ih n, ?_⟩
    · unfold Leaf.openers
      split
      · exact .nil
      · exact List.pairwise_singleton _ _
    · intro e he e' he'
      obtain ⟨o, _, rfl⟩ := List.mem_map.mp he
      have hle := (located_bounds fold rest n e' he').2
      have hpos := text_pos l
      simp only
      omega
  | group k body s rest ihbody ih =>
    have hlen : (group k body s rest).text.length =
        k.text.length + (body.text.length + (s.text.length + rest.text.length + 2)) := by
      simp [text]
    have hkind : 0 < k.text.length := by cases k <;> simp [Kind.text]
    rw [located, List.pairwise_cons, List.pairwise_append]
    refine ⟨?_, ihbody _, ih n, ?_⟩
    · intro e he
      cases List.mem_append.mp he with
      | inl he =>
        have hle := (located_bounds fold body _ e he).2
        simp only
        omega
      | inr he =>
        have hle := (located_bounds fold rest n e he).2
        simp only
        omega
    · intro e he e' he'
      have hlt := (located_bounds fold body _ e he).1
      have hle := (located_bounds fold rest n e' he').2
      omega
  | bar rest ih => exact ih n

/-- The openers in front of a capturing group say where it is among those put out, and among the
caller's. -/
theorem located_split (r : Regexp) {pre post : List Opener}
    (hops : r.openers fold = pre ++ .capturing :: post) :
    ∃ p, 0 < p ∧ (r.places 0)[captured pre]? = some p ∧
      ∀ j, (opened (r.located fold 0))[j]? = some p ↔ j = width pre := by
  have hmap := r.located_openers fold 0
  rw [hops] at hmap
  obtain ⟨A, B', hloc, hA, hB'⟩ := List.map_eq_append_iff.mp hmap
  obtain ⟨⟨o, p⟩, B, rfl, ho, hB⟩ := List.map_eq_cons_iff.mp hB'
  obtain rfl : o = .capturing := ho
  have hsorted := r.located_sorted fold 0
  have hmem : (Opener.capturing, p) ∈ r.located fold 0 := by
    rw [hloc]
    exact List.mem_append_right _ List.mem_cons_self
  rw [hloc, List.pairwise_append, List.pairwise_cons] at hsorted
  obtain ⟨-, ⟨hbehind, -⟩, hfront⟩ := hsorted
  refine ⟨p, (r.located_bounds fold 0 _ hmem).1, ?_, ?_⟩
  · have hfilter : (A.filter fun e => e.1 = .capturing).length = captured pre := by
      rw [← hA, captured, List.count_eq_countP, List.countP_map, ← List.countP_eq_length_filter]
      exact List.countP_congr fun e _ => by simp
    rw [← located_places fold r 0, hloc, List.filter_append, List.map_append,
      List.getElem?_append_right (by simp [hfilter])]
    simp [hfilter]
  · intro j
    have hnotA : p ∉ opened A := by
      intro h
      obtain ⟨e, he, hp⟩ := mem_opened h
      have hlt := hfront e he _ List.mem_cons_self
      omega
    have hnotB : p ∉ opened B := by
      intro h
      obtain ⟨e, he, hp⟩ := mem_opened h
      have hlt := hbehind e he
      simp only at hlt
      omega
    have hlen : (opened A).length = width pre := by rw [opened_length, hA]
    rw [hloc, opened_append, opened_cons, ← hlen]
    exact getElem?_split hnotA hnotB j

end Regexp

end PkgsrcPatches.Elisp
