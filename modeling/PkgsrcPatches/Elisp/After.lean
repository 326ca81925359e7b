import PkgsrcPatches.Elisp.Tokens

/-! What a stretch of the pass adds to its state: to the output, to the groups recorded and
to the stack of atoms. -/
namespace PkgsrcPatches.Elisp

def Suffix.IsInterval : Suffix → Prop
  | .ops _ => False
  | .interval _ => True

instance : (s : Suffix) → Decidable s.IsInterval
  | .ops _ => isFalse id
  | .interval _ => isTrue trivial

/-- What an atom leaves on the stack once its suffix is read. -/
def Suffix.leaves (own : List Bool) : Suffix → List Bool
  | .ops o => List.replicate o.length true ++ own
  | .interval _ => own.tail

def Kind.captures : Kind → Nat
  | .capturing => 1
  | .shy => 0

/-- The number the code records for a group, after `orig` capturing ones. -/
def Kind.recorded (orig : Nat) : Kind → Option Nat
  | .capturing => some (orig + 1)
  | .shy => none

def Start.IsNumber : Start → Bool
  | .number _ => true
  | _ => false

namespace Translation

/-- No start lies beyond the output, not even one that counts pieces. -/
structure Bounded (t : Translation) : Prop where
  atoms : ∀ n, Start.number n ∈ t.atoms → n ≤ t.emitted.length
  pieces : t.out.length ≤ t.emitted.length + 1

structure After (t t' : Translation) (text : List Char) (groups : List (Option Nat))
    (captured : Nat) (entries : List Bool) : Prop where
  emitted : t'.emitted = t.emitted ++ text
  groups : t'.groups = groups.reverse ++ t.groups
  orig : t'.orig = t.orig + captured
  entries : t'.atoms.map Start.IsNumber = entries ++ t.atoms.map Start.IsNumber
  bounded : t'.Bounded

theorem After.trans {t t' t'' : Translation} {u u' : List Char} {g g' : List (Option Nat)}
    {n n' : Nat} {e e' : List Bool} (h : t.After t' u g n e) (h' : t'.After t'' u' g' n' e') :
    t.After t'' (u ++ u') (g ++ g') (n + n') (e' ++ e) where
  emitted := by rw [h'.emitted, h.emitted, List.append_assoc]
  groups := by rw [h'.groups, h.groups, List.reverse_append, List.append_assoc]
  orig := by rw [h'.orig, h.orig, Nat.add_assoc]
  entries := by rw [h'.entries, h.entries, List.append_assoc]
  bounded := h'.bounded

theorem After.refl {t : Translation} (h : t.Bounded) : t.After t [] [] 0 [] where
  emitted := (List.append_nil _).symm
  groups := rfl
  orig := rfl
  entries := rfl
  bounded := h

theorem atom_emitted (t : Translation) (a : List Char) :
    (t.atom a).emitted = t.emitted ++ a := by
  simp [emitted, atom]

theorem openGroup_emitted (t : Translation) :
    t.openGroup.emitted = t.emitted ++ ['\\', '('] := by
  simp [emitted, openGroup]

theorem closeGroup_emitted (t : Translation) :
    t.closeGroup.emitted = t.emitted ++ ['\\', ')'] := by
  simp [emitted, closeGroup]

theorem after_atom {t : Translation} (ht : t.Bounded) {a : List Char} (ha : a ≠ [])
    (g : List (Option Nat)) :
    t.After { t.atom a with groups := g.reverse ++ t.groups } a g 0 [true] where
  emitted := t.atom_emitted a
  groups := rfl
  orig := rfl
  entries := rfl
  bounded := by
    have hlen : 0 < a.length := List.length_pos_iff.mpr ha
    have hemit : ({ t.atom a with groups := g.reverse ++ t.groups } : Translation).emitted =
        t.emitted ++ a := t.atom_emitted a
    constructor
    · intro n hn
      rw [hemit, List.length_append]
      cases List.mem_cons.mp hn with
      | inl h =>
        have hn : n = t.emitted.length := Start.number.inj h
        omega
      | inr h =>
        have hle := ht.atoms n h
        omega
    · have hle := ht.pieces
      rw [hemit, List.length_append]
      simp only [atom, List.length_cons]
      omega

theorem after_open {t : Translation} (ht : t.Bounded) (k : Kind) :
    t.After (k.opened t) ['\\', '('] [k.recorded t.orig] k.captures [true] := by
  have hbounded : t.openGroup.Bounded := by
    have hle := ht.pieces
    constructor
    · intro n hn
      rw [openGroup_emitted, List.length_append]
      cases List.mem_cons.mp hn with
      | inl h =>
        have hn : n = t.out.length := Start.number.inj h
        simp only [List.length_cons, List.length_nil]
        omega
      | inr h =>
        have hle := ht.atoms n h
        omega
    · rw [openGroup_emitted, List.length_append]
      simp only [openGroup, List.length_cons, List.length_nil]
      omega
  cases k with
  | capturing => exact ⟨t.openGroup_emitted, rfl, rfl, rfl, ⟨hbounded.atoms, hbounded.pieces⟩⟩
  | shy => exact ⟨t.openGroup_emitted, rfl, rfl, rfl, ⟨hbounded.atoms, hbounded.pieces⟩⟩

theorem after_group {t t' : Translation} (ht : t.Bounded) (k : Kind) {body : List Char}
    {g : List (Option Nat)} {n : Nat} {e : List Bool} (h : (k.opened t).After t' body g n e) :
    t.After t'.closeGroup ('\\' :: '(' :: (body ++ ['\\', ')'])) (k.recorded t.orig :: g)
      (k.captures + n) (false :: (e ++ [true]).tail) := by
  have hall := (after_open ht k).trans h
  have hentries : t'.atoms.map Start.IsNumber = (e ++ [true]) ++ t.atoms.map Start.IsNumber :=
    hall.entries
  refine ⟨?_, hall.groups, hall.orig, ?_, ?_, ?_⟩
  · rw [closeGroup_emitted, hall.emitted]
    simp
  · simp only [closeGroup, List.map_cons, Start.IsNumber, List.map_tail, hentries]
    rw [List.tail_append_of_ne_nil (by simp), List.cons_append]
  · intro m hm
    rw [closeGroup_emitted, List.length_append]
    cases List.mem_cons.mp hm with
    | inl h => exact nomatch h
    | inr h =>
      have hle := hall.bounded.atoms m (List.mem_of_mem_tail h)
      omega
  · have hle := hall.bounded.pieces
    rw [closeGroup_emitted, List.length_append]
    simp only [closeGroup, List.length_cons, List.length_nil]
    omega

theorem after_interval {t : Translation} (ht : t.Bounded) (i : Interval) (a : List Char)
    (g : List (Option Nat)) :
    t.After { t with out := [t.emitted ++ e20Rep i.lo i.hi a], groups := g.reverse ++ t.groups }
      (e20Rep i.lo i.hi a) g 0 [] where
  emitted := by simp [emitted]
  groups := rfl
  orig := rfl
  entries := rfl
  bounded := by
    have hemit : ({ t with out := [t.emitted ++ e20Rep i.lo i.hi a], groups := g.reverse ++ t.groups } :
        Translation).emitted = t.emitted ++ e20Rep i.lo i.hi a := by simp [emitted]
    constructor
    · intro n hn
      have hle := ht.atoms n hn
      rw [hemit, List.length_append]
      omega
    · simp only [List.length_cons, List.length_nil]
      omega

/-- An interval that copies nothing, wherever the code takes the atom to start. -/
theorem After.one {t u : Translation} {text : List Char} {g : List (Option Nat)} {n : Nat}
    {e : List Bool} (h : t.After u text g n e) (hne : e ≠ []) {i : Interval}
    (hone : (Suffix.interval i).copies = 1) {k : Nat}
    (htop : (u.atoms.headD .missing).offset = some k) (hk : k ≤ u.emitted.length) :
    ∃ t', u.interval i.spec = some t' ∧ t.After t' (text ++ e20Rep i.lo i.hi []) g n e.tail := by
  refine ⟨_, interval_one u hone htop hk, ?_⟩
  have hemit : ({ u with out := [u.emitted ++ e20Rep i.lo i.hi []], atoms := u.atoms.tail } :
      Translation).emitted = u.emitted ++ e20Rep i.lo i.hi [] := by simp [Translation.emitted]
  refine ⟨?_, h.groups, h.orig, ?_, ?_, ?_⟩
  · rw [hemit, h.emitted, List.append_assoc]
  · rw [List.map_tail, h.entries, List.tail_append_of_ne_nil hne]
  · intro m hm
    have hle := h.bounded.atoms m (List.mem_of_mem_tail hm)
    rw [hemit, List.length_append]
    omega
  · simp only [List.length_cons, List.length_nil]
    omega

theorem exists_number_of_head {atoms : List Start}
    (h : (atoms.map Start.IsNumber).head? = some true) :
    ∃ m, atoms.headD .missing = .number m ∧ Start.number m ∈ atoms := by
  cases atoms with
  | nil => cases h
  | cons p atoms =>
    cases p with
    | number m => exact ⟨m, rfl, List.mem_cons_self⟩
    | missing => cases h
    | group p => cases h

/-- At an interval behind a group in which the last entry is a number the code takes the atom to
start there. -/
theorem After.closed_offset {t tb : Translation} (ht : t.Bounded) {k : Kind} {body : List Char}
    {g : List (Option Nat)} {n : Nat} {e : List Bool} (h : (k.opened t).After tb body g n e)
    (htop : (e ++ [true]).head? = some true) :
    ∃ m, (tb.closeGroup.atoms.headD .missing).offset = some m ∧ m ≤ tb.closeGroup.emitted.length := by
  have hentries : tb.atoms.map Start.IsNumber = (e ++ [true]) ++ t.atoms.map Start.IsNumber :=
    ((after_open ht k).trans h).entries
  have htop' : (tb.atoms.map Start.IsNumber).head? = some true := by
    rw [hentries, List.head?_append, htop]
    rfl
  obtain ⟨m, hm, hmem⟩ := exists_number_of_head htop'
  refine ⟨m, ?_, ?_⟩
  · simp only [closeGroup, List.headD_cons, hm]
    rfl
  · have hle := h.bounded.atoms m hmem
    rw [closeGroup_emitted, List.length_append]
    omega

end Translation

end PkgsrcPatches.Elisp
