import PkgsrcPatches.Elisp.BracketScan
import PkgsrcPatches.Elisp.Places

/-! Where the code follows the regexp it reads: it begins a construct where one
begins, though it may take the characters between for other atoms. -/
namespace PkgsrcPatches.Elisp

/-- What the code has still before it of the text before a piece. In `\s\` it takes the second
backslash for the start of an escape, and `\_<` is one token to it. -/
inductive Held where
  | nothing
  | backslash
  | symbol
deriving DecidableEq

namespace Held

def text : Held → List Char
  | .nothing => []
  | .backslash => ['\\']
  | .symbol => ['\\', '_']

/-- Behind what the code has still before it Emacs 20 is in no construct. -/
def Settles (μ : Mode) : Held → Prop
  | .backslash => ∀ p, Reads μ .plain [('\\', p)] [] []
  | _ => μ = .plain

theorem settles_nothing : Held.nothing.Settles .plain := rfl

/-- The code copies a text that `y` follows token by token and begins no construct in it. Left is a
backslash whose character is still to come. -/
def through : Held → List Char → List Char → Option Held
  | h, [], _ => some h
  | .backslash, c :: u, y =>
    if c ∈ ['(', ')', '{'] ∨ (c = '_' ∧ ((u ++ y).head? = some '<' ∨ (u ++ y).head? = some '>')) then none
    else through .nothing u y
  | _, c :: u, y => if c = '[' then none else through (if c = '\\' then .backslash else .nothing) u y

def tokens : Held → List Char → Nat
  | _, [] => 0
  | .backslash, _ :: u => tokens .nothing u + 1
  | _, c :: u => if c = '\\' then tokens .backslash u else tokens .nothing u + 1

end Held

/-! ### Leaves -/

def Leaf.NoClass (fold : Bool) : Leaf → Prop
  | .bracket b => ¬b.OnClassPath fold ∧ ∀ i ∈ b.items, ¬i.IsClass
  | _ => True

section Copied
variable (s : Suffix) (rest : List Char) (h : Held) (l : Leaf)

/-- The code takes the suffix for an interval, as it is. -/
def Leaf.Repeated : Prop := s.IsInterval ∧ h.through l.text (s.text ++ rest) = some .nothing

instance : Decidable (l.Repeated s rest h) := inferInstanceAs (Decidable (_ ∧ _))

def Leaf.Alone : Prop :=
  h.through l.text.dropLast (l.text.getLast?.toList ++ (s.text ++ rest)) = some .nothing

instance : Decidable (l.Alone s rest h) := inferInstanceAs (Decidable (_ = _))

/-- The code takes the leaf for other atoms, and copies them. -/
def Leaf.Copied : Prop :=
  if l.Repeated s rest h then s.copies = 1 ∨ s.copies ≠ 0 ∧ l.Alone s rest h
  else h.through (l.text ++ s.text) rest ≠ none

instance : Decidable (l.Copied s rest h) :=
  inferInstanceAs (Decidable (if l.Repeated s rest h then _ ∨ _ ∧ _ else _ ≠ _))

def Leaf.left : Held :=
  if l.Repeated s rest h then .nothing else (h.through (l.text ++ s.text) rest).getD .nothing

def Leaf.copiedEntries : List Bool :=
  if l.Repeated s rest h then (List.replicate (h.tokens l.text) true).tail
  else List.replicate (h.tokens (l.text ++ s.text)) true

end Copied

section Leaf
variable (fold : Bool) (s : Suffix) (rest : List Char)

/-- What a symbol boundary is made of for the code. -/
def Leaf.symbol (c : Char) : Held :=
  if c = '_' ∧ ((s.text ++ rest).head? = some '<' ∨ (s.text ++ rest).head? = some '>') then .symbol
  else .nothing

/-- What the code has before it behind a leaf with its suffix, where `rest` follows. -/
def Held.next : Held → Leaf → Held
  | .nothing, .char _ => .nothing
  | .nothing, .bracket _ => .nothing
  | .nothing, .escape c => Leaf.symbol s rest c
  | .symbol, _ => .nothing
  | h, l => l.left s rest h

/-- What the code leaves of a bracket expression, taking a `]` for its end, is no construct. -/
def Bracket.Followed (b : Bracket) : Prop :=
  if b.OnClassPath fold then ItemsKnown b.items → e20Chars b.sel = ['^'] → b.all = true
  else ∀ c ∈ (copyBracket b.text.tail).2, c ≠ '\\' ∧ c ≠ '['

instance (b : Bracket) : Decidable (b.Followed fold) :=
  inferInstanceAs (Decidable (if b.OnClassPath fold then ItemsKnown b.items →
    e20Chars b.sel = ['^'] → b.all = true else ∀ c ∈ (copyBracket b.text.tail).2, _ ∧ _))

instance : (l : Leaf) → Decidable (l.NoClass fold)
  | .bracket b => inferInstanceAs (Decidable (¬b.OnClassPath fold ∧ ∀ i ∈ b.items, ¬i.IsClass))
  | .char _ => isTrue trivial
  | .escape _ => isTrue trivial
  | .coded _ _ => isTrue trivial

def Leaf.Followed : Held → Leaf → Prop
  | .nothing, .char _ => True
  | .nothing, .escape _ => True
  | .nothing, .bracket b => b.Followed fold
  | .symbol, .char c => c = '<' ∨ c = '>'
  | .symbol, _ => False
  | h, l => l.NoClass fold ∧ l.Copied s rest h

instance : (h : Held) → (l : Leaf) → Decidable (l.Followed fold s rest h)
  | .nothing, .char _ => isTrue trivial
  | .nothing, .escape _ => isTrue trivial
  | .nothing, .bracket b => inferInstanceAs (Decidable (b.Followed fold))
  | .nothing, .coded _ _ => inferInstanceAs (Decidable (_ ∧ _))
  | .symbol, .char _ => inferInstanceAs (Decidable (_ ∨ _))
  | .symbol, .escape _ => isFalse id
  | .symbol, .coded _ _ => isFalse id
  | .symbol, .bracket _ => isFalse id
  | .backslash, .char _ => inferInstanceAs (Decidable (_ ∧ _))
  | .backslash, .escape _ => inferInstanceAs (Decidable (_ ∧ _))
  | .backslash, .coded _ _ => inferInstanceAs (Decidable (_ ∧ _))
  | .backslash, .bracket _ => inferInstanceAs (Decidable (_ ∧ _))

/-- A class that the code does not know, where it looks for one. -/
def Leaf.Unknown : Leaf → Prop
  | .bracket b => b.OnClassPath fold ∧ ¬ItemsKnown b.items
  | _ => False

instance : (l : Leaf) → Decidable (l.Unknown fold)
  | .bracket b => inferInstanceAs (Decidable (b.OnClassPath fold ∧ ¬ItemsKnown b.items))
  | .char _ => isFalse id
  | .escape _ => isFalse id
  | .coded _ _ => isFalse id

/-- What a leaf with its suffix leaves on the stack. -/
def Leaf.stacked : Held → Leaf → List Bool
  | .nothing, .char _ => s.leaves [true]
  | .nothing, .escape c => if Leaf.symbol s rest c = .symbol then [] else s.leaves [true]
  | .nothing, .bracket b =>
    s.leaves (if b.OnClassPath fold then [true]
      else List.replicate ((copyBracket b.text.tail).2.length + 1) true)
  | .symbol, _ => s.leaves [true]
  | h, l => l.copiedEntries s rest h

end Leaf

/-! ### Regexps -/

namespace Regexp

def held : Held → Regexp → Held
  | h, nil => h
  | h, leaf l s rest => rest.held (h.next s rest.text l)
  | _, group _ _ _ rest => rest.held .nothing
  | _, bar rest => rest.held .nothing

/-- What a body leaves on the stack, as in `entries`. -/
def stacked (fold : Bool) : Held → Regexp → List Bool
  | _, nil => []
  | h, leaf l s rest => rest.stacked fold (h.next s rest.text l) ++ l.stacked fold s rest.text h
  | _, group _ body s rest =>
    rest.stacked fold .nothing ++ s.leaves (false :: (body.stacked fold .nothing ++ [true]).tail)
  | h, bar rest => rest.stacked fold .nothing ++ List.replicate (h.tokens ['\\', '|']) true

def Followed (fold : Bool) : Held → Regexp → Prop
  | h, nil => h ≠ .symbol
  | h, leaf l s rest =>
    l.Followed fold s rest.text h ∧ rest.Followed fold (h.next s rest.text l)
  | h, group _ body s rest =>
    h = .nothing ∧ body.Followed fold .nothing ∧ body.held .nothing = .nothing ∧
      (s.IsInterval → (body.stacked fold .nothing ++ [true]).head? = some true → s.copies = 1) ∧
      rest.Followed fold .nothing
  | h, bar rest => h ≠ .symbol ∧ rest.Followed fold .nothing

/-- The code signals an error: at a class it does not know, or at an interval behind a group
where the atom recorded last inside is a group itself. -/
def Stops (fold : Bool) : Held → Regexp → Prop
  | _, nil => False
  | h, leaf l s rest => l.Unknown fold ∨ rest.Stops fold (h.next s rest.text l)
  | _, group _ body s rest =>
    body.Stops fold .nothing ∨
      (s.IsInterval ∧ (body.stacked fold .nothing ++ [true]).head? ≠ some true) ∨
      rest.Stops fold .nothing
  | _, bar rest => rest.Stops fold .nothing

instance decidableFollowed (fold : Bool) : (h : Held) → (r : Regexp) → Decidable (r.Followed fold h)
  | _, nil => inferInstanceAs (Decidable (_ ≠ _))
  | h, leaf l s rest =>
    have := decidableFollowed fold (h.next s rest.text l) rest
    inferInstanceAs (Decidable (_ ∧ _))
  | _, group _ body _ rest =>
    have := decidableFollowed fold .nothing body
    have := decidableFollowed fold .nothing rest
    inferInstanceAs (Decidable (_ ∧ _ ∧ _ ∧ (_ → _ → _) ∧ _))
  | _, bar rest =>
    have := decidableFollowed fold .nothing rest
    inferInstanceAs (Decidable (_ ∧ _))

instance decidableStops (fold : Bool) : (h : Held) → (r : Regexp) → Decidable (r.Stops fold h)
  | _, nil => isFalse id
  | h, leaf l s rest =>
    have := decidableStops fold (h.next s rest.text l) rest
    inferInstanceAs (Decidable (_ ∨ _))
  | _, group _ body _ rest =>
    have := decidableStops fold .nothing body
    have := decidableStops fold .nothing rest
    inferInstanceAs (Decidable (_ ∨ (_ ∧ _) ∨ _))
  | _, bar rest => decidableStops fold .nothing rest

end Regexp

/-! ### Copied text -/

theorem Held.through_ne_symbol {u y : List Char} {h h' : Held} (hsym : h ≠ .symbol)
    (hu : h.through u y = some h') : h' ≠ .symbol := by
  induction u generalizing h with
  | nil => exact Option.some.inj hu ▸ hsym
  | cons c u ih =>
    cases h with
    | symbol => exact (hsym rfl).elim
    | nothing =>
      rw [through] at hu
      · split at hu
        · cases hu
        · refine ih ?_ hu
          split <;> decide
      · exact fun h => by cases h
    | backslash =>
      rw [through] at hu
      split at hu
      · cases hu
      · exact ih (by decide) hu

theorem Held.through_append (u v y : List Char) (h : Held) :
    h.through (u ++ v) y = (h.through u (v ++ y)).bind fun h' => h'.through v y := by
  induction u generalizing h with
  | nil => rfl
  | cons c u ih =>
    cases h with
    | nothing =>
      simp only [List.cons_append, through]
      split
      · rfl
      · exact ih _
    | symbol =>
      simp only [List.cons_append, through]
      split
      · rfl
      · exact ih _
    | backslash =>
      simp only [List.cons_append, through, List.append_assoc]
      split
      · rfl
      · exact ih _

theorem Held.tokens_pos {u y : List Char} {h : Held} (hu : h.through u y = some .nothing)
    (hne : u ≠ []) : 0 < h.tokens u := by
  induction u generalizing h with
  | nil => exact (hne rfl).elim
  | cons c u ih =>
    have hback : Held.backslash.through u y = some .nothing → 0 < Held.backslash.tokens u := by
      intro hthrough
      refine ih hthrough ?_
      rintro rfl
      cases hthrough
    cases h with
    | backslash => exact Nat.succ_pos _
    | nothing =>
      simp only [through] at hu
      simp only [tokens]
      split_ifs at hu ⊢
      · exact hback hu
      · exact Nat.succ_pos _
    | symbol =>
      simp only [through] at hu
      simp only [tokens]
      split_ifs at hu ⊢
      · exact hback hu
      · exact Nat.succ_pos _

theorem Held.tokens_append {u v y : List Char} {h h' : Held} (hu : h.through u y = some h') :
    h.tokens (u ++ v) = h.tokens u + h'.tokens v := by
  induction u generalizing h with
  | nil =>
    rw [Option.some.inj hu]
    exact (Nat.zero_add _).symm
  | cons c u ih =>
    cases h with
    | backslash =>
      simp only [through] at hu
      split at hu
      · cases hu
      · simp only [List.cons_append, tokens, ih hu]
        omega
    | nothing =>
      simp only [through] at hu
      simp only [List.cons_append, tokens]
      split_ifs at hu ⊢
      · exact ih hu
      · rw [ih hu]
        omega
    | symbol =>
      simp only [through] at hu
      simp only [List.cons_append, tokens]
      split_ifs at hu ⊢
      · exact ih hu
      · rw [ih hu]
        omega

/-- A backslash that is left over makes no reference of the leaf. -/
theorem Leaf.refs_of_backslash {l : Leaf} {h : Held} {y : List Char} (hsym : h ≠ .symbol)
    (hl : h.through l.text y = some .backslash) : l.refs = [] := by
  cases l with
  | char c => rfl
  | coded k c => rfl
  | bracket b => rfl
  | escape c =>
    cases h with
    | symbol => exact (hsym rfl).elim
    | nothing =>
      -- the escape is complete
      simp only [Leaf.text, Held.through] at hl
      split_ifs at hl
      rw [Held.through] at hl
      split at hl
      · cases hl
      · cases hl
    | backslash =>
      -- only behind another backslash is one left
      simp only [Leaf.text, Held.through] at hl
      split_ifs at hl with _ _ hc
      · rw [hc]
        rfl
      · cases hl

/-- The same between what is put out and what is held back, read by Emacs 20. -/
theorem Held.settle {h h' : Held} (hsym : h ≠ .symbol) (hsym' : h' ≠ .symbol) {μ : Mode}
    (hμ : h.Settles μ) {d : Marked} {u : List Char} (hd : d.text ++ h'.text = h.text ++ u)
    {R : List Nat} (hu : ∀ e : Marked, e.text = u → Reads .plain .plain e [] R) :
    ∃ μ', Reads μ μ' d [] R ∧ h'.Settles μ' := by
  let e : Marked := h'.text.map (·, 0)
  have hall : Reads μ .plain (d ++ e) [] R := by
    have htext : Marked.text (d ++ e) = h.text ++ u := by
      rw [Marked.text_append, map_mark, hd]
    obtain ⟨d₁, d₂, hsplit, htext₁, htext₂⟩ := List.map_eq_append_iff.mp htext
    rw [hsplit]
    have hfront : Reads μ .plain d₁ [] [] := by
      cases h with
      | nothing =>
        obtain rfl := List.map_eq_nil_iff.mp htext₁
        obtain rfl : μ = .plain := hμ
        exact .nil .plain
      | backslash =>
        exact (hμ 0).of_text (fun _ h => by cases h) htext₁.symm
      | symbol => exact (hsym rfl).elim
    exact hfront.append (hu d₂ htext₂)
  have hrefs : ∀ m : Mode, m.references e = [] := by
    intro m
    cases h' with
    | nothing => rfl
    | backslash => cases m <;> rfl
    | symbol => exact (hsym' rfl).elim
  obtain ⟨hread, hrest⟩ := hall.split (hrefs _)
  refine ⟨_, hread, ?_⟩
  cases h' with
  | nothing => exact hrest.after
  | backslash => exact fun p => hrest.of_text (fun _ h => by cases h) rfl
  | symbol => exact (hsym' rfl).elim

end PkgsrcPatches.Elisp
