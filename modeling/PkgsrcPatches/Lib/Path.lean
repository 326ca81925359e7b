import Mathlib.Data.List.Basic

/-! Path names: their components, what they lead to in a file system whose symbolic
links may go anywhere, and the texts of plain absolute directory names. -/
namespace PkgsrcPatches.Lib.Path

abbrev Text := List UInt8

def slash : UInt8 := 47
def dot : Text := [46]
def dotDot : Text := [46, 46]

def pieces : Text → List Text
  | [] => [[]]
  | c :: s =>
    if c = slash then [] :: pieces s
    else match pieces s with
      | [] => [[c]]
      | w :: ws => (c :: w) :: ws

/-- The components that take a step: an empty one and `.` stay where they are. -/
def components (s : Text) : List Text := (pieces s).filter fun w => w ≠ [] ∧ w ≠ dot

theorem pieces_ne_nil (s : Text) : pieces s ≠ [] := by
  cases s with
  | nil => exact List.cons_ne_nil _ _
  | cons c s =>
    rw [pieces]
    split
    · exact List.cons_ne_nil _ _
    · split
      · exact List.cons_ne_nil _ _
      · exact List.cons_ne_nil _ _

theorem pieces_append_slash (a b : Text) : pieces (a ++ slash :: b) = pieces a ++ pieces b := by
  induction a with
  | nil => simp [pieces]
  | cons c a ih =>
    rw [List.cons_append, pieces, pieces]
    by_cases hc : c = slash
    · rw [if_pos hc, if_pos hc, ih, List.cons_append]
    · rw [if_neg hc, if_neg hc, ih]
      cases hp : pieces a with
      | nil => exact absurd hp (pieces_ne_nil a)
      | cons w ws => rfl

theorem pieces_of_plain {w : Text} (h : slash ∉ w) : pieces w = [w] := by
  induction w with
  | nil => rfl
  | cons c w ih =>
    have hc : c ≠ slash := fun he => h (he ▸ List.mem_cons_self)
    rw [pieces, if_neg hc, ih fun hm => h (List.mem_cons_of_mem c hm)]

theorem components_append_slash (a b : Text) :
    components (a ++ slash :: b) = components a ++ components b := by
  rw [components, pieces_append_slash, List.filter_append]
  rfl

theorem components_of_plain {w : Text} (h : slash ∉ w) :
    components w = [w].filter fun w => w ≠ [] ∧ w ≠ dot := by
  rw [components, pieces_of_plain h]

theorem slash_notMem_pieces (s : Text) : ∀ w ∈ pieces s, slash ∉ w := by
  induction s with
  | nil =>
    intro w hw
    rw [List.mem_singleton.mp hw]
    exact List.not_mem_nil
  | cons c s ih =>
    intro w hw
    rw [pieces] at hw
    by_cases hc : c = slash
    · rw [if_pos hc] at hw
      cases List.mem_cons.mp hw with
      | inl hw => exact hw ▸ List.not_mem_nil
      | inr hw => exact ih w hw
    · rw [if_neg hc] at hw
      cases hp : pieces s with
      | nil => exact absurd hp (pieces_ne_nil s)
      | cons v vs =>
        rw [hp] at hw ih
        cases List.mem_cons.mp hw with
        | inl hw =>
          rw [hw, List.mem_cons, not_or]
          exact ⟨fun he => hc he.symm, ih v List.mem_cons_self⟩
        | inr hw => exact ih w (List.mem_cons_of_mem v hw)

theorem mem_components {s w : Text} (h : w ∈ components s) : w ≠ [] ∧ slash ∉ w ∧ w ≠ dot := by
  obtain ⟨hp, hw⟩ := List.mem_filter.mp h
  have hne : w ≠ [] ∧ w ≠ dot := of_decide_eq_true hw
  exact ⟨hne.1, slash_notMem_pieces s w hp, hne.2⟩

/-- A file system: where one component leads from a directory, links followed. Nothing is
said of `..`, which after a link is not the way back. -/
structure FileSystem (Node : Type) where
  root : Node
  walk : Node → Text → Node

variable {Node : Type}

/-- The directory a path name denotes for a process in the directory `cwd`. -/
def FileSystem.resolve (fs : FileSystem Node) (cwd : Node) (s : Text) : Node :=
  (components s).foldl fs.walk (if s.head? = some slash then fs.root else cwd)

theorem FileSystem.resolve_absolute (fs : FileSystem Node) (cwd : Node) {s : Text}
    (h : s.head? = some slash) : fs.resolve cwd s = (components s).foldl fs.walk fs.root := by
  rw [FileSystem.resolve, if_pos h]

/-- Directories without links: each is known by the tree it is in, 0 being that of the root,
and by the way to it. -/
def freeSystem : FileSystem (Nat × List Text) where
  root := (0, [])
  walk d c := (d.1, d.2 ++ [c])

theorem freeSystem_foldl (cs : List Text) : ∀ d : Nat × List Text,
    cs.foldl freeSystem.walk d = (d.1, d.2 ++ cs) := by
  induction cs with
  | nil =>
    intro d
    rw [List.foldl_nil, List.append_nil]
  | cons c cs ih =>
    intro d
    rw [List.foldl_cons, ih, freeSystem, List.append_assoc]
    rfl

/-- A component of a plain name: no slash in it, and neither empty, `..` nor a home directory. -/
structure PlainComponent (w : Text) : Prop where
  ne_nil : w ≠ []
  noSlash : slash ∉ w
  ne_dotDot : w ≠ dotDot
  noHome : w.head? ≠ some 126

/-- The text of an absolute directory name, with a slash at its end or without. -/
def dirText (cs : List Text) (trailing : Bool) : Text :=
  cs.flatMap (slash :: ·) ++ if trailing ∨ cs = [] then [slash] else []

theorem dirText_head (cs : List Text) (trailing : Bool) :
    (dirText cs trailing).head? = some slash := by
  cases cs with
  | nil => simp [dirText]
  | cons c cs => simp [dirText]

theorem components_flatMap (cs : List Text) (h : ∀ w ∈ cs, w ≠ [] ∧ slash ∉ w) :
    components (cs.flatMap (slash :: ·)) = cs.filter (· ≠ dot) := by
  induction cs with
  | nil => rfl
  | cons w cs ih =>
    have hw := h w List.mem_cons_self
    have hrest := ih fun v hv => h v (List.mem_cons_of_mem w hv)
    have hone : components w = [w].filter (· ≠ dot) := by
      rw [components_of_plain hw.2]
      simp [List.filter_cons, hw.1]
    have hsplit : components (slash :: w ++ cs.flatMap (slash :: ·)) =
        components w ++ components (cs.flatMap (slash :: ·)) := by
      cases cs with
      | nil =>
        have hnil : components ([] : Text) = [] := rfl
        rw [List.flatMap_nil, List.append_nil, hnil, List.append_nil]
        exact components_append_slash [] w
      | cons v cs =>
        have hcons : (v :: cs).flatMap (slash :: ·) = slash :: (v ++ cs.flatMap (slash :: ·)) := by
          simp
        have hnil : ∀ s : Text, components (slash :: s) = components s := fun s =>
          components_append_slash [] s
        rw [hcons, List.cons_append, hnil, components_append_slash, hnil]
    rw [List.flatMap_cons, hsplit, hrest, hone, ← List.filter_append]
    rfl

theorem components_dirText {cs : List Text} (h : ∀ w ∈ cs, w ≠ [] ∧ slash ∉ w) (trailing : Bool) :
    components (dirText cs trailing) = cs.filter (· ≠ dot) := by
  rw [dirText]
  split
  · rw [components_append_slash, components_flatMap cs h]
    exact List.append_nil _
  · rw [List.append_nil, components_flatMap cs h]

theorem PlainComponent.ne_nil_noSlash {w : Text} (h : PlainComponent w) : w ≠ [] ∧ slash ∉ w :=
  ⟨h.ne_nil, h.noSlash⟩

theorem dirText_getLast {cs : List Text} (h : ∀ w ∈ cs, w ≠ [] ∧ slash ∉ w) (hne : cs ≠ []) :
    (dirText cs false).getLast? ≠ some slash := by
  have hsplit := List.dropLast_append_getLast hne
  have hlast := h _ (List.getLast_mem hne)
  have htext : dirText cs false =
      cs.dropLast.flatMap (slash :: ·) ++ slash :: cs.getLast hne := by
    rw [dirText, if_neg (by simp [hne]), List.append_nil]
    conv => lhs; rw [← hsplit]
    rw [List.flatMap_append, List.flatMap_singleton]
  intro hs
  rw [htext, List.getLast?_append_of_ne_nil _ (List.cons_ne_nil _ _), List.getLast?_cons,
    List.getLast?_eq_some_getLast hlast.1, Option.getD_some, Option.some.injEq] at hs
  exact hlast.2 (hs ▸ List.getLast_mem hlast.1)

end PkgsrcPatches.Lib.Path
