import Mathlib.Data.List.Basic

/-! Association lists as finite maps, up to an equality of keys that need not be identity. -/
namespace PkgsrcPatches.Lib.Alist
variable {K V : Type*}

structure Equality (K : Type*) where
  same : K → K → Bool
  refl (a : K) : same a a
  symm {a b : K} (h : same a b) : same b a
  trans {a b c : K} (h : same a b) (h' : same b c) : same a c

variable (E : Equality K)

def lookup (al : List (K × V)) (k : K) : Option V := (al.find? (E.same ·.1 k)).map Prod.snd

def Unique (al : List (K × V)) : Prop := al.Pairwise fun x y => ¬E.same x.1 y.1

inductive Change (K V : Type*) where
  | put (k : K) (v : V)
  | rem (k : K)
  | clear

/-- What a change makes of the value a key has. -/
def Change.apply (k : K) (found : Option V) : Change K V → Option V
  | .put k' v => if E.same k' k then some v else found
  | .rem k' => if E.same k' k then none else found
  | .clear => none

/-- The value last put for the key and not removed or cleared since. -/
def lastPut (changes : List (Change K V)) (k : K) : Option V :=
  changes.foldl (Change.apply E k) none

/-- The list is the map that these changes have left. -/
structure Models (al : List (K × V)) (changes : List (Change K V)) : Prop where
  unique : Unique E al
  lookup (k : K) : lookup E al k = lastPut E changes k

variable {E} {al A B : List (K × V)} {changes : List (Change K V)} {k k' k₀ : K} {v v₀ : V}

theorem Equality.congr_left (h : E.same k k') : E.same k k₀ = E.same k' k₀ :=
  Bool.eq_iff_iff.mpr ⟨E.trans (E.symm h), E.trans h⟩

/-! ### Lookups -/

theorem lookup_nil : lookup E ([] : List (K × V)) k = none := rfl

theorem lookup_eq_none : lookup E al k = none ↔ ∀ x ∈ al, ¬E.same x.1 k := by
  rw [lookup, Option.map_eq_none_iff, List.find?_eq_none]

theorem lookup_cons (x : K × V) :
    lookup E (x :: al) k = if E.same x.1 k then some x.2 else lookup E al k := by
  rw [lookup, List.find?_cons]
  split <;> simp_all [lookup]

theorem unique_middle {x : K × V} :
    Unique E (A ++ x :: B) ↔ (∀ y ∈ A ++ B, ¬E.same x.1 y.1) ∧ Unique E (A ++ B) := by
  rw [Unique, List.pairwise_middle fun h h' => h (E.symm h'), List.pairwise_cons, Unique]

theorem lookup_middle {x : K × V} (h : Unique E (A ++ x :: B)) :
    lookup E (A ++ x :: B) k = if E.same x.1 k then some x.2 else lookup E (A ++ B) k := by
  induction A with
  | nil => exact lookup_cons x
  | cons y A ih =>
    have hu := List.pairwise_cons.mp h
    rw [List.cons_append, lookup_cons, ih hu.2, List.cons_append, lookup_cons]
    by_cases hy : E.same y.1 k
    · have hx : ¬E.same x.1 k := fun hx =>
        hu.1 x (List.mem_append_right A List.mem_cons_self) (E.trans hy (E.symm hx))
      rw [if_pos hy, if_neg hx, if_pos hy]
    · rw [if_neg hy, if_neg hy]

theorem lookup_rest {x : K × V} (h : Unique E (A ++ x :: B)) (hk : E.same x.1 k) :
    lookup E (A ++ B) k = none :=
  lookup_eq_none.mpr fun y hy hyk => (unique_middle.mp h).1 y hy (E.trans hk (E.symm hyk))

theorem lastPut_concat (c : Change K V) :
    lastPut E (changes ++ [c]) k = c.apply E k (lastPut E changes k) := by
  rw [lastPut, List.foldl_append]
  rfl

theorem Models.nil : Models E ([] : List (K × V)) [] := ⟨.nil, fun _ => rfl⟩

theorem Models.clear : Models E [] (changes ++ [.clear]) :=
  ⟨.nil, fun k => by rw [lastPut_concat, lookup_nil, Change.apply]⟩

theorem Models.put_new (h : Models E al changes) (hk : ∀ x ∈ al, ¬E.same x.1 k) :
    Models E ((k, v) :: al) (changes ++ [.put k v]) where
  unique := List.pairwise_cons.mpr ⟨fun x hx hs => hk x hx (E.symm hs), h.unique⟩
  lookup k' := by rw [lookup_cons, lastPut_concat, Change.apply, h.lookup]

theorem Models.put_old (h : Models E (A ++ (k₀, v₀) :: B) changes) (hk : E.same k₀ k) :
    Models E (A ++ (k₀, v) :: B) (changes ++ [.put k v]) := by
  have hrest := unique_middle.mp h.unique
  have hu : Unique E (A ++ (k₀, v) :: B) := unique_middle.mpr ⟨hrest.1, hrest.2⟩
  refine ⟨hu, fun k' => ?_⟩
  rw [lookup_middle hu, lastPut_concat, Change.apply, ← h.lookup, lookup_middle h.unique,
    E.congr_left hk]
  split <;> rfl

theorem Models.rem_absent (h : Models E al changes) (hk : ∀ x ∈ al, ¬E.same x.1 k) :
    Models E al (changes ++ [.rem k]) := by
  refine ⟨h.unique, fun k' => ?_⟩
  rw [lastPut_concat, Change.apply, ← h.lookup]
  split
  · next hs => exact lookup_eq_none.mpr fun x hx hx' => hk x hx (E.trans hx' (E.symm hs))
  · rfl

theorem Models.rem (h : Models E (A ++ (k₀, v₀) :: B) changes) (hk : E.same k₀ k) :
    Models E (A ++ B) (changes ++ [.rem k]) := by
  refine ⟨(unique_middle.mp h.unique).2, fun k' => ?_⟩
  rw [lastPut_concat, Change.apply, ← h.lookup, lookup_middle h.unique, E.congr_left hk]
  split
  · next hs => exact lookup_rest h.unique (E.trans hk hs)
  · rfl

end PkgsrcPatches.Lib.Alist
