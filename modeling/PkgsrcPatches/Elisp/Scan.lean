import PkgsrcPatches.Elisp.Tokens

/-! Emacs 20 at a regexp, character by character: where its groups begin and
which references it makes. Every character carries the place in the caller's
regexp it was put out for. -/
namespace PkgsrcPatches.Elisp

/-- A place is the length of what is still to come. -/
abbrev Marked := List (Char × Nat)

abbrev Marked.text (d : Marked) : List Char := d.map Prod.fst

theorem Marked.text_append (d e : Marked) : Marked.text (d ++ e) = d.text ++ e.text := List.map_append

/-- What Emacs 20 takes the next character for; behind a syntax or category code it is no
construct, whatever it is. An escape has the place of its backslash. -/
inductive Mode where
  | plain
  | escaped (p : Nat)
  | coded
  | opened
  | negated
  | inside
deriving DecidableEq

def Leaf.refs : Leaf → List Nat
  | .escape c => if '1'.toNat ≤ c.toNat ∧ c.toNat ≤ '9'.toNat then [c.toNat - '0'.toNat] else []
  | _ => []

namespace Mode

def next (c : Char) (p : Nat) : Mode → Mode
  | .plain => if c = '\\' then .escaped p else if c = '[' then .opened else .plain
  | .escaped _ => if c ∈ ['s', 'S', 'c', 'C'] then .coded else .plain
  | .coded => .plain
  | .opened => if c = '^' then .negated else .inside
  | .negated => .inside
  | .inside => if c = ']' then .plain else .inside

def opening (c : Char) : Mode → List Nat
  | .escaped p => if c = '(' then [p] else []
  | _ => []

def reference (c : Char) : Mode → List Nat
  | .escaped _ => (Leaf.escape c).refs
  | _ => []

def after (m : Mode) (d : Marked) : Mode := d.foldl (fun m a => m.next a.1 a.2) m

def openings : Mode → Marked → List Nat
  | _, [] => []
  | m, (c, p) :: d => m.opening c ++ (m.next c p).openings d

def references : Mode → Marked → List Nat
  | _, [] => []
  | m, (c, p) :: d => m.reference c ++ (m.next c p).references d

theorem after_append (m : Mode) (d e : Marked) : m.after (d ++ e) = (m.after d).after e :=
  List.foldl_append

theorem openings_append (m : Mode) (d e : Marked) :
    m.openings (d ++ e) = m.openings d ++ (m.after d).openings e := by
  induction d generalizing m with
  | nil => rfl
  | cons a d ih =>
    rw [List.cons_append, openings, openings, ih, List.append_assoc]
    rfl

theorem references_append (m : Mode) (d e : Marked) :
    m.references (d ++ e) = m.references d ++ (m.after d).references e := by
  induction d generalizing m with
  | nil => rfl
  | cons a d ih =>
    rw [List.cons_append, references, references, ih, List.append_assoc]
    rfl

def kind : Mode → Mode
  | .escaped _ => .escaped 0
  | m => m

theorem eq_of_kind {m n : Mode} (h : m.kind = n.kind) :
    m = n ∨ ∃ p q, m = .escaped p ∧ n = .escaped q := by
  cases m <;> cases n <;> first
    | exact Or.inl rfl
    | exact Or.inr ⟨_, _, rfl, rfl⟩
    | cases h

theorem next_kind {m n : Mode} (h : m.kind = n.kind) (c : Char) (p q : Nat) :
    (m.next c p).kind = (n.next c q).kind ∧ (m.opening c = [] ↔ n.opening c = []) ∧
      m.reference c = n.reference c := by
  obtain rfl | ⟨a, b, rfl, rfl⟩ := eq_of_kind h
  · refine ⟨?_, Iff.rfl, rfl⟩
    cases m with
    | plain =>
      simp only [next]
      split_ifs <;> rfl
    | escaped a => rfl
    | coded => rfl
    | opened => rfl
    | negated => rfl
    | inside => rfl
  · refine ⟨rfl, ?_, rfl⟩
    simp only [opening]
    split_ifs <;> simp

/-- Only where the groups are depends on the places. -/
theorem read_kind {m n : Mode} (h : m.kind = n.kind) {d e : Marked} (htext : d.text = e.text) :
    (m.after d).kind = (n.after e).kind ∧ (m.openings d = [] ↔ n.openings e = []) ∧
      m.references d = n.references e := by
  induction d generalizing m n e with
  | nil =>
    cases e with
    | nil => exact ⟨h, Iff.rfl, rfl⟩
    | cons b e => cases htext
  | cons a d ih =>
    cases e with
    | nil => cases htext
    | cons b e =>
      obtain ⟨c, p⟩ := a
      obtain ⟨c', q⟩ := b
      obtain ⟨hc, htail⟩ := List.cons.inj htext
      obtain rfl : c = c' := hc
      obtain ⟨hnext, hopen, href⟩ := next_kind h c p q
      obtain ⟨hafter, hopens, hrefs⟩ := ih hnext htail
      refine ⟨hafter, ?_, ?_⟩
      · rw [openings, openings, List.append_eq_nil_iff, List.append_eq_nil_iff, hopen, hopens]
      · rw [references, references, href, hrefs]

end Mode

/-- From one mode to another groups with these places and references to these numbers have
been read. -/
structure Reads (m m' : Mode) (d : Marked) (opened refs : List Nat) : Prop where
  after : m.after d = m'
  opened : m.openings d = opened
  refs : ∀ n, n ∈ m.references d ↔ n ∈ refs

namespace Reads
variable {m m' m'' : Mode} {d e : Marked} {O O' R R' : List Nat}

theorem nil (m : Mode) : Reads m m [] [] [] := ⟨rfl, rfl, fun _ => Iff.rfl⟩

theorem append (h : Reads m m' d O R) (h' : Reads m' m'' e O' R') :
    Reads m m'' (d ++ e) (O ++ O') (R ++ R') where
  after := by rw [Mode.after_append, h.after, h'.after]
  opened := by rw [Mode.openings_append, h.after, h.opened, h'.opened]
  refs := by
    intro n
    rw [Mode.references_append, h.after, List.mem_append, h.refs, h'.refs, List.mem_append]

theorem cons {c : Char} {p : Nat} (h : Reads (m.next c p) m' d O R) :
    Reads m m' ((c, p) :: d) (m.opening c ++ O) (m.reference c ++ R) where
  after := h.after
  opened := by rw [Mode.openings, h.opened]
  refs := by
    intro n
    rw [Mode.references, List.mem_append, h.refs, List.mem_append]

theorem congr_refs (h : Reads m m' d O R) (hR : ∀ n, n ∈ R ↔ n ∈ R') : Reads m m' d O R' :=
  ⟨h.after, h.opened, fun n => (h.refs n).trans (hR n)⟩

theorem of_text (h : Reads m m' d [] R) (hm' : ∀ q, m' ≠ .escaped q) (htext : d.text = e.text) :
    Reads m m' e [] R := by
  obtain ⟨hafter, hopens, hrefs⟩ := Mode.read_kind (m := m) rfl htext
  rw [h.after] at hafter
  obtain heq | ⟨p, q, hp, _⟩ := Mode.eq_of_kind hafter
  · exact ⟨heq.symm, hopens.mp h.opened, fun n => hrefs ▸ h.refs n⟩
  · exact (hm' p hp).elim

theorem split (h : Reads m m' (d ++ e) [] R) (he : (m.after d).references e = []) :
    Reads m (m.after d) d [] R ∧ Reads (m.after d) m' e [] [] := by
  have hopen := h.opened
  rw [Mode.openings_append, List.append_eq_nil_iff] at hopen
  refine ⟨⟨rfl, hopen.1, fun n => ?_⟩, ⟨?_, hopen.2, fun n => by rw [he]⟩⟩
  · rw [← h.refs, Mode.references_append, he, List.append_nil]
  · rw [← Mode.after_append]
    exact h.after

theorem step {c : Char} {p : Nat} (hm : ∀ q, m ≠ .escaped q) (h : Reads (m.next c p) m' d O R) :
    Reads m m' ((c, p) :: d) O R := by
  have hcons := h.cons (p := p)
  cases m with
  | escaped q => exact (hm q rfl).elim
  | plain => exact hcons
  | coded => exact hcons
  | opened => exact hcons
  | negated => exact hcons
  | inside => exact hcons

theorem chars {d : Marked} (h : ∀ c ∈ d.text, c ≠ '\\' ∧ c ≠ '[') :
    Reads .plain .plain d [] [] := by
  induction d with
  | nil => exact nil .plain
  | cons a d ih =>
    obtain ⟨hback, hopen⟩ := h a.1 List.mem_cons_self
    refine step (fun _ h => by cases h) ?_
    rw [Mode.next, if_neg hback, if_neg hopen]
    exact ih fun c hc => h c (List.mem_cons_of_mem _ hc)

theorem coded {a : Char × Nat} {d : Marked} (h : ∀ c ∈ d.text, c ≠ '\\' ∧ c ≠ '[') :
    Reads .coded .plain (a :: d) [] [] :=
  step (fun _ h => by cases h) (chars h)

theorem inside {d : Marked} (h : ∀ c ∈ d.text, c ≠ ']') : Reads .inside .inside d [] [] := by
  induction d with
  | nil => exact nil .inside
  | cons a d ih =>
    refine step (fun _ h => by cases h) ?_
    rw [Mode.next, if_neg (h a.1 List.mem_cons_self)]
    exact ih fun c hc => h c (List.mem_cons_of_mem _ hc)

theorem escape {c : Char} (hopen : c ≠ '(') (hkind : c ∉ ['s', 'S', 'c', 'C']) {d : Marked}
    (hd : d.text = ['\\', c]) : Reads .plain .plain d [] (Leaf.escape c).refs := by
  obtain ⟨⟨_, p⟩, d', rfl, rfl, hd'⟩ := List.map_eq_cons_iff.mp hd
  obtain ⟨⟨c, q⟩, d'', rfl, rfl, hd''⟩ := List.map_eq_cons_iff.mp hd'
  obtain rfl := List.map_eq_nil_iff.mp hd''
  refine step (fun _ h => by cases h) ?_
  have hcons := (nil (Mode.next c q (.escaped p))).cons (m := .escaped p)
  rw [Mode.opening, if_neg hopen, Mode.reference, List.append_nil, List.append_nil, Mode.next,
    if_neg hkind] at hcons
  exact hcons

theorem code {k : Char} (hk : k ∈ ['s', 'S', 'c', 'C']) (p q : Nat) :
    Reads .plain .coded [('\\', p), (k, q)] [] [] := by
  simp only [List.mem_cons, List.not_mem_nil, or_false] at hk
  obtain rfl | rfl | rfl | rfl := hk <;> exact ⟨rfl, rfl, fun _ => Iff.rfl⟩

theorem openParen (p q : Nat) : Reads .plain .plain [('\\', p), ('(', q)] [p] [] :=
  ⟨rfl, rfl, fun _ => Iff.rfl⟩

theorem replicate (h : Reads m m d O R) (n : Nat) :
    Reads m m (List.replicate n d).flatten (List.replicate n O).flatten
      (List.replicate n R).flatten := by
  induction n with
  | zero => exact nil m
  | succ n ih =>
    rw [List.replicate_succ, List.replicate_succ, List.replicate_succ]
    exact h.append ih

end Reads

theorem mem_flatten_replicate {α : Type} {R : List α} {n : Nat} {a : α} :
    a ∈ (List.replicate n R).flatten ↔ n ≠ 0 ∧ a ∈ R := by
  simp [List.mem_flatten, List.mem_replicate]

end PkgsrcPatches.Elisp
