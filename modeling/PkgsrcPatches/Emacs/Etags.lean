import PkgsrcPatches.Lib.CString

/-! The update branch of `etags` and `ctags` in the three backports: every text
it builds, beside the size of the buffer it builds it in. -/
namespace PkgsrcPatches.Emacs
open PkgsrcPatches.Lib

inductive Build where
  | emacs20 | emacs21 | mule2
deriving DecidableEq

inductive ArgType where
  | atFilename | atOther
deriving DecidableEq

/-- An entry of `argbuffer`; in mule2 an element of `argv`, where the type is not looked at. -/
structure Argument where
  argType : ArgType
  what : CString

/-- One filling of a fresh buffer: the bytes stored, the terminator among them, and
the size asked of `xmalloc`, which has no value when an `int` overflowed in it. -/
structure Fill where
  written : Nat
  allocated : Option Nat
deriving DecidableEq

def Fill.Fits (f : Fill) : Prop := ∃ n ∈ f.allocated, f.written ≤ n

instance (f : Fill) : Decidable f.Fits := inferInstanceAs (Decidable (∃ n ∈ f.allocated, f.written ≤ n))

theorem Fill.fits_some (w n : Nat) : Fill.Fits ⟨w, some n⟩ ↔ w ≤ n := by
  constructor
  · intro h
    obtain ⟨k, hk, hw⟩ := h
    cases Option.mem_some_iff.mp hk
    exact hw
  · intro h
    exact ⟨n, rfl, h⟩

def sprintf (text : CString) (size : Option Nat) : Fill := ⟨text.strlen + 1, size⟩

def quoteChar : UInt8 := 39

/-- The loop of `shell_quote` that sizes its output, `n` being its `int`. -/
def quotedSize : List UInt8 → Nat → Option Nat
  | [], n => some n
  | c :: s, n => (addInt n (if c = quoteChar then 4 else 1)).bind (quotedSize s)

def quoteLoop : List UInt8 → List UInt8 → List UInt8
  | [], q => q
  | c :: s, q => quoteLoop s (q ++ if c = quoteChar then [39, 92, 39, 39] else [c])

theorem quoteLoop_noNul : ∀ (s q : List UInt8), (0 : UInt8) ∉ s → (0 : UInt8) ∉ q →
    (0 : UInt8) ∉ quoteLoop s q := by
  intro s
  induction s with
  | nil =>
    intro q _ hq
    exact hq
  | cons c s ih =>
    intro q hs hq
    refine ih _ (fun h => hs (List.mem_cons_of_mem c h)) ?_
    intro h
    cases List.mem_append.mp h with
    | inl h => exact hq h
    | inr h =>
      split at h
      · exact absurd h (by decide)
      · exact hs (List.mem_singleton.mp h ▸ List.mem_cons_self)

def shellQuote (str : CString) : CString :=
  ⟨quoteLoop str.bytes [quoteChar] ++ [quoteChar], by
    intro h
    cases List.mem_append.mp h with
    | inl h => exact quoteLoop_noNul _ _ str.noNul (by decide) h
    | inr h => exact absurd h (by decide)⟩

/-- What `shell_quote` stores in its own buffer of `n + 3` bytes. -/
def shellQuoteFill (str : CString) : Fill :=
  ⟨(shellQuote str).strlen + 1, (quotedSize str.bytes 0).bind (addInt · 3)⟩

def fgrepSlack : Build → Nat
  | .emacs20 | .emacs21 => 32
  | .mule2 => 64

def patternOf (what : CString) : CString := .lit "\t" ++ what ++ .lit "\t"

def fgrepCommand (qtagfile qpattern : CString) : CString :=
  .lit "mv " ++ qtagfile ++ .lit " OTAGS;fgrep -v " ++ qpattern ++ .lit " OTAGS >" ++ qtagfile ++
    .lit ";rm OTAGS"

def sortCommand (qtagfile : CString) : CString :=
  .lit "sort " ++ qtagfile ++ .lit " -o " ++ qtagfile

def updateFills (m : DataModel) (b : Build) (tagfile what : CString) : List Fill :=
  let pattern := patternOf what
  let qpattern := shellQuote pattern
  let qtagfile := shellQuote tagfile
  [sprintf pattern (some (m.sizeT (what.strlen + 3))),
   shellQuoteFill pattern,
   shellQuoteFill tagfile,
   sprintf (fgrepCommand qtagfile qpattern)
     (some (m.sizeT (2 * qtagfile.strlen + qpattern.strlen + fgrepSlack b)))]

def sortFills (m : DataModel) (tagfile : CString) : List Fill :=
  let qtagfile := shellQuote tagfile
  [shellQuoteFill tagfile,
   sprintf (sortCommand qtagfile) (some (m.sizeT (2 * qtagfile.strlen + 16)))]

/-- The names the loop handles: mule2 walks `argv`, the others skip what is no file name. -/
def loopNames (b : Build) (args : List Argument) : List CString :=
  match b with
  | .mule2 => args.map (·.what)
  | .emacs20 | .emacs21 => (args.filter (·.argType = .atFilename)).map (·.what)

/-- Whether the result of `system` lets the loop go on: mule2 does not look at it,
the others are left through `fatal` unless it is `GOOD`. -/
def goesOn (b : Build) (good : Bool) : Bool :=
  match b with
  | .mule2 => true
  | .emacs20 | .emacs21 => good

/-- The loop over the names, `system i` telling whether the `i`-th command was `GOOD`,
followed by the sort when the loop is not left early. -/
def updateLoop (m : DataModel) (b : Build) (tagfile : CString) (system : Nat → Bool) :
    Nat → List CString → List Fill
  | _, [] => sortFills m tagfile
  | i, what :: names =>
    updateFills m b tagfile what ++
      if goesOn b (system i) then updateLoop m b tagfile system (i + 1) names else []

def updateBranch (m : DataModel) (b : Build) (tagfile : CString) (args : List Argument)
    (system : Nat → Bool) : List Fill :=
  updateLoop m b tagfile system 0 (loopNames b args)

def quotedLen (s : CString) : Nat := s.strlen + 3 * s.count quoteChar

theorem quotedSize_eq (s : List UInt8) : ∀ n r : Nat, n ≤ intMax →
    (quotedSize s n = some r ↔
      r = n + (s.length + 3 * s.count quoteChar) ∧ r ≤ intMax) := by
  induction s with
  | nil =>
    intro n r hn
    simp only [quotedSize, Option.some.injEq, List.length_nil, List.count_nil]
    omega
  | cons c s ih =>
    intro n r hn
    have hstep : ∀ k : Nat, (addInt n k).bind (quotedSize s) = some r ↔
        r = n + k + (s.length + 3 * s.count quoteChar) ∧ r ≤ intMax := by
      intro k
      rw [Option.bind_eq_some_iff]
      constructor
      · intro h
        obtain ⟨n', hn', hr⟩ := h
        obtain ⟨he, hle⟩ := (addInt_eq_some n k n').mp hn'
        subst he
        exact (ih (n + k) r hle).mp hr
      · intro h
        have hle : n + k ≤ intMax := by omega
        exact ⟨n + k, (addInt_eq_some n k _).mpr ⟨rfl, hle⟩, (ih (n + k) r hle).mpr h⟩
    simp only [quotedSize, hstep, List.length_cons, List.count_cons]
    by_cases hc : c = quoteChar
    · simp only [hc, beq_self_eq_true, if_true]
      omega
    · simp only [beq_iff_eq, if_neg hc]
      omega

theorem quoteLoop_length (s : List UInt8) : ∀ q : List UInt8,
    (quoteLoop s q).length = q.length + (s.length + 3 * s.count quoteChar) := by
  induction s with
  | nil =>
    intro q
    simp [quoteLoop]
  | cons c s ih =>
    intro q
    rw [quoteLoop, ih, List.length_append, List.length_cons, List.count_cons]
    by_cases hc : c = quoteChar
    · simp only [hc, if_true, beq_self_eq_true, List.length_cons, List.length_nil]
      omega
    · simp only [beq_iff_eq, if_neg hc, List.length_singleton]
      omega

@[simp] theorem shellQuote_strlen (s : CString) : (shellQuote s).strlen = quotedLen s + 2 := by
  have hloop := quoteLoop_length s.bytes [quoteChar]
  have hlen : (shellQuote s).strlen = (quoteLoop s.bytes [quoteChar]).length + 1 :=
    List.length_append
  rw [List.length_singleton] at hloop
  rw [hlen, hloop, quotedLen, CString.strlen, CString.count]
  omega

theorem shellQuoteFill_fits (s : CString) : (shellQuoteFill s).Fits ↔ quotedLen s + 3 ≤ intMax := by
  have hsize : ∀ r : Nat, (quotedSize s.bytes 0).bind (addInt · 3) = some r ↔
      r = quotedLen s + 3 ∧ r ≤ intMax := by
    intro r
    rw [Option.bind_eq_some_iff]
    constructor
    · intro h
      obtain ⟨n, hn, hr⟩ := h
      have hq := (quotedSize_eq s.bytes 0 n (Nat.zero_le _)).mp hn
      have hs := (addInt_eq_some n 3 r).mp hr
      simp only [quotedLen, CString.strlen, CString.count]
      omega
    · intro h
      have hq : quotedLen s = 0 + (s.bytes.length + 3 * s.bytes.count quoteChar) :=
        (Nat.zero_add _).symm
      exact ⟨quotedLen s, (quotedSize_eq s.bytes 0 _ (Nat.zero_le _)).mpr ⟨hq, by omega⟩,
        (addInt_eq_some _ 3 r).mpr ⟨h.1, by omega⟩⟩
  constructor
  · intro h
    obtain ⟨r, hr, -⟩ := h
    have := (hsize r).mp hr
    omega
  · intro h
    refine ⟨quotedLen s + 3, (hsize _).mpr ⟨rfl, h⟩, ?_⟩
    have hw : (shellQuoteFill s).written = (shellQuote s).strlen + 1 := rfl
    rw [hw, shellQuote_strlen]

@[simp] theorem patternOf_strlen (what : CString) : (patternOf what).strlen = what.strlen + 2 := by
  have htab : (CString.lit "\t").strlen = 1 := by decide
  simp only [patternOf, CString.strlen_append, htab]
  omega

@[simp] theorem fgrepCommand_strlen (qtagfile qpattern : CString) :
    (fgrepCommand qtagfile qpattern).strlen = 2 * qtagfile.strlen + qpattern.strlen + 36 := by
  have hmv : (CString.lit "mv ").strlen = 3 := by decide
  have hfgrep : (CString.lit " OTAGS;fgrep -v ").strlen = 16 := by decide
  have hto : (CString.lit " OTAGS >").strlen = 8 := by decide
  have hrm : (CString.lit ";rm OTAGS").strlen = 9 := by decide
  simp only [fgrepCommand, CString.strlen_append, hmv, hfgrep, hto, hrm]
  omega

@[simp] theorem sortCommand_strlen (qtagfile : CString) :
    (sortCommand qtagfile).strlen = 2 * qtagfile.strlen + 9 := by
  have hsort : (CString.lit "sort ").strlen = 5 := by decide
  have hto : (CString.lit " -o ").strlen = 4 := by decide
  simp only [sortCommand, CString.strlen_append, hsort, hto]
  omega

structure NameSized (m : DataModel) (tagfile what : CString) : Prop where
  pattern : quotedLen (patternOf what) + 3 ≤ intMax
  fgrep : 2 * (quotedLen tagfile + 2) + (quotedLen (patternOf what) + 2) + 64 < 2 ^ m.sizeBits

structure TagfileSized (m : DataModel) (tagfile : CString) : Prop where
  quoted : quotedLen tagfile + 3 ≤ intMax
  sort : 2 * (quotedLen tagfile + 2) + 16 < 2 ^ m.sizeBits

theorem sortFills_fit_iff (m : DataModel) (tagfile : CString) :
    (∀ f ∈ sortFills m tagfile, f.Fits) ↔ TagfileSized m tagfile := by
  simp only [sortFills, List.forall_mem_cons, List.not_mem_nil, false_imp_iff, implies_true,
    and_true, shellQuoteFill_fits, sprintf, Fill.fits_some, sortCommand_strlen, shellQuote_strlen]
  constructor
  · intro h
    refine ⟨h.1, ?_⟩
    by_contra hsum
    have hwrap := m.sizeT_lt_of_le (2 * (quotedLen tagfile + 2) + 9)
      (Nat.le_of_not_lt hsum) (by omega)
    omega
  · intro h
    rw [m.sizeT_of_lt h.sort]
    exact ⟨h.quoted, by omega⟩

/-- With room for 64 bytes more than the quoted names the command fits exactly when
its size does not overflow; with 32 it never does. -/
theorem fgrepFill_fits_iff (m : DataModel) (b : Build) (tagfile what : CString) :
    (sprintf (fgrepCommand (shellQuote tagfile) (shellQuote (patternOf what)))
      (some (m.sizeT (2 * (shellQuote tagfile).strlen + (shellQuote (patternOf what)).strlen +
        fgrepSlack b)))).Fits ↔
      b = .mule2 ∧
        2 * (quotedLen tagfile + 2) + (quotedLen (patternOf what) + 2) + 64 < 2 ^ m.sizeBits := by
  simp only [sprintf, Fill.fits_some, fgrepCommand_strlen, shellQuote_strlen]
  have hle := m.sizeT_le (2 * (quotedLen tagfile + 2) + (quotedLen (patternOf what) + 2) + fgrepSlack b)
  constructor
  · intro h
    cases b with
    | emacs20 =>
      simp only [fgrepSlack] at hle h
      omega
    | emacs21 =>
      simp only [fgrepSlack] at hle h
      omega
    | mule2 =>
      refine ⟨rfl, ?_⟩
      by_contra hsum
      simp only [fgrepSlack] at h
      have hwrap := m.sizeT_lt_of_le
        (2 * (quotedLen tagfile + 2) + (quotedLen (patternOf what) + 2) + 36)
        (Nat.le_of_not_lt hsum) (by omega)
      omega
  · intro h
    obtain ⟨hb, hsum⟩ := h
    subst hb
    simp only [fgrepSlack]
    rw [m.sizeT_of_lt hsum]
    omega

theorem updateFills_fit_iff (m : DataModel) (b : Build) (tagfile what : CString) :
    (∀ f ∈ updateFills m b tagfile what, f.Fits) ↔
      b = .mule2 ∧ quotedLen tagfile + 3 ≤ intMax ∧ NameSized m tagfile what := by
  simp only [updateFills, List.forall_mem_cons, List.not_mem_nil, false_imp_iff, implies_true,
    and_true, shellQuoteFill_fits, fgrepFill_fits_iff]
  constructor
  · intro h
    exact ⟨h.2.2.2.1, h.2.2.1, h.2.1, h.2.2.2.2⟩
  · intro h
    obtain ⟨hb, htag, hpat, hsum⟩ := h
    refine ⟨?_, hpat, htag, hb, hsum⟩
    have hlen : quotedLen (patternOf what) ≥ what.strlen + 2 := by
      rw [quotedLen, patternOf_strlen]
      omega
    have hmax := m.intMax_lt
    rw [sprintf, Fill.fits_some, patternOf_strlen, m.sizeT_of_lt (by omega)]

theorem updateLoop_mule2 (m : DataModel) (tagfile : CString) (system : Nat → Bool)
    (names : List CString) : ∀ i : Nat,
    updateLoop m .mule2 tagfile system i names =
      names.flatMap (updateFills m .mule2 tagfile) ++ sortFills m tagfile := by
  induction names with
  | nil =>
    intro i
    rfl
  | cons what names ih =>
    intro i
    rw [updateLoop, goesOn, if_pos rfl, ih, List.flatMap_cons, List.append_assoc]

/-- Every text of the update branch fits its buffer exactly when no size overflows and
the loop of the Emacs 20 and 21 builds meets no file name. -/
theorem updateBranch_fits_iff (m : DataModel) (b : Build) (tagfile : CString)
    (args : List Argument) (system : Nat → Bool) :
    (∀ f ∈ updateBranch m b tagfile args system, f.Fits) ↔
      TagfileSized m tagfile ∧
        ∀ what ∈ loopNames b args, b = .mule2 ∧ NameSized m tagfile what := by
  cases hnames : loopNames b args with
  | nil => simp [updateBranch, hnames, updateLoop, sortFills_fit_iff]
  | cons what names =>
    rw [updateBranch, hnames]
    by_cases hb : b = .mule2
    · subst hb
      rw [updateLoop_mule2, List.forall_mem_append, sortFills_fit_iff, List.forall_mem_flatMap]
      simp only [updateFills_fit_iff, true_and]
      constructor
      · intro h
        exact ⟨h.2, fun w hw => (h.1 w hw).2⟩
      · intro h
        exact ⟨fun w hw => ⟨h.1.quoted, h.2 w hw⟩, h.1⟩
    · constructor
      · intro h
        rw [updateLoop, List.forall_mem_append] at h
        exact absurd ((updateFills_fit_iff m b tagfile what).mp h.1).1 hb
      · intro h
        exact absurd (h.2 what List.mem_cons_self).1 hb

/-- `ctags -u a.c` in the Emacs 21 build stores 56 bytes in a buffer of 51. -/
theorem updateBranch_overflows :
    ¬ ∀ f ∈ updateBranch .lp64 .emacs21 (.lit "tags") [⟨.atFilename, .lit "a.c"⟩] (fun _ => true),
      f.Fits := by
  decide

end PkgsrcPatches.Emacs
