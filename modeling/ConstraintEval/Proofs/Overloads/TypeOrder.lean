import ConstraintEval.Typing.Ty

/-!
# The order of types

What can be passed for what is a partial order, on types and position by position on lists of
types. So two signatures that can stand in for each other are the same, and among signatures that
differ at most one is the least. The order can be read off the flags of two types, together with
their bases and ranks where no wildcard stands for these.
-/

namespace ConstraintEval

variable {m n : Mode} {p q : Presence} {a b c : Ty} {as bs cs : List Ty}

/-- What the solver decides is passed only for what it decides. -/
private theorem Mode.le_iff : m ≤ n ↔ (m = .var → n = .var) := by
  cases m <;> cases n <;> decide

/-- What may be absent is passed only for what may be. -/
private theorem Presence.le_iff : p ≤ q ↔ (p = .maybe → q = .maybe) := by
  cases p <;> cases q <;> decide

private theorem Mode.le_antisymm (h : m ≤ n) (h' : n ≤ m) : m = n := by
  rw [le_iff] at h h'
  cases m <;> cases n <;> simp_all

private theorem Presence.le_antisymm (h : p ≤ q) (h' : q ≤ p) : p = q := by
  rw [le_iff] at h h'
  cases p <;> cases q <;> simp_all

namespace Ty

theorem le_refl (a : Ty) : a ≤ a := by
  refine ⟨Mode.le_iff.2 id, Presence.le_iff.2 id, rfl, Or.inr rfl, ?_⟩
  split
  · next any =>
    rw [any]
    decide
  · rfl

theorem le_trans (h : a ≤ b) (h' : b ≤ c) : a ≤ c := by
  obtain ⟨mode, presence, isSet, base, rank⟩ := h
  obtain ⟨mode', presence', isSet', base', rank'⟩ := h'
  refine ⟨?_, ?_, isSet.trans isSet', ?_, ?_⟩
  · exact Mode.le_iff.2 (Mode.le_iff.1 mode' ∘ Mode.le_iff.1 mode)
  · exact Presence.le_iff.2 (Presence.le_iff.1 presence' ∘ Presence.le_iff.1 presence)
  · rcases base' with any | base'
    · exact Or.inl any
    · rw [← base']
      exact base
  · by_cases any : c.rank = anyRank
    · -- the wildcard takes arrays of any rank, the wildcard among them
      rw [if_pos any] at rank' ⊢
      split at rank
      · exact rank
      · rw [rank]
        exact rank'
    · rw [if_neg any] at rank' ⊢
      rw [rank', if_neg any] at rank
      exact rank

theorem le_antisymm (h : a ≤ b) (h' : b ≤ a) : a = b := by
  obtain ⟨mode, presence, isSet, base, rank⟩ := h
  obtain ⟨mode', presence', -, base', rank'⟩ := h'
  ext1
  · rcases base with any | base
    · rcases base' with any' | base'
      · rw [any, any']
      · exact base'.symm
    · exact base
  · exact Mode.le_antisymm mode mode'
  · exact Presence.le_antisymm presence presence'
  · exact isSet
  · by_cases any : b.rank = anyRank
    · by_cases any' : a.rank = anyRank
      · rw [any, any']
      · rw [if_neg any'] at rank'
        exact rank'.symm
    · rw [if_neg any] at rank
      exact rank

/-- What a flag says about the types that have it. -/
theorem mem_flags {flag : Flag} : flag ∈ a.flags ↔
    match flag with
    | .decided => a.mode = .var
    | .absent => a.presence = .maybe
    | .set => a.isSet
    | .array => a.rank ≠ 0
    | .anyRank => a.rank = anyRank
    | .anyBase => a.base = .any := by
  cases flag <;> simp [flags, isDecided, isArray]

/-- One type widens to another: of the flags that may be added none is lost, sets stay sets, the
base stays unless it becomes the base variable, and the rank stays unless that of an array becomes
the wildcard. -/
def WidensTo (a b : Ty) : Prop :=
  (∀ flag ∈ Flag.widening, flag ∈ a.flags → flag ∈ b.flags) ∧
    (Flag.set ∈ a.flags ↔ Flag.set ∈ b.flags) ∧
      (Flag.anyBase ∈ b.flags ∨ a.base = b.base) ∧
        if Flag.anyRank ∈ b.flags then Flag.array ∈ a.flags else a.rank = b.rank

theorem le_iff_widensTo : a ≤ b ↔ a.WidensTo b := by
  -- each of the flags that may be added stands for one part of the order
  have widening : (∀ flag ∈ Flag.widening, flag ∈ a.flags → flag ∈ b.flags) ↔
      a.mode ≤ b.mode ∧ a.presence ≤ b.presence := by
    rw [Mode.le_iff, Presence.le_iff, Flag.widening, List.forall_mem_cons,
      List.forall_mem_singleton]
    simp only [mem_flags]
  have sets : (Flag.set ∈ a.flags ↔ Flag.set ∈ b.flags) ↔ a.isSet = b.isSet := by
    simp only [mem_flags]
    exact Bool.eq_iff_iff.symm
  rw [WidensTo, widening, sets, and_assoc]
  simp only [mem_flags]
  exact le_def

/-- Arrays of any number of dimensions are taken for what their elements are. -/
theorem any_le_any_iff {r : Int} (array : r ≠ 0) : any m p r ≤ any n q anyRank ↔ m ≤ n ∧ p ≤ q := by
  simp [le_def, any, array]

end Ty

namespace Fits

theorem refl (as : List Ty) : Fits as as := by
  induction as with
  | nil => trivial
  | cons a as ih => exact ⟨a.le_refl, ih⟩

theorem trans (h : Fits as bs) (h' : Fits bs cs) : Fits as cs := by
  induction as generalizing bs cs with
  | nil =>
    cases bs with
    | nil => exact h'
    | cons b bs => exact h.elim
  | cons a as ih =>
    cases bs with
    | nil => exact h.elim
    | cons b bs =>
      cases cs with
      | nil => exact h'.elim
      | cons c cs => exact ⟨Ty.le_trans h.1 h'.1, ih h.2 h'.2⟩

theorem antisymm (h : Fits as bs) (h' : Fits bs as) : as = bs := by
  induction as generalizing bs with
  | nil =>
    cases bs with
    | nil => rfl
    | cons b bs => exact h.elim
  | cons a as ih =>
    cases bs with
    | nil => exact h.elim
    | cons b bs => rw [Ty.le_antisymm h.1 h'.1, ih h.2 h'.2]

/-- A last argument is passed for a last parameter. -/
theorem concat_iff : Fits (as ++ [a]) (bs ++ [b]) ↔ Fits as bs ∧ a ≤ b := by
  induction as generalizing bs with
  | nil => cases bs <;> simp [Fits]
  | cons a' as ih =>
    cases bs with
    | nil => cases as <;> simp [Fits]
    | cons b' bs => simp only [List.cons_append, Fits, ih, and_assoc]

end Fits

/-- Signatures are partially ordered by what can be passed for what, whatever their lengths and
types: one is below another exactly if they have as many parameters and each widens to its
counterpart, and this is reflexive, transitive and antisymmetric. -/
theorem signatures_partially_ordered :
    (∀ as bs, Fits as bs ↔ as.length = bs.length ∧ ∀ x ∈ as.zip bs, x.1.WidensTo x.2) ∧
    (∀ as, Fits as as) ∧
    (∀ as bs cs, Fits as bs → Fits bs cs → Fits as cs) ∧
    ∀ as bs, Fits as bs → Fits bs as → as = bs := by
  refine ⟨fun as bs ↦ ?_, Fits.refl, fun as bs cs ↦ Fits.trans, fun as bs ↦ Fits.antisymm⟩
  simp only [fits_iff, Ty.le_iff_widensTo]

/-- A known integer, and known truth values under the least rank, which no value has. -/
def knownParams : List Ty := [.int .par, (Ty.bool .par).inRank (-128)]

/-- A decided integer, and decided truth values in any number of dimensions. -/
def decidedParams : List Ty := [.int .var, (Ty.bool .var).arraysOf]

/-- Anything single, and any arrays, decided and possibly absent, but no sets. -/
def widestParams : List Ty := [.any .var .maybe 0, .any .var .maybe Ty.anyRank]

/-- The decided parameters for every base and possibly absent. -/
def widenedParams : List Ty := decidedParams.map fun t ↦ { t.orAbsent with base := .any }

/-- Three signatures stand one above the other, and the greatest is not below the least. The
greatest one is what becomes of the second when that is widened. -/
theorem signatures_ordered_up_to_widest :
    (Fits knownParams decidedParams ∧ Fits decidedParams widestParams ∧
      Fits knownParams widestParams ∧ ¬ Fits widestParams knownParams) ∧
    Fits widenedParams widestParams ∧ Fits widestParams widenedParams ∧
      widenedParams = widestParams := by
  obtain ⟨-, -, trans, antisymm⟩ := signatures_partially_ordered
  have decided : Fits knownParams decidedParams := by decide
  have widest : Fits decidedParams widestParams := by decide
  have above : Fits knownParams widestParams := trans _ _ _ decided widest
  have notBelow : ¬ Fits widestParams knownParams :=
    fun below ↦ absurd (antisymm _ _ above below) (by decide)
  have widened : Fits widenedParams widestParams := by decide
  have widened' : Fits widestParams widenedParams := by decide
  exact ⟨⟨decided, widest, above, notBelow⟩, widened, widened', antisymm _ _ widened widened'⟩

end ConstraintEval
