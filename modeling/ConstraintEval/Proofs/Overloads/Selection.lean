import ConstraintEval.Model.Build
import ConstraintEval.Proofs.Overloads.TypeOrder
import Mathlib.Data.List.Nodup
import Mathlib.Data.List.Perm.Basic
import Mathlib.Logic.Equiv.Basic

/-!
# The least overload

A call means the one overload of its name that accepts the arguments and is strictly below every
other one that does. Types are partially ordered, so there is at most one such overload, and an
overload with just the types of the arguments is below all others. What is selected depends on
which functions are declared, and not on their order.
-/

namespace ConstraintEval

/-- The outcome of a selection where functions have other keys; candidates come in the order of
their new keys. -/
def Selection.Renamed (σ : FnKey → FnKey) : Selection → Selection → Prop
  | .one f, s => s = .one (σ f)
  | .noneFits, s => s = .noneFits
  | .several fs, s => ∃ gs : List FnKey, s = .several gs ∧ gs.Perm (fs.map σ)

namespace Model

variable {m m' : Model} {name : String} {args : List Ty} {f g : FnKey} {fs : List FnKey}

/-- A function is declared under a name and a key. -/
def Declares (m : Model) (name : String) (f : FnKey) : Prop :=
  f.index < m.overloads.size ∧ (m.overloadAt f).name = name

/-- A function that is declared under a name and a key takes arguments of some types. -/
def Accepts (m : Model) (name : String) (args : List Ty) (f : FnKey) : Prop :=
  m.Declares name f ∧ Fits args (m.overloadAt f).params

/-! ### Candidates -/

theorem mem_overloadsNamed : f ∈ m.overloadsNamed name ↔ m.Declares name f := by
  unfold overloadsNamed Declares
  rw [List.mem_filter, beq_iff_eq]
  refine and_congr_left fun _ ↦ ?_
  simp only [List.mem_map, List.mem_range]
  exact ⟨fun ⟨i, lt, eq⟩ ↦ eq ▸ lt, fun lt ↦ ⟨f.index, lt, rfl⟩⟩

theorem mem_accepting : f ∈ m.accepting name args ↔ m.Accepts name args f := by
  rw [accepting, List.mem_filter, mem_overloadsNamed, decide_eq_true_eq]
  rfl

/-- Candidates come in the order of their declaration. -/
theorem pairwise_accepting (m : Model) (name : String) (args : List Ty) :
    (m.accepting name args).Pairwise fun f g ↦ f.index < g.index := by
  have range : ((List.range m.overloads.size).map FnKey.mk).Pairwise
      fun f g ↦ f.index < g.index :=
    List.pairwise_map.2 List.pairwise_lt_range
  exact (range.filter _).filter _

theorem nodup_accepting (m : Model) (name : String) (args : List Ty) :
    (m.accepting name args).Nodup :=
  (m.pairwise_accepting name args).imp fun lt eq ↦ Nat.ne_of_lt lt (congrArg FnKey.index eq)

theorem mem_leastAmong : f ∈ m.leastAmong fs ↔
    f ∈ fs ∧ ∀ g ∈ fs, Fits (m.overloadAt f).params (m.overloadAt g).params := by
  simp [leastAmong]

/-- Among candidates the least one is alone exactly if all others have other parameters. -/
private theorem leastAmong_eq_singleton_iff (nodup : fs.Nodup) : m.leastAmong fs = [f] ↔
    f ∈ fs ∧ ∀ g ∈ fs, g ≠ f → Fits (m.overloadAt f).params (m.overloadAt g).params ∧
      (m.overloadAt g).params ≠ (m.overloadAt f).params := by
  constructor
  · intro alone
    obtain ⟨mem, least⟩ := mem_leastAmong.1 (alone ▸ List.mem_singleton_self f)
    refine ⟨mem, fun g hg ne ↦ ⟨least g hg, fun same ↦ ne ?_⟩⟩
    have least' : g ∈ m.leastAmong fs := mem_leastAmong.2 ⟨hg, fun h hh ↦ same ▸ least h hh⟩
    rw [alone] at least'
    exact List.mem_singleton.1 least'
  · rintro ⟨mem, below⟩
    have least : f ∈ m.leastAmong fs := by
      refine mem_leastAmong.2 ⟨mem, fun g hg ↦ ?_⟩
      by_cases eq : g = f
      · exact eq ▸ Fits.refl _
      · exact (below g hg eq).1
    have only : ∀ g ∈ m.leastAmong fs, g = f := by
      intro g hg
      obtain ⟨hg, least'⟩ := mem_leastAmong.1 hg
      by_contra ne
      obtain ⟨fits, other⟩ := below g hg ne
      exact other ((least' f mem).antisymm fits)
    exact (List.perm_singleton.1 <| (List.perm_ext_iff_of_nodup (nodup.filter _)
      (List.nodup_singleton f)).2 fun g ↦
        ⟨fun hg ↦ List.mem_singleton.2 (only g hg), fun hg ↦ List.mem_singleton.1 hg ▸ least⟩)

/-! ### Outcomes -/

private theorem select_eq_one_iff_leastAmong :
    m.select name args = .one f ↔ m.leastAmong (m.accepting name args) = [f] := by
  unfold select
  split
  · next none => simp [none, leastAmong]
  · next g gs some =>
    rw [some]
    split
    · next h alone => rw [alone, Selection.one.injEq, List.singleton_inj]
    · next none =>
      refine ⟨nofun, fun alone ↦ (none f alone).elim⟩

theorem select_eq_one_iff : m.select name args = .one f ↔
    m.Accepts name args f ∧ ∀ g, m.Accepts name args g → g ≠ f →
      Fits (m.overloadAt f).params (m.overloadAt g).params ∧
        (m.overloadAt g).params ≠ (m.overloadAt f).params := by
  rw [select_eq_one_iff_leastAmong, leastAmong_eq_singleton_iff (nodup_accepting ..)]
  simp only [mem_accepting]

/-- What is selected takes no more than any other function that takes the arguments. -/
theorem fits_of_select (selected : m.select name args = .one f) (accepts : m.Accepts name args g) :
    Fits (m.overloadAt f).params (m.overloadAt g).params := by
  by_cases same : g = f
  · rw [same]
    exact .refl _
  · exact ((select_eq_one_iff.1 selected).2 g accepts same).1

theorem select_eq_noneFits_iff :
    m.select name args = .noneFits ↔ ∀ f, ¬ m.Accepts name args f := by
  simp only [← mem_accepting, ← List.eq_nil_iff_forall_not_mem]
  unfold select
  split
  · next none => simp [none]
  · next g gs some =>
    rw [some]
    split <;> simp

/-- Arguments that the same functions take select the same. -/
theorem select_eq_of_accepts {args' : List Ty}
    (same : ∀ f, m.Accepts name args f ↔ m.Accepts name args' f) :
    m.select name args = m.select name args' := by
  have accepting : m.accepting name args = m.accepting name args' := by
    refine List.filter_congr fun f mem ↦ decide_eq_decide.2 ?_
    have declares := mem_overloadsNamed.1 mem
    simpa only [Accepts, declares, true_and] using same f
  unfold select
  rw [accepting]

theorem accepting_of_select_eq_several (h : m.select name args = .several fs) :
    fs = m.accepting name args := by
  unfold select at h
  split at h
  · cases h
  · next g gs some =>
    split at h
    · cases h
    · cases h
      exact some.symm

/-- An overload with just the types of the arguments is selected if there is no other one. -/
theorem select_of_exact (declared : m.Declares name f) (exact' : (m.overloadAt f).params = args)
    (only : ∀ g, m.Declares name g → (m.overloadAt g).params = args → g = f) :
    m.select name args = .one f := by
  refine select_eq_one_iff.2 ⟨⟨declared, exact' ▸ Fits.refl _⟩, fun g accepts ne ↦ ⟨?_, ?_⟩⟩
  · rw [exact']
    exact accepts.2
  · rw [exact']
    exact fun same ↦ ne (only g accepts.1 same)

/-- Nothing is selected if two overloads have just the types of the arguments. -/
theorem select_of_duplicate (declared : m.Declares name f) (declared' : m.Declares name g)
    (ne : g ≠ f) (exact' : (m.overloadAt f).params = args)
    (exact'' : (m.overloadAt g).params = args) :
    m.select name args = .several (m.accepting name args) := by
  have accepts : m.Accepts name args f := ⟨declared, exact' ▸ Fits.refl _⟩
  have accepts' : m.Accepts name args g := ⟨declared', exact'' ▸ Fits.refl _⟩
  cases selected : m.select name args with
  | one h =>
    obtain ⟨⟨-, fits⟩, below⟩ := select_eq_one_iff.1 selected
    have same {k : FnKey} (hk : m.Accepts name args k) (exactly : (m.overloadAt k).params = args) :
        k = h := by
      by_contra other
      obtain ⟨fits', differ⟩ := below k hk other
      exact differ (exactly ▸ fits.antisymm (exactly ▸ fits'))
    exact (ne ((same accepts' exact'').trans (same accepts exact').symm)).elim
  | noneFits => exact (select_eq_noneFits_iff.1 selected f accepts).elim
  | several fs => rw [accepting_of_select_eq_several selected]

/-! ### The order of declarations -/

section Renaming

variable {σ : FnKey ≃ FnKey} (same : ∀ f, m'.overloads[(σ f).index]? = m.overloads[f.index]?)

include same

private theorem overloadAt_renamed (f : FnKey) : m'.overloadAt (σ f) = m.overloadAt f := by
  rw [overloadAt, same, overloadAt]

private theorem accepts_renamed (f : FnKey) :
    m'.Accepts name args (σ f) ↔ m.Accepts name args f := by
  have declared : (σ f).index < m'.overloads.size ↔ f.index < m.overloads.size := by
    rw [← not_iff_not, Nat.not_lt, Nat.not_lt, ← Array.getElem?_eq_none_iff, same,
      Array.getElem?_eq_none_iff]
  rw [Accepts, Accepts, Declares, Declares, declared, overloadAt_renamed same]

private theorem accepting_renamed :
    (m'.accepting name args).Perm ((m.accepting name args).map σ) := by
  refine (List.perm_ext_iff_of_nodup (nodup_accepting ..)
    ((nodup_accepting ..).map σ.injective)).2 fun g ↦ ?_
  obtain ⟨f, rfl⟩ := σ.surjective g
  rw [mem_accepting, accepts_renamed same, List.mem_map_of_injective σ.injective, mem_accepting]

private theorem select_renamed_one (selected : m.select name args = .one f) :
    m'.select name args = .one (σ f) := by
  obtain ⟨accepts, below⟩ := select_eq_one_iff.1 selected
  refine select_eq_one_iff.2 ⟨(accepts_renamed same f).2 accepts, fun g accepts' ne ↦ ?_⟩
  obtain ⟨g, rfl⟩ := σ.surjective g
  rw [overloadAt_renamed same, overloadAt_renamed same]
  exact below g ((accepts_renamed same g).1 accepts') fun eq ↦ ne (congrArg σ eq)

private theorem select_renamed_noneFits (selected : m.select name args = .noneFits) :
    m'.select name args = .noneFits := by
  refine select_eq_noneFits_iff.2 fun g accepts ↦ ?_
  obtain ⟨f, rfl⟩ := σ.surjective g
  exact select_eq_noneFits_iff.1 selected f ((accepts_renamed same f).1 accepts)

private theorem select_renamed : (m.select name args).Renamed σ (m'.select name args) := by
  have same' : ∀ g, m.overloads[(σ.symm g).index]? = m'.overloads[g.index]? := by
    intro g
    rw [← same, σ.apply_symm_apply]
  cases selected : m.select name args with
  | one f => exact select_renamed_one same selected
  | noneFits => exact select_renamed_noneFits same selected
  | several fs =>
    cases selected' : m'.select name args with
    | one g =>
      rw [select_renamed_one same' selected'] at selected
      cases selected
    | noneFits =>
      rw [select_renamed_noneFits same' selected'] at selected
      cases selected
    | several gs =>
      refine ⟨gs, rfl, ?_⟩
      rw [accepting_of_select_eq_several selected', accepting_of_select_eq_several selected]
      exact accepting_renamed same

end Renaming

/-- One function is selected exactly if it is declared under the name, accepts the arguments, and
is below every other one that does so, which has other parameters; and none exactly if none
accepts them. Otherwise all that accept them are given, in the order of their declaration. Where
the same functions are declared in another order the same are selected. A function with just the
types of the arguments is selected if it is the only one, whatever else is declared. -/
theorem select_least (m : Model) (name : String) (args : List Ty) :
    (∀ f, m.select name args = .one f ↔ m.Accepts name args f ∧
      ∀ g, m.Accepts name args g → g ≠ f →
        Fits (m.overloadAt f).params (m.overloadAt g).params ∧
          (m.overloadAt g).params ≠ (m.overloadAt f).params) ∧
    (m.select name args = .noneFits ↔ ∀ f, ¬ m.Accepts name args f) ∧
    (∀ fs, m.select name args = .several fs →
      (∀ f, f ∈ fs ↔ m.Accepts name args f) ∧ fs.Pairwise fun f g ↦ f.index < g.index) ∧
    (∀ (m' : Model) (σ : FnKey ≃ FnKey),
      (∀ f, m'.overloads[(σ f).index]? = m.overloads[f.index]?) →
        (m.select name args).Renamed σ (m'.select name args)) ∧
    ∀ f, m.Declares name f → (m.overloadAt f).params = args →
      (∀ g, m.Declares name g → (m.overloadAt g).params = args → g = f) →
        m.select name args = .one f := by
  refine ⟨fun f ↦ select_eq_one_iff, select_eq_noneFits_iff, fun fs several ↦ ?_,
    fun m' σ same ↦ select_renamed same, fun f ↦ select_of_exact⟩
  rw [accepting_of_select_eq_several several]
  exact ⟨fun f ↦ mem_accepting, m.pairwise_accepting name args⟩

/-- Two functions of one name, of which the first one takes what may be absent as well. -/
def widerFirst : Model :=
  let build : Build Unit := do
    let _ ← Build.addOverload ⟨"lb", [(Ty.int .var).orAbsent], .int .par⟩
    let _ ← Build.addOverload ⟨"lb", [.int .var], .int .par⟩
  (build.run .empty).2

/-- The same functions the other way round. -/
def widerLast : Model :=
  let build : Build Unit := do
    let _ ← Build.addOverload ⟨"lb", [.int .var], .int .par⟩
    let _ ← Build.addOverload ⟨"lb", [(Ty.int .var).orAbsent], .int .par⟩
  (build.run .empty).2

/-- The narrower function is selected for a known integer, wherever it is declared. -/
theorem select_narrower :
    widerFirst.select "lb" [.int .par] = .one ⟨1⟩ ∧
    (∀ f, widerLast.overloads[(Equiv.swap ⟨0⟩ ⟨1⟩ f : FnKey).index]? =
      widerFirst.overloads[f.index]?) ∧
    widerLast.select "lb" [.int .par] = .one ⟨0⟩ := by
  have selected : widerFirst.select "lb" [.int .par] = .one ⟨1⟩ := by decide +kernel
  have same : ∀ f, widerLast.overloads[(Equiv.swap ⟨0⟩ ⟨1⟩ f : FnKey).index]? =
      widerFirst.overloads[f.index]? := by
    rintro ⟨i⟩
    match i with
    | 0 => decide +kernel
    | 1 => decide +kernel
    | i + 2 =>
      rw [Equiv.swap_apply_of_ne_of_ne (by simp) (by simp)]
      rfl
  have renamed := (select_least widerFirst "lb" [.int .par]).2.2.2.1 widerLast _ same
  rw [selected] at renamed
  exact ⟨selected, same, renamed⟩

end Model

end ConstraintEval
