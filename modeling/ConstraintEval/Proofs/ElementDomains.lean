import ConstraintEval.Proofs.Logic.Apart
import ConstraintEval.Proofs.Rearrangement
import ConstraintEval.Proofs.Semantics.Chains

/-!
# The domains of the elements of an array

The union of the domains of an array's elements is taken at the end of the chain of names that leads
to the array, while all variables of the chain are pending. So it is the union of the domains that
the elements have then. An element of which the domain is worked out by way of a variable of the
chain, for instance from the length of the array, has no domain then, although it has one by itself;
all other elements have the same domain as by themselves.
-/

namespace ConstraintEval

variable {ctx : Context} {p q : Pending} {e x : ExprKey} {xs : List ExprKey} {us : List VarKey}
  {a : LazyArray} {set acc : IntegerSet} {sets : List IntegerSet}

/-- The form of an expression is one that shows the elements of an array. -/
def Form.showsElements : Form → Bool
  | .array _ | .call .. => true
  | _ => false

/-- The union of some sets. -/
def IntegerSet.unionOf (sets : List IntegerSet) : IntegerSet := sets.foldl .union .empty

private theorem mem_foldl_union {i : Integer} :
    i ∈ sets.foldl IntegerSet.union acc ↔ i ∈ acc ∨ ∃ s ∈ sets, i ∈ s := by
  induction sets generalizing acc with
  | nil => simp
  | cons s sets ih =>
    rw [List.foldl_cons, ih, IntegerSet.mem_union, List.exists_mem_cons_iff, or_assoc]

theorem IntegerSet.mem_unionOf {i : Integer} : i ∈ unionOf sets ↔ ∃ s ∈ sets, i ∈ s := by
  rw [unionOf, mem_foldl_union]
  exact or_iff_right (not_mem_empty i)

/-! ### The union of domains -/

private theorem givesAt_foldlM_iff :
    GivesAt p (xs.foldlM (fun acc x ↦ return acc.union (← ctx.evaluator.domainOf x)) acc) set ↔
      ∃ sets, List.Forall₂ (fun x s ↦ GivesAt p (ctx.evaluator.domainOf x) s) xs sets ∧
        set = sets.foldl .union acc := by
  have steady (acc : IntegerSet) (x : ExprKey) :
      Steady (do return acc.union (← ctx.evaluator.domainOf x) : EvalM IntegerSet).run :=
    (steady_domainOf x).andThen fun _ ↦ .ok _
  induction xs generalizing acc with
  | nil =>
    constructor
    · intro h
      exact ⟨[], .nil, h.gives.of_pure⟩
    · rintro ⟨sets, none, rfl⟩
      cases none
      exact .ok _
  | cons x xs ih =>
    rw [List.foldlM_cons]
    constructor
    · intro h
      obtain ⟨_, first, rest⟩ := h.of_bind (steady acc x)
      obtain ⟨s, domain, next⟩ := first.of_bind (steady_domainOf x)
      cases next.gives.of_pure
      obtain ⟨sets, domains, rfl⟩ := ih.1 rest
      exact ⟨s :: sets, .cons domain domains, rfl⟩
    · rintro ⟨_, domains, rfl⟩
      obtain ⟨s, sets, domain, others, rfl⟩ := List.forall₂_cons_left_iff.1 domains
      have first : GivesAt p (do return acc.union (← ctx.evaluator.domainOf x)) (acc.union s) :=
        domain.bind (steady_domainOf x) (.ok _) (.ok _)
      exact first.bind (steady acc x) (ih.2 ⟨sets, others, rfl⟩) (.foldlM xs steady _)

/-- The union of the domains of some expressions is there if each of them has a domain. -/
theorem givesAt_unionOfDomains_iff :
    GivesAt p (ctx.evaluator.unionOfDomains xs) set ↔
      ∃ sets, List.Forall₂ (fun x s ↦ GivesAt p (ctx.evaluator.domainOf x) s) xs sets ∧
        set = .unionOf sets := givesAt_foldlM_iff

/-- The union is taken where the chain of names ends. -/
private theorem givesAt_domainOfElements_iff
    (follow : ctx.followChain true (ctx.model.declared.size + 1) p e = (.ok (.expression x), q))
    (shows : (ctx.model.form x).showsElements = true)
    (array : GivesAt p (ctx.evaluator.arrayOf e) a) :
    GivesAt p (ctx.evaluator.domainOfElements e) set ↔
      GivesAt q (ctx.evaluator.unionOfDomains a.elements) set := by
  have array' : GivesAt q (ctx.evaluator.arrayOf x) a := array.arrayOf_end follow
  have atEnd : ctx.evaluator.unionAtEnd (.expression x) =
      ctx.evaluator.arrayOf x >>= fun a ↦ ctx.evaluator.unionOfDomains a.elements := by
    have shows' : (ctx.evaluator.model.form x).showsElements = true := shows
    unfold Evaluator.unionAtEnd
    simp only
    split <;> simp_all [Form.showsElements]
  rw [Evaluator.domainOfElements_eq]
  constructor
  · intro h
    obtain ⟨c, o, follow', union⟩ := h.of_chain
    obtain ⟨rfl, rfl⟩ : ChainEnd.expression x = c ∧ q = o := by
      simpa using follow.symm.trans follow'
    rw [atEnd] at union
    obtain ⟨w, array'', union⟩ := union.of_bind (steady_arrayOf x)
    exact array''.unique array' (steady_arrayOf x) ▸ union
  · intro h
    refine GivesAt.chain follow ?_ ?_
    · rw [atEnd]
      exact array'.bind (steady_arrayOf x) h (steady_unionOfDomains _)
    · rw [atEnd]
      exact (steady_arrayOf x).andThen fun w ↦ steady_unionOfDomains w.elements

/-! ### With the chain pending and without -/

/-- Let a chain of names come by some variables on the way to an expression that shows the elements
of an array, and let there be no limit on nesting. What is found for the domains of the elements is
the union of the domains that they have while these variables are pending, if they all have one. If
no name of these variables can come up from any element, that is the union of the domains that the
elements have by themselves. -/
theorem domainOfElements_exact (passes : Passes ctx e us (.expression x))
    (shows : (ctx.model.form x).showsElements = true)
    (array : GivesAt (.empty none) (ctx.evaluator.arrayOf e) a) :
    (∀ q : Pending, q.limit = none → (∀ u, q.holds u = true ↔ u ∈ us) →
      ∀ set, GivesAt (.empty none) (ctx.evaluator.domainOfElements e) set ↔
        ∃ sets, List.Forall₂ (fun x s ↦ GivesAt q (ctx.evaluator.domainOf x) s) a.elements sets ∧
          set = .unionOf sets) ∧
    ((∀ y ∈ a.elements, ctx.Spares us (ctx.Reaches y)) →
      ∀ sets, List.Forall₂ (fun x s ↦ GivesAt (.empty none) (ctx.evaluator.domainOf x) s)
        a.elements sets →
      ∃ set, GivesAt (.empty none) (ctx.evaluator.domainOfElements e) set ∧
        ∀ i, i ∈ set ↔ ∃ s ∈ sets, i ∈ s) := by
  obtain ⟨o, follow, unlimited, holds⟩ :=
    followChain_of_passes (p := .empty none) true passes passes.length_le rfl fun _ _ ↦ rfl
  have holds (u : VarKey) : o.holds u = true ↔ u ∈ us :=
    (holds u).trans (or_iff_left Bool.false_ne_true)
  have union (set : IntegerSet) : GivesAt (.empty none) (ctx.evaluator.domainOfElements e) set ↔
      GivesAt o (ctx.evaluator.unionOfDomains a.elements) set :=
    givesAt_domainOfElements_iff follow shows array
  constructor
  · intro q unlimited' holds' set
    have apart : o.Apart [] q :=
      ⟨unlimited, unlimited', fun u _ ↦ Bool.eq_iff_iff.2 ((holds u).trans (holds' u).symm)⟩
    have same (y : ExprKey) (s : IntegerSet) : GivesAt o (ctx.evaluator.domainOf y) s ↔
        GivesAt q (ctx.evaluator.domainOf y) s :=
      ⟨.domainOf_apart (ctx.spares_nil _) apart, .domainOf_apart (ctx.spares_nil _) apart.symm⟩
    rw [union, givesAt_unionOfDomains_iff]
    simp only [same]
  · intro spares sets domains
    have apart : (Pending.empty none).Apart us o := .of_empty unlimited fun u ↦ (holds u).1
    have pending : List.Forall₂ (fun y s ↦ GivesAt o (ctx.evaluator.domainOf y) s)
        a.elements sets := by
      refine List.forall₂_iff_get.2 ⟨domains.length_eq, fun i lt lt' ↦ ?_⟩
      exact (domains.get lt lt').domainOf_apart (spares _ (List.get_mem _ _)) apart
    refine ⟨.unionOf sets, ?_, fun i ↦ IntegerSet.mem_unionOf⟩
    exact (union _).2 (givesAt_unionOfDomains_iff.2 ⟨sets, pending, rfl⟩)

/-! ### Domains that depend on the length of an array -/

/-- A model of the array `a` of `x` and the array `b` of `y`, where both `x` and `y` are restricted
to the range from 1 to the length of `a`. -/
def rangesOfLength : Context where
  model :=
    let build : Build Unit := do
      Library.declareAll
      let a ← Build.addVariable
        { name := "a", span := .nowhere, ty := (Ty.int .var).arrayOf 1, domain := none,
          indexSets := [none], definition := none }
      let length ← Build.call "length" [← Build.name a]
      let domain ← Build.between (← Build.int .one) length
      let element (name : String) : Build VarKey := Build.addVariable
        { name, span := .nowhere, ty := .int .var, domain := some domain, indexSets := [],
          definition := none }
      let x ← element "x"
      Build.define a (← Build.array [← Build.name x])
      let y ← element "y"
      let array ← Build.array [← Build.name y]
      let b ← Build.addVariable
        { name := "b", span := .nowhere, ty := (Ty.int .var).arrayOf 1, domain := none,
          indexSets := [none], definition := some array }
      let _ ← Build.name a
      let _ ← Build.name b
    (build.run .empty).2
  registry := .ofImplementations Library.implementations

/-- The name of `b` at the end of the model is the only one, and nothing mentions it. -/
private theorem spares_b : rangesOfLength.Spares [⟨3⟩] (rangesOfLength.Reaches ⟨6⟩) := by
  have forms : ∀ i < 10, (rangesOfLength.model.form ⟨i⟩).resolved? = some ⟨3⟩ → i = 9 := by
    decide +kernel
  have mentions : ∀ i < 10, ⟨9⟩ ∉ rangesOfLength.mentioned ⟨i⟩ := by
    decide +kernel
  have size : rangesOfLength.model.nodes.size = 10 := by
    decide +kernel
  have outside (y : ExprKey) (out : ¬y.index < 10) : rangesOfLength.model.form y = .name "" none :=
    Model.form_of_size_le (size ▸ Nat.le_of_not_lt out)
  have closed : rangesOfLength.Closed (· ≠ ⟨9⟩) := by
    rintro y _ _ mentioned rfl
    by_cases inside : y.index < 10
    · exact mentions y.index inside mentioned
    · rw [Context.mentioned, outside y inside] at mentioned
      cases mentioned
  intro y name v reaches form mem
  obtain rfl := List.mem_singleton.1 mem
  have other : y ≠ ⟨9⟩ := closed.reaches (by decide) reaches
  by_cases inside : y.index < 10
  · refine other (congrArg ExprKey.mk (forms y.index inside ?_))
    exact congrArg Form.resolved? form
  · rw [outside y inside] at form
    cases form

/-- By itself `x` has a domain, but the domains of the elements of `a` are worked out while `a` is
pending, and then `x` has none. The element of `b` has its domain. -/
theorem domainOfElements_rangesOfLength :
    GivesAt (.empty none) (rangesOfLength.evaluator.domainOf ⟨4⟩) (.range .one .one) ∧
    (∀ set, ¬GivesAt (.empty none) (rangesOfLength.evaluator.domainOfElements ⟨8⟩) set) ∧
    ∃ set, GivesAt (.empty none) (rangesOfLength.evaluator.domainOfElements ⟨9⟩) set ∧
      ∀ i, i ∈ set ↔ i ∈ IntegerSet.range .one .one := by
  let ranges : List Interval := [Build.fromOne 1]
  let a : LazyArray := ⟨⟨0⟩, [⟨4⟩], ranges, .int .var, rfl⟩
  let b : LazyArray := ⟨⟨1⟩, [⟨6⟩], ranges, .int .var, rfl⟩
  have shown : (rangesOfLength.model.form ⟨5⟩).showsElements = true ∧
      (rangesOfLength.model.form ⟨7⟩).showsElements = true ∧
      rangesOfLength.model.form ⟨8⟩ = .name "a" (some ⟨0⟩) ∧
      rangesOfLength.model.form ⟨9⟩ = .name "b" (some ⟨3⟩) ∧
      (rangesOfLength.model.variableAt ⟨0⟩).definition = some ⟨5⟩ ∧
      (rangesOfLength.model.variableAt ⟨3⟩).definition = some ⟨7⟩ := by
    decide +kernel
  have runs : rangesOfLength.evaluator.arrayOf ⟨8⟩ (.fresh none) = some (.ok a, .fresh none) ∧
      rangesOfLength.evaluator.arrayOf ⟨9⟩ (.fresh none) = some (.ok b, .fresh none) ∧
      rangesOfLength.evaluator.domainOf ⟨4⟩ (.fresh none) =
        some (.ok (.range .one .one), .fresh none) ∧
      rangesOfLength.evaluator.domainOf ⟨6⟩ (.fresh none) =
        some (.ok (.range .one .one), .fresh none) ∧
      (rangesOfLength.evaluator.domainOf ⟨4⟩).comesTo ⟨⟨[], [⟨0⟩], 0, none⟩, [], 0⟩ =
        some (.error (.selfDependence "a")) := by
    decide +kernel
  obtain ⟨shows, shows', form, form', defined, defined'⟩ := shown
  obtain ⟨array, array', domain, domain', refused⟩ := runs
  have ends {x : ExprKey} (shows : (rangesOfLength.model.form x).showsElements = true) :
      Passes rangesOfLength x [] (.expression x) := by
    refine .expression fun name resolved form ↦ ?_
    rw [form] at shows
    cases shows
  refine ⟨⟨_, _, rfl, domain⟩, fun set union ↦ ?_, ?_⟩
  · let q : Pending := ⟨[], [⟨0⟩], 0, none⟩
    obtain ⟨sets, domains, -⟩ := ((domainOfElements_exact (.definition form defined (ends shows))
      shows ⟨_, _, rfl, array⟩).1 q rfl (by simp [q, Pending.holds]) set).1 union
    obtain ⟨s, _, domain, -, -⟩ := List.forall₂_cons_left_iff.1 domains
    obtain ⟨t, -, run⟩ := domain.run (steady_domainOf ⟨4⟩) (s := ⟨q, [], 0⟩) rfl
    cases (EvalM.comesTo_of_run run).symm.trans refused
  · have spares : ∀ y ∈ b.elements, rangesOfLength.Spares [⟨3⟩] (rangesOfLength.Reaches y) := by
      intro y mem
      obtain rfl := List.mem_singleton.1 mem
      exact spares_b
    obtain ⟨set, union, mem⟩ := (domainOfElements_exact (.definition form' defined' (ends shows'))
      shows' ⟨_, _, rfl, array'⟩).2 spares [.range .one .one]
        (.cons ⟨_, _, rfl, domain'⟩ .nil)
    exact ⟨set, union, fun i ↦ (mem i).trans (by simp)⟩

end ConstraintEval
