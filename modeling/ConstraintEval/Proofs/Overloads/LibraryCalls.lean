import ConstraintEval.Proofs.Rearrangement

/-!
# Calls of the standard library

Functions of one name are told apart by which of their parameters are sets. Those that agree in
this take more and more: the parameters of one of any two are below those of the other one. So the
functions of the library that take some arguments are a chain, and as no two of them have the same
parameters, the least one is alone. A call of the library is never ambiguous, whatever the types of
its arguments.
-/

namespace ConstraintEval

/-- Sets are passed for sets, and as many arguments as there are parameters. -/
theorem Fits.map_isSet {as ps : List Ty} (h : Fits as ps) : as.map Ty.isSet = ps.map Ty.isSet := by
  induction as generalizing ps with
  | nil =>
    cases ps with
    | nil => rfl
    | cons p ps => exact h.elim
  | cons a as ih =>
    cases ps with
    | nil => exact h.elim
    | cons p ps => rw [List.map_cons, List.map_cons, h.1.2.2.1, ih h.2]

namespace Model

variable {m : Model} {name : String} {args : List Ty} {f : FnKey} {fs : List FnKey}

/-- Among functions of which one of any two takes all that the other one does, one takes the
least. -/
private theorem exists_least (nonempty : fs ≠ [])
    (chain : ∀ f ∈ fs, ∀ g ∈ fs, Fits (m.overloadAt f).params (m.overloadAt g).params ∨
      Fits (m.overloadAt g).params (m.overloadAt f).params) :
    ∃ f ∈ fs, ∀ g ∈ fs, Fits (m.overloadAt f).params (m.overloadAt g).params := by
  induction fs with
  | nil => exact (nonempty rfl).elim
  | cons f fs ih =>
    by_cases empty : fs = []
    · subst empty
      exact ⟨f, List.mem_cons_self, fun g mem ↦ List.mem_singleton.1 mem ▸ .refl _⟩
    obtain ⟨h, mem, least⟩ := ih empty fun g mem g' mem' ↦
      chain g (List.mem_cons_of_mem f mem) g' (List.mem_cons_of_mem f mem')
    rcases chain f List.mem_cons_self h (List.mem_cons_of_mem f mem) with below | above
    · refine ⟨f, List.mem_cons_self, List.forall_mem_cons.2 ⟨.refl _, fun g mem' ↦ ?_⟩⟩
      exact below.trans (least g mem')
    · exact ⟨h, List.mem_cons_of_mem f mem, List.forall_mem_cons.2 ⟨above, least⟩⟩

/-- If the functions that take some arguments are a chain in which no parameters occur twice, one
of them is selected. -/
theorem exists_select_eq_one (accepts : m.Accepts name args f)
    (chain : ∀ f g, m.Accepts name args f → m.Accepts name args g →
      Fits (m.overloadAt f).params (m.overloadAt g).params ∨
        Fits (m.overloadAt g).params (m.overloadAt f).params)
    (distinct : ∀ f g, m.Accepts name args f → m.Accepts name args g →
      (m.overloadAt f).params = (m.overloadAt g).params → f = g) :
    ∃ g, m.select name args = .one g := by
  obtain ⟨g, mem, least⟩ := exists_least (List.ne_nil_of_mem (mem_accepting.2 accepts))
    fun f hf g hg ↦ chain f g (mem_accepting.1 hf) (mem_accepting.1 hg)
  refine ⟨g, select_eq_one_iff.2 ⟨mem_accepting.1 mem, fun h accepts ne ↦ ⟨?_, fun same ↦ ?_⟩⟩⟩
  · exact least h (mem_accepting.2 accepts)
  · exact ne (distinct h g accepts (mem_accepting.1 mem) same)

end Model

namespace Library

/-- Of two functions of one name with sets at the same places one takes all that the other one
does. -/
theorem fits_or_fits : ∀ f ∈ declarations, ∀ g ∈ declarations, f.name = g.name →
    f.params.map Ty.isSet = g.params.map Ty.isSet →
      Fits f.params g.params ∨ Fits g.params f.params := by
  decide +kernel

section Declared

variable {m m' : Model} {name : String} {args : List Ty} {f g : FnKey}
  (declared : m.overloads.toList = declarations)

include declared

/-- The functions that take some arguments are a chain. -/
private theorem accepts_chain (accepts : m.Accepts name args f) (accepts' : m.Accepts name args g) :
    Fits (m.overloadAt f).params (m.overloadAt g).params ∨
      Fits (m.overloadAt g).params (m.overloadAt f).params := by
  have listed {h : FnKey} (here : m.Declares name h) : m.overloadAt h ∈ declarations :=
    declared ▸ List.mem_of_getElem? here.getElem?_toList
  refine fits_or_fits _ (listed accepts.1) _ (listed accepts'.1)
    (accepts.1.2.trans accepts'.1.2.symm) ?_
  rw [← accepts.2.map_isSet, ← accepts'.2.map_isSet]

/-- A function is known by its name and its parameters. -/
private theorem eq_of_params (here : m.Declares name f) (here' : m.Declares name g)
    (same : (m.overloadAt f).params = (m.overloadAt g).params) : f = g := by
  have signature : (m.overloadAt f).signature = (m.overloadAt g).signature :=
    Prod.ext (here.2.trans here'.2.symm) same
  have known := here.getElem?_toList
  have known' := here'.getElem?_toList
  rw [declared] at known known'
  have index : f.index = g.index := by
    refine (List.getElem?_inj ?_ nodup_signatures).1 ?_
    · simpa using (List.getElem?_eq_some_iff.1 known).1
    · rw [List.getElem?_map, List.getElem?_map, known, known', Option.map_some, Option.map_some,
        signature]
  exact congrArg FnKey.mk index

private theorem exists_select (accepts : m.Accepts name args f) :
    ∃ g, m.select name args = .one g :=
  Model.exists_select_eq_one accepts (fun _ _ ↦ accepts_chain declared) fun _ _ accepts accepts' ↦
    eq_of_params declared accepts.1 accepts'.1

private theorem select_ne_several (fs : List FnKey) : m.select name args ≠ .several fs := by
  intro several
  by_cases some : ∃ f, m.Accepts name args f
  · obtain ⟨f, accepts⟩ := some
    obtain ⟨g, one⟩ := exists_select declared accepts
    cases one.symm.trans several
  · have none := Model.select_eq_noneFits_iff.2 fun f accepts ↦ some ⟨f, accepts⟩
    cases none.symm.trans several

/-- Binding the library gives each function the builtin that is written for it. -/
private theorem builtin_of_declares (here : m.Declares name f) : ∃ impl ∈ implementations,
    impl.signature = (m.overloadAt f).signature ∧
      (Registry.ofImplementations implementations).builtin? f = some impl.builtin := by
  have known := here.getElem?_toList
  rw [declared] at known
  obtain ⟨impl, known, same⟩ := exists_implementation known
  refine ⟨impl, List.mem_of_getElem? known, same, ?_⟩
  rw [Registry.builtin?_ofImplementations, known, Option.map_some]

private theorem ofLibrary_of_same (same : m'.overloads = m.overloads) :
    Registry.ofLibrary m' = .ok (.ofImplementations implementations) := by
  have alone : m'.overloads.toList = declarations ++ [] := by
    rw [same, declared, List.append_nil]
  exact Registry.ofLibrary_eq_ok alone rfl

end Declared

/-- Where just the library is declared, no arguments are ambiguous under any name, and binding the
library gives one registry in all models with these functions. The call of a name with arguments
that some function takes is added as a call of the function that takes the least of those that do,
and the registry gives it the builtin with its name and its parameters. -/
theorem calls_unambiguous (m : Model) (declared : m.overloads.toList = declarations) :
    (∀ name args fs, m.select name args ≠ .several fs) ∧
    ∃ r : Registry, (∀ m', m'.overloads = m.overloads → Registry.ofLibrary m' = .ok r) ∧
      ∀ name args m' e, (Build.call name args).run m = (e, m') → m'.overloads = m.overloads ∧
        ∀ f, m.Accepts name (args.map m.ty) f →
          ∃ g, m'.form e = .call name (some g) args ∧ m.Accepts name (args.map m.ty) g ∧
            (∀ h, m.Accepts name (args.map m.ty) h →
              Fits (m.overloadAt g).params (m.overloadAt h).params) ∧
            ∃ impl ∈ implementations, impl.signature = (m.overloadAt g).signature ∧
              r.builtin? g = some impl.builtin := by
  refine ⟨fun name args ↦ select_ne_several declared, .ofImplementations implementations,
    fun m' ↦ ofLibrary_of_same declared, fun name args m' e added ↦
      ⟨Build.overloads_of_call added, fun f accepts ↦ ?_⟩⟩
  obtain ⟨g, selected⟩ := exists_select declared accepts
  have least := (Model.select_eq_one_iff.1 selected).1
  refine ⟨g, ?_, least, fun h ↦ Model.fits_of_select selected, builtin_of_declares declared least.1⟩
  have resolved := congrArg Prod.fst (Build.resolvedCall_of_call added)
  rwa [Model.resolvedCall, selected] at resolved

/-- The library with a literal. -/
def withLiteral : Model :=
  let build : Build Unit := do
    declareAll
    let _ ← Build.int .one
  (build.run .empty).2

/-- Both functions that give an upper bound of an integer take a literal, and its call means the
one that does not take what may be absent. -/
theorem ub_of_literal :
    let accepts := withLiteral.Accepts "ub" ([⟨0⟩].map withLiteral.ty)
    withLiteral.overloads.toList = declarations ∧ accepts ⟨20⟩ ∧ accepts ⟨22⟩ ∧
    ∃ e m' r, (Build.call "ub" [⟨0⟩]).run withLiteral = (e, m') ∧
      m'.form e = .call "ub" (some ⟨22⟩) [⟨0⟩] ∧
      Registry.ofLibrary m' = .ok r ∧ r.builtin? ⟨22⟩ = some (.bound .high) := by
  intro accepts
  have declared : withLiteral.overloads.toList = declarations := by decide +kernel
  have wider : accepts ⟨20⟩ := Model.mem_accepting.1 (by decide +kernel)
  have narrower : accepts ⟨22⟩ := Model.mem_accepting.1 (by decide +kernel)
  have meant : ((Build.call "ub" [⟨0⟩]).run withLiteral).2.form
      ((Build.call "ub" [⟨0⟩]).run withLiteral).1 = .call "ub" (some ⟨22⟩) [⟨0⟩] := by
    decide +kernel
  have written : ∀ impl ∈ implementations,
      impl.signature = (withLiteral.overloadAt ⟨22⟩).signature → impl.builtin = .bound .high := by
    decide +kernel
  obtain ⟨-, r, bound, calls⟩ := calls_unambiguous withLiteral declared
  obtain ⟨same, called⟩ := calls "ub" [⟨0⟩] _ _ Prod.mk.eta.symm
  obtain ⟨g, form, -, -, impl, mem, signature, builtin⟩ := called ⟨22⟩ narrower
  obtain ⟨-, resolved, -⟩ := Form.call.inj (form.symm.trans meant)
  rw [Option.some.inj resolved] at signature builtin
  rw [written impl mem signature] at builtin
  exact ⟨declared, wider, narrower, _, _, r, Prod.mk.eta.symm, meant, bound _ same, builtin⟩

end Library

end ConstraintEval
