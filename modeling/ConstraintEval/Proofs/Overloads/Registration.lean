import ConstraintEval.Proofs.Extension.Changes
import ConstraintEval.Proofs.Overloads.Selection
import ConstraintEval.Session
import Mathlib.Data.List.Induction

/-!
# Binding the standard library

No two functions of the standard library have the same name and the same parameters, and an
overload is selected by its own signature if no other one has it. So whatever is declared in a
session, every builtin is bound to the function that it computes and to no other one, unless a
function is declared again.
-/

namespace ConstraintEval

/-- The name and the parameters of a function. -/
def Overload.signature (f : Overload) : String × List Ty := (f.name, f.params)

/-- The name and the parameters of the function that a builtin is written for. -/
def Implementation.signature (impl : Implementation) : String × List Ty := (impl.name, impl.params)

/-- The first builtin of the standard library with a signature that some functions have. -/
def Library.firstDuplicated? (fs : List Overload) : Option Implementation :=
  implementations.find? fun impl ↦ fs.any fun f ↦ f.signature = impl.signature

/-- The session after some changes of its model. -/
def Session.changed (s : Session) (cs : List Change) : Session :=
  { s with model := s.model.changed cs }

/-! ### What is declared -/

namespace Library

/-- No two functions of the library can be confused. -/
theorem nodup_signatures : (declarations.map Overload.signature).Nodup := by
  decide +kernel

/-- Functions are declared in the order of the builtins that are written for them. -/
theorem signatures_agree :
    implementations.map Implementation.signature = declarations.map Overload.signature := by
  decide +kernel

theorem exists_declaration {i : Nat} {impl : Implementation}
    (known : implementations[i]? = some impl) :
    ∃ f, declarations[i]? = some f ∧ f.signature = impl.signature := by
  rw [← Option.map_eq_some_iff, ← List.getElem?_map, ← signatures_agree, List.getElem?_map, known,
    Option.map_some]

theorem exists_implementation {i : Nat} {f : Overload} (known : declarations[i]? = some f) :
    ∃ impl, implementations[i]? = some impl ∧ impl.signature = f.signature := by
  rw [← Option.map_eq_some_iff, ← List.getElem?_map, signatures_agree, List.getElem?_map, known,
    Option.map_some]

theorem getElem?_of_split {impl : Implementation} {before after : List Implementation}
    (split : implementations = before ++ impl :: after) :
    implementations[before.length]? = some impl := by
  rw [split, List.getElem?_append_right (Nat.le_refl _), Nat.sub_self, List.getElem?_cons_zero]

theorem adds_declareAll : Build.Adds declarations declareAll := by
  rw [← List.flatMap_singleton' declarations]
  refine Build.adds_forM (fun f ↦ ?_) declarations
  exact (Build.adds_addOverload f).append fun _ ↦ Build.adds_pure ()

end Library

/-- The functions of a session are those of the library and then those that it declares. -/
theorem Session.overloads_changed (settings : Settings) (cs : List Change) :
    ((Session.new settings).changed cs).model.overloads.toList =
      Library.declarations ++ cs.flatMap Change.functions := by
  have library := (Library.adds_declareAll .empty).overloads
  rw [show Model.empty.overloads.toList = [] from rfl, List.nil_append] at library
  rw [Session.changed, Model.overloads_changed, Session.new, library]

/-! ### What a signature of the library selects -/

private theorem declares_of_getElem? {m : Model} {i : Nat} {f : Overload}
    (here : m.overloads.toList[i]? = some f) : m.Declares f.name ⟨i⟩ ∧ m.overloadAt ⟨i⟩ = f := by
  rw [Array.getElem?_toList] at here
  have at' : m.overloadAt ⟨i⟩ = f := by rw [Model.overloadAt, here, Option.getD_some]
  exact ⟨⟨(Array.getElem?_eq_some_iff.1 here).1, congrArg Overload.name at'⟩, at'⟩

theorem Model.Declares.getElem?_toList {m : Model} {name : String} {f : FnKey}
    (h : m.Declares name f) : m.overloads.toList[f.index]? = some (m.overloadAt f) := by
  rw [Array.getElem?_toList, Model.overloadAt, Array.getElem?_eq_getElem h.1, Option.getD_some]

section Declared

variable {m : Model} {user : List Overload} {impl : Implementation} {i : Nat}
  (declared : m.overloads.toList = Library.declarations ++ user)
  (known : Library.implementations[i]? = some impl)

include declared known

private theorem declares_implemented :
    m.Declares impl.name ⟨i⟩ ∧ (m.overloadAt ⟨i⟩).params = impl.params := by
  obtain ⟨f, known, same⟩ := Library.exists_declaration known
  have lt := (List.getElem?_eq_some_iff.1 known).1
  have there : m.overloads.toList[i]? = some f := by
    rw [declared, List.getElem?_append_left lt, known]
  obtain ⟨here, at'⟩ := declares_of_getElem? there
  obtain ⟨name, params⟩ := Prod.mk.inj same
  exact ⟨name ▸ here, by rw [at', params]⟩

/-- A library function that is not declared again is the only one with its signature. -/
private theorem eq_of_same_signature (sole : ∀ g ∈ user, g.signature ≠ impl.signature)
    {f : FnKey} (here : m.Declares impl.name f) (same : (m.overloadAt f).params = impl.params) :
    f = ⟨i⟩ := by
  have signature : (m.overloadAt f).signature = impl.signature := Prod.ext here.2 same
  have there := here.getElem?_toList
  rw [declared, List.getElem?_append] at there
  split at there
  · next lt =>
    obtain ⟨g, known, same⟩ := Library.exists_declaration known
    have index : f.index = i := by
      refine (List.getElem?_inj (by simpa using lt) Library.nodup_signatures).1 ?_
      rw [List.getElem?_map, List.getElem?_map, there, known, Option.map_some, Option.map_some,
        signature, same]
    rw [← index]
  · exact (sole _ (List.mem_of_getElem? there) signature).elim

/-- The signature of a library function that is not declared again selects that function. -/
theorem Library.select_sole (sole : ∀ g ∈ user, g.signature ≠ impl.signature) :
    m.select impl.name impl.params = .one ⟨i⟩ := by
  obtain ⟨here, params⟩ := declares_implemented declared known
  exact Model.select_of_exact here params fun f here' same ↦
    eq_of_same_signature declared known sole here' same

/-- The signature of a library function that is declared again selects no function. -/
theorem Library.select_duplicated {g : Overload} (mem : g ∈ user)
    (same : g.signature = impl.signature) :
    m.select impl.name impl.params = .several (m.accepting impl.name impl.params) := by
  obtain ⟨here, params⟩ := declares_implemented declared known
  obtain ⟨j, there⟩ := List.getElem?_of_mem mem
  have later : m.overloads.toList[Library.declarations.length + j]? = some g := by
    rw [declared, List.getElem?_append_right (by simp)]
    simpa using there
  obtain ⟨here', at'⟩ := declares_of_getElem? later
  obtain ⟨name', params'⟩ := Prod.mk.inj same
  rw [name'] at here'
  refine Model.select_of_duplicate here here' ?_ params (by rw [at', params'])
  obtain ⟨f, known, -⟩ := Library.exists_declaration known
  have lt := (List.getElem?_eq_some_iff.1 known).1
  rw [Ne, FnKey.mk.injEq]
  omega

end Declared

section Named

variable {m : Model} {user : List Overload} {name : String} {args : List Ty}
  (declared : m.overloads.toList = Library.declarations ++ user)

include declared

/-- A function is declared by the library or beside it. -/
theorem Library.mem_of_declares {f : FnKey} (here : m.Declares name f) :
    m.overloadAt f ∈ declarations ∨ m.overloadAt f ∈ user := by
  have mem := List.mem_of_getElem? here.getElem?_toList
  rwa [declared, List.mem_append] at mem

theorem Library.exists_declares {o : Overload} (mem : o ∈ declarations) :
    ∃ f, m.Declares o.name f ∧ m.overloadAt f = o := by
  obtain ⟨i, known⟩ := List.getElem?_of_mem mem
  have lt := (List.getElem?_eq_some_iff.1 known).1
  exact ⟨⟨i⟩, declares_of_getElem? (by rw [declared, List.getElem?_append_left lt, known])⟩

/-- A function that alone in the library has its name is selected by all arguments that it takes,
if no function beside the library takes them under this name. -/
theorem Library.select_alone {i : Nat} {impl : Implementation}
    (known : Library.implementations[i]? = some impl) (named : impl.name = name)
    (alone : ∀ o ∈ Library.declarations, o.name = name → o.params = impl.params)
    (refused : ∀ g ∈ user, g.name = name → ¬Fits args g.params)
    (fits : Fits args impl.params) : m.select name args = .one ⟨i⟩ := by
  subst named
  obtain ⟨here, params⟩ := declares_implemented declared known
  have sole : ∀ g ∈ user, g.signature ≠ impl.signature := by
    intro g mem same
    obtain ⟨called, same⟩ := Prod.mk.inj same
    exact refused g mem called (same ▸ fits)
  refine Model.select_eq_one_iff.2 ⟨⟨here, params ▸ fits⟩, fun g accepts ne ↦ (ne ?_).elim⟩
  have library := (mem_of_declares declared accepts.1).resolve_right fun mem ↦
    refused _ mem accepts.1.2 accepts.2
  exact eq_of_same_signature declared known sole accepts.1 (alone _ library accepts.1.2)

/-- Arguments that no function takes under a name, be it of the library or beside it, select
none. -/
theorem Library.select_none (refused : ∀ g ∈ user, g.name = name → ¬Fits args g.params)
    (refused' : ∀ o ∈ Library.declarations, o.name = name → ¬Fits args o.params) :
    m.select name args = .noneFits := by
  refine Model.select_eq_noneFits_iff.2 fun _ accepts ↦ ?_
  rcases mem_of_declares declared accepts.1 with library | other
  · exact refused' _ library accepts.1.2 accepts.2
  · exact refused _ other accepts.1.2 accepts.2

end Named

/-! ### What is bound -/

namespace Registry

/-- The registry that binds some builtins to the first keys. -/
def ofImplementations (impls : List Implementation) : Registry :=
  ⟨impls.mapIdx fun i impl ↦ (⟨i⟩, impl.builtin)⟩

theorem builtin?_ofImplementations (impls : List Implementation) (f : FnKey) :
    (ofImplementations impls).builtin? f = impls[f.index]?.map Implementation.builtin := by
  induction impls using List.reverseRecOn with
  | nil => rfl
  | append_singleton impls impl ih =>
    rw [builtin?, ofImplementations] at ih ⊢
    rw [List.mapIdx_concat, List.lookup_append, ih]
    rcases Nat.lt_or_ge f.index impls.length with lt | ge
    · rw [List.getElem?_append_left lt, List.getElem?_eq_getElem lt]
      rfl
    · rw [List.getElem?_append_right ge, List.getElem?_eq_none ge, Option.map_none, Option.none_or]
      rcases Nat.lt_or_eq_of_le ge with gt | eq
      · have ne : (f == ⟨impls.length⟩) = false :=
          beq_eq_false_iff_ne.2 fun same ↦ Nat.ne_of_gt gt (congrArg FnKey.index same)
        rw [List.lookup_cons, ne, List.getElem?_eq_none (Nat.le_sub_of_add_le' gt)]
        rfl
      · have same : f = ⟨impls.length⟩ := by rw [eq]
        rw [List.lookup_cons, same, beq_self_eq_true, Nat.sub_self]
        rfl

/-- Bind a builtin to the function that it is written for. -/
def bindOne (m : Model) (r : Registry) (impl : Implementation) : Except BindingError Registry :=
  (·.2) <$> r.bind m impl.name impl.params impl.builtin

/-- The error of a builtin with a signature that several functions accept. -/
def ambiguity (m : Model) (impl : Implementation) : BindingError :=
  ⟨.severalOverloads (m.accepting impl.name impl.params).length, impl.name, paramsText impl.params⟩

section Declared

variable {m : Model} {user : List Overload} {impl : Implementation}
  {before after : List Implementation}
  (declared : m.overloads.toList = Library.declarations ++ user)

include declared

private theorem bindOne_eq_ok (known : Library.implementations[before.length]? = some impl)
    (sole : ∀ g ∈ user, g.signature ≠ impl.signature) :
    bindOne m (ofImplementations before) impl = .ok (ofImplementations (before ++ [impl])) := by
  have fresh : (ofImplementations before).binds ⟨before.length⟩ = false := by
    rw [binds, builtin?_ofImplementations, List.getElem?_eq_none (Nat.le_refl _)]
    rfl
  rw [bindOne, bind, Library.select_sole declared known sole]
  simp only [fresh]
  rw [ofImplementations, ofImplementations, List.mapIdx_concat]
  rfl

private theorem bindOne_eq_error {i : Nat} (r : Registry)
    (known : Library.implementations[i]? = some impl) {g : Overload} (mem : g ∈ user)
    (same : g.signature = impl.signature) : bindOne m r impl = .error (ambiguity m impl) := by
  rw [bindOne, bind, Library.select_duplicated declared known mem same]
  rfl

/-- The builtins that come before the first one whose function is declared again are bound. -/
private theorem foldlM_bindOne (split : Library.implementations = before ++ after)
    (sole : ∀ impl ∈ before, ∀ g ∈ user, g.signature ≠ impl.signature) :
    before.foldlM (bindOne m) empty = .ok (ofImplementations before) := by
  induction before using List.reverseRecOn generalizing after with
  | nil => rfl
  | append_singleton before impl ih =>
    obtain ⟨sole, this⟩ := List.forall_mem_append.1 sole
    rw [List.append_assoc] at split
    rw [List.foldlM_append, ih split sole]
    have bound := bindOne_eq_ok declared (Library.getElem?_of_split split)
      (this impl (List.mem_singleton_self _))
    exact congrArg (· >>= pure) bound

/-- Without functions that are declared again, all of the library is bound. -/
theorem ofLibrary_eq_ok (sole : Library.firstDuplicated? user = none) :
    ofLibrary m = .ok (ofImplementations Library.implementations) := by
  refine foldlM_bindOne declared (List.append_nil _).symm ?_
  simpa [Library.firstDuplicated?] using sole

/-- Binding stops at the first builtin whose function is declared again. -/
theorem ofLibrary_eq_error (first : Library.firstDuplicated? user = some impl) :
    ofLibrary m = .error (ambiguity m impl) := by
  obtain ⟨duplicated, before, after, split, sole⟩ := List.find?_eq_some_iff_append.1 first
  obtain ⟨g, mem, same⟩ : ∃ g ∈ user, g.signature = impl.signature := by simpa using duplicated
  have sole : ∀ impl ∈ before, ∀ g ∈ user, g.signature ≠ impl.signature := by simpa using sole
  change Library.implementations.foldlM (bindOne m) empty = _
  rw [split, List.foldlM_append, foldlM_bindOne declared split sole]
  change (bindOne m _ impl >>= _) = _
  rw [bindOne_eq_error declared _ (Library.getElem?_of_split split) mem same]
  rfl

/-- If the library can be bound, then all of it is, to the first keys. -/
theorem eq_ofImplementations {r : Registry} (ok : ofLibrary m = .ok r) :
    r = ofImplementations Library.implementations := by
  cases first : Library.firstDuplicated? user with
  | none =>
    rw [ofLibrary_eq_ok declared first] at ok
    exact (Except.ok.inj ok).symm
  | some impl =>
    rw [ofLibrary_eq_error declared first] at ok
    cases ok

/-- A builtin of the library is bound to a function of the library with its signature. -/
theorem exists_implementation_of_builtin? {f : FnKey} {b : Builtin}
    (bound : (ofImplementations Library.implementations).builtin? f = some b) :
    ∃ impl ∈ Library.implementations, impl.builtin = b ∧
      m.overloadAt f ∈ Library.declarations ∧ (m.overloadAt f).signature = impl.signature := by
  rw [builtin?_ofImplementations, Option.map_eq_some_iff] at bound
  obtain ⟨impl, known, rfl⟩ := bound
  obtain ⟨o, known', same⟩ := Library.exists_declaration known
  have lt := (List.getElem?_eq_some_iff.1 known').1
  have there : m.overloads.toList[f.index]? = some o := by
    rw [declared, List.getElem?_append_left lt, known']
  obtain ⟨-, at'⟩ := declares_of_getElem? there
  rw [at']
  exact ⟨impl, List.mem_of_getElem? known, rfl, List.mem_of_getElem? known', same⟩

/-- If binding the library fails, it is for a function that is declared again. -/
theorem eq_ambiguity_of_ofLibrary {err : BindingError} (error : ofLibrary m = .error err) :
    ∃ impl, err = ambiguity m impl := by
  cases first : Library.firstDuplicated? user with
  | none =>
    rw [ofLibrary_eq_ok declared first] at error
    cases error
  | some impl =>
    rw [ofLibrary_eq_error declared first] at error
    cases error
    exact ⟨impl, rfl⟩

end Declared

end Registry

/-! ### Sessions -/

/-- No builtin has a signature that is declared again exactly if no function of the library is
declared again. -/
theorem Library.firstDuplicated?_eq_none_iff {fs : List Overload} : firstDuplicated? fs = none ↔
    ∀ f ∈ declarations, ∀ g ∈ fs, g.signature ≠ f.signature := by
  have tables : (∀ σ ∈ implementations.map Implementation.signature, ∀ g ∈ fs, g.signature ≠ σ) ↔
      ∀ σ ∈ declarations.map Overload.signature, ∀ g ∈ fs, g.signature ≠ σ := by
    rw [signatures_agree]
  simpa [firstDuplicated?] using tables

namespace Session

/-- Whatever a session declares before the library is bound, without a function that has the name
and the parameters of a library function every library function is bound to the builtin with its
name and parameters, and no other function is bound. With such functions binding stops at the
first builtin of which the signature is declared again, as several overloads accept it, and the
session has no registry. No overload is ever missing or taken. -/
theorem bindLibrary_changed (settings : Settings) (cs : List Change) :
    let s := (new settings).changed cs
    let user := cs.flatMap Change.functions
    ((∀ f ∈ Library.declarations, ∀ g ∈ user, g.signature ≠ f.signature) →
      ∃ r : Registry, s.bindLibrary = .ok { s with registry := some r } ∧
        (∀ i f, Library.declarations[i]? = some f → s.model.overloads[i]? = some f ∧
          ∃ impl ∈ Library.implementations, impl.signature = f.signature ∧
            r.builtin? ⟨i⟩ = some impl.builtin) ∧
        ∀ f, r.binds f = true → f.index < Library.declarations.length) ∧
    ((∃ f ∈ Library.declarations, ∃ g ∈ user, g.signature = f.signature) →
      ∃ impl, Library.firstDuplicated? user = some impl ∧
        let err : BindingError := ⟨.severalOverloads
          (s.model.accepting impl.name impl.params).length, impl.name, paramsText impl.params⟩
        Registry.ofLibrary s.model = .error err ∧ s.bindLibrary = .error err.report ∧
          s.registry = none ∧ s.context = .error unboundReport) ∧
    ∀ err, Registry.ofLibrary s.model = .error err → err.fault ≠ .noOverload ∧
      err.fault ≠ .taken := by
  intro s user
  have declared : s.model.overloads.toList = Library.declarations ++ user :=
    overloads_changed settings cs
  have unbound : s.registry = none := rfl
  refine ⟨fun sole ↦ ?_, fun ⟨f, known, g, mem, same⟩ ↦ ?_, fun err error ↦ ?_⟩
  · have bound := Registry.ofLibrary_eq_ok declared (Library.firstDuplicated?_eq_none_iff.2 sole)
    refine ⟨.ofImplementations Library.implementations, ?_, fun i f known ↦ ⟨?_, ?_⟩,
      fun f bound ↦ ?_⟩
    · rw [bindLibrary, unbound, bound]
    · have lt := (List.getElem?_eq_some_iff.1 known).1
      rw [← Array.getElem?_toList, declared, List.getElem?_append_left lt, known]
    · obtain ⟨impl, known, same⟩ := Library.exists_implementation known
      refine ⟨impl, List.mem_of_getElem? known, same, ?_⟩
      rw [Registry.builtin?_ofImplementations, known, Option.map_some]
    · rw [Registry.binds, Registry.builtin?_ofImplementations, Option.isSome_map] at bound
      have lt : f.index < Library.implementations.length := by simpa using bound
      have length := congrArg List.length Library.signatures_agree
      rw [List.length_map, List.length_map] at length
      rwa [length] at lt
  · cases first : Library.firstDuplicated? user with
    | none => exact (Library.firstDuplicated?_eq_none_iff.1 first f known g mem same).elim
    | some impl =>
      have error := Registry.ofLibrary_eq_error declared first
      refine ⟨impl, rfl, error, ?_, unbound, ?_⟩
      · rw [bindLibrary, unbound, error]
        rfl
      · rw [context, unbound]
  · obtain ⟨impl, rfl⟩ := Registry.eq_ambiguity_of_ofLibrary declared error
    exact ⟨nofun, nofun⟩

/-- A function that takes less than the `length` of the library. -/
def lengthOfList : Change := .addOverload ⟨"length", [(Ty.int .par).arrayOf 1], .int .par⟩

/-- A function that takes what the `length` of the library takes. -/
def lengthAgain : Change := .addOverload ⟨"length", [.any .var .maybe Ty.anyRank], .int .var⟩

/-- Beside a narrower function the `length` of the library is bound, and beside another one with
its parameters it is not. -/
theorem bindLibrary_lengths :
    (∃ r : Registry, ((new .usual).changed [lengthOfList]).bindLibrary =
        .ok { (new .usual).changed [lengthOfList] with registry := some r } ∧
      r.builtin? ⟨12⟩ = some .length) ∧
    Registry.ofLibrary ((new .usual).changed [.int .one, lengthAgain]).model =
      .error ⟨.severalOverloads 2, "length", paramsText [.any .var .maybe Ty.anyRank]⟩ := by
  constructor
  · obtain ⟨r, bound, builtins, -⟩ :=
      (bindLibrary_changed .usual [lengthOfList]).1 (by decide +kernel)
    obtain ⟨-, impl, mem, same, builtin⟩ :=
      builtins 12 ⟨"length", [.any .var .maybe Ty.anyRank], .int .par⟩ rfl
    have written : ∀ impl ∈ Library.implementations,
        impl.signature = ("length", [.any .var .maybe Ty.anyRank]) → impl.builtin = .length := by
      decide +kernel
    rw [written impl mem same] at builtin
    exact ⟨r, bound, builtin⟩
  · obtain ⟨impl, first, error, -⟩ :=
      (bindLibrary_changed .usual [.int .one, lengthAgain]).2.1 (by decide +kernel)
    have length : Library.firstDuplicated? ([.int .one, lengthAgain].flatMap Change.functions) =
        some ⟨"length", [.any .var .maybe Ty.anyRank], .length⟩ := by
      decide +kernel
    cases length.symm.trans first
    have candidates : (((new .usual).changed [.int .one, lengthAgain]).model.accepting "length"
        [.any .var .maybe Ty.anyRank]).length = 2 := by
      decide +kernel
    rw [candidates] at error
    exact error

end Session

end ConstraintEval
