import ConstraintEval.Proofs.Reductions.Folds
import ConstraintEval.Proofs.RepeatedRearrangement

/-!
# Calls of the standard library

A call that means what it would mean with nothing but the library is computed by the builtin of
that function. What a reduction of an array comes to is a fold of what the elements come to, and
so are its bounds.
-/

namespace ConstraintEval

variable {ctx : Context} {p : Pending} {c x : ExprKey} {name : String} {args : List ExprKey}
  {b : Builtin} {side : Side}

/-! ### What calls mean with nothing but the library -/

namespace Library

theorem overloads_model : model.overloads.toList = declarations ++ [] := by
  have added := (adds_declareAll .empty).overloads
  rw [show Model.empty.overloads.toList = [] from rfl, List.nil_append] at added
  rw [model, added, List.append_nil]

/-- What a call of a name with arguments of some types means with nothing but the library: what
computes it and the type of its result. -/
def meaning? (name : String) (tys : List Ty) : Option (Builtin × Ty) :=
  match model.select name tys with
  | .one f => entries[f.index]?.map fun entry ↦ (entry.builtin, entry.overload.result)
  | .noneFits | .several _ => none

/-- Functions that take arrays of any number of dimensions do not tell them apart. -/
private theorem select_of_rank (name : String) {t : Ty} (array : t.rank ≠ 0)
    (ranks : ∀ o ∈ declarations, o.name = name → ∀ q ∈ o.params, q.rank = 0 ∨ q.rank = Ty.anyRank) :
    model.select name [t] = model.select name [t.inRank 1] := by
  refine Model.select_eq_of_accepts fun f ↦ and_congr_right fun declares ↦ ?_
  have known := (mem_of_declares overloads_model declares).resolve_right List.not_mem_nil
  have ranks := ranks _ known declares.2
  cases params : (model.overloadAt f).params with
  | nil => exact Iff.rfl
  | cons q qs =>
    rw [params] at ranks
    have rank : (if q.rank = Ty.anyRank then t.rank ≠ 0 else t.rank = q.rank) ↔
        if q.rank = Ty.anyRank then (1 : Int) ≠ 0 else 1 = q.rank := by
      rcases ranks q List.mem_cons_self with scalar | any
      · simp [scalar, Ty.anyRank, array]
      · simp [any, array]
    simp only [Fits, Ty.le_def, Ty.inRank, rank]

/-- The extremes of an array of integers and the bounds of its elements mean the same in any number
of dimensions. -/
theorem meaning?_of_integers {mode : Mode} {t : Ty} (integers : t.elementTy = .int mode)
    (array : t.rank ≠ 0) (side : Side) :
    meaning? side.extremumName [t] = some (.extremum side, .int mode) ∧
      meaning? side.arrayBoundName [t] = some (.boundOfElements side, .int .par) := by
  have row : t.inRank 1 = (Ty.int mode).arrayOf 1 := by
    change t.elementTy.inRank 1 = _
    rw [integers]
    rfl
  unfold meaning?
  rw [select_of_rank side.extremumName array (by cases side <;> decide +kernel),
    select_of_rank side.arrayBoundName array (by cases side <;> decide +kernel), row]
  cases side <;> cases mode <;> decide +kernel

end Library

/-- An expression is the call of a name with some arguments as it is added to the model, and it
means what it would mean with nothing but the library. -/
structure Model.IsLibraryCall (m : Model) (c : ExprKey) (name : String) (args : List ExprKey) :
    Prop where
  call : m.IsCall c name args
  alone : m.select name (args.map m.ty) = Library.model.select name (args.map m.ty)

instance (m : Model) (c : ExprKey) (name : String) (args : List ExprKey) :
    Decidable (m.IsLibraryCall c name args) :=
  decidable_of_iff (m.IsCall c name args ∧
      m.select name (args.map m.ty) = Library.model.select name (args.map m.ty))
    ⟨fun ⟨call, alone⟩ ↦ ⟨call, alone⟩, fun h ↦ ⟨h.call, h.alone⟩⟩

/-- Where no function is declared beside the library, calls mean what they would mean without. -/
theorem Model.IsCall.isLibraryCall {m : Model}
    (declared : m.overloads.toList = Library.declarations) (call : m.IsCall c name args) :
    m.IsLibraryCall c name args := by
  have same : m.overloads = Library.model.overloads := by
    apply Array.toList_inj.1
    rw [declared, Library.overloads_model, List.append_nil]
  exact ⟨call, select_congr same name _⟩

/-- An expression is a call that a builtin computes. -/
def Context.Computes (ctx : Context) (c : ExprKey) (name : String) (args : List ExprKey)
    (b : Builtin) : Prop :=
  ∃ f, ctx.model.form c = .call name (some f) args ∧ ctx.registry.builtin? f = some b

/-- A call that means a function of the library is computed by its builtin. -/
theorem Model.IsLibraryCall.computes {user : List Overload} {ty : Ty}
    (declared : ctx.model.overloads.toList = Library.declarations ++ user)
    (registered : ctx.registry = .ofImplementations Library.implementations)
    (call : ctx.model.IsLibraryCall c name args)
    (means : Library.meaning? name (args.map ctx.model.ty) = some (b, ty)) :
    ctx.Computes c name args b ∧ ctx.model.ty c = ty := by
  unfold Library.meaning? at means
  split at means
  case h_2 | h_3 => cases means
  case h_1 f selected =>
    obtain ⟨entry, known, eq⟩ := Option.map_eq_some_iff.1 means
    obtain ⟨rfl, rfl⟩ := Prod.mk.inj eq
    rw [Library.entries, List.getElem?_zipWith_eq_some] at known
    obtain ⟨o, impl, overload, implemented, rfl⟩ := known
    have lt := (List.getElem?_eq_some_iff.1 overload).1
    have at' : ctx.model.overloadAt f = o := by
      rw [Model.overloadAt, ← Array.getElem?_toList, declared, List.getElem?_append_left lt,
        overload, Option.getD_some]
    have resolved := call.call
    unfold Model.IsCall Model.resolvedCall at resolved
    rw [call.alone, selected] at resolved
    simp only [at'] at resolved
    obtain ⟨form, ty⟩ := Prod.mk.inj resolved
    refine ⟨⟨f, form, ?_⟩, ty⟩
    rw [registered, Registry.builtin?_ofImplementations, implemented, Option.map_some]

/-! ### Evaluating calls -/

namespace Context.Computes

theorem form_ne_name (h : ctx.Computes c name args b) (name' : String) (v : Option VarKey) :
    ctx.model.form c ≠ .name name' v := by
  obtain ⟨f, form, -⟩ := h
  simp [form]

theorem form_ne_int (h : ctx.Computes c name args b) (v : Integer) : ctx.model.form c ≠ .int v := by
  obtain ⟨f, form, -⟩ := h
  simp [form]

/-- A call comes to what its builtin computes. -/
theorem resultAt_eval (h : ctx.Computes c name args b)
    (steady : Steady (ctx.evaluator.apply args b).run) :
    (ctx.evaluator.eval c).resultAt p = (ctx.evaluator.apply args b).resultAt p := by
  have unnamed := h.form_ne_name
  obtain ⟨f, form, bound⟩ := h
  have byForm : ctx.evaluator.valueByForm c = EvalM.inScope (ctx.evaluator.apply args b) :=
    valueOfEnd_call form bound
  rw [EvalM.resultAt_eval_of_form unnamed (byForm ▸ steady.inScope), byForm,
    EvalM.resultAt_inScope steady]

/-- A call has the bounds that the rule for its name gives. -/
theorem boundsByForm (h : ctx.Computes c name args b) :
    ctx.evaluator.boundsByForm c = ctx.evaluator.boundsOfCall name args := by
  obtain ⟨f, form, bound⟩ := h
  have form' : ctx.evaluator.model.form c = .call name (some f) args := form
  have binds : ctx.evaluator.registry.binds f = true := congrArg Option.isSome bound
  simp only [Evaluator.boundsByForm, form', binds, if_true]

/-- A reduction comes to what it makes of the elements of its argument. -/
theorem resultAt_reduction {f : List ExprKey → EvalM Value} (h : ctx.Computes c name [x] b)
    (reduction : ctx.evaluator.reduction? b = some f)
    (single : ∀ side, b = .extremum side → (ctx.model.ty x).isSet = false) :
    (ctx.evaluator.eval c).resultAt p =
      (ctx.evaluator.arrayOf x).resultAt p >>= fun u ↦ (f u.elements).resultAt p := by
  have apply := Evaluator.apply_of_reduction? reduction single
  have steady (u : LazyArray) : Steady (f u.elements).run := steady_reduction reduction u.elements
  rw [h.resultAt_eval (apply ▸ (steady_arrayOf x).andThen steady), apply,
    EvalM.resultAt_bind (steady_arrayOf x) steady]

end Context.Computes

section Reductions

variable {r : LazyArray → OptionT Option Integer}

private theorem map_int (o : OptionT Option LazyArray) :
    (o >>= fun u ↦ Value.int <$> r u) = Value.int <$> (o >>= r) := (map_bind ..).symm

theorem resultAt_sum (h : ctx.Computes c "sum" [x] .sum) :
    (ctx.evaluator.eval c).resultAt p = Value.int <$> ((ctx.evaluator.arrayOf x).resultAt p >>=
      fun u ↦ total (fun y ↦ (ctx.evaluator.intOf y).resultAt p) .zero u.elements) := by
  have add (t : Integer) (y : ExprKey) (v : Integer) :
      Steady (EvalM.ofOption (.overflow "sum") (t.add? v)).run := .ofOption _ _
  have step (t : Integer) (y : ExprKey) := (@steady_intOf ctx y).andThen (add t y)
  rw [h.resultAt_reduction rfl nofun, ← map_int]
  refine bind_congr fun u ↦ ?_
  rw [EvalM.resultAt_map _ (.foldlM u.elements step .zero),
    EvalM.resultAt_foldlM u.elements step .zero, total]
  congr 2
  funext t y
  rw [EvalM.resultAt_bind (steady_intOf y) (add t y)]
  exact bind_congr fun v ↦ EvalM.resultAt_ofOption _ _

/-- The value of a list nearest to one end, for a list of what has been found. -/
private theorem resultAt_furthest (operation : String) (xs : List ExprKey)
    (f : ExprKey → EvalM Integer) (steady : ∀ y, Steady (f y).run) :
    (xs.mapM f >>= fun is ↦ side.furthest operation is).resultAt p =
      foldNested? side.pick (fun y ↦ (f y).resultAt p) xs := by
  rw [EvalM.resultAt_bind (.mapM xs steady) (Steady.furthest side operation),
    EvalM.resultAt_mapM xs steady]
  exact mapM_foldl_eq_foldNested? rfl (fun _ _ ↦ rfl) xs

theorem resultAt_extremum (h : ctx.Computes c name [x] (.extremum side))
    (single : (ctx.model.ty x).isSet = false) :
    (ctx.evaluator.eval c).resultAt p = Value.int <$> ((ctx.evaluator.arrayOf x).resultAt p >>=
      fun u ↦ foldNested? side.pick (fun y ↦ (ctx.evaluator.intOf y).resultAt p) u.elements) := by
  rw [h.resultAt_reduction rfl fun _ _ ↦ single, ← map_int]
  refine bind_congr fun u ↦ ?_
  have steady := (Steady.mapM u.elements (@steady_intOf ctx)).andThen
    (Steady.furthest side side.extremumName)
  rw [← bind_assoc, bind_pure_comp, EvalM.resultAt_map _ steady]
  exact congrArg (Value.int <$> ·) (resultAt_furthest _ _ _ steady_intOf)

theorem resultAt_requiredBounds (operation : String) (e : ExprKey) :
    (ctx.evaluator.requiredBounds operation e).resultAt p = (ctx.evaluator.bounds e).resultAt p :=
  BoundM.resultAt_orFail _

theorem resultAt_boundOfElements (h : ctx.Computes c name [x] (.boundOfElements side)) :
    (ctx.evaluator.eval c).resultAt p = Value.int <$> ((ctx.evaluator.arrayOf x).resultAt p >>=
      fun u ↦ foldNested? side.pick
        (fun y ↦ side.endOf <$> (ctx.evaluator.bounds y).resultAt p) u.elements) := by
  rw [h.resultAt_reduction rfl nofun, ← map_int]
  refine bind_congr fun u ↦ ?_
  have bounded (y : ExprKey) := @steady_requiredBounds ctx side.arrayBoundName y
  have ends (y : ExprKey) := (bounded y).andThen fun r ↦ Steady.ok (side.endOf r)
  have steady := (Steady.mapM u.elements ends).andThen
    (Steady.furthest side side.arrayBoundName)
  rw [← bind_assoc, bind_pure_comp, EvalM.resultAt_map _ steady,
    resultAt_furthest _ _ _ ends]
  congr 2
  funext y
  rw [EvalM.resultAt_bind (bounded y) fun r ↦ .ok _, resultAt_requiredBounds, ← bind_pure_comp]
  rfl

/-- A bound of an expression is an end of its bounds. -/
theorem resultAt_bound (h : ctx.Computes c name [x] (.bound side)) :
    (ctx.evaluator.eval c).resultAt p =
      Value.int <$> side.endOf <$> (ctx.evaluator.bounds x).resultAt p := by
  have bounded := @steady_requiredBounds ctx side.boundName x
  have apply : ctx.evaluator.apply [x] (.bound side) =
      Value.int <$> side.endOf <$> ctx.evaluator.requiredBounds side.boundName x := by
    simp [Evaluator.apply, Evaluator.bound, soleArg]
  have steady : Steady (side.endOf <$> ctx.evaluator.requiredBounds side.boundName x :
      EvalM Integer).run := by
    rw [← bind_pure_comp]
    exact bounded.andThen fun r ↦ .ok _
  rw [h.resultAt_eval (apply ▸ steady.mapValue _), apply, EvalM.resultAt_map _ steady,
    EvalM.resultAt_map _ bounded, resultAt_requiredBounds]

/-! ### Bounds of calls -/

private theorem steady_boundsOfElements (x : ExprKey) :
    Steady (ctx.evaluator.boundsOfElements x).run :=
  (steady_arrayOf x).findValue.findThen fun u ↦ .findMapM u.elements steady_bounds

private theorem resultAt_boundsOfElements (x : ExprKey) :
    (ctx.evaluator.boundsOfElements x).resultAt p =
      (ctx.evaluator.arrayOf x).resultAt p >>= fun u ↦
        u.elements.mapM fun y ↦ (ctx.evaluator.bounds y).resultAt p := by
  have steady (u : LazyArray) := Steady.findMapM u.elements (@steady_bounds ctx)
  unfold Evaluator.boundsOfElements
  rw [BoundM.resultAt_bind (steady_arrayOf x).findValue steady, BoundM.resultAt_bounds]
  exact bind_congr fun u ↦ BoundM.resultAt_mapM u.elements steady_bounds

private theorem resultAt_boundsOfCall_sum (x : ExprKey) :
    Steady (ctx.evaluator.boundsOfCall "sum" [x]).run ∧
      (ctx.evaluator.boundsOfCall "sum" [x]).resultAt p =
        (ctx.evaluator.arrayOf x).resultAt p >>= fun u ↦
          boundsAtOnce (fun y ↦ (ctx.evaluator.bounds y).resultAt p) (.point .zero) u.elements := by
  have byRule : ctx.evaluator.boundsOfCall "sum" [x] = (do
      let parts ← ctx.evaluator.boundsOfElements x
      BoundM.ofOption (parts.foldlM Interval.add? (.point .zero))) := rfl
  have elements := @steady_boundsOfElements ctx x
  have add (parts : List Interval) :
      Steady (BoundM.ofOption (parts.foldlM Interval.add? (.point .zero))).run := .findIn _
  refine ⟨elements.findThen add, ?_⟩
  rw [byRule, BoundM.resultAt_bind elements add, resultAt_boundsOfElements, bind_assoc]
  rfl

private theorem resultAt_boundsOfCall_extremum (side : Side) (x : ExprKey) :
    Steady (ctx.evaluator.boundsOfCall side.extremumName [x]).run ∧
      (ctx.evaluator.boundsOfCall side.extremumName [x]).resultAt p =
        (ctx.evaluator.arrayOf x).resultAt p >>= fun u ↦
          foldNested? side.pickBounds (fun y ↦ (ctx.evaluator.bounds y).resultAt p) u.elements := by
  have byRule : ctx.evaluator.boundsOfCall side.extremumName [x] =
      (do BoundM.ofOption (Interval.reduce? side.pickBounds (←
        ctx.evaluator.boundsOfElements x))) := by
    cases side <;> rfl
  have elements := @steady_boundsOfElements ctx x
  have reduce (parts : List Interval) :
      Steady (BoundM.ofOption (Interval.reduce? side.pickBounds parts)).run := .findIn _
  rw [byRule]
  refine ⟨elements.findThen reduce, ?_⟩
  rw [BoundM.resultAt_bind elements reduce, resultAt_boundsOfElements, bind_assoc]
  exact bind_congr fun u ↦ mapM_foldl_eq_foldNested? rfl (fun _ _ ↦ rfl) u.elements

/-- The bounds of a sum are worked out from those of the elements. -/
theorem resultAt_bounds_sum {mode : Mode} (computes : ctx.Computes c "sum" [x] .sum)
    (result : ctx.model.ty c = .int mode)
    (known : mode = .par → ∀ u, (ctx.evaluator.arrayOf x).resultAt p = some (some u) →
      ∀ e ∈ u.elements, ctx.model.ty e = .int .par) :
    (ctx.evaluator.bounds c).resultAt p = (ctx.evaluator.arrayOf x).resultAt p >>= fun u ↦
      boundsAtOnce (fun e ↦ (ctx.evaluator.bounds e).resultAt p) (.point .zero) u.elements := by
  obtain ⟨steady, bounds⟩ := @resultAt_boundsOfCall_sum ctx (p := p) x
  rw [← computes.boundsByForm] at steady bounds
  rw [resultAt_bounds_of_form computes.form_ne_int result steady fun par ↦ ?_, bounds]
  rw [EvalM.resultAt_intOf_of_eval (resultAt_sum computes), bounds]
  exact .after fun u array ↦
    (foretells_total fun e mem ↦ foretells_of_known (known par u array e mem)).2

/-- The bounds of the least or greatest element of an array are worked out from those of the
elements. -/
theorem resultAt_bounds_extremum {mode : Mode}
    (computes : ctx.Computes c side.extremumName [x] (.extremum side))
    (result : ctx.model.ty c = .int mode) (single : (ctx.model.ty x).isSet = false)
    (known : mode = .par → ∀ u, (ctx.evaluator.arrayOf x).resultAt p = some (some u) →
      ∀ e ∈ u.elements, ctx.model.ty e = .int .par) :
    (ctx.evaluator.bounds c).resultAt p = (ctx.evaluator.arrayOf x).resultAt p >>= fun u ↦
      foldNested? side.pickBounds (fun e ↦ (ctx.evaluator.bounds e).resultAt p) u.elements := by
  obtain ⟨steady, bounds⟩ := @resultAt_boundsOfCall_extremum ctx (p := p) side x
  rw [← computes.boundsByForm] at steady bounds
  rw [resultAt_bounds_of_form computes.form_ne_int result steady fun par ↦ ?_, bounds]
  rw [EvalM.resultAt_intOf_of_eval (resultAt_extremum computes single), bounds]
  exact .after fun u array ↦
    foretells_foldNested? side fun e mem ↦ foretells_of_known (known par u array e mem)

end Reductions

end ConstraintEval
