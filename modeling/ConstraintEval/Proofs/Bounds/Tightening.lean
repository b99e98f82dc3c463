import ConstraintEval.Proofs.Binding
import ConstraintEval.Proofs.Bounds.Monotonicity
import ConstraintEval.Proofs.Bounds.SideBySide
import ConstraintEval.Proofs.Bounds.Soundness
import ConstraintEval.Proofs.Extension.Conservative
import ConstraintEval.Proofs.VariableDomains

/-!
# Narrower domains have narrower bounds

A solver that narrows the domain of a variable and looks for bounds again never loses what it
knew: wherever bounds are found before and after, those after lie within those before. Neither which
values are known nor which domains can be evaluated depends on the domain that is narrowed, so both
searches go the same ways, and where bounds are worked out from others, narrower ones give narrower
ones. One lemma for each rule; levels then follow by induction.
-/

namespace ConstraintEval

namespace Evaluator

/-- Of two evaluators that find the same values in a region, the second one finds bounds within
those of the first one there. -/
structure Tightens (ev ev' : Evaluator) (P : ExprKey → Prop) (V : VarKey → Prop) : Prop
    extends toResembles : ev.Resembles ev' P V where
  steady : ∀ e, Steady (ev.eval e).run
  domains : ∀ v, V v → Aligned Interval.Covers (ev.boundsOfDomain (ev.model.variableAt v).domain)
    (ev'.boundsOfDomain (ev'.model.variableAt v).domain)
  bounds : ∀ e, P e → Paired Interval.Covers (ev.bounds e) (ev'.bounds e)

namespace Tightens

variable {ev ev' : Evaluator} {P : ExprKey → Prop} {V : VarKey → Prop} {e x : ExprKey} {v : VarKey}
  (h : ev.Tightens ev' P V)

include h

theorem boundsOfEntered (span : Span) (hv : V v)
    (given : ∀ d, (ev.model.variableAt v).definition = some d → P d) :
    Paired Interval.Covers (ev.boundsOfEntered v span) (ev'.boundsOfEntered v span) := by
  unfold Evaluator.boundsOfEntered
  rw [h.enter hv]
  refine (Paired.enter ev.toContext v span).bind fun _ _ _ _ ↦ .orElse (h.domains v hv) ?_
  rw [h.definition hv]
  split
  · next d defined => exact h.bounds d (given d defined)
  · exact .failure

theorem boundsOfElements (hx : P x) :
    Paired (List.Forall₂ Interval.Covers) (ev.boundsOfElements x) (ev'.boundsOfElements x) := by
  have steady : Steady (ev.arrayOf x).run :=
    (h.steady x).andThen fun v ↦ (Steady.ofExcept v.asArray).locating x
  unfold Evaluator.boundsOfElements
  rw [h.arrayOf hx]
  refine (Aligned.bounds steady).paired.bind fun a b same offers ↦ ?_
  subst same
  exact .mapM fun y hy ↦ h.bounds y (h.elements hx offers.of_bounds y hy)

theorem hullOfElements (hx : P x) :
    Paired Interval.Covers (ev.hullOfElements x) (ev'.hullOfElements x) := by
  have domain : Aligned Interval.Covers (ev.boundsOfDomain (ev.namedDomain x))
      (ev'.boundsOfDomain (ev'.namedDomain x)) := by
    unfold namedDomain
    rw [h.form hx]
    split
    · next name v form => exact h.domains v (h.named x name v hx form)
    · exact .failure
  refine .orElse domain ((h.boundsOfElements hx).bind fun rs ss covers _ ↦ .ofOption ?_)
  exact fun t u wide narrow ↦ .reduce? .hull covers wide narrow

theorem boundsOfCall {name : String} {args : List ExprKey} (hargs : ∀ x ∈ args, P x)
    (ends : name ≠ "lb" ∧ name ≠ "ub") :
    Paired Interval.Covers (ev.boundsOfCall name args) (ev'.boundsOfCall name args) := by
  have two {g : Interval → Interval → Interval} {x y : ExprKey} (hx : P x) (hy : P y)
      (hg : ∀ {r s r' s'}, Interval.Covers r s → Interval.Covers r' s' → (g r r').Covers (g s s')) :
      Paired Interval.Covers (do return g (← ev.bounds x) (← ev.bounds y))
        (do return g (← ev'.bounds x) (← ev'.bounds y)) :=
    (h.bounds x hx).bind fun _ _ first _ ↦ (h.bounds y hy).bind fun _ _ second _ ↦
      .pure (hg first second)
  have elements {f : List Interval → Option Interval} {x : ExprKey} (hx : P x)
      (hf : ∀ {rs ss t u}, List.Forall₂ Interval.Covers rs ss → f rs = some t → f ss = some u →
        t.Covers u) :
      Paired Interval.Covers (do BoundM.ofOption (f (← ev.boundsOfElements x)))
        (do BoundM.ofOption (f (← ev'.boundsOfElements x))) :=
    (h.boundsOfElements hx).bind fun _ _ covers _ ↦
      .ofOption fun _ _ wide narrow ↦ hf covers wide narrow
  unfold Evaluator.boundsOfCall
  split
  · exact .pure ⟨by decide, by decide, by decide⟩
  · exact two (hargs _ (by simp)) (hargs _ (by simp)) .minOf
  · exact two (hargs _ (by simp)) (hargs _ (by simp)) .maxOf
  · exact elements (hargs _ (by simp)) (.reduce? .minOf)
  · exact elements (hargs _ (by simp)) (.reduce? .maxOf)
  · exact absurd rfl ends.1
  · exact absurd rfl ends.2
  · exact elements (hargs _ (by simp)) fun covers ↦ .foldlM_add? covers (Interval.covers_point _)
  · exact .failure

theorem boundsByForm (he : P e) (ends : ∀ name f args, ev.model.form e = .call name (some f) args →
      ev.registry.binds f = true → name ≠ "lb" ∧ name ≠ "ub") :
    Paired Interval.Covers (ev.boundsByForm e) (ev'.boundsByForm e) := by
  have operand {x : ExprKey} (mem : x ∈ (ev.model.form e).operands) := h.bounds x (h.operand he mem)
  unfold Evaluator.boundsByForm
  rw [h.form he, h.span he, h.registry]
  split
  · next name v form =>
    exact h.boundsOfEntered _ (h.named e name v he form) fun d ↦ h.closed.definition he form
  · next op left right form =>
    rw [form] at operand
    refine (operand (x := left) (by simp [Form.operands])).bind fun _ _ first _ ↦ ?_
    refine (operand (x := right) (by simp [Form.operands])).bind fun _ _ second _ ↦ ?_
    exact .ofOption fun _ _ wide narrow ↦ ArithOp.covers_bounds? first second wide narrow
  · next x form =>
    rw [form] at operand
    refine (operand (x := x) (by simp [Form.operands])).bind fun _ _ covers _ ↦ ?_
    exact .ofOption fun _ _ wide narrow ↦ covers.neg? wide narrow
  · next cond yes no form =>
    rw [form] at operand
    refine (operand (x := yes) (by simp [Form.operands])).bind fun _ _ first _ ↦ ?_
    refine (operand (x := no) (by simp [Form.operands])).bind fun _ _ second _ ↦ ?_
    exact .pure (first.hull second)
  · next array indices form =>
    exact h.hullOfElements (h.operand he (by simp [form, Form.operands]))
  · next name f args form =>
    split
    · next bound =>
      refine h.boundsOfCall (fun x hx ↦ h.operand he ?_) (ends name f args form bound)
      simpa [form, Form.operands] using hx
    · exact .failure
  · exact .failure

/-- Whether a value is known does not depend on domains. -/
theorem boundsOfKnown (he : P e) :
    Aligned Interval.Covers (ev.boundsOfKnown e) (ev'.boundsOfKnown e) := by
  have steady : Steady (ev.intOf e).run :=
    (h.steady e).andThen fun v ↦ (Steady.ofExcept v.asInt).locating e
  unfold Evaluator.boundsOfKnown
  rw [h.ty he, h.intOf he]
  simp only
  split
  · refine (Aligned.bounds steady).bind fun i j same ↦ ?_
    subst same
    exact .ofOption (.some (Interval.covers_point i))
  · exact .failure

theorem boundsStep (he : P e) (ends : ∀ name f args, ev.model.form e = .call name (some f) args →
      ev.registry.binds f = true → name ≠ "lb" ∧ name ≠ "ub") :
    Paired Interval.Covers (ev.boundsStep e) (ev'.boundsStep e) := by
  unfold Evaluator.boundsStep
  rw [h.form he]
  refine .inScope ?_
  split
  · next i form => exact .pure (Interval.covers_point i)
  · exact .orElse (h.boundsOfKnown he) (h.boundsByForm he ends)

end Tightens

end Evaluator

/-! ### Domains that are written out -/

/-- An expression writes out a set of integers, as the range between two literals or by literals for
the members. -/
inductive Model.WritesOut (m : Model) (d : ExprKey) : IntegerSet → Prop where
  | between {lo hi : ExprKey} {i j : Integer} (form : m.form d = .between lo hi)
      (low : m.form lo = .int i) (high : m.form hi = .int j) : WritesOut m d (.range i j)
  | members {xs : List ExprKey} {is : List Integer} (form : m.form d = .set xs)
      (literals : List.Forall₂ (fun x i ↦ m.form x = .int i) xs is) : WritesOut m d (.ofList is)

section WrittenOut

variable {ctx : Context} {p : Pending} {d x : ExprKey} {s : IntegerSet}

/-- A set that is written out is found whatever is pending. -/
theorem Model.WritesOut.givesAt (h : ctx.model.WritesOut d s) :
    GivesAt p (ctx.evaluator.setOf d) s := by
  refine GivesAt.setOf ?_
  cases h with
  | @between lo hi i j form low high =>
    have byForm : ctx.evaluator.valueByForm d = do
        return .set (.range (← ctx.evaluator.intOf lo) (← ctx.evaluator.intOf hi)) := by
      have form' : ctx.evaluator.model.form d = .between lo hi := form
      simp only [Evaluator.valueByForm, form']
    have steady (i : Integer) : Steady (do
        return Value.set (.range i (← ctx.evaluator.intOf hi)) : EvalM Value).run :=
      (steady_intOf hi).andThen fun _ ↦ .ok _
    refine .eval_of_form (by simp [form]) ?_ ?_ <;> rw [byForm]
    · exact (givesAt_intOf low).bind (steady_intOf lo)
        ((givesAt_intOf high).bind (steady_intOf hi) (.ok _) (.ok _)) (steady i)
    · exact (steady_intOf lo).andThen steady
  | @members xs is form literals =>
    have byForm : ctx.evaluator.valueByForm d = do
        return .set (.ofList (← xs.mapM ctx.evaluator.intOf)) := by
      have form' : ctx.evaluator.model.form d = .set xs := form
      simp only [Evaluator.valueByForm, form']
    have steady := Steady.mapM xs (f := ctx.evaluator.intOf) steady_intOf
    refine .eval_of_form (by simp [form]) ?_ ?_ <;> rw [byForm]
    · exact (GivesAt.mapM (literals.imp fun _ _ ↦ givesAt_intOf) steady_intOf).bind steady
        (.ok _) (.ok _)
    · exact steady.andThen fun _ ↦ .ok _

/-- The search for bounds of a set that is written out finds its hull, or does not come to an end on
few levels. -/
private theorem Model.WritesOut.boundsOfSet {n : Nat} {u t : EvalState} {o : Option Interval}
    (h : ctx.model.WritesOut d s) (run : (Evaluator.ofLevels ctx n).boundsOfSet d u = some (o, t)) :
    o = s.hull? ∧ t.pending = u.pending := by
  rw [Evaluator.ofLevels_eq_mk, Evaluator.boundsOfSet_apply] at run
  obtain ⟨⟨r, w⟩, run, eq⟩ := Option.map_eq_some_iff.1 run
  have found : ctx.evaluator.setOf d u = some (r, w) := by
    have evaluated : (Evaluator.ofLevels ctx n).eval d u ≠ none := by
      intro diverges
      unfold Evaluator.setOf at run
      rw [EvalM.bind_apply] at run
      simp only [diverges, Option.bind_none] at run
      cases run
    rw [← run]
    unfold Evaluator.setOf
    rw [EvalM.bind_apply, EvalM.bind_apply, eval_evaluator_eq evaluated, Context.evaluator,
      Evaluator.toContext_ofLevels]
  obtain ⟨w', pending, written⟩ := h.givesAt.run (steady_setOf d) (s := u) rfl
  rw [found] at written
  cases written
  obtain ⟨rfl, rfl⟩ := Prod.mk.inj eq
  exact ⟨rfl, pending⟩

end WrittenOut

/-! ### A narrower domain -/

/-- A context is another one, as far as a region of expressions goes, but for the domain of a
variable. Both domains are written out, and the new one is a subset of the old one that is not
empty. -/
structure Context.NarrowsDomain (ctx ctx' : Context) (P : ExprKey → Prop) (x : VarKey)
    (d d' : ExprKey) (s s' : IntegerSet) : Prop where
  registry : ctx'.registry = ctx.registry
  node : ∀ e, P e → ctx'.model.node e = ctx.model.node e
  declared : ctx'.model.declared.size = ctx.model.declared.size
  others : ∀ v, v ≠ x → ctx'.model.variableAt v = ctx.model.variableAt v
  domain : (ctx.model.variableAt x).domain = some d
  narrowed : ctx'.model.variableAt x = { ctx.model.variableAt x with domain := some d' }
  writes : ctx.model.WritesOut d s
  writes' : ctx'.model.WritesOut d' s'
  inhabited : s'.isEmpty = false
  subset : ∀ i ∈ s', i ∈ s

/-- Some expression of a region is a name of a variable. -/
def Context.NamedIn (ctx : Context) (P : ExprKey → Prop) (v : VarKey) : Prop :=
  ∃ e name, P e ∧ ctx.model.form e = .name name (some v)

namespace Context.NarrowsDomain

variable {ctx ctx' : Context} {P : ExprKey → Prop} {x v : VarKey} {d d' : ExprKey}
  {s s' : IntegerSet} (h : ctx.NarrowsDomain ctx' P x d d' s s') (closed : ctx.Closed P)

include h closed

theorem resembles : ctx.Resembles ctx' P (ctx.NamedIn P) where
  registry := h.registry
  node := h.node
  variableAt v _ := by
    by_cases eq : v = x
    · exact ⟨some d', eq ▸ h.narrowed⟩
    · exact ⟨_, h.others v eq⟩
  declared := h.declared.ge
  closed := closed
  named e name v he form := ⟨e, name, he, form⟩

omit closed in
/-- Both domains of the variable have a hull, and the new one lies within the old one. -/
private theorem exists_hulls :
    ∃ r r', s.hull? = some r ∧ s'.hull? = some r' ∧ r.Covers r' := by
  obtain ⟨r', narrow⟩ := IntegerSet.exists_hull? h.inhabited
  obtain ⟨run, mem, -⟩ := h.subset _ (IntegerSet.ends_mem_of_hull? narrow).1
  have inhabited : s.isEmpty = false := by
    rw [IntegerSet.isEmpty, List.isEmpty_eq_false_iff]
    exact List.ne_nil_of_mem mem
  obtain ⟨r, wide⟩ := IntegerSet.exists_hull? inhabited
  exact ⟨r, r', wide, narrow, IntegerSet.hull?_covers h.subset wide narrow⟩

/-- Whether the domain of a variable has bounds does not depend on the level or the context. -/
private theorem domains (avoids : ∀ e, P e → ctx.Avoids (·.seesDomains = true) e) (n : Nat)
    (named : ctx.NamedIn P v) :
    Aligned Interval.Covers
      ((Evaluator.ofLevels ctx n).boundsOfDomain (ctx.model.variableAt v).domain)
      ((Evaluator.ofLevels ctx' n).boundsOfDomain (ctx'.model.variableAt v).domain) := by
  by_cases eq : v = x
  · subst eq
    rw [h.narrowed, h.domain]
    intro u u' o o' t t' pending run run'
    obtain ⟨rfl, after⟩ := h.writes.boundsOfSet run
    obtain ⟨rfl, after'⟩ := h.writes'.boundsOfSet run'
    obtain ⟨r, r', wide, narrow, covers⟩ := h.exists_hulls
    rw [wide, narrow]
    exact ⟨.some covers, after.trans (pending.trans after'.symm)⟩
  · rw [h.others v eq]
    cases domain : (ctx.model.variableAt v).domain with
    | none => exact .failure
    | some d =>
      obtain ⟨e, name, he, form⟩ := named
      have values := (h.resembles closed).ofLevels avoids n
      have steady : Steady ((Evaluator.ofLevels ctx n).setOf d).run :=
        (steady_eval_ofLevels n d).andThen fun v ↦ (Steady.ofExcept v.asSet).locating d
      unfold Evaluator.boundsOfDomain Evaluator.boundsOfSet
      simp only [values.setOf (closed.domain he form domain)]
      refine (Aligned.bounds steady).bind fun a b same ↦ .ofOption ?_
      subst same
      cases hull : a.hull? with
      | none => exact .none
      | some r => exact .some (IntegerSet.hull?_covers (fun _ mem ↦ mem) hull hull)

/-- Every number of levels makes an evaluator that finds narrower bounds with the new domain. -/
theorem tightens (avoids : ∀ e, P e → ctx.Avoids (·.seesDomains = true) e)
    (ends : ∀ e, P e → ∀ name f args, ctx.model.form e = .call name (some f) args →
      ctx.registry.binds f = true → name ≠ "lb" ∧ name ≠ "ub") (n : Nat) :
    (Evaluator.ofLevels ctx n).Tightens (Evaluator.ofLevels ctx' n) P (ctx.NamedIn P) := by
  have values (n : Nat) := (h.resembles closed).ofLevels avoids n
  have domains (n : Nat) (v : VarKey) (named : ctx.NamedIn P v) :
      Aligned Interval.Covers
        ((Evaluator.ofLevels ctx n).boundsOfDomain
          ((Evaluator.ofLevels ctx n).model.variableAt v).domain)
        ((Evaluator.ofLevels ctx' n).boundsOfDomain
          ((Evaluator.ofLevels ctx' n).model.variableAt v).domain) := by
    rw [Evaluator.toContext_ofLevels, Evaluator.toContext_ofLevels]
    exact h.domains closed avoids n named
  induction n with
  | zero =>
    exact { values 0 with
      steady := steady_eval_ofLevels 0
      domains := domains 0
      bounds := fun e _ u u' a b t t' _ run ↦ nomatch run }
  | succ n ih =>
    refine { values (n + 1) with
      steady := steady_eval_ofLevels (n + 1)
      domains := domains (n + 1)
      bounds := fun e he ↦ ih.boundsStep he fun name f args form bound ↦ ?_ }
    rw [Evaluator.toContext_ofLevels] at form bound
    exact ends e he name f args form bound

end Context.NarrowsDomain

/-- The model with another domain for a variable. -/
def Model.withDomain (m : Model) (x : VarKey) (d : ExprKey) : Model :=
  { m with declared := m.declared.modify x.index fun v ↦ { v with domain := some d } }

/-- With another domain, a variable has the rest of its declaration. -/
theorem Model.variableAt_withDomain (m : Model) {x : VarKey} {d : ExprKey} (v : VarKey)
    (declared : x.index < m.declared.size) : (m.withDomain x d).variableAt v =
      if v = x then { m.variableAt x with domain := some d } else m.variableAt v := by
  change (m.declared.modify x.index _)[v.index]?.getD default = _
  rw [Array.getElem?_modify, variableAt]
  by_cases eq : v = x
  · subst eq
    rw [if_pos rfl, if_pos rfl, Array.getElem?_eq_getElem declared]
    rfl
  · have other : x.index ≠ v.index := by
      intro same
      cases x
      cases v
      exact eq (congrArg VarKey.mk same.symm)
    rw [if_neg other, if_neg eq]
    rfl

/-- To narrow a domain is to replace it in the declaration. -/
theorem Context.narrowsDomain_withDomain {ctx : Context} {P : ExprKey → Prop} {x : VarKey}
    {d d' : ExprKey} {s s' : IntegerSet} (domain : (ctx.model.variableAt x).domain = some d)
    (writes : ctx.model.WritesOut d s) (writes' : ctx.model.WritesOut d' s')
    (inhabited : s'.isEmpty = false) (subset : ∀ i ∈ s', i ∈ s) :
    ctx.NarrowsDomain ⟨ctx.model.withDomain x d', ctx.registry⟩ P x d d' s s' where
  registry := rfl
  node _ _ := rfl
  declared := Array.size_modify
  others v ne := by
    rw [Model.variableAt_withDomain _ v (Model.index_lt_of_domain domain), if_neg ne]
  domain := domain
  narrowed := by
    rw [Model.variableAt_withDomain _ x (Model.index_lt_of_domain domain), if_pos rfl]
  writes := writes
  writes' := by
    cases writes' with
    | between form low high => exact .between form low high
    | members form literals => exact .members form literals
  inhabited := inhabited
  subset := subset

/-- A call of a library function that is named like one that asks for an end of the bounds is a call
of it, and sees declared domains. -/
private theorem ends_of_avoids {ctx : Context} {e : ExprKey}
    (library : Registry.ofLibrary ctx.model = .ok ctx.registry)
    (avoids : ctx.Avoids (·.seesDomains = true) e) (byName : ctx.CallsByName e) {y : ExprKey}
    (reaches : ctx.Reaches e y) {name : String} {f : FnKey} {args : List ExprKey}
    (form : ctx.model.form y = .call name (some f) args) (bound : ctx.registry.binds f = true) :
    name ≠ "lb" ∧ name ≠ "ub" := by
  obtain ⟨b, builtin⟩ := Option.isSome_iff_exists.1 bound
  have goesBy := Registry.goesBy_of_builtin? library builtin
  rw [byName y reaches name f args form bound] at goesBy
  have blind := avoids y reaches name f args b form builtin
  have other (side : Side) : name ≠ side.boundName := by
    intro eq
    rcases goesBy.bound side eq with rfl | rfl <;> exact blind rfl
  exact ⟨other .low, other .high⟩

/-- Narrowing a domain never widens bounds. Let the domain of a variable be a range or a set of
literals, and let another model be the same in all that can come up from an expression, except that
this domain is replaced by another one of these kinds, a subset that is not empty. Suppose that no
call that can come up looks for bounds or asks for a domain. If bounds of the expression are found
in both models while the same declarations are pending, then the new bounds are in order and lie
within the old ones. -/
theorem bounds_narrowed (ctx ctx' : Context)
    (library : Registry.ofLibrary ctx.model = .ok ctx.registry) (e : ExprKey) (x : VarKey)
    (d d' : ExprKey) (s s' : IntegerSet)
    (narrows : ctx.NarrowsDomain ctx' (ctx.Reaches e) x d d' s s')
    (avoids : ctx.Avoids (·.seesDomains = true) e) (byName : ctx.CallsByName e) (p : Pending)
    (r r' : Interval) (wide : FindsAt p (ctx.evaluator.bounds e) r)
    (narrow : FindsAt p (ctx'.evaluator.bounds e) r') :
    r.lo ≤ r'.lo ∧ r'.lo ≤ r'.hi ∧ r'.hi ≤ r.hi := by
  have inside (y : ExprKey) (reaches : ctx.Reaches e y) : ctx.Avoids (·.seesDomains = true) y :=
    (closed_avoids ctx _).reaches avoids reaches
  have tightens := narrows.tightens (closed_reaches ctx e) inside
    (fun y reaches name f args form bound ↦
      ends_of_avoids library avoids byName reaches form bound) (max ctx.levels ctx'.levels)
  rw [ofLevels_eq_evaluator (Nat.le_max_left ..), ofLevels_eq_evaluator (Nat.le_max_right ..)]
    at tightens
  obtain ⟨u, t, pending, run⟩ := wide
  obtain ⟨u', t', pending', run'⟩ := narrow
  obtain ⟨⟨lo, ordered, hi⟩, -⟩ :=
    tightens.bounds e .refl u u' r r' t t' (pending.trans pending'.symm) run run'
  exact ⟨lo, ordered, hi⟩

/-! ### The square of a variable -/

/-- The model of the square of a variable between 1 and 6, and of the range from 2 to 4. -/
def squareOfBounded : Model :=
  let build : Build Unit := do
    Library.declareAll
    let domain ← Build.literalRange .one (.ofByte 6)
    let _ ← Build.literalRange (.ofByte 2) (.ofByte 4)
    let x ← Build.name <| ← Build.addVariable
      { name := "x", span := .nowhere, ty := .int .var, domain := some domain, indexSets := [],
        definition := none }
    let _ ← Build.binary (.arith .mul) x x
  (build.run .empty).2

/-- The model with the standard library. -/
def squareContext : Context where
  model := squareOfBounded
  registry := ((Registry.ofLibrary squareOfBounded).toOption).getD .empty

/-- The model with the standard library, after the variable is narrowed to values from 2 to 4. -/
def narrowedContext : Context := ⟨squareContext.model.withDomain ⟨0⟩ ⟨5⟩, squareContext.registry⟩

/-- The bounds of the square narrow from 1 and 36 to 4 and 16. -/
theorem bounds_of_square_narrowed :
    let two : Integer := .ofByte 2
    let four : Integer := .ofByte 4
    let six : Integer := .ofByte 6
    let wide : Interval := ⟨.one, .ofByte 36⟩
    let narrow : Interval := ⟨four, .ofByte 16⟩
    Registry.ofLibrary squareContext.model = .ok squareContext.registry ∧
    squareContext.NarrowsDomain narrowedContext (squareContext.Reaches ⟨7⟩) ⟨0⟩ ⟨2⟩ ⟨5⟩
      (.range .one six) (.range two four) ∧
    squareContext.Avoids (·.seesDomains = true) ⟨7⟩ ∧ squareContext.CallsByName ⟨7⟩ ∧
    FindsAt (.empty none) (squareContext.evaluator.bounds ⟨7⟩) wide ∧
    FindsAt (.empty none) (narrowedContext.evaluator.bounds ⟨7⟩) narrow ∧
    wide.lo ≤ narrow.lo ∧ narrow.lo ≤ narrow.hi ∧ narrow.hi ≤ wide.hi := by
  intro two four six wide narrow
  have library : Registry.ofLibrary squareContext.model = .ok squareContext.registry := by
    decide +kernel
  have literals : squareContext.model.form ⟨0⟩ = .int .one ∧
      squareContext.model.form ⟨1⟩ = .int six ∧ squareContext.model.form ⟨2⟩ = .between ⟨0⟩ ⟨1⟩ ∧
      squareContext.model.form ⟨3⟩ = .int two ∧ squareContext.model.form ⟨4⟩ = .int four ∧
      squareContext.model.form ⟨5⟩ = .between ⟨3⟩ ⟨4⟩ ∧
      (squareContext.model.variableAt ⟨0⟩).domain = some ⟨2⟩ := by
    decide +kernel
  obtain ⟨low, high, range, low', high', range', domain⟩ := literals
  have narrows : squareContext.NarrowsDomain narrowedContext (squareContext.Reaches ⟨7⟩) ⟨0⟩ ⟨2⟩ ⟨5⟩
      (.range .one six) (.range two four) := by
    have writes : squareContext.model.WritesOut ⟨2⟩ (.range .one six) := .between range low high
    have writes' : squareContext.model.WritesOut ⟨5⟩ (.range two four) :=
      .between range' low' high'
    have subset : ∀ i ∈ IntegerSet.range two four, i ∈ IntegerSet.range .one six := by
      intro i mem
      rw [IntegerSet.mem_range] at mem ⊢
      exact ⟨Int.le_trans (by decide) mem.1, Int.le_trans mem.2 (by decide)⟩
    exact Context.narrowsDomain_withDomain domain writes writes' (by decide) subset
  have uncalled := squareContext.model.form_ne_call (by decide +kernel)
  have avoids : squareContext.Avoids (·.seesDomains = true) ⟨7⟩ :=
    fun y _ name f args _ form ↦ (uncalled y name f args form).elim
  have byName : squareContext.CallsByName ⟨7⟩ :=
    fun y _ name f args form ↦ (uncalled y name f args form).elim
  have found : FindsAt (.empty none) (squareContext.evaluator.bounds ⟨7⟩) wide :=
    ⟨.fresh none, .fresh none, rfl, by decide +kernel⟩
  have found' : FindsAt (.empty none) (narrowedContext.evaluator.bounds ⟨7⟩) narrow :=
    ⟨.fresh none, .fresh none, rfl, by decide +kernel⟩
  have within := bounds_narrowed squareContext narrowedContext library ⟨7⟩ ⟨0⟩ ⟨2⟩ ⟨5⟩ _ _ narrows
    avoids byName _ _ _ found found'
  exact ⟨library, narrows, avoids, byName, found, found', within⟩

end ConstraintEval
