import ConstraintEval.Proofs.Semantics.Determinism
import Mathlib.Logic.Relation

/-!
# What an expression can come to

Working out an expression comes to its operands and, at a name, to the definition and the domain
of the variable. The index sets of an array come up only where a call asks for one of them.
Elements of arrays are operands of the literals that they come from, so a property that holds of
all of these holds of everything that can come up.
-/

namespace ConstraintEval

open Relation

/-- The definition and the domain that the declaration of a variable gives. -/
def Model.mentionedBy (m : Model) (v : VarKey) : List ExprKey :=
  (m.variableAt v).definition.toList ++ (m.variableAt v).domain.toList

/-- The index sets that are declared for the array that an expression names. -/
def Model.indexSetsOf (m : Model) (e : ExprKey) : List ExprKey :=
  match m.form e with
  | .name _ (some v) => (m.variableAt v).indexSets.filterMap id
  | _ => []

/-- The expressions that a call of a builtin mentions: its arguments, and for an index set those
that are declared for them. -/
def Model.mentionedByCall (m : Model) (args : List ExprKey) : Builtin → List ExprKey
  | .indexSet _ => args ++ args.flatMap m.indexSetsOf
  | _ => args

/-- The expressions that an expression or the declaration that it names mentions. -/
def Context.mentioned (ctx : Context) (e : ExprKey) : List ExprKey :=
  match ctx.model.form e with
  | .name _ (some v) => ctx.model.mentionedBy v
  | .call _ (some f) args =>
    match ctx.registry.builtin? f with
    | some b => ctx.model.mentionedByCall args b
    | none => args
  | form => form.operands

/-- One expression can come up while another is worked out. -/
def Context.Reaches (ctx : Context) : ExprKey → ExprKey → Prop :=
  ReflTransGen fun e x ↦ x ∈ ctx.mentioned e

/-- No call of some builtins can come up while an expression is worked out. -/
def Context.Avoids (ctx : Context) (B : Builtin → Prop) (e : ExprKey) : Prop :=
  ∀ x, ctx.Reaches e x → ∀ name f args b,
    ctx.model.form x = .call name (some f) args → ctx.registry.builtin? f = some b → ¬ B b

/-- A property of expressions that passes to what they mention. -/
def Context.Closed (ctx : Context) (P : ExprKey → Prop) : Prop :=
  ∀ e x, P e → x ∈ ctx.mentioned e → P x

variable {ctx : Context} {ρ : Assignment} {P : ExprKey → Prop}

theorem closed_avoids (ctx : Context) (B : Builtin → Prop) : ctx.Closed (ctx.Avoids B) := by
  intro e x avoids mentioned y reaches
  exact avoids y (.head mentioned reaches)

theorem Model.mem_mentionedByCall {m : Model} {args : List ExprKey} {x : ExprKey} (b : Builtin)
    (h : x ∈ args) : x ∈ m.mentionedByCall args b := by
  cases b with
  | indexSet k => exact List.mem_append_left _ h
  | _ => exact h

theorem Model.mem_mentionedByCall_indexSet {m : Model} {args : List ExprKey} {arg set : ExprKey}
    (k : Nat) (harg : arg ∈ args) (hset : set ∈ m.indexSetsOf arg) :
    set ∈ m.mentionedByCall args (.indexSet k) := by
  apply List.mem_append_right
  exact List.mem_flatMap.2 ⟨arg, harg, hset⟩

/-- The declared entry of a dimension is among the index sets of the array. -/
theorem Model.mem_indexSetsOf {m : Model} {e set : ExprKey} {name : String} {v : VarKey} {k : Nat}
    (form : m.form e = .name name (some v))
    (entry : Evaluator.entryOfDimension? (m.variableAt v).indexSets k = some (some set)) :
    set ∈ m.indexSetsOf e := by
  have mem : some set ∈ (m.variableAt v).indexSets := by
    cases k with
    | zero => cases entry
    | succ k => exact List.mem_of_getElem? entry
  rw [Model.indexSetsOf, form]
  simpa using mem

/-- A property holds of the elements of a value, where it is an array. -/
def Value.ElementsIn (P : ExprKey → Prop) : Value → Prop
  | .array a => ∀ x ∈ a.elements, P x
  | _ => True

/-- A property holds of the expression at the end of a chain, or of the declared domain where the
chain ends without a definition. -/
def ChainEnd.In (ctx : Context) (P : ExprKey → Prop) : ChainEnd → Prop
  | .expression x => P x
  | .undefined v => ∀ d, (ctx.model.variableAt v).domain = some d → P d

theorem mem_elements_of_select {a : LazyArray} {is : List Integer} {x : ExprKey}
    (h : a.select is = .ok x) : x ∈ a.elements := by
  unfold LazyArray.select at h
  split at h
  · cases h
    exact List.get_mem ..
  · cases h

theorem elements_of_rearrange? {a b : LazyArray} {ranges : List Interval}
    (h : a.rearrange? ranges = some b) : b.elements = a.elements := by
  unfold LazyArray.rearrange? at h
  split at h
  · cases h
    rfl
  · cases h

theorem elements_of_ofLiteral {literal : ArrayLiteral} {ty : Ty} {a : LazyArray}
    (h : LazyArray.ofLiteral literal ty = .ok a) : a.elements = literal.elements := by
  unfold LazyArray.ofLiteral at h
  split at h
  · cases h
    rfl
  · cases h

/-- Judgements of one kind are about the expressions that they are made from. -/
theorem fst_mem_of_mem_parts {α : Type} {kind : α → Value} {xs : List ExprKey} {as : List α}
    {p : Judgement} (h : p ∈ parts kind xs as) : p.1 ∈ xs := by
  induction xs generalizing as with
  | nil => cases h
  | cons x xs ih =>
    cases as with
    | nil => cases h
    | cons a as =>
      rcases List.mem_cons.1 h with rfl | h
      · exact List.mem_cons_self
      · exact List.mem_cons_of_mem x (ih h)

private theorem elementsIn_of_orOverflow {operation : String} {r : Option Integer} {v : Value}
    (h : orOverflow operation r = .ok v) : v.ElementsIn P := by
  cases r with
  | none => cases h
  | some i =>
    cases h
    trivial

private theorem elementsIn_of_equality? {r : Option Bool} {f : Failure} {v : Value}
    (h : (r.map fun b ↦ Except.ok (Value.bool b)).getD (.error f) = .ok v) : v.ElementsIn P := by
  cases r with
  | none => cases h
  | some b =>
    cases h
    trivial

/-- No operator gives an array. -/
theorem BinaryOp.elementsIn_of_apply {op : BinaryOp} {a b v : Value} (h : op.apply a b = .ok v) :
    v.ElementsIn P := by
  unfold BinaryOp.apply at h
  split at h
  · next op i j =>
    cases op with
    | div | mod =>
      simp only [ArithOp.apply] at h
      split at h
      · cases h
      · exact elementsIn_of_orOverflow h
    | _ => exact elementsIn_of_orOverflow h
  · cases h
    trivial
  · exact elementsIn_of_equality? h
  · exact elementsIn_of_equality? h
  · cases h
    trivial
  · cases h
    trivial
  · cases h
    trivial
  · cases h

theorem BinaryOp.elementsIn_of_decided? {op : BinaryOp} {a v : Value} (h : op.decided? a = some v) :
    v.ElementsIn P := by
  unfold BinaryOp.decided? at h
  split at h <;> cases h <;> trivial

theorem UnaryOp.elementsIn_of_apply {op : UnaryOp} {a v : Value} (h : op.apply a = .ok v) :
    v.ElementsIn P := by
  unfold UnaryOp.apply at h
  split at h
  · exact elementsIn_of_orOverflow h
  · cases h
    trivial
  · cases h
  · cases h

namespace Context.Closed

variable (closed : ctx.Closed P)

include closed

theorem operand {e x : ExprKey} (he : P e) (hx : x ∈ (ctx.model.form e).operands) : P x := by
  apply closed e x he
  unfold Context.mentioned
  split
  · next h =>
    rw [h] at hx
    cases hx
  · next name f args h =>
    rw [h] at hx
    split
    · exact Model.mem_mentionedByCall _ hx
    · exact hx
  · exact hx

/-- What a call of a builtin mentions has the properties of the call. -/
theorem call {e : ExprKey} {name : String} {f : FnKey} {args : List ExprKey} {b : Builtin}
    (he : P e) (form : ctx.model.form e = .call name (some f) args)
    (bound : ctx.registry.builtin? f = some b) :
    ∀ x ∈ ctx.model.mentionedByCall args b, P x := by
  intro x hx
  apply closed e x he
  simp only [Context.mentioned, form, bound]
  exact hx

theorem declaration {e : ExprKey} {name : String} {v : VarKey} (he : P e)
    (form : ctx.model.form e = .name name (some v)) : ∀ x ∈ ctx.model.mentionedBy v, P x := by
  intro x hx
  apply closed e x he
  rw [Context.mentioned, form]
  exact hx

theorem definition {e d : ExprKey} {name : String} {v : VarKey} (he : P e)
    (form : ctx.model.form e = .name name (some v))
    (defined : (ctx.model.variableAt v).definition = some d) : P d := by
  apply closed.declaration he form
  simp [Model.mentionedBy, defined]

theorem domain {e d : ExprKey} {name : String} {v : VarKey} (he : P e)
    (form : ctx.model.form e = .name name (some v))
    (domain : (ctx.model.variableAt v).domain = some d) : P d := by
  apply closed.declaration he form
  simp [Model.mentionedBy, domain]

/-- The end of a chain of names has the properties of its start. -/
theorem chainEnd {e : ExprKey} {c : ChainEnd} (he : P e) (leads : Leads ctx e c) :
    c.In ctx P := by
  induction leads with
  | expression form => exact he
  | undefined form _ => exact fun d h ↦ closed.domain he form h
  | definition form defined _ ih => exact ih (closed.definition he form defined)

/-- The elements of an array that an expression evaluates to have the properties of the
expression. -/
theorem elements (given : ∀ x v, ρ.value x = some v → v.ElementsIn P)
    (cells : ∀ x v, ρ.cell x = some v → v.ElementsIn P) {e : ExprKey} {v : Value}
    (h : Evaluates ctx ρ e v) (he : P e) : v.ElementsIn P := by
  induction h with
  | assigned _ _ value => exact given _ _ value
  | cell _ value => exact cells _ _ value
  | @of_rule e v premises rule sub ih =>
    cases rule with
    | @definition _ d _ _ _ form defined =>
      exact ih (d, v) (by simp) (closed.definition he form defined)
    | array form fits =>
      intro x hx
      rw [elements_of_ofLiteral fits] at hx
      exact closed.operand he (by simpa [form, Form.operands] using hx)
    | @element _ source x _ a _ _ form length selected =>
      have hsource : P source := closed.operand he (by simp [form, Form.operands])
      have array := ih (source, .array a) (by simp) hsource
      exact ih (x, v) (by simp) (array x (mem_elements_of_select selected))
    | @call _ _ _ args _ _ _ form bound applies =>
      cases applies with
      | @rearrange _ _ _ flat a _ _ _ split length intervals fits =>
        have mem : flat ∈ args := by
          rw [List.splitAt_eq, Prod.mk.injEq] at split
          exact List.mem_of_mem_drop (split.2 ▸ List.mem_singleton_self flat)
        have hflat : P flat := closed.operand he (by simpa [form, Form.operands] using mem)
        have array := ih (flat, .array a) (by simp) hflat
        intro x hx
        rw [elements_of_rearrange? fits] at hx
        exact array x hx
      | _ => trivial
    | binary form strict result => exact BinaryOp.elementsIn_of_apply result
    | unary form result => exact UnaryOp.elementsIn_of_apply result
    | @yes _ _ yes _ _ form =>
      exact ih (yes, v) (by simp) (closed.operand he (by simp [form, Form.operands]))
    | @no _ _ _ no _ form =>
      exact ih (no, v) (by simp) (closed.operand he (by simp [form, Form.operands]))
    | _ => trivial

private theorem showsDomain {ps : List Judgement} {e : ExprKey} {s : IntegerSet} (he : P e)
    (h : ShowsDomain ctx ps e s) : ∀ p ∈ ps, P p.1 := by
  cases h with
  | literal => simp
  | declared chain domain =>
    have inEnd := closed.chainEnd he chain
    simpa using inEnd _ domain

private theorem showDomains {ps : List Judgement} {xs : List ExprKey} {ss : List IntegerSet}
    (hxs : ∀ x ∈ xs, P x) (h : ShowDomains ctx ps xs ss) : ∀ p ∈ ps, P p.1 := by
  induction h with
  | nil => simp
  | cons first _ ih =>
    obtain ⟨hx, hxs⟩ := List.forall_mem_cons.1 hxs
    exact List.forall_mem_append.2 ⟨closed.showsDomain hx first, ih hxs⟩

/-- What a builtin needs has the properties of what its call mentions. -/
private theorem applies (given : ∀ x v, ρ.value x = some v → v.ElementsIn P)
    (cells : ∀ x v, ρ.cell x = some v → v.ElementsIn P) {ps : List Judgement} {b : Builtin}
    {args : List ExprKey} {v : Value} (mentioned : ∀ x ∈ ctx.model.mentionedByCall args b, P x)
    (h : Applies ctx ps b args v) (holds : Hold ctx ρ ps) : ∀ p ∈ ps, P p.1 := by
  have hargs : ∀ x ∈ args, P x := fun x hx ↦ mentioned x (Model.mem_mentionedByCall b hx)
  have elements {x : ExprKey} {a : LazyArray} (hx : P x) (array : Evaluates ctx ρ x (.array a)) :
      ∀ y ∈ a.elements, P y := closed.elements given cells array hx
  have ofMap {xs : List ExprKey} {b : Bool} (hxs : ∀ x ∈ xs, P x) :
      ∀ p ∈ xs.map fun x ↦ (x, Value.bool b), P p.1 := by
    simpa using hxs
  cases h with
  | extremum =>
    have harg := hargs _ (List.mem_singleton_self _)
    have harray := elements harg (hold_cons.1 holds).1
    exact List.forall_mem_cons.2 ⟨harg, fun p hp ↦ harray p.1 (fst_mem_of_mem_parts hp)⟩
  | sum =>
    have harg := hargs _ (List.mem_singleton_self _)
    have harray := elements harg (hold_cons.1 holds).1
    exact List.forall_mem_cons.2 ⟨harg, fun p hp ↦ harray p.1 (fst_mem_of_mem_parts hp)⟩
  | allTrue =>
    have harg := hargs _ (List.mem_singleton_self _)
    exact List.forall_mem_cons.2 ⟨harg, ofMap (elements harg (hold_cons.1 holds).1)⟩
  | allFalse =>
    have harg := hargs _ (List.mem_singleton_self _)
    exact List.forall_mem_cons.2 ⟨harg, ofMap (elements harg (hold_cons.1 holds).1)⟩
  | someFalse split =>
    have harg := hargs _ (List.mem_singleton_self _)
    have harray := elements harg (hold_cons.1 holds).1
    rw [split] at harray
    obtain ⟨before, after⟩ := List.forall_mem_append.1 harray
    exact List.forall_mem_cons.2
      ⟨harg, List.forall_mem_cons.2 ⟨after _ List.mem_cons_self, ofMap before⟩⟩
  | someTrue split =>
    have harg := hargs _ (List.mem_singleton_self _)
    have harray := elements harg (hold_cons.1 holds).1
    rw [split] at harray
    obtain ⟨before, after⟩ := List.forall_mem_append.1 harray
    exact List.forall_mem_cons.2
      ⟨harg, List.forall_mem_cons.2 ⟨after _ List.mem_cons_self, ofMap before⟩⟩
  | upperSetDeclared chain domain =>
    have inEnd := closed.chainEnd (hargs _ (List.mem_singleton_self _)) chain
    simpa using inEnd _ domain
  | upperSetWritten chain =>
    have inEnd := closed.chainEnd (hargs _ (List.mem_singleton_self _)) chain
    exact List.forall_mem_singleton.2 inEnd
  | domain shows => exact closed.showsDomain (hargs _ (List.mem_singleton_self _)) shows
  | domainOfElements chain _ shows =>
    have inEnd := closed.chainEnd (hargs _ (List.mem_singleton_self _)) chain
    have harray := elements inEnd (hold_cons.1 holds).1
    exact List.forall_mem_cons.2 ⟨inEnd, closed.showDomains harray shows⟩
  | indexSetDeclared form entry =>
    have mem := Model.mem_indexSetsOf form entry
    have hset := mentioned _
      (Model.mem_mentionedByCall_indexSet _ (List.mem_singleton_self _) mem)
    simpa using hset
  | @rearrange n _ _ flat _ _ _ _ split =>
    rw [List.splitAt_eq, Prod.mk.injEq] at split
    have mem : flat ∈ args.drop n := by
      rw [split.2]
      exact List.mem_singleton_self flat
    refine List.forall_mem_cons.2 ⟨hargs flat (List.mem_of_mem_drop mem), ?_⟩
    intro p hp
    have mem := fst_mem_of_mem_parts hp
    rw [← split.1] at mem
    exact hargs p.1 (List.mem_of_mem_take mem)
  | _ => simpa using hargs

/-- The premises of a rule have the properties of the expression. -/
theorem premises (given : ∀ x v, ρ.value x = some v → v.ElementsIn P)
    (cells : ∀ x v, ρ.cell x = some v → v.ElementsIn P) {ps : List Judgement} {e : ExprKey}
    {v : Value} (he : P e) (h : Rule ctx ps e v) (holds : Hold ctx ρ ps) : ∀ p ∈ ps, P p.1 := by
  have operand {x : ExprKey} : x ∈ (ctx.model.form e).operands → P x := closed.operand he
  cases h with
  | set form length =>
    intro p hp
    apply operand
    rw [form]
    exact fst_mem_of_mem_parts hp
  | definition form defined => simpa using closed.definition he form defined
  | element form length selected =>
    rw [form] at operand
    have hsource := operand List.mem_cons_self
    have harray := closed.elements given cells (hold_cons.1 holds).1 hsource
    refine List.forall_mem_cons.2 ⟨hsource, List.forall_mem_cons.2 ⟨?_, ?_⟩⟩
    · exact harray _ (mem_elements_of_select selected)
    · intro p hp
      exact operand (List.mem_cons_of_mem _ (fst_mem_of_mem_parts hp))
  | call form bound h => exact closed.applies given cells (closed.call he form bound) h holds
  | _ => simp_all [Form.operands]

end Context.Closed

end ConstraintEval
