import ConstraintEval.Proofs.Binding
import ConstraintEval.Proofs.Bounds.Arithmetic
import ConstraintEval.Proofs.Bounds.Offers
import ConstraintEval.Proofs.Evaluation.Termination
import ConstraintEval.Proofs.Logic.Replay

/-!
# Bounds hold all values

An assignment gives values to the variables without a definition. If it keeps to the declared
domains, the value of an expression under it lies within the bounds that are found for the
expression, whatever is pending when they are looked for. The steps of one level are shown for an
evaluator whose bounds hold all values; levels then follow by induction.
-/

namespace ConstraintEval

variable {ctx : Context} {ρ : Assignment}

/-- A value is that of a variable under an assignment: what its definition evaluates to, or else
what the assignment gives it. -/
def Context.HasValue (ctx : Context) (ρ : Assignment) (x : VarKey) (v : Value) : Prop :=
  match (ctx.model.variableAt x).definition with
  | some d => Evaluates ctx ρ d v
  | none => ρ.value x = some v

/-- A value lies in a set: an integer as a member, an array with the values of all elements. -/
def Context.LiesIn (ctx : Context) (ρ : Assignment) (s : IntegerSet) : Value → Prop
  | .int i => i ∈ s
  | .array a => ∀ x ∈ a.elements, ∀ i, Evaluates ctx ρ x (.int i) → i ∈ s
  | .bool _ | .set _ => True

/-- An assignment keeps to the declared domains: the value of every variable lies in its domain,
where the domain evaluates. -/
def Context.KeepsDomains (ctx : Context) (ρ : Assignment) : Prop :=
  ∀ x d s t v, (ctx.model.variableAt x).domain = some d →
    ctx.evaluator.eval d (.fresh none) = some (.ok (.set s), t) → ctx.HasValue ρ x v →
      ctx.LiesIn ρ s v

/-- Every call of a bound overload that can come up carries the name of the overload. -/
def Context.CallsByName (ctx : Context) (e : ExprKey) : Prop :=
  ∀ x, ctx.Reaches e x → ∀ name f args, ctx.model.form x = .call name (some f) args →
    ctx.registry.binds f = true → (ctx.model.overloadAt f).name = name

/-- The bounds of an expression are found by the rules for its parts alone. -/
def Context.Analysable (ctx : Context) (e : ExprKey) : Prop := ctx.Boundless e ∧ ctx.CallsByName e

theorem closed_analysable (ctx : Context) : ctx.Closed ctx.Analysable := by
  intro e x he mentioned
  refine ⟨closed_avoids ctx _ e x he.1 mentioned, ?_⟩
  intro y reaches
  exact he.2 y (.head mentioned reaches)

/-- The value of a name is that of its variable. -/
theorem Evaluates.hasValue {e : ExprKey} {name : String} {x : VarKey} {v : Value}
    (h : Evaluates ctx ρ e v) (form : ctx.model.form e = .name name (some x)) :
    ctx.HasValue ρ x v := by
  unfold Context.HasValue
  cases h with
  | of_rule rule sub =>
    cases rule with
    | definition form' defined =>
      rw [form] at form'
      cases form'
      rw [defined]
      exact sub (_, v) (by simp)
    | _ => simp_all
  | assigned form' undefined given =>
    rw [form] at form'
    cases form'
    rw [undefined]
    exact given
  | cell cell given =>
    rw [Model.form_of_size_le cell] at form
    cases form

/-- The value of an expression that is not a name comes from a rule. -/
theorem Evaluates.exists_rule {e : ExprKey} {v : Value} (h : Evaluates ctx ρ e v)
    (unnamed : ∀ name resolved, ctx.model.form e ≠ .name name resolved) :
    ∃ ps, Rule ctx ps e v ∧ Hold ctx ρ ps := by
  cases h with
  | of_rule rule sub => exact ⟨_, rule, sub⟩
  | assigned form _ _ => exact (unnamed _ _ form).elim
  | cell cell _ => exact (unnamed _ _ (Model.form_of_size_le cell)).elim

section Inversion

variable {e : ExprKey} {v : Integer}

private theorem Evaluates.arith {op : ArithOp} {left right : ExprKey}
    (h : Evaluates ctx ρ e (.int v)) (form : ctx.model.form e = .binary (.arith op) left right) :
    ∃ i j, Evaluates ctx ρ left (.int i) ∧ Evaluates ctx ρ right (.int j) ∧
      op.apply i j = .ok (.int v) := by
  obtain ⟨ps, rule, holds⟩ := h.exists_rule (by simp [form])
  cases rule with
  | binary form' _ result =>
    rw [form] at form'
    cases form'
    obtain ⟨first, second⟩ := hold_cons.1 holds
    obtain ⟨second, -⟩ := hold_cons.1 second
    unfold BinaryOp.apply at result
    split at result
    · next i j same _ =>
      cases same
      exact ⟨i, j, first, second, result⟩
    all_goals simp_all
  | _ => simp_all

private theorem Evaluates.neg {operand : ExprKey} (h : Evaluates ctx ρ e (.int v))
    (form : ctx.model.form e = .unary .neg operand) :
    ∃ i, Evaluates ctx ρ operand (.int i) ∧ i.neg? = some v := by
  obtain ⟨ps, rule, holds⟩ := h.exists_rule (by simp [form])
  cases rule with
  | @unary _ _ _ a _ form' result =>
    rw [form] at form'
    cases form'
    obtain ⟨value, -⟩ := hold_cons.1 holds
    cases a with
    | int i =>
      change orOverflow "negation" i.neg? = _ at result
      refine ⟨i, value, ?_⟩
      cases negated : i.neg? with
      | none =>
        rw [negated] at result
        cases result
      | some j =>
        rw [negated] at result
        cases result
        rfl
    | _ => cases result
  | _ => simp_all

private theorem Evaluates.choice {cond yes no : ExprKey} (h : Evaluates ctx ρ e (.int v))
    (form : ctx.model.form e = .choice cond yes no) :
    Evaluates ctx ρ yes (.int v) ∨ Evaluates ctx ρ no (.int v) := by
  obtain ⟨ps, rule, holds⟩ := h.exists_rule (by simp [form])
  cases rule <;> simp_all

private theorem Evaluates.element {source : ExprKey} {indices : List ExprKey}
    (h : Evaluates ctx ρ e (.int v)) (form : ctx.model.form e = .element source indices) :
    ∃ a x, Evaluates ctx ρ source (.array a) ∧ x ∈ a.elements ∧ Evaluates ctx ρ x (.int v) := by
  obtain ⟨ps, rule, holds⟩ := h.exists_rule (by simp [form])
  cases rule with
  | element form' length selected =>
    rw [form] at form'
    cases form'
    obtain ⟨array, rest⟩ := hold_cons.1 holds
    exact ⟨_, _, array, mem_elements_of_select selected, (hold_cons.1 rest).1⟩
  | _ => simp_all

private theorem Evaluates.call {name : String} {f : FnKey} {args : List ExprKey}
    (h : Evaluates ctx ρ e (.int v)) (form : ctx.model.form e = .call name (some f) args) :
    ∃ b ps, ctx.registry.builtin? f = some b ∧ Applies ctx ps b args (.int v) ∧
      Hold ctx ρ ps := by
  obtain ⟨ps, rule, holds⟩ := h.exists_rule (by simp [form])
  cases rule with
  | call form' bound applies =>
    rw [form] at form'
    cases form'
    exact ⟨_, ps, bound, applies, holds⟩
  | _ => simp_all

end Inversion

namespace Evaluator

/-- The bounds that an evaluator finds hold every value under an assignment. -/
def Bounding (ev : Evaluator) (ρ : Assignment) : Prop :=
  ∀ e r v, ev.Analysable e → Offers (ev.bounds e) r → Evaluates ev.toContext ρ e (.int v) → v ∈ r

/-- The value of every variable lies in each set that the evaluator gives for its domain. -/
def Keeping (ev : Evaluator) (ρ : Assignment) : Prop :=
  ∀ x d s v, (ev.model.variableAt x).domain = some d → ev.Boundless d →
    Gives (ev.eval d) (.set s) → ev.HasValue ρ x v → ev.LiesIn ρ s v

variable {ev : Evaluator} (right : ev.Right) (bounding : ev.Bounding ρ) (keeps : ev.Keeping ρ)

private theorem exists_of_boundsOfSet {d : ExprKey} {r : Interval}
    (h : Offers (ev.boundsOfSet d) r) : ∃ s, Gives (ev.eval d) (.set s) ∧ s.hull? = some r := by
  obtain ⟨s, hs, h⟩ := h.of_bind
  exact ⟨s, hs.of_bounds.of_setOf, h.of_ofOption⟩

include keeps in
/-- The bounds of a declared domain hold the value of the variable, or of each element of it. -/
private theorem exists_of_boundsOfDomain {x : VarKey} {r : Interval} {v : Value}
    (analysable : ∀ d, (ev.model.variableAt x).domain = some d → ev.Analysable d)
    (h : Offers (ev.boundsOfDomain (ev.model.variableAt x).domain) r) (value : ev.HasValue ρ x v) :
    ∃ s, s.hull? = some r ∧ ev.LiesIn ρ s v := by
  unfold boundsOfDomain at h
  split at h
  · next d domain =>
    obtain ⟨s, hs, hull⟩ := exists_of_boundsOfSet h
    exact ⟨s, hull, keeps x d s v domain (analysable d domain).1 hs value⟩
  · exact h.not_failure.elim

include bounding keeps in
theorem mem_of_boundsOfEntered {x : VarKey} {span : Span} {r : Interval} {v : Integer}
    (parts : ∀ d ∈ ev.model.mentionedBy x, ev.Analysable d)
    (h : Offers (ev.boundsOfEntered x span) r) (value : ev.HasValue ρ x (.int v)) : v ∈ r := by
  obtain ⟨-, -, h⟩ := h.of_bind
  rcases h.of_orElse with h | h
  · obtain ⟨s, hull, lies⟩ := exists_of_boundsOfDomain keeps
      (fun d domain ↦ parts d (by simp [Model.mentionedBy, domain])) h value
    exact IntegerSet.mem_hull? hull lies
  · split at h
    · next d defined =>
      unfold Context.HasValue at value
      rw [defined] at value
      exact bounding d r v (parts d (by simp [Model.mentionedBy, defined])) h value
    · exact h.not_failure.elim

include right in
private theorem exists_of_boundsOfElements {array : ExprKey} {rs : List Interval} {a : LazyArray}
    (analysable : ev.Analysable array) (h : Offers (ev.boundsOfElements array) rs)
    (value : Evaluates ev.toContext ρ array (.array a)) :
    List.Forall₂ (fun x r ↦ Offers (ev.bounds x) r) a.elements rs ∧
      ∀ x ∈ a.elements, ev.Analysable x := by
  obtain ⟨a', ha, h⟩ := h.of_bind
  have found := right array _ analysable.1 ha.of_bounds.of_arrayOf
  obtain rfl := Value.array.inj (found.of_none.unique value)
  refine ⟨h.of_mapM, ?_⟩
  exact (closed_analysable ev.toContext).elements (ρ := .none) (fun _ _ h ↦ nomatch h)
    (fun _ _ h ↦ nomatch h) found analysable

include bounding in
/-- Values of the elements of an array lie within their bounds, one by one. -/
private theorem forall₂_mem {xs : List ExprKey} {is : List Integer} {rs : List Interval}
    (analysable : ∀ x ∈ xs, ev.Analysable x)
    (bounds : List.Forall₂ (fun x r ↦ Offers (ev.bounds x) r) xs rs)
    (values : List.Forall₂ (fun x i ↦ Evaluates ev.toContext ρ x (.int i)) xs is) :
    List.Forall₂ (· ∈ ·) is rs := by
  induction bounds generalizing is with
  | nil =>
    cases values
    exact .nil
  | cons head _ ih =>
    obtain ⟨hx, hxs⟩ := List.forall_mem_cons.1 analysable
    cases values with
    | cons value values => exact .cons (bounding _ _ _ hx head value) (ih hxs values)

private theorem exists_bounds {xs : List ExprKey} {rs : List Interval} {x : ExprKey}
    (bounds : List.Forall₂ (fun x r ↦ Offers (ev.bounds x) r) xs rs) (hx : x ∈ xs) :
    ∃ r ∈ rs, Offers (ev.bounds x) r := by
  induction bounds with
  | nil => cases hx
  | cons head _ ih =>
    rcases List.mem_cons.1 hx with rfl | hx
    · exact ⟨_, List.mem_cons_self, head⟩
    · obtain ⟨r, hr, offers⟩ := ih hx
      exact ⟨r, List.mem_cons_of_mem _ hr, offers⟩

include right bounding keeps in
theorem mem_of_hullOfElements {array x : ExprKey} {a : LazyArray} {r : Interval} {v : Integer}
    (analysable : ev.Analysable array) (h : Offers (ev.hullOfElements array) r)
    (value : Evaluates ev.toContext ρ array (.array a)) (hx : x ∈ a.elements)
    (hv : Evaluates ev.toContext ρ x (.int v)) : v ∈ r := by
  rcases h.of_orElse with h | h
  · unfold namedDomain at h
    split at h
    · next name y form =>
      have domains := fun d ↦ (closed_analysable ev.toContext).domain (d := d) analysable form
      obtain ⟨s, hull, lies⟩ := exists_of_boundsOfDomain keeps domains h (value.hasValue form)
      exact IntegerSet.mem_hull? hull (lies x hx v hv)
    · exact h.not_failure.elim
  · obtain ⟨rs, hrs, h⟩ := h.of_bind
    obtain ⟨bounds, elements⟩ := exists_of_boundsOfElements right analysable hrs value
    obtain ⟨s, hs, offers⟩ := exists_bounds bounds hx
    exact Interval.mem_reduce?_hull h.of_ofOption hs (bounding x s v (elements x hx) offers hv)

/-! ### Calls -/

/-- The bounds of the extremum of the elements of an array hold it. -/
private theorem pick_mem_foldl {side : Side} {g : Interval → Interval → Interval}
    (hg : ∀ {a b r s}, a ∈ r → b ∈ s → side.pick a b ∈ g r s) {i : Integer} {is : List Integer}
    {rs : List Interval} {t : Interval} (h : Interval.reduce? g rs = some t)
    (members : List.Forall₂ (· ∈ ·) (i :: is) rs) : is.foldl side.pick i ∈ t := by
  cases members with
  | cons head tail =>
    cases h
    exact Interval.mem_foldl hg tail head

include right bounding in
private theorem mem_of_extremumOfElements {side : Side} {g : Interval → Interval → Interval}
    (hg : ∀ {a b r s}, a ∈ r → b ∈ s → side.pick a b ∈ g r s) {b : Builtin} {arg : ExprKey}
    {ps : List Judgement} {rs : List Interval} {r : Interval} {v : Integer}
    (analysable : ev.Analysable arg) (hrs : Offers (ev.boundsOfElements arg) rs)
    (reduce : Interval.reduce? g rs = some r)
    (named : b = .extremum side ∨ b = .extremumOfSet side)
    (applies : Applies ev.toContext ps b [arg] (.int v)) (holds : Hold ev.toContext ρ ps) :
    v ∈ r := by
  rcases named with rfl | rfl
  · generalize hw : Value.int v = w at applies
    cases applies with
    | extremum scalar length =>
      cases hw
      obtain ⟨array, ints⟩ := hold_cons.1 holds
      obtain ⟨bounds, elements⟩ := exists_of_boundsOfElements right analysable hrs array
      have ints := (hold_parts length).1 ints
      exact pick_mem_foldl hg reduce (forall₂_mem bounding elements bounds ints)
  · generalize hw : Value.int v = w at applies
    cases applies with
    | extremumOfSet member =>
      -- a set is no array, so there are no elements to bound
      obtain ⟨a, ha, -⟩ := hrs.of_bind
      have array := (right arg _ analysable.1 ha.of_bounds.of_arrayOf).of_none (ρ := ρ)
      have set := (hold_cons.1 holds).1
      cases array.unique set

include bounding in
private theorem mem_of_extremumOfTwo {side : Side} {g : Interval → Interval → Interval}
    (hg : ∀ {a b r s}, a ∈ r → b ∈ s → side.pick a b ∈ g r s) {b : Builtin} {x y : ExprKey}
    {ps : List Judgement} {r s : Interval} {v : Integer} (hx : ev.Analysable x)
    (hy : ev.Analysable y) (hr : Offers (ev.bounds x) r) (hs : Offers (ev.bounds y) s)
    (named : b = .extremum side ∨ b = .extremumOfSet side)
    (applies : Applies ev.toContext ps b [x, y] (.int v)) (holds : Hold ev.toContext ρ ps) :
    v ∈ g r s := by
  rcases named with rfl | rfl
  · generalize hw : Value.int v = w at applies
    cases applies with
    | extremumOfTwo =>
      cases hw
      obtain ⟨first, second⟩ := hold_cons.1 holds
      obtain ⟨second, -⟩ := hold_cons.1 second
      exact hg (bounding x r _ hx hr first) (bounding y s _ hy hs second)
  · cases applies

include right bounding in
private theorem mem_of_sum {arg : ExprKey} {ps : List Judgement} {rs : List Interval}
    {r : Interval} {v : Integer} (analysable : ev.Analysable arg)
    (hrs : Offers (ev.boundsOfElements arg) rs)
    (fold : rs.foldlM Interval.add? (.point .zero) = some r)
    (applies : Applies ev.toContext ps .sum [arg] (.int v)) (holds : Hold ev.toContext ρ ps) :
    v ∈ r := by
  generalize hw : Value.int v = w at applies
  cases applies with
  | sum length sum =>
    cases hw
    obtain ⟨array, ints⟩ := hold_cons.1 holds
    obtain ⟨bounds, elements⟩ := exists_of_boundsOfElements right analysable hrs array
    have ints := (hold_parts length).1 ints
    exact Interval.mem_foldlM_add? (forall₂_mem bounding elements bounds ints)
      (Interval.mem_point.2 rfl) fold sum

include right bounding in
/-- The bounds of a call hold its value, whichever builtin of its name it means. -/
theorem mem_of_boundsOfCall {name : String} {b : Builtin} {args : List ExprKey}
    {ps : List Judgement} {r : Interval} {v : Integer} (names : b.GoesBy name)
    (analysable : ∀ x ∈ args, ev.Analysable x) (h : Offers (ev.boundsOfCall name args) r)
    (applies : Applies ev.toContext ps b args (.int v)) (holds : Hold ev.toContext ρ ps) :
    v ∈ r := by
  have unbounded (side : Side) {x : ExprKey} (name_eq : name = side.boundName)
      (applies : Applies ev.toContext ps b [x] (.int v)) : v ∈ r := by
    rcases names.bound side name_eq with rfl | rfl <;> cases applies
  unfold boundsOfCall at h
  split at h
  · rw [Offers.of_pure h]
    obtain rfl := names.boolToInt rfl
    generalize hw : Value.int v = w at applies
    cases applies with
    | @boolToInt arg b =>
      cases hw
      cases b <;> decide
  · next x y =>
    obtain ⟨s, hs, h⟩ := h.of_bind
    obtain ⟨t, ht, h⟩ := h.of_bind
    rw [Offers.of_pure h]
    exact mem_of_extremumOfTwo bounding Interval.min_mem_minOf (analysable x (by simp))
      (analysable y (by simp)) hs ht (names.extremum .low rfl) applies holds
  · next x y =>
    obtain ⟨s, hs, h⟩ := h.of_bind
    obtain ⟨t, ht, h⟩ := h.of_bind
    rw [Offers.of_pure h]
    exact mem_of_extremumOfTwo bounding Interval.max_mem_maxOf (analysable x (by simp))
      (analysable y (by simp)) hs ht (names.extremum .high rfl) applies holds
  · next array =>
    obtain ⟨rs, hrs, h⟩ := h.of_bind
    exact mem_of_extremumOfElements right bounding Interval.min_mem_minOf
      (analysable array (by simp)) hrs h.of_ofOption (names.extremum .low rfl) applies holds
  · next array =>
    obtain ⟨rs, hrs, h⟩ := h.of_bind
    exact mem_of_extremumOfElements right bounding Interval.max_mem_maxOf
      (analysable array (by simp)) hrs h.of_ofOption (names.extremum .high rfl) applies holds
  · exact unbounded .low rfl applies
  · exact unbounded .high rfl applies
  · next array =>
    obtain ⟨rs, hrs, h⟩ := h.of_bind
    obtain rfl := names.sum rfl
    exact mem_of_sum right bounding (analysable array (by simp)) hrs h.of_ofOption applies holds
  · exact h.not_failure.elim

/-! ### Expressions -/

include right bounding keeps in
private theorem mem_of_boundsByForm (names : ∀ f b, ev.registry.builtin? f = some b →
      b.GoesBy (ev.model.overloadAt f).name) {e : ExprKey} {r : Interval} {v : Integer}
    (analysable : ev.Analysable e) (h : Offers (ev.boundsByForm e) r)
    (value : Evaluates ev.toContext ρ e (.int v)) : v ∈ r := by
  have closed := closed_analysable ev.toContext
  have operand {x : ExprKey} : x ∈ (ev.model.form e).operands → ev.Analysable x :=
    closed.operand analysable
  unfold boundsByForm at h
  split at h
  · next name x form =>
    exact mem_of_boundsOfEntered bounding keeps (closed.declaration analysable form) h
      (value.hasValue form)
  · next op left right' form =>
    obtain ⟨s, hs, h⟩ := h.of_bind
    obtain ⟨t, ht, h⟩ := h.of_bind
    obtain ⟨i, j, hi, hj, result⟩ := value.arith form
    rw [form] at operand
    have first := bounding left s i (operand (by simp [Form.operands])) hs hi
    have second := bounding right' t j (operand (by simp [Form.operands])) ht hj
    exact ArithOp.mem_bounds? h.of_ofOption first second result
  · next x form =>
    obtain ⟨s, hs, h⟩ := h.of_bind
    obtain ⟨i, hi, result⟩ := value.neg form
    rw [form] at operand
    have first := bounding x s i (operand (by simp [Form.operands])) hs hi
    exact Interval.mem_neg? h.of_ofOption first result
  · next cond yes no form =>
    obtain ⟨s, hs, h⟩ := h.of_bind
    obtain ⟨t, ht, h⟩ := h.of_bind
    rw [Offers.of_pure h]
    rw [form] at operand
    rcases value.choice form with hv | hv
    · exact Interval.mem_hull_left t
        (bounding yes s v (operand (by simp [Form.operands])) hs hv)
    · exact Interval.mem_hull_right s
        (bounding no t v (operand (by simp [Form.operands])) ht hv)
  · next array indices form =>
    obtain ⟨a, x, ha, hx, hv⟩ := value.element form
    rw [form] at operand
    exact mem_of_hullOfElements right bounding keeps (operand List.mem_cons_self) h ha hx hv
  · next name f args form =>
    split at h
    · next bound =>
      obtain ⟨b, ps, builtin, applies, holds⟩ := value.call form
      have named := analysable.2 e .refl name f args form bound
      rw [form] at operand
      exact mem_of_boundsOfCall right bounding (named ▸ names f b builtin)
        (fun x hx ↦ operand hx) h applies holds
    · exact h.not_failure.elim
  · exact h.not_failure.elim

include right in
private theorem mem_of_boundsOfKnown {e : ExprKey} {r : Interval} {v : Integer}
    (boundless : ev.Boundless e) (h : Offers (ev.boundsOfKnown e) r)
    (value : Evaluates ev.toContext ρ e (.int v)) : v ∈ r := by
  unfold boundsOfKnown at h
  simp only at h
  split at h
  · obtain ⟨i, hi, h⟩ := h.of_bind
    have found := right e _ boundless hi.of_bounds.of_intOf
    rw [Offers.of_pure h, Interval.mem_point]
    exact Value.int.inj (value.unique found.of_none)
  · exact h.not_failure.elim

include right bounding keeps in
/-- Bounds that are found from bounds that hold all values hold all values. -/
theorem mem_of_boundsStep (names : ∀ f b, ev.registry.builtin? f = some b →
      b.GoesBy (ev.model.overloadAt f).name) {e : ExprKey} {r : Interval} {v : Integer}
    (analysable : ev.Analysable e) (h : Offers (ev.boundsStep e) r)
    (value : Evaluates ev.toContext ρ e (.int v)) : v ∈ r := by
  have h := h.of_inScope
  split at h
  · next i form =>
    have literal : Evaluates ev.toContext ρ e (.int i) := .of_rule (.int form) hold_nil
    rw [Offers.of_pure h, Interval.mem_point]
    exact Value.int.inj (value.unique literal)
  · rcases h.of_orElse with h | h
    · exact mem_of_boundsOfKnown right analysable.1 h value
    · exact mem_of_boundsByForm right bounding keeps names analysable h value

end Evaluator

private theorem gives_evaluator {n : Nat} {e : ExprKey} {v : Value}
    (h : Gives ((Evaluator.ofLevels ctx n).eval e) v) :
    ∃ s t, ctx.evaluator.eval e s = some (.ok v, t) := by
  obtain ⟨s, t, h⟩ := h
  have ends : (Evaluator.ofLevels ctx n).eval e s ≠ none := by
    rw [h]
    exact Option.some_ne_none _
  exact ⟨s, t, by rw [eval_evaluator_eq ends, h]⟩

private theorem keeping_ofLevels (keeps : ctx.KeepsDomains ρ) (n : Nat) :
    (Evaluator.ofLevels ctx n).Keeping ρ := by
  intro x d s v domain boundless gives value
  rw [Evaluator.toContext_ofLevels] at domain boundless value ⊢
  obtain ⟨_, _, run⟩ := gives_evaluator gives
  obtain ⟨t, run⟩ := eval_fresh_of_eval boundless run
  exact keeps x d s t v domain run value

/-- Every number of levels makes an evaluator whose bounds hold all values. -/
private theorem bounding_ofLevels (keeps : ctx.KeepsDomains ρ)
    (names : ∀ f b, ctx.registry.builtin? f = some b → b.GoesBy (ctx.model.overloadAt f).name)
    (n : Nat) : (Evaluator.ofLevels ctx n).Bounding ρ := by
  induction n with
  | zero =>
    rintro e r v - ⟨s, t, h⟩
    cases h
  | succ n ih =>
    intro e r v he h value
    rw [Evaluator.toContext_ofLevels] at he value
    have step := Evaluator.mem_of_boundsStep (right_ofLevels ctx n) ih (keeping_ofLevels keeps n)
      (e := e) (r := r) (v := v)
    rw [Evaluator.toContext_ofLevels] at step
    exact step names he h value

private theorem mem_of_boundsOfVariable (keeps : ctx.KeepsDomains ρ)
    (names : ∀ f b, ctx.registry.builtin? f = some b → b.GoesBy (ctx.model.overloadAt f).name)
    {x : VarKey} {r : Interval} {v : Integer}
    (parts : ∀ e ∈ ctx.model.mentionedBy x, ctx.Analysable e)
    (h : Offers (ctx.evaluator.boundsOfVariable x) r) (value : ctx.HasValue ρ x (.int v)) :
    v ∈ r := by
  have step := Evaluator.mem_of_boundsOfEntered (bounding_ofLevels keeps names ctx.levels)
    (keeping_ofLevels keeps ctx.levels) (x := x) (r := r) (v := v) (h := h.of_inScope)
  rw [Evaluator.toContext_ofLevels] at step
  exact step parts value

/-- Bounds are sound. Under an assignment that keeps to the declared domains the value of an
expression lies within the bounds that are found for it, and the value of a variable within its
bounds and in the domain that a solver is given for it. -/
theorem bounds_hold_values (m : Model) (registry : Registry)
    (library : Registry.ofLibrary m = .ok registry) (ρ : Assignment)
    (keeps : Context.KeepsDomains ⟨m, registry⟩ ρ) :
    let ctx : Context := ⟨m, registry⟩
    (∀ e s t r v, ctx.Analysable e → ctx.evaluator.bounds e s = some (some r, t) →
      Evaluates ctx ρ e (.int v) → r.lo ≤ v ∧ v ≤ r.hi) ∧
    ∀ x v, (∀ e ∈ m.mentionedBy x, ctx.Analysable e) → ctx.HasValue ρ x (.int v) →
      (∀ s t r, ctx.evaluator.boundsOfVariable x s = some (some r, t) → r.lo ≤ v ∧ v ≤ r.hi) ∧
      ∀ s t d, ctx.evaluator.domainOfVariable x s = some (.ok d, t) → v ∈ d := by
  intro ctx
  have names : ∀ f b, ctx.registry.builtin? f = some b → b.GoesBy (ctx.model.overloadAt f).name :=
    fun f b ↦ Registry.goesBy_of_builtin? library
  constructor
  · intro e s t r v analysable h value
    have bounding := bounding_ofLevels keeps names ctx.levels e r v
    rw [Evaluator.toContext_ofLevels] at bounding
    exact bounding analysable ⟨s, t, h⟩ value
  · intro x v parts value
    have mem {r : Interval} (h : Offers (ctx.evaluator.boundsOfVariable x) r) : v ∈ r :=
      mem_of_boundsOfVariable keeps names parts h value
    refine ⟨fun s t r h ↦ mem ⟨s, t, h⟩, ?_⟩
    intro s t d h
    have h : Gives (ctx.evaluator.domainOfVariable x) d := ⟨s, t, h⟩
    unfold Evaluator.domainOfVariable at h
    simp only at h
    split at h
    · next domain declared =>
      have keeping := keeping_ofLevels keeps ctx.levels x domain d (.int v) declared
      rw [Context.evaluator, Evaluator.toContext_ofLevels] at declared
      rw [Evaluator.toContext_ofLevels] at keeping
      exact keeping (parts domain (by simp [Model.mentionedBy, ctx, declared])).1 h.of_setOf value
    · obtain ⟨r, hr, h⟩ := h.of_bind
      rw [Gives.of_pure h]
      exact IntegerSet.mem_range.2 (mem (Offers.of_orFail hr))

/-! ### A bounded variable -/

private def three : Integer := ⟨3, by omega, by omega⟩

private def five : Integer := ⟨5, by omega, by omega⟩

private def six : Integer := ⟨6, by omega, by omega⟩

/-- The model of the greater of 3 and a variable between 1 and 6. -/
def boundedMaximum : Model :=
  let build : Build Unit := do
    Library.declareAll
    let domain ← Build.literalRange .one six
    let x ← Build.addVariable
      { name := "x", span := .nowhere, ty := .int .var, domain := some domain, indexSets := [],
        definition := none }
    let _ ← Build.call "max" [← Build.name x, ← Build.int three]
  (build.run .empty).2

/-- What the library binds in the model. -/
def boundedMaximumRegistry : Registry :=
  ((Registry.ofLibrary boundedMaximum).toOption).getD .empty

/-- The assignment that gives the first variable a value. -/
def Assignment.ofFirst (v : Value) : Assignment where
  value x := if x = ⟨0⟩ then some v else .none
  cell _ := .none

/-- A form is no call, unless it is one of a given overload by a given name. -/
private def Form.callsOnly (name : String) (f : FnKey) : Form → Bool
  | .call name' (some g) _ => name' == name && g == f
  | _ => true

section OneVariable

variable {m : Model} {registry : Registry}

private theorem keepsDomains_ofFirst {s : IntegerSet} {i : Integer} {t : EvalState} {d : ExprKey}
    (one : m.declared.size = 1) (domain : (m.variableAt ⟨0⟩).domain = some d)
    (undefined : (m.variableAt ⟨0⟩).definition = none)
    (set : (Context.mk m registry).evaluator.eval d (.fresh none) = some (.ok (.set s), t))
    (mem : i ∈ s) : Context.KeepsDomains ⟨m, registry⟩ (.ofFirst (.int i)) := by
  intro x d s t v domain' set' value
  by_cases hx : x = ⟨0⟩
  · subst hx
    rw [domain] at domain'
    cases domain'
    rw [set] at set'
    cases set'
    unfold Context.HasValue at value
    simp only [undefined] at value
    cases value
    exact mem
  · have outside : m.declared[x.index]? = none := by
      rw [Array.getElem?_eq_none_iff, one]
      by_contra hlt
      apply hx
      cases x
      simp only [VarKey.mk.injEq] at hlt ⊢
      omega
    rw [Model.variableAt, outside] at domain'
    cases domain'

private theorem analysable_of_callsOnly {b : Builtin} {f : FnKey}
    (calls : m.nodes.toList.all (fun n ↦ n.form.callsOnly (m.overloadAt f).name f) = true)
    (bound : registry.builtin? f = some b) (looks : b.looksForBounds = false) (e : ExprKey) :
    Context.Analysable ⟨m, registry⟩ e := by
  have call {x : ExprKey} {name : String} {g : FnKey} {args : List ExprKey}
      (form : m.form x = .call name (some g) args) : name = (m.overloadAt f).name ∧ g = f := by
    have only := Model.form_of_all (Form.callsOnly (m.overloadAt f).name f) calls rfl x
    rw [form] at only
    simpa [Form.callsOnly] using only
  constructor
  · intro x _ name g args b' form bound'
    obtain ⟨-, rfl⟩ := call form
    rw [bound] at bound'
    cases bound'
    simp [looks]
  · intro x _ name g args form _
    obtain ⟨rfl, rfl⟩ := call form
    rfl

private theorem evaluates_ofFirst {e x y : ExprKey} {f : FnKey} {name name' : String} {side : Side}
    {i j : Integer} (call : m.form e = .call name (some f) [x, y])
    (bound : registry.builtin? f = some (.extremum side))
    (first : m.form x = .name name' (some ⟨0⟩)) (literal : m.form y = .int j)
    (undefined : (m.variableAt ⟨0⟩).definition = none) :
    Evaluates ⟨m, registry⟩ (.ofFirst (.int i)) e (.int (side.pick i j)) := by
  have value : Evaluates ⟨m, registry⟩ (.ofFirst (.int i)) x (.int i) :=
    .assigned first undefined rfl
  have value' : Evaluates ⟨m, registry⟩ (.ofFirst (.int i)) y (.int j) :=
    .of_rule (.int literal) hold_nil
  exact .of_rule (.call call bound .extremumOfTwo) (by simpa using ⟨value, value'⟩)

end OneVariable

/-- With 5 for the variable the greater of the two lies within the bounds that are found for it,
which are 3 and 6. -/
theorem bounds_hold_five :
    Registry.ofLibrary boundedMaximum = .ok boundedMaximumRegistry ∧
    Context.KeepsDomains ⟨boundedMaximum, boundedMaximumRegistry⟩ (.ofFirst (.int five)) ∧
    Context.Analysable ⟨boundedMaximum, boundedMaximumRegistry⟩ ⟨5⟩ ∧
    (Context.mk boundedMaximum boundedMaximumRegistry).evaluator.bounds ⟨5⟩ (.fresh none) =
      some (some ⟨three, six⟩, .fresh none) ∧
    Evaluates ⟨boundedMaximum, boundedMaximumRegistry⟩ (.ofFirst (.int five)) ⟨5⟩ (.int five) ∧
    three ≤ five ∧ five ≤ six := by
  have library : Registry.ofLibrary boundedMaximum = .ok boundedMaximumRegistry := by
    decide +kernel
  have one : boundedMaximum.declared.size = 1 := by decide +kernel
  have declared : (boundedMaximum.variableAt ⟨0⟩).domain = some ⟨2⟩ := by decide +kernel
  have undefined : (boundedMaximum.variableAt ⟨0⟩).definition = none := by decide +kernel
  have domain :
      (Context.mk boundedMaximum boundedMaximumRegistry).evaluator.eval ⟨2⟩ (.fresh none) =
        some (.ok (.set (.range .one six)), .fresh none) := by
    decide +kernel
  have keeps := keepsDomains_ofFirst (i := five) one declared undefined domain
    (IntegerSet.mem_range.2 (by decide))
  have bound : boundedMaximumRegistry.builtin? ⟨8⟩ = some (.extremum .high) := by
    decide +kernel
  have calls : boundedMaximum.nodes.toList.all
      (fun n ↦ n.form.callsOnly (boundedMaximum.overloadAt ⟨8⟩).name ⟨8⟩) = true := by
    decide +kernel
  have analysable := analysable_of_callsOnly calls bound rfl ⟨5⟩
  have found :
      (Context.mk boundedMaximum boundedMaximumRegistry).evaluator.bounds ⟨5⟩ (.fresh none) =
        some (some ⟨three, six⟩, .fresh none) := by
    decide +kernel
  have name : boundedMaximum.form ⟨3⟩ = .name "x" (some ⟨0⟩) := by decide +kernel
  have literal : boundedMaximum.form ⟨4⟩ = .int three := by decide +kernel
  have call : boundedMaximum.form ⟨5⟩ = .call "max" (some ⟨8⟩) [⟨3⟩, ⟨4⟩] := by decide +kernel
  have value := evaluates_ofFirst (i := five) call bound name literal undefined
  have pick : Side.high.pick five three = five := by decide
  rw [pick] at value
  have holds := (bounds_hold_values boundedMaximum boundedMaximumRegistry library _ keeps).1 ⟨5⟩ _ _
    ⟨three, six⟩ five analysable found value
  exact ⟨library, keeps, analysable, found, value, holds⟩

end ConstraintEval
