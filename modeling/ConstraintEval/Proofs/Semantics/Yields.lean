import ConstraintEval.Proofs.Evaluation.Run
import ConstraintEval.Proofs.Semantics.Rules

/-!
# What a step must give

The result that a step gives in every state with given declarations pending, and what is pending
after it. When the premises of a rule are given, so is its conclusion, except for the builtins
that follow chains of names on their own.
-/

namespace ConstraintEval

variable {α β : Type} {ctx : Context} {p q r : Pending}

/-- While some declarations are pending an evaluation gives a result, and others are pending
after it. -/
def Yields (p : Pending) (x : EvalM α) (a : α) (q : Pending) : Prop :=
  ∀ s : EvalState, s.pending = p → ∃ t : EvalState, t.pending = q ∧ x s = some (.ok a, t)

namespace Yields

theorem pure (a : α) : Yields p (Pure.pure a) a p := fun s h ↦ ⟨s, h, rfl⟩

theorem ofExcept {r : Except Failure α} {a : α} (h : r = .ok a) :
    Yields p (EvalM.ofExcept r) a p := fun s hs ↦ ⟨s, hs, by rw [h]; rfl⟩

theorem ofOption {cause : Cause} {o : Option α} {a : α} (h : o = some a) :
    Yields p (EvalM.ofOption cause o) a p := by
  rw [h]
  exact pure a

theorem bind {x : EvalM α} {f : α → EvalM β} {a : α} {b : β} (hx : Yields p x a q)
    (hf : Yields q (f a) b r) : Yields p (x >>= f) b r := by
  intro s hs
  obtain ⟨t, ht, run⟩ := hx s hs
  obtain ⟨u, hu, run'⟩ := hf t ht
  refine ⟨u, hu, ?_⟩
  rw [EvalM.bind_apply, run]
  exact run'

theorem map {x : EvalM α} {a : α} (f : α → β) (hx : Yields p x a q) :
    Yields p (f <$> x) (f a) q := by
  rw [← bind_pure_comp]
  exact hx.bind (pure (f a))

theorem locating {e : ExprKey} {x : EvalM α} {a : α} (hx : Yields p x a q) :
    Yields p (ctx.locating e x) a q := by
  intro s hs
  obtain ⟨t, ht, run⟩ := hx s hs
  refine ⟨t, ht, ?_⟩
  rw [Context.locating_apply, run]
  rfl

/-- A scope ends the visits that began in it. -/
theorem inScope {x : EvalM α} {a : α} (hx : Yields p x a q) (leave : q.leaveTo p.size = p) :
    Yields p (EvalM.inScope x) a p := by
  intro s hs
  obtain ⟨t, ht, run⟩ := hx s.openScope hs
  refine ⟨s.closeTo t, ?_, ?_⟩
  · rw [EvalState.closeTo, ht, hs]
    exact leave
  · rw [EvalM.inScope_apply, run]
    rfl

theorem mapM {xs : List α} {f : α → EvalM β} {bs : List β}
    (h : List.Forall₂ (fun a b ↦ Yields p (f a) b p) xs bs) : Yields p (xs.mapM f) bs p := by
  induction h with
  | nil => exact pure []
  | cons head _ ih =>
    rw [List.mapM_cons]
    exact head.bind (ih.bind (pure _))

theorem foldlM {γ : Type} {xs : List α} {f : α → EvalM β} {next : γ → β → EvalM γ}
    {step : γ → β → Option γ} {bs : List β} {c d : γ}
    (h : List.Forall₂ (fun a b ↦ Yields p (f a) b p) xs bs)
    (hnext : ∀ c b d, step c b = some d → Yields p (next c b) d p)
    (hstep : bs.foldlM step c = some d) :
    Yields p (xs.foldlM (fun c x ↦ do next c (← f x)) c) d p := by
  induction h generalizing c with
  | nil =>
    cases hstep
    exact pure d
  | @cons a b xs bs head _ ih =>
    rw [List.foldlM_cons] at hstep
    obtain ⟨c', hc, hstep⟩ := Option.bind_eq_some_iff.1 hstep
    rw [List.foldlM_cons]
    exact Yields.bind (head.bind (hnext c b c' hc)) (ih hstep)

theorem allM_true {xs : List α} {f : α → EvalM Bool} (h : ∀ a ∈ xs, Yields p (f a) true p) :
    Yields p (xs.allM f) true p := by
  induction xs with
  | nil => exact pure true
  | cons a xs ih =>
    obtain ⟨head, tail⟩ := List.forall_mem_cons.1 h
    exact head.bind (ih tail)

theorem allM_false {before after : List α} {a : α} {f : α → EvalM Bool}
    (h : ∀ b ∈ before, Yields p (f b) true p) (stop : Yields p (f a) false p) :
    Yields p ((before ++ a :: after).allM f) false p := by
  induction before with
  | nil => exact stop.bind (pure false)
  | cons b before ih =>
    obtain ⟨head, tail⟩ := List.forall_mem_cons.1 h
    exact head.bind (ih tail)

theorem anyM_false {xs : List α} {f : α → EvalM Bool} (h : ∀ a ∈ xs, Yields p (f a) false p) :
    Yields p (xs.anyM f) false p := by
  induction xs with
  | nil => exact pure false
  | cons a xs ih =>
    obtain ⟨head, tail⟩ := List.forall_mem_cons.1 h
    exact head.bind (ih tail)

theorem anyM_true {before after : List α} {a : α} {f : α → EvalM Bool}
    (h : ∀ b ∈ before, Yields p (f b) false p) (stop : Yields p (f a) true p) :
    Yields p ((before ++ a :: after).anyM f) true p := by
  induction before with
  | nil => exact stop.bind (pure true)
  | cons b before ih =>
    obtain ⟨head, tail⟩ := List.forall_mem_cons.1 h
    exact head.bind (ih tail)

/-! ### Values of one kind -/

variable {ev : Evaluator} {e : ExprKey}

theorem intOf {i : Integer} (h : Yields p (ev.eval e) (.int i) p) :
    Yields p (ev.intOf e) i p := h.bind (locating (ofExcept rfl))

theorem boolOf {b : Bool} (h : Yields p (ev.eval e) (.bool b) p) :
    Yields p (ev.boolOf e) b p := h.bind (locating (ofExcept rfl))

theorem setOf {s : IntegerSet} (h : Yields p (ev.eval e) (.set s) p) :
    Yields p (ev.setOf e) s p := h.bind (locating (ofExcept rfl))

theorem arrayOf {a : LazyArray} (h : Yields p (ev.eval e) (.array a) p) :
    Yields p (ev.arrayOf e) a p := h.bind (locating (ofExcept rfl))

end Yields

/-! ### Rules -/

/-- The left operand decides nothing alone but conjunctions and disjunctions. -/
theorem BinaryOp.decided?_eq_none {op : BinaryOp} (strict : ∀ logic, op ≠ .logic logic)
    (a : Value) : op.decided? a = none := by
  cases op with
  | logic logic => exact (strict logic rfl).elim
  | _ => rfl

/-- A builtin that follows a chain of names, to find out about a variable without its value. -/
def Builtin.followsNames : Builtin → Bool
  | .upperSet | .domain | .domainOfElements => true
  | _ => false

namespace Evaluator

variable (ev : Evaluator)

/-- While some declarations are pending an evaluator gives each of some expressions its value. -/
def Supplies (p : Pending) (ps : List Judgement) : Prop :=
  ∀ j ∈ ps, Yields p (ev.eval j.1) j.2 p

variable {ev : Evaluator} {ps : List Judgement}

@[simp] theorem supplies_nil : ev.Supplies p [] := by simp [Supplies]

@[simp] theorem supplies_cons {e : ExprKey} {v : Value} :
    ev.Supplies p ((e, v) :: ps) ↔ Yields p (ev.eval e) v p ∧ ev.Supplies p ps := by
  simp [Supplies]

theorem supplies_map {xs : List ExprKey} {v : Value} :
    ev.Supplies p (xs.map fun x ↦ (x, v)) ↔ ∀ x ∈ xs, Yields p (ev.eval x) v p := by
  simp [Supplies]

theorem supplies_parts {kind : α → Value} {xs : List ExprKey} {as : List α}
    (length : xs.length = as.length) (h : ev.Supplies p (parts kind xs as)) :
    List.Forall₂ (fun x a ↦ Yields p (ev.eval x) (kind a) p) xs as := by
  induction xs generalizing as with
  | nil =>
    cases as with
    | nil => exact .nil
    | cons a as => cases length
  | cons x xs ih =>
    cases as with
    | nil => cases length
    | cons a as =>
      obtain ⟨head, tail⟩ := supplies_cons.1 h
      exact .cons head (ih (Nat.succ.inj length) tail)

theorem yields_ints {xs : List ExprKey} {is : List Integer} (length : xs.length = is.length)
    (h : ev.Supplies p (parts .int xs is)) : Yields p (xs.mapM ev.intOf) is p :=
  .mapM ((supplies_parts length h).imp fun _ _ h ↦ h.intOf)

private theorem yields_soleArg (name : String) (arg : ExprKey) :
    Yields p (soleArg name [arg]) arg p := .pure arg

private theorem yields_indexRange {operation : String} {x : ExprKey} {s : IntegerSet} {r : Interval}
    (h : Yields p (ev.eval x) (.set s) p) (interval : s.interval? = some r) :
    Yields p (ev.indexRange operation x) r p := by
  apply h.setOf.bind
  rw [interval]
  exact .pure r

private theorem yields_indexRanges (operation : String) {xs : List ExprKey} {ss : List IntegerSet}
    {rs : List Interval} (h : List.Forall₂ (fun x s ↦ Yields p (ev.eval x) (.set s) p) xs ss)
    (intervals : ss.map IntegerSet.interval? = rs.map some) :
    List.Forall₂ (fun x r ↦ Yields p (ev.indexRange operation x) r p) xs rs := by
  induction h generalizing rs with
  | nil =>
    cases rs with
    | nil => exact .nil
    | cons r rs => cases intervals
  | cons head _ ih =>
    cases rs with
    | nil => cases intervals
    | cons r rs =>
      obtain ⟨interval, intervals⟩ := List.cons.inj intervals
      exact .cons (yields_indexRange head interval) (ih intervals)

/-- A builtin whose premises are supplied gives what it computes from them. -/
theorem yields_apply {b : Builtin} {args : List ExprKey} {v : Value}
    (applies : Applies ev.toContext ps b args v) (plain : b.followsNames = false)
    (h : ev.Supplies p ps) : Yields p (ev.apply args b) v p := by
  cases applies with
  | @extremum side arg a i is scalar length =>
    obtain ⟨array, ints⟩ := supplies_cons.1 h
    apply Yields.map Value.int
    unfold Evaluator.extremum
    simp only [scalar]
    exact array.arrayOf.bind ((yields_ints length ints).bind (.pure _))
  | extremumOfTwo =>
    obtain ⟨first, second⟩ := supplies_cons.1 h
    obtain ⟨second, -⟩ := supplies_cons.1 second
    exact Yields.map Value.int (first.intOf.bind (second.intOf.bind (.pure _)))
  | extremumOfSet member =>
    obtain ⟨set, -⟩ := supplies_cons.1 h
    exact Yields.map Value.int
      ((yields_soleArg _ _).bind (set.setOf.bind (.ofOption member)))
  | sum length sum =>
    obtain ⟨array, ints⟩ := supplies_cons.1 h
    have ints := (supplies_parts length ints).imp fun _ _ h ↦ h.intOf
    refine Yields.map Value.int ((yields_soleArg _ _).bind (array.arrayOf.bind ?_))
    exact .foldlM ints (fun _ _ _ total ↦ .ofOption total) sum
  | length count =>
    obtain ⟨array, -⟩ := supplies_cons.1 h
    exact Yields.map Value.int ((yields_soleArg _ _).bind (array.arrayOf.bind (.ofOption count)))
  | boolToInt =>
    obtain ⟨bool, -⟩ := supplies_cons.1 h
    exact Yields.map Value.int ((yields_soleArg _ _).bind (bool.boolOf.bind (.pure _)))
  | allTrue =>
    obtain ⟨array, all⟩ := supplies_cons.1 h
    refine Yields.map Value.bool ((yields_soleArg _ _).bind (array.arrayOf.bind ?_))
    exact .allM_true fun x hx ↦ (supplies_map.1 all x hx).boolOf
  | someFalse split =>
    obtain ⟨array, rest⟩ := supplies_cons.1 h
    obtain ⟨stop, all⟩ := supplies_cons.1 rest
    refine Yields.map Value.bool ((yields_soleArg _ _).bind (array.arrayOf.bind ?_))
    rw [split]
    exact .allM_false (fun x hx ↦ (supplies_map.1 all x hx).boolOf) stop.boolOf
  | allFalse =>
    obtain ⟨array, all⟩ := supplies_cons.1 h
    refine Yields.map Value.bool ((yields_soleArg _ _).bind (array.arrayOf.bind ?_))
    exact .anyM_false fun x hx ↦ (supplies_map.1 all x hx).boolOf
  | someTrue split =>
    obtain ⟨array, rest⟩ := supplies_cons.1 h
    obtain ⟨stop, all⟩ := supplies_cons.1 rest
    refine Yields.map Value.bool ((yields_soleArg _ _).bind (array.arrayOf.bind ?_))
    rw [split]
    exact .anyM_true (fun x hx ↦ (supplies_map.1 all x hx).boolOf) stop.boolOf
  | @cardinality arg s n size =>
    obtain ⟨set, -⟩ := supplies_cons.1 h
    apply Yields.bind (yields_soleArg _ arg)
    have count : Yields p (ev.cardinality arg) n p := by
      apply set.setOf.bind
      rw [size]
      exact .pure n
    exact count.bind (.pure _)
  | upperSetDeclared => cases plain
  | upperSetWritten => cases plain
  | domain => cases plain
  | domainOfElements => cases plain
  | @indexSetDeclared k arg set name v s form entry =>
    obtain ⟨set, -⟩ := supplies_cons.1 h
    apply Yields.bind (yields_soleArg _ arg)
    have index : Yields p (ev.indexSet arg k) s p := by
      unfold Evaluator.indexSet
      simp only [form, entry]
      exact set.setOf
    exact index.bind (.pure _)
  | @indexSetOfArray k arg name v a r form entry range =>
    obtain ⟨array, -⟩ := supplies_cons.1 h
    apply Yields.bind (yields_soleArg _ arg)
    have index : Yields p (ev.indexSet arg k) (.range r.lo r.hi) p := by
      unfold Evaluator.indexSet
      simp only [form, entry]
      apply array.arrayOf.bind
      rw [range]
      exact .pure _
    exact index.bind (.pure _)
  | @rearrange n args sets flat a b ss ranges split length intervals fits =>
    obtain ⟨array, sets'⟩ := supplies_cons.1 h
    have indices :=
      yields_indexRanges (Library.rearrangeName n) (supplies_parts length sets') intervals
    apply Yields.map Value.array
    unfold Evaluator.rearrange
    simp only [split]
    refine array.arrayOf.bind ((Yields.mapM indices).bind ?_)
    rw [fits]
    exact .pure b

/-- An expression of another form than a call and a name is given its value when the premises are
supplied. -/
theorem yields_valueByForm {e : ExprKey} {v : Value} (rule : Rule ev.toContext ps e v)
    (unnamed : ∀ name resolved, ev.model.form e ≠ .name name resolved)
    (call : ∀ {name f args b}, ev.model.form e = .call name (some f) args →
      ev.registry.builtin? f = some b → Applies ev.toContext ps b args v →
        Yields p (ev.apply args b) v p)
    (h : ev.Supplies p ps) : Yields p (ev.valueByForm e) v p := by
  unfold Evaluator.valueByForm
  cases rule with
  | int form =>
    rw [form]
    exact .pure _
  | bool form =>
    rw [form]
    exact .pure _
  | set form length =>
    rw [form]
    exact (yields_ints length h).bind (.pure _)
  | between form =>
    obtain ⟨lo, hi⟩ := supplies_cons.1 h
    obtain ⟨hi, -⟩ := supplies_cons.1 hi
    rw [form]
    exact lo.intOf.bind (hi.intOf.bind (.pure _))
  | definition form _ => exact (unnamed _ _ form).elim
  | array form fits =>
    rw [form]
    exact .ofExcept (by rw [fits]; rfl)
  | element form length selected =>
    obtain ⟨array, rest⟩ := supplies_cons.1 h
    obtain ⟨value, ints⟩ := supplies_cons.1 rest
    rw [form]
    exact array.arrayOf.bind
      ((yields_ints length ints).bind ((Yields.ofExcept selected).bind value))
  | call form bound applies =>
    rw [form]
    simp only [Evaluator.valueOfCall, bound]
    exact (call form bound applies).inScope p.leaveTo_size
  | andFalse form | orTrue form =>
    obtain ⟨left, -⟩ := supplies_cons.1 h
    rw [form]
    exact left.bind (.pure _)
  | andTrue form | orFalse form =>
    obtain ⟨left, right⟩ := supplies_cons.1 h
    obtain ⟨right, -⟩ := supplies_cons.1 right
    rw [form]
    exact left.bind (right.bind (.ofExcept rfl))
  | binary form strict result =>
    obtain ⟨left, right⟩ := supplies_cons.1 h
    obtain ⟨right, -⟩ := supplies_cons.1 right
    rw [form]
    apply left.bind
    rw [BinaryOp.decided?_eq_none strict]
    exact right.bind (.ofExcept result)
  | unary form result =>
    obtain ⟨operand, -⟩ := supplies_cons.1 h
    rw [form]
    exact operand.bind (.ofExcept result)
  | yes form =>
    obtain ⟨cond, yes⟩ := supplies_cons.1 h
    obtain ⟨yes, -⟩ := supplies_cons.1 yes
    rw [form]
    exact cond.boolOf.bind yes
  | no form =>
    obtain ⟨cond, no⟩ := supplies_cons.1 h
    obtain ⟨no, -⟩ := supplies_cons.1 no
    rw [form]
    exact cond.boolOf.bind no

end Evaluator

end ConstraintEval
