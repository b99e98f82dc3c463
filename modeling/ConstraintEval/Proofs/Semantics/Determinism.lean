import ConstraintEval.Proofs.Evaluation.Growth
import ConstraintEval.Proofs.Semantics.Rules

/-!
# Expressions have one value

An expression evaluates to one value at most, because no two rules with the same conclusion and
the same values for common premises give different values. An assignment of more values keeps
the values that there are without it.
-/

namespace ConstraintEval

variable {ctx : Context} {ρ : Assignment}

/-- What both lists say a value about has the same value in both. -/
def Consistent (ps qs : List Judgement) : Prop := ∀ p ∈ ps, ∀ q ∈ qs, p.1 = q.1 → p.2 = q.2

namespace Consistent

variable {ps ps' qs qs' : List Judgement}

theorem of_subset (h : Consistent ps qs) (hp : ps' ⊆ ps) (hq : qs' ⊆ qs) : Consistent ps' qs' := by
  intro p hp' q hq'
  exact h p (hp hp') q (hq hq')

theorem tail {p q : Judgement} (h : Consistent (p :: ps) (q :: qs)) : Consistent ps qs :=
  h.of_subset (List.subset_cons_self ..) (List.subset_cons_self ..)

theorem head {x : ExprKey} {a b : Value} (h : Consistent ((x, a) :: ps) ((x, b) :: qs)) : a = b :=
  h (x, a) (List.mem_cons_self ..) (x, b) (List.mem_cons_self ..) rfl

end Consistent

/-- Values of one kind for the same expressions are the same. -/
theorem eq_of_consistent_parts {α : Type} {kind : α → Value} (inj : ∀ a b, kind a = kind b → a = b)
    {xs : List ExprKey} {as bs : List α} (ha : xs.length = as.length) (hb : xs.length = bs.length)
    (h : Consistent (parts kind xs as) (parts kind xs bs)) : as = bs := by
  induction xs generalizing as bs with
  | nil =>
    rw [List.length_nil] at ha hb
    rw [List.eq_nil_of_length_eq_zero ha.symm, List.eq_nil_of_length_eq_zero hb.symm]
  | cons x xs ih =>
    cases as with
    | nil => cases ha
    | cons a as =>
      cases bs with
      | nil => cases hb
      | cons b bs =>
        have head := inj a b h.head
        have tail := ih (Nat.succ.inj ha) (Nat.succ.inj hb) h.tail
        rw [head, tail]

private theorem int_inj (i j : Integer) (h : Value.int i = .int j) : i = j := Value.int.inj h

private theorem set_inj (s t : IntegerSet) (h : Value.set s = .set t) : s = t := Value.set.inj h

/-- A chain of names has one end. -/
theorem Leads.unique {e : ExprKey} {c c' : ChainEnd} (h : Leads ctx e c) (h' : Leads ctx e c') :
    c = c' := by
  induction h with
  | expression form =>
    cases h' with
    | expression _ => rfl
    | undefined form' _ => exact absurd form' (form _ _)
    | definition form' _ _ => exact absurd form' (form _ _)
  | undefined form undefined =>
    cases h' with
    | expression form' => exact absurd form (form' _ _)
    | undefined form' _ =>
      rw [form] at form'
      cases form'
      rfl
    | definition form' defined _ =>
      rw [form] at form'
      cases form'
      rw [undefined] at defined
      cases defined
  | definition form defined _ ih =>
    cases h' with
    | expression form' => exact absurd form (form' _ _)
    | undefined form' undefined =>
      rw [form] at form'
      cases form'
      rw [undefined] at defined
      cases defined
    | definition form' defined' next =>
      rw [form] at form'
      cases form'
      rw [defined] at defined'
      cases defined'
      exact ih next

theorem ShowsDomain.unique {ps qs : List Judgement} {e : ExprKey} {s t : IntegerSet}
    (h : ShowsDomain ctx ps e s) (h' : ShowsDomain ctx qs e t) (consistent : Consistent ps qs) :
    s = t := by
  cases h with
  | literal chain form =>
    cases h' with
    | literal chain' form' =>
      cases chain.unique chain'
      rw [form] at form'
      cases form'
      rfl
    | declared chain' _ => cases chain.unique chain'
  | declared chain domain =>
    cases h' with
    | literal chain' _ => cases chain.unique chain'
    | declared chain' domain' =>
      cases chain.unique chain'
      rw [domain] at domain'
      cases domain'
      exact set_inj _ _ consistent.head

theorem ShowDomains.unique {ps qs : List Judgement} {es : List ExprKey} {ss ts : List IntegerSet}
    (h : ShowDomains ctx ps es ss) (h' : ShowDomains ctx qs es ts) (consistent : Consistent ps qs) :
    ss = ts := by
  induction h generalizing qs ts with
  | nil =>
    cases h'
    rfl
  | cons first _ ih =>
    cases h' with
    | cons first' rest' =>
      have head := first.unique first'
        (consistent.of_subset (List.subset_append_left ..) (List.subset_append_left ..))
      have tail := ih rest'
        (consistent.of_subset (List.subset_append_right ..) (List.subset_append_right ..))
      rw [head, tail]

/-- Two ways of scanning the same elements, one of which stops at an element, do not meet. -/
private theorem not_consistent_scan {qs : List Judgement} {arg x : ExprKey} {a a' : LazyArray}
    {before after : List ExprKey} {b : Bool} (split : a'.elements = before ++ x :: after)
    (consistent : Consistent ((arg, .array a) :: a.elements.map fun y ↦ (y, .bool b))
      ((arg, .array a') :: (x, .bool !b) :: qs)) : False := by
  obtain rfl := Value.array.inj consistent.head
  have mem : (x, Value.bool b) ∈ a.elements.map fun y ↦ (y, Value.bool b) :=
    List.mem_map.2 ⟨x, by simp [split], rfl⟩
  have eq := consistent.tail _ mem (x, .bool !b) (List.mem_cons_self ..) rfl
  cases b <;> cases eq

theorem Consistent.symm {ps qs : List Judgement} (h : Consistent ps qs) : Consistent qs ps := by
  intro q hq p hp eq
  exact (h p hp q hq eq.symm).symm

/-- A builtin computes one value from the same values of its premises. -/
theorem Applies.unique {ps qs : List Judgement} {b : Builtin} {args : List ExprKey} {v w : Value}
    (h : Applies ctx ps b args v) (h' : Applies ctx qs b args w) (consistent : Consistent ps qs) :
    v = w := by
  cases h with
  | extremum scalar length =>
    cases h' with
    | extremum scalar' length' =>
      obtain rfl := Value.array.inj consistent.head
      cases eq_of_consistent_parts int_inj length length' consistent.tail
      rfl
  | extremumOfTwo =>
    cases h' with
    | extremumOfTwo =>
      cases consistent.head
      cases consistent.tail.head
      rfl
  | extremumOfSet member =>
    cases h' with
    | extremumOfSet member' =>
      cases consistent.head
      rw [member] at member'
      cases member'
      rfl
  | sum length sum =>
    cases h' with
    | sum length' sum' =>
      obtain rfl := Value.array.inj consistent.head
      cases eq_of_consistent_parts int_inj length length' consistent.tail
      rw [sum] at sum'
      cases sum'
      rfl
  | length count =>
    cases h' with
    | length count' =>
      obtain rfl := Value.array.inj consistent.head
      rw [count] at count'
      cases count'
      rfl
  | boolToInt =>
    cases h' with
    | boolToInt =>
      cases consistent.head
      rfl
  | allTrue =>
    cases h' with
    | allTrue => rfl
    | someFalse split => exact (not_consistent_scan split consistent).elim
  | someFalse split =>
    cases h' with
    | allTrue => exact (not_consistent_scan split consistent.symm).elim
    | someFalse _ => rfl
  | allFalse =>
    cases h' with
    | allFalse => rfl
    | someTrue split => exact (not_consistent_scan split consistent).elim
  | someTrue split =>
    cases h' with
    | allFalse => exact (not_consistent_scan split consistent.symm).elim
    | someTrue _ => rfl
  | cardinality size =>
    cases h' with
    | cardinality size' =>
      cases consistent.head
      rw [size] at size'
      cases size'
      rfl
  | upperSetDeclared chain domain =>
    cases h' with
    | upperSetDeclared chain' domain' =>
      cases chain.unique chain'
      rw [domain] at domain'
      cases domain'
      exact consistent.head
    | upperSetWritten chain' _ => cases chain.unique chain'
  | upperSetWritten chain form =>
    cases h' with
    | upperSetDeclared chain' _ => cases chain.unique chain'
    | upperSetWritten chain' _ =>
      cases chain.unique chain'
      exact consistent.head
  | domain shows =>
    cases h' with
    | domain shows' => rw [shows.unique shows' consistent]
  | domainOfElements chain form shows =>
    cases h' with
    | domainOfElements chain' _ shows' =>
      cases chain.unique chain'
      obtain rfl := Value.array.inj consistent.head
      rw [shows.unique shows' consistent.tail]
  | indexSetDeclared form entry =>
    cases h' with
    | indexSetDeclared form' entry' =>
      rw [form] at form'
      cases form'
      rw [entry] at entry'
      cases entry'
      exact consistent.head
    | indexSetOfArray form' entry' _ =>
      rw [form] at form'
      cases form'
      rw [entry] at entry'
      cases entry'
  | indexSetOfArray form entry range =>
    cases h' with
    | indexSetDeclared form' entry' =>
      rw [form] at form'
      cases form'
      rw [entry] at entry'
      cases entry'
    | indexSetOfArray form' entry' range' =>
      obtain rfl := Value.array.inj consistent.head
      rw [range] at range'
      cases range'
      rfl
  | rearrange split length intervals fits =>
    cases h' with
    | rearrange split' length' intervals' fits' =>
      rw [split] at split'
      cases split'
      obtain rfl := Value.array.inj consistent.head
      cases eq_of_consistent_parts set_inj length length' consistent.tail
      rw [intervals] at intervals'
      have ranges := (List.map_inj_right fun _ _ ↦ Option.some.inj).1 intervals'
      rw [← ranges, fits] at fits'
      cases fits'
      rfl

/-- An expression has one value from the same values of its premises. -/
theorem Rule.unique {ps qs : List Judgement} {e : ExprKey} {v w : Value} (h : Rule ctx ps e v)
    (h' : Rule ctx qs e w) (consistent : Consistent ps qs) : v = w := by
  cases h with
  | set form length =>
    cases h' with
    | set form' length' =>
      rw [form] at form'
      cases form'
      rw [eq_of_consistent_parts int_inj length length' consistent]
    | _ => simp_all
  | element form length selected =>
    cases h' with
    | element form' length' selected' =>
      rw [form] at form'
      cases form'
      obtain rfl := Value.array.inj consistent.head
      have indices := eq_of_consistent_parts int_inj length length'
        (consistent.of_subset (fun _ h ↦ by simp [h]) (fun _ h ↦ by simp [h]))
      rw [indices, selected'] at selected
      cases selected
      exact consistent.tail.head
    | _ => simp_all
  | call form bound applies =>
    cases h' with
    | call form' bound' applies' =>
      rw [form] at form'
      cases form'
      rw [bound] at bound'
      cases bound'
      exact applies.unique applies' consistent
    | _ => simp_all
  | binary form strict result =>
    cases h' with
    -- the rules for the values of a left operand are of operators that are not strict
    | andFalse form' | andTrue form' | orTrue form' | orFalse form' =>
      rw [form] at form'
      cases form'
      exact (strict _ rfl).elim
    | binary form' strict' result' =>
      rw [form] at form'
      cases form'
      obtain rfl := consistent.head
      obtain rfl := consistent.tail.head
      rw [result] at result'
      exact Except.ok.inj result'
    | _ => simp_all
  | _ => cases h' <;> simp_all [Consistent]

/-- No rule gives a value to a variable without a definition. -/
theorem Rule.not_undefined {ps : List Judgement} {e : ExprKey} {v : Value} {name : String}
    {x : VarKey} (h : Rule ctx ps e v) (form : ctx.model.form e = .name name (some x))
    (undefined : (ctx.model.variableAt x).definition = none) : False := by
  cases h <;> simp_all

/-- No rule gives a value to a key without an expression. -/
theorem Rule.not_cell {ps : List Judgement} {e : ExprKey} {v : Value} (h : Rule ctx ps e v)
    (cell : ctx.model.nodes.size ≤ e.index) : False := by
  have form := Model.form_of_size_le cell
  cases h <;> simp_all

/-- An expression evaluates to one value at most. -/
theorem Evaluates.unique {e : ExprKey} {v w : Value} (h : Evaluates ctx ρ e v)
    (h' : Evaluates ctx ρ e w) : v = w := by
  induction h generalizing w with
  | of_rule rule sub ih =>
    cases h' with
    | of_rule rule' sub' =>
      apply rule.unique rule'
      intro p hp q hq eq
      exact ih p hp (eq ▸ sub' q hq)
    | assigned form undefined given => exact (rule.not_undefined form undefined).elim
    | cell cell given => exact (rule.not_cell cell).elim
  | assigned form undefined given =>
    cases h' with
    | of_rule rule' sub' => exact (rule'.not_undefined form undefined).elim
    | assigned form' undefined' given' =>
      rw [form] at form'
      cases form'
      rw [given] at given'
      exact Option.some.inj given'
    | cell cell given' =>
      rw [Model.form_of_size_le cell] at form
      cases form
  | cell cell given =>
    cases h' with
    | of_rule rule' sub' => exact (rule'.not_cell cell).elim
    | assigned form undefined given' =>
      rw [Model.form_of_size_le cell] at form
      cases form
    | cell cell' given' =>
      rw [given] at given'
      exact Option.some.inj given'

/-- What an expression evaluates to without an assignment it evaluates to under every one. -/
theorem Evaluates.of_none {e : ExprKey} {v : Value} (h : Evaluates ctx .none e v) :
    Evaluates ctx ρ e v := by
  induction h with
  | of_rule rule sub ih => exact .of_rule rule ih
  | assigned _ _ given => cases given
  | cell _ given => cases given

end ConstraintEval
