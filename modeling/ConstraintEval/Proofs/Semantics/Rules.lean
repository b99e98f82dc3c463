import ConstraintEval.Eval.Step
import Mathlib.Data.List.Forall2

/-!
# What expressions evaluate to

A big-step semantics of expressions that knows neither pending declarations nor scopes. A rule
says what an expression evaluates to when some other expressions, its premises, evaluate to
given values; an expression evaluates to a value if there is a finite derivation by the rules.
Names evaluate to what their definitions evaluate to. A conjunction or disjunction that its left
operand decides has no premise for the right one.

Variables without a definition have no value, unless an assignment gives them one. An array that
is given to a variable holds cells, which are keys without an expression; the assignment gives
them their values too.
-/

namespace ConstraintEval

/-- An expression with the value that it is to evaluate to. -/
abbrev Judgement := ExprKey × Value

/-- Each of some expressions with its value, all of them of one kind. -/
def parts {α : Type} (kind : α → Value) (xs : List ExprKey) (as : List α) : List Judgement :=
  List.zipWith (fun x a ↦ (x, kind a)) xs as

/-- A chain of names starts at an expression and has a given end. -/
inductive Leads (ctx : Context) : ExprKey → ChainEnd → Prop where
  | expression {e : ExprKey} (form : ∀ name resolved, ctx.model.form e ≠ .name name resolved) :
      Leads ctx e (.expression e)
  | undefined {e : ExprKey} {name : String} {v : VarKey}
      (form : ctx.model.form e = .name name (some v))
      (undefined : (ctx.model.variableAt v).definition = none) : Leads ctx e (.undefined v)
  | definition {e d : ExprKey} {name : String} {v : VarKey} {c : ChainEnd}
      (form : ctx.model.form e = .name name (some v))
      (defined : (ctx.model.variableAt v).definition = some d) (next : Leads ctx d c) :
      Leads ctx e c

/-- The domain that an integer expression shows: its value if it is written out, or else the
declared domain of the variable that it names. -/
inductive ShowsDomain (ctx : Context) : List Judgement → ExprKey → IntegerSet → Prop where
  | literal {e x : ExprKey} {i : Integer} (chain : Leads ctx e (.expression x))
      (form : ctx.model.form x = .int i) : ShowsDomain ctx [] e (.singleton i)
  | declared {e d : ExprKey} {v : VarKey} {s : IntegerSet} (chain : Leads ctx e (.undefined v))
      (domain : (ctx.model.variableAt v).domain = some d) :
      ShowsDomain ctx [(d, .set s)] e s

/-- The domains that some integer expressions show. -/
inductive ShowDomains (ctx : Context) :
    List Judgement → List ExprKey → List IntegerSet → Prop where
  | nil : ShowDomains ctx [] [] []
  | cons {ps qs : List Judgement} {e : ExprKey} {es : List ExprKey} {s : IntegerSet}
      {ss : List IntegerSet} (first : ShowsDomain ctx ps e s) (rest : ShowDomains ctx qs es ss) :
      ShowDomains ctx (ps ++ qs) (e :: es) (s :: ss)

/-- What a builtin computes from its arguments. There is no rule for the builtins that look for
bounds. -/
inductive Applies (ctx : Context) : List Judgement → Builtin → List ExprKey → Value → Prop where
  | extremum {side : Side} {arg : ExprKey} {a : LazyArray} {i : Integer} {is : List Integer}
      (scalar : (ctx.model.ty arg).isSet = false) (length : a.elements.length = is.length + 1) :
      Applies ctx ((arg, .array a) :: parts .int a.elements (i :: is)) (.extremum side) [arg]
        (.int (is.foldl side.pick i))
  | extremumOfTwo {side : Side} {left right : ExprKey} {i j : Integer} :
      Applies ctx [(left, .int i), (right, .int j)] (.extremum side) [left, right]
        (.int (side.pick i j))
  | extremumOfSet {side : Side} {arg : ExprKey} {s : IntegerSet} {i : Integer}
      (member : side.memberOf? s = some i) :
      Applies ctx [(arg, .set s)] (.extremumOfSet side) [arg] (.int i)
  | sum {arg : ExprKey} {a : LazyArray} {is : List Integer} {total : Integer}
      (length : a.elements.length = is.length) (sum : is.foldlM Integer.add? .zero = some total) :
      Applies ctx ((arg, .array a) :: parts .int a.elements is) .sum [arg] (.int total)
  | length {arg : ExprKey} {a : LazyArray} {n : Integer}
      (count : Integer.ofNat? a.length = some n) :
      Applies ctx [(arg, .array a)] .length [arg] (.int n)
  | boolToInt {arg : ExprKey} {b : Bool} :
      Applies ctx [(arg, .bool b)] .boolToInt [arg] (.int (if b then .one else .zero))
  | allTrue {arg : ExprKey} {a : LazyArray} :
      Applies ctx ((arg, .array a) :: a.elements.map fun x ↦ (x, .bool true)) .allOf [arg]
        (.bool true)
  | someFalse {arg x : ExprKey} {a : LazyArray} {before after : List ExprKey}
      (split : a.elements = before ++ x :: after) :
      Applies ctx ((arg, .array a) :: (x, .bool false) :: before.map fun y ↦ (y, .bool true))
        .allOf [arg] (.bool false)
  | allFalse {arg : ExprKey} {a : LazyArray} :
      Applies ctx ((arg, .array a) :: a.elements.map fun x ↦ (x, .bool false)) .anyOf [arg]
        (.bool false)
  | someTrue {arg x : ExprKey} {a : LazyArray} {before after : List ExprKey}
      (split : a.elements = before ++ x :: after) :
      Applies ctx ((arg, .array a) :: (x, .bool true) :: before.map fun y ↦ (y, .bool false))
        .anyOf [arg] (.bool true)
  | cardinality {arg : ExprKey} {s : IntegerSet} {n : Integer} (size : s.size? = some n) :
      Applies ctx [(arg, .set s)] .cardinality [arg] (.int n)
  | upperSetDeclared {arg d : ExprKey} {v : VarKey} {s : IntegerSet}
      (chain : Leads ctx arg (.undefined v)) (domain : (ctx.model.variableAt v).domain = some d) :
      Applies ctx [(d, .set s)] .upperSet [arg] (.set s)
  | upperSetWritten {arg x : ExprKey} {s : IntegerSet} (chain : Leads ctx arg (.expression x))
      (form : (∃ members, ctx.model.form x = .set members) ∨
        ∃ lo hi, ctx.model.form x = .between lo hi) :
      Applies ctx [(x, .set s)] .upperSet [arg] (.set s)
  | domain {ps : List Judgement} {arg : ExprKey} {s : IntegerSet}
      (shows : ShowsDomain ctx ps arg s) :
      Applies ctx ps .domain [arg] (.set s)
  | domainOfElements {ps : List Judgement} {arg x : ExprKey} {a : LazyArray}
      {ss : List IntegerSet} (chain : Leads ctx arg (.expression x))
      (form : (∃ literal, ctx.model.form x = .array literal) ∨
        ∃ name f args, ctx.model.form x = .call name f args)
      (shows : ShowDomains ctx ps a.elements ss) :
      Applies ctx ((x, .array a) :: ps) .domainOfElements [arg]
        (.set (ss.foldl IntegerSet.union .empty))
  | indexSetDeclared {k : Nat} {arg set : ExprKey} {name : String} {v : VarKey} {s : IntegerSet}
      (form : ctx.model.form arg = .name name (some v))
      (entry : Evaluator.entryOfDimension? (ctx.model.variableAt v).indexSets k = some (some set)) :
      Applies ctx [(set, .set s)] (.indexSet k) [arg] (.set s)
  | indexSetOfArray {k : Nat} {arg : ExprKey} {name : String} {v : VarKey} {a : LazyArray}
      {r : Interval} (form : ctx.model.form arg = .name name (some v))
      (entry : Evaluator.entryOfDimension? (ctx.model.variableAt v).indexSets k = some none)
      (range : a.range? k = some r) :
      Applies ctx [(arg, .array a)] (.indexSet k) [arg] (.set (.range r.lo r.hi))
  | rearrange {n : Nat} {args sets : List ExprKey} {flat : ExprKey} {a b : LazyArray}
      {ss : List IntegerSet} {ranges : List Interval} (split : args.splitAt n = (sets, [flat]))
      (length : sets.length = ss.length)
      (intervals : ss.map IntegerSet.interval? = ranges.map some)
      (fits : a.rearrange? ranges = some b) :
      Applies ctx ((flat, .array a) :: parts .set sets ss)
        (.rearrange n) args (.array b)

/-- What an expression evaluates to when its premises evaluate to their values. -/
inductive Rule (ctx : Context) : List Judgement → ExprKey → Value → Prop where
  | int {e : ExprKey} {i : Integer} (form : ctx.model.form e = .int i) : Rule ctx [] e (.int i)
  | bool {e : ExprKey} {b : Bool} (form : ctx.model.form e = .bool b) : Rule ctx [] e (.bool b)
  | set {e : ExprKey} {members : List ExprKey} {is : List Integer}
      (form : ctx.model.form e = .set members) (length : members.length = is.length) :
      Rule ctx (parts .int members is) e (.set (.ofList is))
  | between {e lo hi : ExprKey} {i j : Integer} (form : ctx.model.form e = .between lo hi) :
      Rule ctx [(lo, .int i), (hi, .int j)] e (.set (.range i j))
  | definition {e d : ExprKey} {name : String} {v : VarKey} {a : Value}
      (form : ctx.model.form e = .name name (some v))
      (defined : (ctx.model.variableAt v).definition = some d) : Rule ctx [(d, a)] e a
  | array {e : ExprKey} {literal : ArrayLiteral} {a : LazyArray}
      (form : ctx.model.form e = .array literal)
      (fits : LazyArray.ofLiteral literal (ctx.model.ty e) = .ok a) : Rule ctx [] e (.array a)
  | element {e source x : ExprKey} {indices : List ExprKey} {a : LazyArray} {is : List Integer}
      {v : Value} (form : ctx.model.form e = .element source indices)
      (length : indices.length = is.length) (selected : a.select is = .ok x) :
      Rule ctx ((source, .array a) :: (x, v) :: parts .int indices is) e v
  | call {e : ExprKey} {name : String} {f : FnKey} {args : List ExprKey} {b : Builtin}
      {ps : List Judgement} {v : Value} (form : ctx.model.form e = .call name (some f) args)
      (bound : ctx.registry.builtin? f = some b) (applies : Applies ctx ps b args v) :
      Rule ctx ps e v
  | andFalse {e left right : ExprKey} (form : ctx.model.form e = .binary (.logic .and) left right) :
      Rule ctx [(left, .bool false)] e (.bool false)
  | andTrue {e left right : ExprKey} {b : Bool}
      (form : ctx.model.form e = .binary (.logic .and) left right) :
      Rule ctx [(left, .bool true), (right, .bool b)] e (.bool b)
  | orTrue {e left right : ExprKey} (form : ctx.model.form e = .binary (.logic .or) left right) :
      Rule ctx [(left, .bool true)] e (.bool true)
  | orFalse {e left right : ExprKey} {b : Bool}
      (form : ctx.model.form e = .binary (.logic .or) left right) :
      Rule ctx [(left, .bool false), (right, .bool b)] e (.bool b)
  | binary {e left right : ExprKey} {op : BinaryOp} {a b v : Value}
      (form : ctx.model.form e = .binary op left right) (strict : ∀ logic, op ≠ .logic logic)
      (result : op.apply a b = .ok v) : Rule ctx [(left, a), (right, b)] e v
  | unary {e operand : ExprKey} {op : UnaryOp} {a v : Value}
      (form : ctx.model.form e = .unary op operand) (result : op.apply a = .ok v) :
      Rule ctx [(operand, a)] e v
  | yes {e cond yes no : ExprKey} {v : Value} (form : ctx.model.form e = .choice cond yes no) :
      Rule ctx [(cond, .bool true), (yes, v)] e v
  | no {e cond yes no : ExprKey} {v : Value} (form : ctx.model.form e = .choice cond yes no) :
      Rule ctx [(cond, .bool false), (no, v)] e v

/-- The values that are given to variables without a definition, and to the cells of the arrays
among them. -/
structure Assignment where
  value : VarKey → Option Value
  cell : ExprKey → Option Value

/-- The assignment that gives no value to anything. -/
def Assignment.none : Assignment := ⟨fun _ ↦ .none, fun _ ↦ .none⟩

/-- An expression evaluates to a value under an assignment: there is a finite derivation. -/
inductive Evaluates (ctx : Context) (ρ : Assignment) : ExprKey → Value → Prop where
  | of_rule {e : ExprKey} {v : Value} {premises : List Judgement} (rule : Rule ctx premises e v)
      (sub : ∀ p ∈ premises, Evaluates ctx ρ p.1 p.2) : Evaluates ctx ρ e v
  | assigned {e : ExprKey} {name : String} {x : VarKey} {v : Value}
      (form : ctx.model.form e = .name name (some x))
      (undefined : (ctx.model.variableAt x).definition = none) (given : ρ.value x = some v) :
      Evaluates ctx ρ e v
  | cell {e : ExprKey} {v : Value} (cell : ctx.model.nodes.size ≤ e.index)
      (given : ρ.cell e = some v) : Evaluates ctx ρ e v

/-- A chain of names does not end at a name. -/
theorem Leads.unnamed {ctx : Context} {e x : ExprKey} (h : Leads ctx e (.expression x))
    (name : String) (resolved : Option VarKey) : ctx.model.form x ≠ .name name resolved := by
  generalize hc : ChainEnd.expression x = c at h
  induction h with
  | expression form =>
    cases hc
    exact form name resolved
  | undefined => cases hc
  | definition _ _ _ ih => exact ih hc

/-- An expression evaluates to what the end of its chain of names evaluates to. -/
theorem Leads.evaluates {ctx : Context} {ρ : Assignment} {e x : ExprKey} {v : Value}
    (h : Leads ctx e (.expression x)) (hx : Evaluates ctx ρ x v) : Evaluates ctx ρ e v := by
  generalize hc : ChainEnd.expression x = c at h
  induction h with
  | expression form =>
    cases hc
    exact hx
  | undefined => cases hc
  | definition form defined _ ih =>
    exact .of_rule (.definition form defined) (by simpa using ih hc)

/-- All of some judgements hold under an assignment. -/
def Hold (ctx : Context) (ρ : Assignment) (ps : List Judgement) : Prop :=
  ∀ p ∈ ps, Evaluates ctx ρ p.1 p.2

section Hold

variable {ctx : Context} {ρ : Assignment}

@[simp] theorem hold_nil : Hold ctx ρ [] := by simp [Hold]

@[simp] theorem hold_cons {x : ExprKey} {v : Value} {ps : List Judgement} :
    Hold ctx ρ ((x, v) :: ps) ↔ Evaluates ctx ρ x v ∧ Hold ctx ρ ps := by simp [Hold]

theorem hold_append {ps qs : List Judgement} :
    Hold ctx ρ (ps ++ qs) ↔ Hold ctx ρ ps ∧ Hold ctx ρ qs := List.forall_mem_append

theorem hold_map {xs : List ExprKey} {v : Value} :
    Hold ctx ρ (xs.map fun x ↦ (x, v)) ↔ ∀ x ∈ xs, Evaluates ctx ρ x v := by simp [Hold]

/-- Values of one kind hold one by one. -/
theorem hold_parts {α : Type} {kind : α → Value} {xs : List ExprKey} {as : List α}
    (length : xs.length = as.length) : Hold ctx ρ (parts kind xs as) ↔
      List.Forall₂ (fun x a ↦ Evaluates ctx ρ x (kind a)) xs as := by
  induction xs generalizing as with
  | nil =>
    cases as with
    | nil => simp [parts]
    | cons a as => cases length
  | cons x xs ih =>
    cases as with
    | nil => cases length
    | cons a as =>
      rw [List.forall₂_cons, ← ih (Nat.succ.inj length)]
      exact hold_cons

end Hold

end ConstraintEval
