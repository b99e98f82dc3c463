import ConstraintEval.Proofs.Semantics.Gives
import ConstraintEval.Proofs.Semantics.Reach

/-!
# Values are given by the rules

Whatever an evaluator gives for an expression, in whatever state and with whatever levels, the
expression evaluates to it, unless it comes to a builtin that looks for bounds. The steps of one
level are shown for an evaluator that is right about what they ask for; levels then follow by
induction.
-/

namespace ConstraintEval

/-- Whether a builtin looks for bounds of its argument. -/
def Builtin.looksForBounds : Builtin → Bool
  | .isBounded | .bound _ | .boundOfElements _ => true
  | _ => false

/-- No builtin that looks for bounds can come up while an expression is worked out. -/
def Context.Boundless (ctx : Context) : ExprKey → Prop :=
  ctx.Avoids fun b ↦ b.looksForBounds = true

/-! ### Values of one kind -/

namespace Gives

variable {ev : Evaluator} {e : ExprKey}

theorem of_intOf {i : Integer} (h : Gives (ev.intOf e) i) : Gives (ev.eval e) (.int i) := by
  obtain ⟨v, hv, h⟩ := of_bind h
  have ok := of_ofExcept (of_locating h)
  cases v <;> cases ok
  exact hv

theorem of_boolOf {b : Bool} (h : Gives (ev.boolOf e) b) : Gives (ev.eval e) (.bool b) := by
  obtain ⟨v, hv, h⟩ := of_bind h
  have ok := of_ofExcept (of_locating h)
  cases v <;> cases ok
  exact hv

theorem of_setOf {s : IntegerSet} (h : Gives (ev.setOf e) s) : Gives (ev.eval e) (.set s) := by
  obtain ⟨v, hv, h⟩ := of_bind h
  have ok := of_ofExcept (of_locating h)
  cases v <;> cases ok
  exact hv

theorem of_arrayOf {a : LazyArray} (h : Gives (ev.arrayOf e) a) : Gives (ev.eval e) (.array a) := by
  obtain ⟨v, hv, h⟩ := of_bind h
  have ok := of_ofExcept (of_locating h)
  cases v <;> cases ok
  exact hv

theorem of_soleArg {α : Type} {name : String} {args : List ExprKey} {f : ExprKey → EvalM α} {a : α}
    (h : Gives (soleArg name args >>= f) a) : ∃ arg, args = [arg] ∧ Gives (f arg) a := by
  obtain ⟨arg, sole, result⟩ := of_bind h
  unfold soleArg at sole
  split at sole
  · exact ⟨_, rfl, of_pure sole ▸ result⟩
  · exact (not_fail sole).elim

end Gives

/-! ### Operators -/

section Operators

variable {ctx : Context} {e left right : ExprKey} {op : BinaryOp} {a b v : Value}

/-- What the left operand decides is the value by a rule without a premise for the right one. -/
private theorem Rule.of_decided (form : ctx.model.form e = .binary op left right)
    (decided : op.decided? a = some v) : Rule ctx [(left, a)] e v := by
  unfold BinaryOp.decided? at decided
  split at decided
  · cases decided
    exact .andFalse form
  · cases decided
    exact .orTrue form
  · cases decided

/-- Conjunctions and disjunctions take truth values, and give the right one where it is needed. -/
private theorem bools_of_apply_logic {op : LogicOp}
    (result : (BinaryOp.logic op).apply a b = .ok v) :
    ∃ c d, a = .bool c ∧ b = .bool d ∧ v = .bool d := by
  cases a with
  | bool c =>
    cases b with
    | bool d =>
      cases result
      exact ⟨c, d, rfl, rfl, rfl⟩
    | _ => cases result
  | _ => cases result

/-- What an operator gives for both operands is the value by a rule with a premise for each. -/
private theorem Rule.of_undecided (form : ctx.model.form e = .binary op left right)
    (undecided : op.decided? a = none) (result : op.apply a b = .ok v) :
    Rule ctx [(left, a), (right, b)] e v := by
  cases op with
  | logic op =>
    obtain ⟨c, d, rfl, rfl, rfl⟩ := bools_of_apply_logic result
    cases op with
    | and =>
      cases c with
      | false => cases undecided
      | true => exact .andTrue form
    | or =>
      cases c with
      | false => exact .orFalse form
      | true => cases undecided
  | _ => exact .binary form nofun result

end Operators

/-! ### Steps of an evaluator that is right -/

namespace Evaluator

variable (ev : Evaluator)

/-- What the evaluator gives for an expression it evaluates to, if it looks for no bounds. -/
def Right : Prop :=
  ∀ e v, ev.Boundless e → Gives (ev.eval e) v → Evaluates ev.toContext .none e v

variable {ev : Evaluator} (right : ev.Right)

include right

private theorem hold_ints {xs : List ExprKey} {is : List Integer}
    (hxs : ∀ x ∈ xs, ev.Boundless x) (h : List.Forall₂ (fun x i ↦ Gives (ev.intOf x) i) xs is) :
    Hold ev.toContext .none (parts .int xs is) := by
  rw [hold_parts h.length_eq]
  induction h with
  | nil => exact .nil
  | cons head _ ih =>
    obtain ⟨hx, hxs⟩ := List.forall_mem_cons.1 hxs
    exact .cons (right _ _ hx head.of_intOf) (ih hxs)

/-- The elements of an array that is given look for no bounds, as the array does not. -/
theorem array_of_gives {e : ExprKey} {a : LazyArray} (he : ev.Boundless e)
    (h : Gives (ev.arrayOf e) a) :
    Evaluates ev.toContext .none e (.array a) ∧ ∀ x ∈ a.elements, ev.Boundless x := by
  have array := right e _ he h.of_arrayOf
  exact ⟨array, (closed_avoids ev.toContext _).elements (ρ := .none) (fun _ _ h ↦ nomatch h)
    (fun _ _ h ↦ nomatch h) array he⟩

theorem showsDomain_of_gives {e : ExprKey} {s : IntegerSet} (he : ev.Boundless e)
    (h : Gives (ev.domainOf e) s) :
    ∃ ps, ShowsDomain ev.toContext ps e s ∧ Hold ev.toContext .none ps := by
  obtain ⟨c, hc, h⟩ := Gives.of_bind (Gives.of_locating (Gives.of_inScope h))
  have chain := Gives.of_chainEnd hc
  have inEnd := (closed_avoids ev.toContext _).chainEnd he chain
  cases c with
  | undefined v =>
    simp only [domainOfDeclared] at h
    split at h
    · next d domain =>
      have set := right d _ (inEnd d domain) h.of_setOf
      exact ⟨_, .declared chain domain, by simpa using set⟩
    · exact h.not_throw.elim
  | expression x =>
    simp only at h
    split at h
    · next i form =>
      rw [Gives.of_pure h]
      exact ⟨_, .literal chain form, hold_nil⟩
    · exact h.not_failAt.elim

theorem showDomains_of_gives {xs : List ExprKey} {ss : List IntegerSet}
    (hxs : ∀ x ∈ xs, ev.Boundless x) (h : List.Forall₂ (fun x s ↦ Gives (ev.domainOf x) s) xs ss) :
    ∃ ps, ShowDomains ev.toContext ps xs ss ∧ Hold ev.toContext .none ps := by
  induction h with
  | nil => exact ⟨[], .nil, hold_nil⟩
  | cons head _ ih =>
    obtain ⟨hx, hxs⟩ := List.forall_mem_cons.1 hxs
    obtain ⟨ps, first, holds⟩ := showsDomain_of_gives right hx head
    obtain ⟨qs, rest, holds'⟩ := ih hxs
    exact ⟨ps ++ qs, .cons first rest, hold_append.2 ⟨holds, holds'⟩⟩

private theorem applies_upperSet_of_gives {arg : ExprKey} {s : IntegerSet}
    (harg : ev.Boundless arg) (h : Gives (ev.upperSet arg) s) :
    ∃ ps, Applies ev.toContext ps .upperSet [arg] (.set s) ∧ Hold ev.toContext .none ps := by
  obtain ⟨c, hc, h⟩ := Gives.of_bind (Gives.of_locating (Gives.of_inScope h))
  have chain := Gives.of_chainEnd hc
  have inEnd := (closed_avoids ev.toContext _).chainEnd harg chain
  cases c with
  | undefined v =>
    simp only [domainOfDeclared] at h
    split at h
    · next d domain =>
      have set := right d _ (inEnd d domain) h.of_setOf
      exact ⟨_, .upperSetDeclared chain domain, by simpa using set⟩
    · exact h.not_throw.elim
  | expression x =>
    simp only at h
    split at h
    · next members form =>
      have set := right x _ inEnd h.of_setOf
      exact ⟨_, .upperSetWritten chain (Or.inl ⟨members, form⟩), by simpa using set⟩
    · next lo hi form =>
      have set := right x _ inEnd h.of_setOf
      exact ⟨_, .upperSetWritten chain (Or.inr ⟨lo, hi, form⟩), by simpa using set⟩
    · exact h.not_failAt.elim

omit right in
private theorem foldl_of_gives {γ : Type} {xs : List ExprKey} {f : ExprKey → EvalM γ}
    {op : γ → γ → γ} {a b : γ}
    (h : Gives (xs.foldlM (fun acc x ↦ do return op acc (← f x)) a) b) :
    ∃ cs, List.Forall₂ (fun x c ↦ Gives (f x) c) xs cs ∧ cs.foldl op a = b := by
  have next (c d e) (h : Gives (pure (op c d) : EvalM γ) e) : pure (op c d) = some e := by
    rw [h.of_pure]
    rfl
  obtain ⟨cs, hcs, fold⟩ := Gives.of_foldlM next h
  rw [List.foldlM_pure] at fold
  exact ⟨cs, hcs, Option.some.inj fold⟩

private theorem applies_domainOfElements_of_gives {arg : ExprKey} {s : IntegerSet}
    (harg : ev.Boundless arg) (h : Gives (ev.domainOfElements arg) s) :
    ∃ ps, Applies ev.toContext ps .domainOfElements [arg] (.set s) ∧
      Hold ev.toContext .none ps := by
  obtain ⟨a, ha, h⟩ := Gives.of_bind (Gives.of_locating (Gives.of_inScope h))
  obtain ⟨c, hc, ha⟩ := ha.of_bind
  obtain ⟨ss, hss, fold⟩ := foldl_of_gives h
  have chain := Gives.of_chainEnd hc
  have inEnd := (closed_avoids ev.toContext _).chainEnd harg chain
  cases c with
  | undefined v => exact ha.not_throw.elim
  | expression x =>
    have given (ha : Gives (ev.arrayOf x) a)
        (form : (∃ literal, ev.model.form x = .array literal) ∨
          ∃ name f args, ev.model.form x = .call name f args) :
        ∃ ps, Applies ev.toContext ps .domainOfElements [arg] (.set s) ∧
          Hold ev.toContext .none ps := by
      obtain ⟨array, elements⟩ := array_of_gives right inEnd ha
      obtain ⟨ps, shows, holds⟩ := showDomains_of_gives right elements hss
      exact ⟨_, fold ▸ .domainOfElements chain form shows, hold_cons.2 ⟨array, holds⟩⟩
    simp only at ha
    split at ha
    · next literal form => exact given ha (Or.inl ⟨literal, form⟩)
    · next name f args form => exact given ha (Or.inr ⟨name, f, args, form⟩)
    · exact ha.not_failAt.elim

private theorem applies_indexSet_of_gives {k : Nat} {arg : ExprKey} {s : IntegerSet}
    (harg : ev.Boundless arg) (hsets : ∀ x ∈ ev.model.indexSetsOf arg, ev.Boundless x)
    (h : Gives (ev.indexSet arg k) s) :
    ∃ ps, Applies ev.toContext ps (.indexSet k) [arg] (.set s) ∧ Hold ev.toContext .none ps := by
  unfold indexSet at h
  split at h
  · next name v form =>
    simp only at h
    split at h
    · exact h.not_failAt.elim
    · next set entry =>
      have hset := hsets set (Model.mem_indexSetsOf form entry)
      have set := right set _ hset h.of_setOf
      exact ⟨_, .indexSetDeclared form entry, by simpa using set⟩
    · next entry =>
      obtain ⟨a, ha, h⟩ := h.of_bind
      obtain ⟨array, -⟩ := array_of_gives right harg ha
      split at h
      · next r range =>
        rw [Gives.of_pure h]
        exact ⟨_, .indexSetOfArray form entry range, by simpa using array⟩
      · exact h.not_failAt.elim
  · exact h.not_failAt.elim
  · exact h.not_failAt.elim

private theorem set_of_gives_indexRange {operation : String} {x : ExprKey} {r : Interval}
    (hx : ev.Boundless x) (h : Gives (ev.indexRange operation x) r) :
    ∃ s, Evaluates ev.toContext .none x (.set s) ∧ s.interval? = some r := by
  obtain ⟨s, hs, h⟩ := h.of_bind
  have set := right x _ hx hs.of_setOf
  split at h
  · next interval =>
    rw [Gives.of_pure h]
    exact ⟨s, set, interval⟩
  · exact h.not_failAt.elim

private theorem sets_of_gives_indexRanges {operation : String} {xs : List ExprKey}
    {rs : List Interval} (hxs : ∀ x ∈ xs, ev.Boundless x)
    (h : List.Forall₂ (fun x r ↦ Gives (ev.indexRange operation x) r) xs rs) :
    ∃ ss : List IntegerSet,
      List.Forall₂ (fun x s ↦ Evaluates ev.toContext .none x (.set s)) xs ss ∧
        ss.map IntegerSet.interval? = rs.map some := by
  induction h with
  | nil => exact ⟨[], .nil, rfl⟩
  | cons head _ ih =>
    obtain ⟨hx, hxs⟩ := List.forall_mem_cons.1 hxs
    obtain ⟨s, set, interval⟩ := set_of_gives_indexRange right hx head
    obtain ⟨ss, sets, intervals⟩ := ih hxs
    exact ⟨s :: ss, .cons set sets, by rw [List.map_cons, List.map_cons, interval, intervals]⟩

private theorem applies_rearrange_of_gives {n : Nat} {args : List ExprKey} {b : LazyArray}
    (hargs : ∀ x ∈ args, ev.Boundless x) (h : Gives (ev.rearrange n args) b) :
    ∃ ps, Applies ev.toContext ps (.rearrange n) args (.array b) ∧
      Hold ev.toContext .none ps := by
  unfold rearrange at h
  simp only at h
  split at h
  · next sets flat split' =>
    have mem : ∀ x, x ∈ sets ∨ x = flat → x ∈ args := by
      rw [List.splitAt_eq, Prod.mk.injEq] at split'
      intro x hx
      rcases hx with hx | rfl
      · exact List.mem_of_mem_take (split'.1 ▸ hx)
      · exact List.mem_of_mem_drop (split'.2 ▸ List.mem_singleton_self x)
    obtain ⟨a, ha, h⟩ := h.of_bind
    obtain ⟨ranges, hranges, h⟩ := h.of_bind
    obtain ⟨array, -⟩ := array_of_gives right (hargs flat (mem flat (Or.inr rfl))) ha
    obtain ⟨ss, sets', intervals⟩ :=
      sets_of_gives_indexRanges right (fun x hx ↦ hargs x (mem x (Or.inl hx))) hranges.of_mapM
    split at h
    · next fits =>
      rw [Gives.of_pure h]
      refine ⟨_, .rearrange split' sets'.length_eq intervals fits, hold_cons.2 ⟨array, ?_⟩⟩
      exact (hold_parts sets'.length_eq).2 sets'
    · exact h.not_failAt.elim
  · exact h.not_fail.elim

private theorem applies_extremum_of_gives {side : Side} {args : List ExprKey} {i : Integer}
    (hargs : ∀ x ∈ args, ev.Boundless x) (h : Gives (ev.extremum side args) i) :
    ∃ ps, Applies ev.toContext ps (.extremum side) args (.int i) ∧
      Hold ev.toContext .none ps := by
  unfold extremum at h
  split at h
  · next arg =>
    split at h
    · exact h.not_fail.elim
    · next scalar =>
      obtain ⟨a, ha, h⟩ := h.of_bind
      obtain ⟨is, his, h⟩ := h.of_bind
      obtain ⟨array, elements⟩ := array_of_gives right (hargs arg (by simp)) ha
      have his := his.of_mapM
      have ints := hold_ints right elements his
      cases is with
      | nil => exact h.not_fail.elim
      | cons i is =>
        rw [Gives.of_pure h]
        exact ⟨_, .extremum (Bool.not_eq_true _ ▸ scalar) his.length_eq, hold_cons.2 ⟨array, ints⟩⟩
  · next x y =>
    obtain ⟨i, hi, h⟩ := h.of_bind
    obtain ⟨j, hj, h⟩ := h.of_bind
    have first := right x _ (hargs x (by simp)) hi.of_intOf
    have second := right y _ (hargs y (by simp)) hj.of_intOf
    rw [Gives.of_pure h]
    exact ⟨_, .extremumOfTwo, by simpa using ⟨first, second⟩⟩
  · exact h.not_fail.elim

private theorem applies_sum_of_gives {args : List ExprKey} {i : Integer}
    (hargs : ∀ x ∈ args, ev.Boundless x) (h : Gives (ev.sum args) i) :
    ∃ ps, Applies ev.toContext ps .sum args (.int i) ∧ Hold ev.toContext .none ps := by
  obtain ⟨arg, rfl, hsum⟩ := Gives.of_soleArg h
  obtain ⟨a, ha, hsum⟩ := hsum.of_bind
  obtain ⟨array, elements⟩ := array_of_gives right (hargs arg (by simp)) ha
  have next (c d total : Integer)
      (h : Gives (EvalM.ofOption (.overflow "sum") (c.add? d)) total) : c.add? d = some total :=
    h.of_ofOption
  obtain ⟨is, his, total⟩ := Gives.of_foldlM next hsum
  exact ⟨_, .sum his.length_eq total, hold_cons.2 ⟨array, hold_ints right elements his⟩⟩

private theorem applies_allOf_of_gives {args : List ExprKey} {b : Bool}
    (hargs : ∀ x ∈ args, ev.Boundless x) (h : Gives (ev.allOf args) b) :
    ∃ ps, Applies ev.toContext ps .allOf args (.bool b) ∧ Hold ev.toContext .none ps := by
  obtain ⟨arg, rfl, hall⟩ := Gives.of_soleArg h
  obtain ⟨a, ha, hall⟩ := hall.of_bind
  obtain ⟨array, elements⟩ := array_of_gives right (hargs arg (by simp)) ha
  rcases hall.of_allM with ⟨rfl, all⟩ | ⟨rfl, before, x, after, split, all, stop⟩
  · refine ⟨_, .allTrue, hold_cons.2 ⟨array, hold_map.2 ?_⟩⟩
    intro x hx
    exact right x _ (elements x hx) (all x hx).of_boolOf
  · refine ⟨_, .someFalse split, hold_cons.2 ⟨array, hold_cons.2 ⟨?_, hold_map.2 ?_⟩⟩⟩
    · exact right x _ (elements x (by simp [split])) stop.of_boolOf
    · intro y hy
      exact right y _ (elements y (by simp [split, hy])) (all y hy).of_boolOf

private theorem applies_anyOf_of_gives {args : List ExprKey} {b : Bool}
    (hargs : ∀ x ∈ args, ev.Boundless x) (h : Gives (ev.anyOf args) b) :
    ∃ ps, Applies ev.toContext ps .anyOf args (.bool b) ∧ Hold ev.toContext .none ps := by
  obtain ⟨arg, rfl, hany⟩ := Gives.of_soleArg h
  obtain ⟨a, ha, hany⟩ := hany.of_bind
  obtain ⟨array, elements⟩ := array_of_gives right (hargs arg (by simp)) ha
  rcases hany.of_anyM with ⟨rfl, all⟩ | ⟨rfl, before, x, after, split, all, stop⟩
  · refine ⟨_, .allFalse, hold_cons.2 ⟨array, hold_map.2 ?_⟩⟩
    intro x hx
    exact right x _ (elements x hx) (all x hx).of_boolOf
  · refine ⟨_, .someTrue split, hold_cons.2 ⟨array, hold_cons.2 ⟨?_, hold_map.2 ?_⟩⟩⟩
    · exact right x _ (elements x (by simp [split])) stop.of_boolOf
    · intro y hy
      exact right y _ (elements y (by simp [split, hy])) (all y hy).of_boolOf

private theorem applies_cardinality_of_gives {arg : ExprKey} {i : Integer}
    (harg : ev.Boundless arg) (h : Gives (ev.cardinality arg) i) :
    ∃ ps, Applies ev.toContext ps .cardinality [arg] (.int i) ∧ Hold ev.toContext .none ps := by
  obtain ⟨s, hs, h⟩ := h.of_bind
  have set := right arg _ harg hs.of_setOf
  split at h
  · next size =>
    rw [Gives.of_pure h]
    exact ⟨_, .cardinality size, by simpa using set⟩
  · exact h.not_failAt.elim

/-- A builtin that gives a value applies by its rule. -/
theorem applies_of_gives {args : List ExprKey} {b : Builtin} {v : Value}
    (mentioned : ∀ x ∈ ev.model.mentionedByCall args b, ev.Boundless x)
    (looks : b.looksForBounds = false) (h : Gives (ev.apply args b) v) :
    ∃ ps, Applies ev.toContext ps b args v ∧ Hold ev.toContext .none ps := by
  have hargs : ∀ x ∈ args, ev.Boundless x :=
    fun x hx ↦ mentioned x (Model.mem_mentionedByCall b hx)
  cases b with
  | extremum side =>
    change Gives (Value.int <$> ev.extremum side args) v at h
    obtain ⟨i, hi, rfl⟩ := h.of_map
    exact applies_extremum_of_gives right hargs hi
  | extremumOfSet side =>
    change Gives (Value.int <$> ev.extremumOfSet side args) v at h
    obtain ⟨i, hi, rfl⟩ := h.of_map
    obtain ⟨arg, rfl, hmember⟩ := Gives.of_soleArg hi
    obtain ⟨s, hs, hmember⟩ := hmember.of_bind
    have set := right arg _ (hargs arg (by simp)) hs.of_setOf
    exact ⟨_, .extremumOfSet hmember.of_ofOption, by simpa using set⟩
  | sum =>
    change Gives (Value.int <$> ev.sum args) v at h
    obtain ⟨i, hi, rfl⟩ := h.of_map
    exact applies_sum_of_gives right hargs hi
  | length =>
    change Gives (Value.int <$> ev.length args) v at h
    obtain ⟨i, hi, rfl⟩ := h.of_map
    obtain ⟨arg, rfl, hlen⟩ := Gives.of_soleArg hi
    obtain ⟨a, ha, hlen⟩ := hlen.of_bind
    obtain ⟨array, -⟩ := array_of_gives right (hargs arg (by simp)) ha
    exact ⟨_, .length hlen.of_ofOption, by simpa using array⟩
  | boolToInt =>
    change Gives (Value.int <$> ev.boolToInt args) v at h
    obtain ⟨i, hi, rfl⟩ := h.of_map
    obtain ⟨arg, rfl, hbool⟩ := Gives.of_soleArg hi
    obtain ⟨b, hb, hbool⟩ := hbool.of_bind
    have bool := right arg _ (hargs arg (by simp)) hb.of_boolOf
    rw [Gives.of_pure hbool]
    exact ⟨_, .boolToInt, by simpa using bool⟩
  | allOf =>
    change Gives (Value.bool <$> ev.allOf args) v at h
    obtain ⟨b, hb, rfl⟩ := h.of_map
    exact applies_allOf_of_gives right hargs hb
  | anyOf =>
    change Gives (Value.bool <$> ev.anyOf args) v at h
    obtain ⟨b, hb, rfl⟩ := h.of_map
    exact applies_anyOf_of_gives right hargs hb
  | cardinality =>
    obtain ⟨arg, rfl, hcard⟩ := Gives.of_soleArg h
    obtain ⟨i, hi, hcard⟩ := hcard.of_bind
    rw [Gives.of_pure hcard]
    exact applies_cardinality_of_gives right (hargs arg (by simp)) hi
  | upperSet =>
    obtain ⟨arg, rfl, hset⟩ := Gives.of_soleArg h
    obtain ⟨s, hs, hset⟩ := hset.of_bind
    rw [Gives.of_pure hset]
    exact applies_upperSet_of_gives right (hargs arg (by simp)) hs
  | domain =>
    obtain ⟨arg, rfl, hset⟩ := Gives.of_soleArg h
    obtain ⟨s, hs, hset⟩ := hset.of_bind
    obtain ⟨ps, shows, holds⟩ := showsDomain_of_gives right (hargs arg (by simp)) hs
    rw [Gives.of_pure hset]
    exact ⟨ps, .domain shows, holds⟩
  | domainOfElements =>
    obtain ⟨arg, rfl, hset⟩ := Gives.of_soleArg h
    obtain ⟨s, hs, hset⟩ := hset.of_bind
    rw [Gives.of_pure hset]
    exact applies_domainOfElements_of_gives right (hargs arg (by simp)) hs
  | indexSet k =>
    obtain ⟨arg, rfl, hset⟩ := Gives.of_soleArg h
    obtain ⟨s, hs, hset⟩ := hset.of_bind
    rw [Gives.of_pure hset]
    have hsets : ∀ x ∈ ev.model.indexSetsOf arg, ev.Boundless x := by
      intro x hx
      exact mentioned x (Model.mem_mentionedByCall_indexSet k (List.mem_singleton_self arg) hx)
    exact applies_indexSet_of_gives right (hargs arg (by simp)) hsets hs
  | rearrange n =>
    change Gives (Value.array <$> ev.rearrange n args) v at h
    obtain ⟨a, ha, rfl⟩ := h.of_map
    exact applies_rearrange_of_gives right hargs ha
  | isBounded => cases looks
  | bound side => cases looks
  | boundOfElements side => cases looks

private theorem evaluates_of_gives_element {e source : ExprKey} {indices : List ExprKey} {v : Value}
    (he : ev.Boundless e) (form : ev.model.form e = .element source indices)
    (h : Gives (ev.valueOfElement source indices) v) : Evaluates ev.toContext .none e v := by
  have closed := closed_avoids ev.toContext fun b ↦ b.looksForBounds = true
  have hoperand : ∀ x ∈ source :: indices, ev.Boundless x := by
    intro x hx
    exact closed.operand he (by rw [form]; exact hx)
  obtain ⟨hsource, hindices⟩ := List.forall_mem_cons.1 hoperand
  obtain ⟨a, ha, h⟩ := h.of_bind
  obtain ⟨is, his, h⟩ := h.of_bind
  obtain ⟨x, hx, h⟩ := h.of_bind
  obtain ⟨array, elements⟩ := array_of_gives right hsource ha
  have his := his.of_mapM
  have selected := hx.of_ofExcept
  have value := right x v (elements x (mem_elements_of_select selected)) h
  exact .of_rule (.element form his.length_eq selected)
    (hold_cons.2 ⟨array, hold_cons.2 ⟨value, hold_ints right hindices his⟩⟩)

private theorem evaluates_of_gives_binary {e left right' : ExprKey} {op : BinaryOp} {v : Value}
    (he : ev.Boundless e) (form : ev.model.form e = .binary op left right')
    (h : Gives (ev.valueOfBinary op left right') v) : Evaluates ev.toContext .none e v := by
  have closed := closed_avoids ev.toContext fun b ↦ b.looksForBounds = true
  obtain ⟨a, ha, h⟩ := h.of_bind
  have first := right left a (closed.operand he (by simp [form, Form.operands])) ha
  split at h
  · next decided =>
    rw [Gives.of_pure h]
    exact .of_rule (Rule.of_decided form decided) (by simpa using first)
  · next undecided =>
    obtain ⟨b, hb, h⟩ := h.of_bind
    have second := right right' b (closed.operand he (by simp [form, Form.operands])) hb
    exact .of_rule (Rule.of_undecided form undecided h.of_ofExcept) (by simpa using ⟨first, second⟩)

private theorem evaluates_of_gives_form {e : ExprKey} {v : Value} (he : ev.Boundless e)
    (unnamed : ∀ name resolved, ev.model.form e ≠ .name name resolved)
    (h : Gives (ev.valueByForm e) v) : Evaluates ev.toContext .none e v := by
  have closed := closed_avoids ev.toContext fun b ↦ b.looksForBounds = true
  have operand {x : ExprKey} : x ∈ (ev.model.form e).operands → ev.Boundless x := closed.operand he
  unfold valueByForm at h
  split at h
  · next form =>
    rw [Gives.of_pure h]
    exact .of_rule (.int form) hold_nil
  · next form =>
    rw [Gives.of_pure h]
    exact .of_rule (.bool form) hold_nil
  · next members form =>
    obtain ⟨is, his, h⟩ := h.of_bind
    have his := his.of_mapM
    rw [Gives.of_pure h]
    refine .of_rule (.set form his.length_eq) (hold_ints right ?_ his)
    intro x hx
    exact operand (by simpa [form, Form.operands] using hx)
  · next lo hi form =>
    obtain ⟨i, hi', h⟩ := h.of_bind
    obtain ⟨j, hj, h⟩ := h.of_bind
    have low := right lo _ (operand (by simp [form, Form.operands])) hi'.of_intOf
    have high := right hi _ (operand (by simp [form, Form.operands])) hj.of_intOf
    rw [Gives.of_pure h]
    exact .of_rule (.between form) (by simpa using ⟨low, high⟩)
  · next name resolved form => exact (unnamed name resolved form).elim
  · next literal form =>
    have ok := h.of_ofExcept
    cases fits : LazyArray.ofLiteral literal (ev.model.ty e) with
    | error f =>
      rw [fits] at ok
      cases ok
    | ok a =>
      rw [fits] at ok
      cases ok
      exact .of_rule (.array form fits) hold_nil
  · next source indices form => exact evaluates_of_gives_element right he form h
  · next name resolved args form =>
    unfold valueOfCall at h
    split at h
    · exact h.not_fail.elim
    · next f =>
      split at h
      · exact h.not_fail.elim
      · next b bound =>
        have mentioned := closed.call he form bound
        have looks : b.looksForBounds = false := by
          simpa using he e .refl name f args b form bound
        obtain ⟨ps, applies, holds⟩ := applies_of_gives right mentioned looks h.of_inScope
        exact .of_rule (.call form bound applies) holds
  · next op left right' form => exact evaluates_of_gives_binary right he form h
  · next op x form =>
    obtain ⟨a, ha, h⟩ := h.of_bind
    have value := right x a (operand (by simp [form, Form.operands])) ha
    exact .of_rule (.unary form h.of_ofExcept) (by simpa using value)
  · next cond yes no form =>
    obtain ⟨b, hb, h⟩ := h.of_bind
    have condition := right cond _ (operand (by simp [form, Form.operands])) hb.of_boolOf
    cases b with
    | true =>
      have value := right yes v (operand (by simp [form, Form.operands])) h
      exact .of_rule (.yes form) (by simpa using ⟨condition, value⟩)
    | false =>
      have value := right no v (operand (by simp [form, Form.operands])) h
      exact .of_rule (.no form) (by simpa using ⟨condition, value⟩)

/-- An evaluator is right about what it works out from answers that are right. -/
theorem evaluates_of_gives_valueStep {e : ExprKey} {v : Value} (he : ev.Boundless e)
    (h : Gives (ev.valueStep e) v) : Evaluates ev.toContext .none e v := by
  obtain ⟨w, hw, h⟩ := h.of_bind
  obtain ⟨-, -, h⟩ := h.of_bind
  obtain ⟨c, hc, hw⟩ := Gives.of_bind hw.of_inScope.of_locating
  have chain := Gives.of_chainEnd hc
  rw [Gives.of_pure h]
  cases c with
  | undefined x => exact hw.not_throw.elim
  | expression x =>
    have inEnd := (closed_avoids ev.toContext _).chainEnd he chain
    exact chain.evaluates (evaluates_of_gives_form right inEnd chain.unnamed hw)

end Evaluator

/-- Every number of levels makes an evaluator that is right. -/
theorem right_ofLevels (ctx : Context) (n : Nat) : (Evaluator.ofLevels ctx n).Right := by
  induction n with
  | zero =>
    rintro e v - ⟨s, t, h⟩
    cases h
  | succ n ih =>
    intro e v he h
    rw [Evaluator.toContext_ofLevels] at he ⊢
    have step := Evaluator.evaluates_of_gives_valueStep ih (e := e) (v := v)
    rw [Evaluator.toContext_ofLevels] at step
    exact step he h

/-- The values that the evaluator of a model gives are values by the rules, whatever is pending
and whatever the limit on nested declarations. -/
theorem evaluates_of_eval {ctx : Context} {e : ExprKey} {v : Value} {s t : EvalState}
    (boundless : ctx.Boundless e) (h : ctx.evaluator.eval e s = some (.ok v, t)) :
    Evaluates ctx .none e v := by
  have right := right_ofLevels ctx ctx.levels e v
  rw [Evaluator.toContext_ofLevels] at right
  exact right boundless ⟨s, t, h⟩

end ConstraintEval
