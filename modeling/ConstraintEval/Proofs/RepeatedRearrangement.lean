import ConstraintEval.Proofs.Acyclic.Building
import ConstraintEval.Proofs.Acyclic.Settling
import ConstraintEval.Proofs.ArrayIndexing
import ConstraintEval.Proofs.Logic.Apart
import ConstraintEval.Proofs.Rearrangement
import ConstraintEval.Proofs.Semantics.Chains

/-!
# Arrays that are rearranged again

Arranging elements in other dimensions replaces the index ranges of an array and nothing else. So
under given index sets a rearranged array comes to the same as the array that it was made from. The
two calls mean the same function, since whatever the library makes of arrays of one type it makes of
rearranged arrays of that type as well. Only a function that is declared beside the library can take
one of them and not the other.

A variable that is defined by such a call and declared without index sets has the index sets of the
call, and an access to it leads to the element of the original array with the same row-major rank.
-/

namespace ConstraintEval

open Relation

variable {ctx : Context} {p : Pending} {m n : Nat} {sets ts : List ExprKey}
  {a c g x : ExprKey} {u w : LazyArray} {ranges : List Interval}

/-! ### Other ranges for the same elements -/

/-- A set that is an interval is the range between its ends. -/
theorem IntegerSet.eq_range_of_interval? {s : IntegerSet} {r : Interval}
    (h : s.interval? = some r) : s = .range r.lo r.hi := by
  unfold interval? at h
  split at h
  · next runs =>
    cases h
    have le : r.lo ≤ r.hi := (canonical_cons.1 (runs ▸ s.canonical)).1
    ext1
    rw [runs]
    exact (if_pos le).symm
  · cases h

theorem LazyArray.ranges_of_rearrange? (h : u.rearrange? ranges = some w) :
    w.ranges = ranges := by
  unfold rearrange? at h
  split at h
  · cases h
    rfl
  · cases h

/-- Only the last ranges count. -/
theorem LazyArray.rearrange?_of_rearrange? (h : u.rearrange? ranges = some w)
    (others : List Interval) : w.rearrange? others = u.rearrange? others := by
  unfold rearrange? at h
  split at h
  · cases h
    rfl
  · cases h

theorem alike_rearrangeUnder (h : u.rearrange? ranges = some w) (others : List Interval) :
    Alike (· = ·) (ctx.evaluator.rearrangeUnder g w others)
      (ctx.evaluator.rearrangeUnder a u others) := by
  have length : w.length = u.length := congrArg List.length (elements_of_rearrange? h)
  unfold Evaluator.rearrangeUnder
  rw [LazyArray.rearrange?_of_rearrange? h, length]
  cases u.rearrange? others with
  | some v => exact .ofExcept (.ok v)
  | none => exact Alike.failAt g a _

theorem steady_rearrange (count : sets.length = n) (flat : ExprKey) :
    Steady (ctx.evaluator.rearrange n (sets ++ [flat])).run := by
  rw [Evaluator.rearrange_eq count]
  exact (steady_arrayOf flat).andThen fun a ↦ (Steady.mapM sets (steady_indexRange _)).andThen
    (steady_rearrangeUnder flat a)

/-- Rearranging comes to the same for a rearranged array as for the original one. -/
private theorem alike_rearrange (count : sets.length = n)
    (array : GivesAt p (ctx.evaluator.arrayOf a) u) (array' : GivesAt p (ctx.evaluator.arrayOf g) w)
    (found : u.rearrange? ranges = some w) :
    Alike (fun q q' ↦ q = p ∧ q' = p) (ctx.evaluator.rearrange n (sets ++ [g]))
      (ctx.evaluator.rearrange n (sets ++ [a])) := by
  rw [Evaluator.rearrange_eq count, Evaluator.rearrange_eq count]
  have steady : Steady (sets.mapM (ctx.evaluator.indexRange (Library.rearrangeName n))).run :=
    .mapM sets (steady_indexRange _)
  refine .bind_of_givesAt array' array (steady_arrayOf g) (steady_arrayOf a) ?_
  exact .bind steady.keepsPending steady.keepsPending steady.alike fun others _ ↦
    alike_rearrangeUnder found others

/-! ### The function that a call means -/

namespace Library

/-- The function that arranges elements of some kind in `n` dimensions. -/
def rearranger (n : Nat) (mode : Mode) (presence : Presence) : Overload :=
  ⟨rearrangeName n, List.replicate n (.intSet .par) ++ [.any mode presence Ty.anyRank],
    .any mode presence n⟩

theorem rearranger_mem_declarations : ∀ n ∈ ranks, ∀ k ∈ rearranged,
    rearranger n k.1 k.2 ∈ declarations := by
  decide +kernel

theorem exists_rearranger : ∀ n ∈ ranks, ∀ o ∈ declarations, o.name = rearrangeName n →
    ∃ k ∈ rearranged, o = rearranger n k.1 k.2 := by
  decide +kernel

private theorem pos_of_mem_ranks : ∀ n ∈ ranks, (n : Int) ≠ 0 := by
  decide

end Library

namespace Model.IsCall

variable {md : Model} {name : String} {args args' : List ExprKey}

/-- Calls with arguments that select the same mean the same. -/
theorem exists_forms (call : md.IsCall c name args) (call' : md.IsCall g name args')
    (same : md.select name (args.map md.ty) = md.select name (args'.map md.ty)) :
    ∃ resolved, md.form c = .call name resolved args ∧ md.form g = .call name resolved args' := by
  unfold IsCall resolvedCall at call call'
  rw [← same] at call'
  cases selected : md.select name (args.map md.ty) <;> rw [selected] at call call' <;>
    exact ⟨_, congrArg Prod.fst call, congrArg Prod.fst call'⟩

end Model.IsCall

section Calls

variable {user : List Overload}
  (declared : ctx.model.overloads.toList = Library.declarations ++ user)
  (registered : ctx.registry = .ofImplementations Library.implementations)

include declared

/-- A rearranged array is taken for the same kinds of elements as the original one. -/
private theorem le_iff_of_rearranged (hm : m ∈ Library.ranks) {fn : FnKey} {impl : Implementation}
    (call : ctx.model.IsCall g (Library.rearrangeName m) (ts ++ [a]))
    (calls : ctx.CallsLibrary g (Library.rearrangeName m) (ts ++ [a]) fn impl)
    {k : Mode × Presence} (hk : k ∈ Library.rearranged) :
    ctx.model.ty g ≤ .any k.1 k.2 Ty.anyRank ↔ ctx.model.ty a ≤ .any k.1 k.2 Ty.anyRank := by
  obtain ⟨k', -, eq⟩ := Library.exists_rearranger m hm _ calls.overload calls.called
  have accepts := calls.accepts
  rw [List.map_append, List.map_singleton, eq, Library.rearranger, Fits.concat_iff] at accepts
  rw [calls.ty, eq, Library.rearranger, Ty.any_le_any_iff (Library.pos_of_mem_ranks m hm),
    ← Ty.any_le_any_iff (r := Ty.anyRank) (by decide)]
  refine ⟨Ty.le_trans accepts.2, fun le ↦ ?_⟩
  -- the function for this kind takes the original array, so what was selected takes no more
  obtain ⟨f, declares, at'⟩ :=
    Library.exists_declares declared (Library.rearranger_mem_declarations m hm k hk)
  have accepts' : Fits ((ts ++ [a]).map ctx.model.ty) (ctx.model.overloadAt f).params := by
    rw [at', List.map_append, List.map_singleton, Library.rearranger, Fits.concat_iff]
    exact ⟨accepts.1, le⟩
  have fits := Model.fits_of_select (call.select_of_form calls.form) ⟨declares, accepts'⟩
  rw [eq, at', Library.rearranger, Library.rearranger, Fits.concat_iff] at fits
  exact fits.2

/-- The same is selected for a rearranged array as for the original one, if the functions that are
declared beside the library do not tell them apart. -/
private theorem select_of_rearranged (hm : m ∈ Library.ranks) (hn : n ∈ Library.ranks) {fn : FnKey}
    {impl : Implementation} (call : ctx.model.IsCall g (Library.rearrangeName m) (ts ++ [a]))
    (calls : ctx.CallsLibrary g (Library.rearrangeName m) (ts ++ [a]) fn impl)
    (beside : ∀ f ∈ user, f.name = Library.rearrangeName n →
      (Fits ((sets ++ [g]).map ctx.model.ty) f.params ↔
        Fits ((sets ++ [a]).map ctx.model.ty) f.params)) :
    ctx.model.select (Library.rearrangeName n) ((sets ++ [g]).map ctx.model.ty) =
      ctx.model.select (Library.rearrangeName n) ((sets ++ [a]).map ctx.model.ty) := by
  refine Model.select_eq_of_accepts fun f ↦ and_congr_right fun declares ↦ ?_
  rcases Library.mem_of_declares declared declares with library | other
  · obtain ⟨k, hk, eq⟩ := Library.exists_rearranger n hn _ library declares.2
    rw [eq, Library.rearranger, List.map_append, List.map_append, List.map_singleton,
      List.map_singleton, Fits.concat_iff, Fits.concat_iff,
      le_iff_of_rearranged declared hm call calls hk]
  · exact beside _ other declares.2

include registered

/-- Under given index sets a rearranged array comes to the same as the original one. -/
private theorem comesTo_of_rearranged (hm : m ∈ Library.ranks) (hn : n ∈ Library.ranks)
    (count : sets.length = n) (count' : ts.length = m) {c' : ExprKey} {v : Value}
    (call : ctx.model.IsCall c (Library.rearrangeName n) (sets ++ [a]))
    (call' : ctx.model.IsCall c' (Library.rearrangeName n) (sets ++ [g]))
    (rearranges : ctx.model.IsCall g (Library.rearrangeName m) (ts ++ [a]))
    (beside : ∀ f ∈ user, f.name = Library.rearrangeName n →
      (Fits ((sets ++ [g]).map ctx.model.ty) f.params ↔
        Fits ((sets ++ [a]).map ctx.model.ty) f.params))
    (rearranged : GivesAt p (ctx.evaluator.eval g) v) {s : EvalState} (pending : s.pending = p) :
    (ctx.evaluator.eval c').comesTo s = (ctx.evaluator.eval c).comesTo s := by
  obtain ⟨fn, impl, u, ranges, w, calls, array, -, found, rfl⟩ :=
    exists_rearranged declared registered hm count' rearranges rearranged
  obtain ⟨resolved, form', form⟩ := call'.exists_forms call
    (select_of_rearranged declared hm hn rearranges calls beside)
  rw [EvalM.comesTo_eval_of_form (by simp [form']), EvalM.comesTo_eval_of_form (by simp [form]),
    valueByForm_call form', valueByForm_call form]
  cases resolved with
  | none => rfl
  | some f =>
    unfold Evaluator.valueOfCall
    simp only
    cases bound : ctx.evaluator.registry.builtin? f with
    | none => rfl
    | some b =>
      have bound' : (Registry.ofImplementations Library.implementations).builtin? f = some b :=
        registered ▸ bound
      obtain ⟨impl, known, rfl, -, same⟩ :=
        Registry.exists_implementation_of_builtin? declared bound'
      have named := Model.name_of_select (call.select_of_form form)
      rw [Library.builtin_of_rearrangeName n hn impl known
        ((congrArg Prod.fst same).symm.trans named)]
      simp only [Evaluator.apply]
      have alike := Alike.map Value.array (steady_rearrange count g).keepsPending
        (steady_rearrange count a).keepsPending
        (alike_rearrange count array rearranged.arrayOf found)
      exact alike.inScope _ _ ⟨pending, pending⟩

end Calls

/-! ### Variables that are defined by rearranging -/

/-- An expression names a variable for arrays in `n` dimensions that is defined by another
expression and declared without index sets. -/
structure Model.NamesArray (md : Model) (x : ExprKey) (n : Nat) (c : ExprKey) (name : String)
    (v : VarKey) : Prop where
  form : md.form x = .name name (some v)
  ty : md.ty x = (md.variableAt v).ty
  rank : (md.variableAt v).ty.rank = n
  single : (md.variableAt v).ty.isSet = false
  undeclared : ∀ k < n, (md.variableAt v).indexSets[k]? = some none
  definition : (md.variableAt v).definition = some c

instance (md : Model) (x : ExprKey) (n : Nat) (c : ExprKey) (name : String) (v : VarKey) :
    Decidable (md.NamesArray x n c name v) :=
  decidable_of_iff (md.form x = .name name (some v) ∧ md.ty x = (md.variableAt v).ty ∧
      (md.variableAt v).ty.rank = n ∧ (md.variableAt v).ty.isSet = false ∧
      (∀ k < n, (md.variableAt v).indexSets[k]? = some none) ∧
      (md.variableAt v).definition = some c)
    ⟨fun ⟨form, ty, rank, single, undeclared, definition⟩ ↦
      ⟨form, ty, rank, single, undeclared, definition⟩,
      fun h ↦ ⟨h.form, h.ty, h.rank, h.single, h.undeclared, h.definition⟩⟩

/-- In a model without cycles a name of a variable has the value of its definition. -/
theorem GivesAt.eval_of_definition {name : String} {v : VarKey} {value : Value}
    (acyclic : ctx.Acyclic) (form : ctx.model.form x = .name name (some v))
    (defined : (ctx.model.variableAt v).definition = some c)
    (unnamed : ∀ name resolved, ctx.model.form c ≠ .name name resolved)
    (h : GivesAt (.empty none) (ctx.evaluator.eval c) value) :
    GivesAt (.empty none) (ctx.evaluator.eval x) value := by
  have passes : Passes ctx x [v] (.expression c) := .definition form defined (.expression unnamed)
  obtain ⟨o, follow, unlimited, holds⟩ :=
    followChain_of_passes (p := .empty none) true passes passes.length_le rfl fun _ _ ↦ rfl
  have apart : (Pending.empty none).Apart [v] o :=
    .of_empty unlimited fun u held ↦ ((holds u).1 held).resolve_right Bool.false_ne_true
  have spares : ctx.Spares [v] (ctx.Reaches c) := by
    intro y name' v' reaches form' mem
    obtain rfl := List.mem_singleton.1 mem
    have mentioned : c ∈ ctx.mentioned y := by
      simp [Context.mentioned, form', Model.mentionedBy, defined]
    exact acyclic.irrefl.irrefl c (TransGen.tail' reaches mentioned)
  obtain ⟨s, t, rfl, run⟩ := h.eval_apart spares apart
  obtain ⟨t', run'⟩ := EvalM.exists_run_of_comesTo <|
    (EvalM.comesTo_eval_of_follow follow (s := { s with pending := .empty none }) rfl).trans
      (EvalM.comesTo_of_run run)
  exact ⟨_, t', rfl, run'⟩

/-- The sets that an array has been rearranged under are the ranges between their ends. -/
theorem GivesAt.sets_of_ranges {operation : String}
    (h : GivesAt p (sets.mapM (ctx.evaluator.indexRange operation)) ranges) :
    List.Forall₂ (fun d r ↦ GivesAt p (ctx.evaluator.setOf d) (.range r.lo r.hi)) sets ranges := by
  refine (h.of_mapM (steady_indexRange operation)).imp fun d r range ↦ ?_
  obtain ⟨s, set, found⟩ := range.of_bind (steady_setOf d)
  split at found
  · next interval =>
    rw [← found.gives.of_pure] at interval
    exact IntegerSet.eq_range_of_interval? interval ▸ set
  · exact found.gives.not_failAt.elim

/-- Where no index set is declared the index set of a dimension is the range of the array. -/
theorem GivesAt.indexSet_of_range {name : String} {v : VarKey} {k : Nat} {r : Interval}
    (form : ctx.model.form x = .name name (some v))
    (undeclared : (ctx.model.variableAt v).indexSets[k]? = some none)
    (array : GivesAt p (ctx.evaluator.arrayOf x) w) (range : w.ranges[k]? = some r) :
    GivesAt p (ctx.evaluator.indexSet x (k + 1)) (.range r.lo r.hi) := by
  have form' : ctx.evaluator.model.form x = .name name (some v) := form
  have undeclared' : (ctx.evaluator.model.variableAt v).indexSets[k]? = some none := undeclared
  have found : w.range? (k + 1) = some r := range
  unfold Evaluator.indexSet
  simp only [form', Evaluator.entryOfDimension?, undeclared']
  refine array.bind (steady_arrayOf x) ?_ ?_ <;> simp only [found]
  · exact .ok _
  · exact .ok _

/-- An access with literals for the indices comes to what the element does that they lead to. -/
theorem comesTo_access {es : List ExprKey} {is : List Integer} {el : ExprKey}
    (form : ctx.model.form c = .element x es)
    (literals : List.Forall₂ (fun e i ↦ ctx.model.form e = .int i) es is)
    (array : GivesAt p (ctx.evaluator.arrayOf x) w) (selected : w.select is = .ok el)
    {s : EvalState} (pending : s.pending = p) :
    (ctx.evaluator.eval c).comesTo s = (ctx.evaluator.eval el).comesTo s := by
  have byForm : ctx.evaluator.valueByForm c = ctx.evaluator.valueOfElement x es := by
    have form' : ctx.evaluator.model.form c = .element x es := form
    simp only [Evaluator.valueByForm, form']
  have indices : GivesAt p (es.mapM ctx.evaluator.intOf) is :=
    .mapM (literals.imp fun _ _ ↦ givesAt_intOf) steady_intOf
  rw [EvalM.comesTo_eval_of_form (by simp [form]), byForm, Evaluator.valueOfElement]
  obtain ⟨t, kept, run⟩ := array.run (steady_arrayOf x) (s := s.openScope) pending
  obtain ⟨t', kept', run'⟩ := indices.run (.mapM es steady_intOf) kept
  have found : EvalM.ofExcept (w.select is) t' = some (.ok el, t') := by
    rw [selected]
    rfl
  rw [EvalM.comesTo_bind run, EvalM.comesTo_bind run', EvalM.comesTo_bind found]
  exact (steady_eval el).alike t' s (kept'.trans pending.symm)

namespace Library

theorem indexSet_mem_implementations : ∀ n ∈ ranks, ∀ k < n,
    ⟨indexSetName (k + 1) n, [.any .var .maybe n], .indexSet (k + 1)⟩ ∈ implementations := by
  decide +kernel

private theorem params_of_indexSetName : ∀ n ∈ ranks, ∀ k < n, ∀ o ∈ declarations,
    o.name = indexSetName (k + 1) n → o.params = [.any .var .maybe n] := by
  decide +kernel

end Library

section IndexSets

variable {user : List Overload}
  (declared : ctx.model.overloads.toList = Library.declarations ++ user)
  (registered : ctx.registry = .ofImplementations Library.implementations)

include declared registered

/-- A call for an index set of a named array has the index set for its value. -/
private theorem givesAt_indexSet_call (hn : n ∈ Library.ranks) {k : Nat} (hk : k < n) {y : ExprKey}
    {set : IntegerSet} (rank : (ctx.model.ty x).rank = n) (single : (ctx.model.ty x).isSet = false)
    (call : ctx.model.IsCall y (Library.indexSetName (k + 1) n) [x])
    (refused : ∀ f ∈ user, f.name = Library.indexSetName (k + 1) n →
      ¬Fits [ctx.model.ty x] f.params)
    (h : GivesAt p (ctx.evaluator.indexSet x (k + 1)) set) :
    GivesAt p (ctx.evaluator.eval y) (.set set) := by
  obtain ⟨i, known⟩ := List.getElem?_of_mem (Library.indexSet_mem_implementations n hn k hk)
  have fits : Fits [ctx.model.ty x] [.any .var .maybe n] :=
    ⟨⟨.inr rfl, .inr rfl, single, .inl rfl, by
      have array : (n : Int) ≠ Ty.anyRank := by
        unfold Ty.anyRank
        omega
      rw [Ty.any, if_neg array, rank]⟩, trivial⟩
  have form := call.form_of_select (Library.select_alone declared known rfl
    (Library.params_of_indexSetName n hn k hk) refused fits)
  have bound : ctx.registry.builtin? ⟨i⟩ = some (.indexSet (k + 1)) := by
    rw [registered, Registry.builtin?_ofImplementations, known, Option.map_some]
  have apply : ctx.evaluator.apply [x] (.indexSet (k + 1)) =
      ctx.evaluator.indexSet x (k + 1) >>= fun s ↦ pure (Value.set s) := by
    simp [Evaluator.apply, soleArg]
  have steady : Steady (ctx.evaluator.indexSet x (k + 1)).run := steady_indexSet x (k + 1)
  refine GivesAt.call_of_apply form bound ?_ ?_ <;> rw [apply]
  · exact steady.andThen fun s ↦ .ok (Value.set s)
  · exact h.bind steady (.ok _) (.ok _)

end IndexSets

/-- Let a call arrange the elements of an array under some index sets. If another call that
rearranges the array has a value, then arranging that one's elements under the index sets comes to
the same as arranging those of the array itself, to the same array or to a failure for the same
cause, provided that no function declared beside the library under the name of the call takes the
arguments of one of them and not of the other. And if the call has a value and defines a variable of
a model without cycles that is declared without index sets, then the index sets of the variable are
those of the call, unless a function declared beside the library stands for the one that gives them,
and an access with literals in them for the indices comes to what the element of the array does at
the row-major rank of the indices. -/
theorem rearrangements_compose {user : List Overload}
    (declared : ctx.model.overloads.toList = Library.declarations ++ user)
    (registered : ctx.registry = .ofImplementations Library.implementations)
    (hn : n ∈ Library.ranks) (count : sets.length = n)
    (call : ctx.model.IsCall c (Library.rearrangeName n) (sets ++ [a])) :
    (∀ m ∈ Library.ranks, ∀ (ts : List ExprKey) (g c' : ExprKey) (p : Pending) (v : Value),
      ts.length = m → ctx.model.IsCall g (Library.rearrangeName m) (ts ++ [a]) →
      ctx.model.IsCall c' (Library.rearrangeName n) (sets ++ [g]) →
      (∀ f ∈ user, f.name = Library.rearrangeName n →
        (Fits ((sets ++ [g]).map ctx.model.ty) f.params ↔
          Fits ((sets ++ [a]).map ctx.model.ty) f.params)) →
      GivesAt p (ctx.evaluator.eval g) v → ∀ s, s.pending = p →
        (ctx.evaluator.eval c').comesTo s = (ctx.evaluator.eval c).comesTo s) ∧
    (ctx.model.Built False → ∀ (x : ExprKey) (name : String) (v : VarKey) (value : Value),
      ctx.model.NamesArray x n c name v → GivesAt (.empty none) (ctx.evaluator.eval c) value →
      ∃ u w ranges, value = .array w ∧ u.rearrange? ranges = some w ∧
        GivesAt (.empty none) (ctx.evaluator.arrayOf a) u ∧
        List.Forall₂ (fun d r ↦ GivesAt (.empty none) (ctx.evaluator.setOf d) (.range r.lo r.hi))
          sets ranges ∧
        (∀ (k : Nat) r, ranges[k]? = some r → ∀ indexSet,
          ctx.model.IsCall indexSet (Library.indexSetName (k + 1) n) [x] →
          (∀ f ∈ user, f.name = Library.indexSetName (k + 1) n →
            ¬Fits [ctx.model.ty x] f.params) →
          GivesAt (.empty none) (ctx.evaluator.eval indexSet) (.set (.range r.lo r.hi))) ∧
        ∀ access es is, ctx.model.form access = .element x es →
          List.Forall₂ (fun e i ↦ ctx.model.form e = .int i) es is →
          List.Forall₂ (· ∈ ·) is ranges →
          ∃ el, u.elements[rowMajor is ranges]? = some el ∧ ∀ s, s.pending = .empty none →
            (ctx.evaluator.eval access).comesTo s = (ctx.evaluator.eval el).comesTo s) := by
  refine ⟨fun m hm ts g c' p v count' rearranges call' beside rearranged s pending ↦
    comesTo_of_rearranged declared registered hm hn count count' call call' rearranges beside
      rearranged pending, fun built x name v _ names value ↦ ?_⟩
  have acyclic : ctx.Acyclic := built.acyclic.context built
  obtain ⟨fn, impl, u, ranges, w, calls, array, sets, found, rfl⟩ :=
    exists_rearranged declared registered hn count call value
  have whole : GivesAt (.empty none) (ctx.evaluator.arrayOf x) w :=
    (value.eval_of_definition acyclic names.form names.definition (by simp [calls.form])).arrayOf
  have within := LazyArray.ranges_of_rearrange? found
  have sets := sets.sets_of_ranges
  refine ⟨u, w, ranges, rfl, found, array, sets, fun k r range indexSet call' refused ↦ ?_,
    fun access es is form literals inside ↦ ?_⟩
  · have hk : k < n := by
      have lt := (List.getElem?_eq_some_iff.1 range).1
      rwa [← sets.length_eq, count] at lt
    refine givesAt_indexSet_call declared registered hn hk (names.ty ▸ names.rank)
      (names.ty ▸ names.single) call' refused ?_
    exact whole.indexSet_of_range names.form (names.undeclared k hk) (within ▸ range)
  · have place : w.place is = .ok (rowMajor is ranges) :=
      LazyArray.place_eq_ok_iff.2 ⟨within ▸ inside, by rw [within]⟩
    refine ⟨_, ?_, fun s pending ↦
      comesTo_access form literals whole (LazyArray.select_of_place place) pending⟩
    rw [← elements_of_rearrange? found, List.get_eq_getElem]
    exact List.getElem?_eq_getElem (LazyArray.place_lt place)

/-! ### A row that is rearranged -/

/-- Two integers in a row, the row under given ranges, and then in two dimensions, from the row
itself and from the rearranged one; a variable for the former, its second index set, and its element
in the second column. Some functions are declared beside the library. -/
def rowsOf (user : List Overload) : List Change :=
  user.map .addOverload ++
    [.int .one, .int (.ofByte 2), .array [⟨0⟩, ⟨1⟩], .between ⟨0⟩ ⟨1⟩, .between ⟨0⟩ ⟨0⟩,
      .call "array1d" [⟨3⟩, ⟨2⟩], .call "array2d" [⟨4⟩, ⟨3⟩, ⟨2⟩], .call "array2d" [⟨4⟩, ⟨3⟩, ⟨5⟩],
      .addVariable ⟨"rows", .nowhere, (Ty.int .par).arrayOf 2, none, [none, none], some ⟨6⟩⟩,
      .name ⟨0⟩, .call "index_set_2of2" [⟨8⟩], .element ⟨8⟩ [⟨0⟩, ⟨1⟩]]

/-- The model with the library and nothing else. -/
def Library.model : Model := (declareAll.run .empty).2

/-- The row in a model with the library, of which everything is bound. -/
def rowsContext (user : List Overload) : Context where
  model := Library.model.changed (rowsOf user)
  registry := .ofImplementations Library.implementations

private theorem overloads_rows (user : List Overload) :
    (rowsContext user).model.overloads.toList = Library.declarations ++ user := by
  have library := (Library.adds_declareAll .empty).overloads
  rw [show Model.empty.overloads.toList = [] from rfl, List.nil_append] at library
  have functions : (rowsOf user).flatMap Change.functions = user := by
    simp [rowsOf, List.flatMap_map, Change.functions]
  rw [rowsContext, Model.overloads_changed, Library.model, library, functions]

/-- The row in two dimensions. -/
def inTwoDimensions : LazyArray :=
  ⟨⟨0⟩, [⟨0⟩, ⟨1⟩], [Build.fromOne 1, Build.fromOne 2], .int .par, rfl⟩

private theorem built_rows {user : List Overload} (admits : Library.model.Admits (rowsOf user)) :
    (rowsContext user).model.Built False := by
  have library : Library.model.Built False := Model.Built.empty.addOverloads Library.declarations
  have additions : ∀ c ∈ rowsOf user, c.isAddition = true :=
    List.forall_mem_append.2 ⟨List.forall_mem_map.2 fun _ _ ↦ rfl, by decide⟩
  refine library.changed admits fun c mem defines ↦ ?_
  rw [additions c mem] at defines
  cases defines

/-- The row rearranged twice is the row rearranged once, its second index set is the range that was
given, and the access leads to the second element. -/
theorem rows_agree :
    let two : Integer := .ofByte 2
    (rowsContext []).model.IsCall ⟨7⟩ "array2d" [⟨4⟩, ⟨3⟩, ⟨5⟩] ∧
    ((rowsContext []).evaluator.eval ⟨7⟩).comesTo (.fresh none) =
      some (.ok (.array inTwoDimensions)) ∧
    GivesAt (.empty none) ((rowsContext []).evaluator.eval ⟨9⟩) (.set (.range .one two)) ∧
    ((rowsContext []).evaluator.eval ⟨10⟩).comesTo (.fresh none) =
      ((rowsContext []).evaluator.eval ⟨1⟩).comesTo (.fresh none) := by
  intro two
  have declared := overloads_rows []
  have registered : (rowsContext []).registry = .ofImplementations Library.implementations := rfl
  have names : (rowsContext []).model.NamesArray ⟨8⟩ 2 ⟨6⟩ "rows" ⟨0⟩ := by
    decide +kernel
  have calls : (rowsContext []).model.IsCall ⟨5⟩ (Library.rearrangeName 1) ([⟨3⟩] ++ [⟨2⟩]) ∧
      (rowsContext []).model.IsCall ⟨6⟩ (Library.rearrangeName 2) ([⟨4⟩, ⟨3⟩] ++ [⟨2⟩]) ∧
      (rowsContext []).model.IsCall ⟨7⟩ (Library.rearrangeName 2) ([⟨4⟩, ⟨3⟩] ++ [⟨5⟩]) ∧
      (rowsContext []).model.IsCall ⟨9⟩ (Library.indexSetName 2 2) [⟨8⟩] ∧
      (rowsContext []).model.form ⟨10⟩ = .element ⟨8⟩ [⟨0⟩, ⟨1⟩] ∧
      (rowsContext []).model.form ⟨0⟩ = .int .one ∧ (rowsContext []).model.form ⟨1⟩ = .int two := by
    decide +kernel
  have values : (rowsContext []).evaluator.eval ⟨5⟩ (.fresh none) =
        some (.ok (.array countedFromOne), .fresh none) ∧
      (rowsContext []).evaluator.eval ⟨6⟩ (.fresh none) =
        some (.ok (.array inTwoDimensions), .fresh none) ∧
      (rowsContext []).evaluator.arrayOf ⟨2⟩ (.fresh none) =
        some (.ok countedFromOne, .fresh none) ∧
      (rowsContext []).evaluator.setOf ⟨4⟩ (.fresh none) =
        some (.ok (.range .one .one), .fresh none) ∧
      (rowsContext []).evaluator.setOf ⟨3⟩ (.fresh none) =
        some (.ok (.range .one two), .fresh none) := by
    decide +kernel
  obtain ⟨again, once, twice, indexSet, access, first, second⟩ := calls
  obtain ⟨row, rows, array, set, set'⟩ := values
  obtain ⟨compose, declares⟩ :=
    rearrangements_compose declared registered (n := 2) (by decide) rfl once
  obtain ⟨u, w, ranges, eq, found, array', -, indexSets, accesses⟩ :=
    declares (built_rows (by decide +kernel)) ⟨8⟩ "rows" ⟨0⟩ _ names ⟨_, _, rfl, rows⟩
  cases eq
  cases array'.unique ⟨_, _, rfl, array⟩ (steady_arrayOf ⟨2⟩)
  cases LazyArray.ranges_of_rearrange? found
  have same := compose 1 (by decide) [⟨3⟩] ⟨5⟩ ⟨7⟩ _ _ rfl again twice nofun ⟨_, _, rfl, row⟩
    (.fresh none) rfl
  obtain ⟨el, selected, comes⟩ := accesses ⟨10⟩ [⟨0⟩, ⟨1⟩] [.one, two] access
    (.cons first (.cons second .nil)) (.cons (by decide) (.cons (by decide) .nil))
  have element :
      countedFromOne.elements[rowMajor [.one, two] inTwoDimensions.ranges]? = some ⟨1⟩ := by
    decide
  cases selected.symm.trans element
  exact ⟨twice, same.trans (EvalM.comesTo_of_run rows),
    indexSets 1 ⟨.one, two⟩ rfl ⟨9⟩ indexSet nofun, comes (.fresh none) rfl⟩

/-- A function of rows of integers, which takes less than the one of the library. -/
def rowsOfIntegers : Overload :=
  ⟨"array2d", [.intSet .par, .intSet .par, (Ty.int .par).arrayOf 1], (Ty.int .par).arrayOf 2⟩

/-- A function of integers in two dimensions, which takes less than the one of the library. -/
def columnsOfIntegers : Overload :=
  ⟨"index_set_2of2", [(Ty.int .par).arrayOf 2], .intSet .par⟩

/-- The function of rows takes the row and not the rearranged row, whose elements have the base
variable for their base. So the one call means that function, which nothing computes, and the other
one that of the library. The function of columns is the one that is meant for the variable. -/
theorem rows_differ :
    let ctx := rowsContext [rowsOfIntegers]
    let ctx' := rowsContext [columnsOfIntegers]
    (ctx.model.overloads.toList = Library.declarations ++ [rowsOfIntegers] ∧
      Registry.ofLibrary ctx.model = .ok ctx.registry ∧
      ctx.model.IsCall ⟨5⟩ "array1d" [⟨3⟩, ⟨2⟩] ∧ ctx.model.IsCall ⟨6⟩ "array2d" [⟨4⟩, ⟨3⟩, ⟨2⟩] ∧
      ctx.model.IsCall ⟨7⟩ "array2d" [⟨4⟩, ⟨3⟩, ⟨5⟩] ∧
      (ctx.evaluator.eval ⟨5⟩).comesTo (.fresh none) = some (.ok (.array countedFromOne)) ∧
      (ctx.evaluator.eval ⟨7⟩).comesTo (.fresh none) = some (.ok (.array inTwoDimensions)) ∧
      (ctx.evaluator.eval ⟨6⟩).comesTo (.fresh none) ≠ some (.ok (.array inTwoDimensions))) ∧
    ctx'.model.overloads.toList = Library.declarations ++ [columnsOfIntegers] ∧
    Registry.ofLibrary ctx'.model = .ok ctx'.registry ∧ ctx'.model.Built False ∧
    ctx'.model.NamesArray ⟨8⟩ 2 ⟨6⟩ "rows" ⟨0⟩ ∧
    ctx'.model.IsCall ⟨6⟩ "array2d" [⟨4⟩, ⟨3⟩, ⟨2⟩] ∧
    ctx'.model.IsCall ⟨9⟩ "index_set_2of2" [⟨8⟩] ∧
    (ctx'.evaluator.eval ⟨6⟩).comesTo (.fresh none) = some (.ok (.array inTwoDimensions)) ∧
    (ctx'.evaluator.eval ⟨3⟩).comesTo (.fresh none) =
      some (.ok (.set (.range .one (.ofByte 2)))) ∧
    (ctx'.evaluator.eval ⟨9⟩).comesTo (.fresh none) ≠
      some (.ok (.set (.range .one (.ofByte 2)))) := by
  intro ctx ctx'
  have declared := overloads_rows [rowsOfIntegers]
  have declared' := overloads_rows [columnsOfIntegers]
  exact ⟨⟨declared, Registry.ofLibrary_eq_ok declared (by decide +kernel), by decide +kernel⟩,
    declared', Registry.ofLibrary_eq_ok declared' (by decide +kernel),
    built_rows (by decide +kernel), by decide +kernel⟩

end ConstraintEval
