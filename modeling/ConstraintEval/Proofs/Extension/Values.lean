import ConstraintEval.Proofs.Extension.Agreement

/-!
# Values in a region

Two evaluators that resemble each other on a region find the same values by every rule there: what
is put together from equal steps is equal, and elements of arrays that are found in the region are
in the region. Only the builtins that ask for declared domains or look for bounds may see that the
domains are others. One lemma for each rule; with all of them, evaluators that find the same values
go on to do so with one more level.
-/

namespace ConstraintEval

variable {α β : Type}

/-- Whether what a builtin computes depends on the declared domains of variables, be it by way of
bounds. -/
def Builtin.seesDomains : Builtin → Bool
  | .isBounded | .bound _ | .boundOfElements _ | .upperSet | .domain | .domainOfElements => true
  | _ => false

/-! ### Steps that are put together -/

theorem bind_eq_of_gives {x x' : EvalM α} {f f' : α → EvalM β} (hx : x' = x)
    (hf : ∀ a, Gives x a → f' a = f a) : x' >>= f' = x >>= f := by
  funext s
  rw [hx, EvalM.bind_apply, EvalM.bind_apply]
  cases run : x s with
  | none => rfl
  | some r =>
    obtain ⟨r, t⟩ := r
    cases r with
    | error f => rfl
    | ok a => exact congrFun (hf a ⟨s, t, run⟩) t

section Lists

variable {m : Type → Type} [Monad m] {as : List α}

theorem mapM_eq_of_mem [LawfulMonad m] {f f' : α → m β} (hf : ∀ a ∈ as, f' a = f a) :
    as.mapM f' = as.mapM f := by
  induction as with
  | nil => rfl
  | cons a as ih =>
    obtain ⟨head, tail⟩ := List.forall_mem_cons.1 hf
    rw [List.mapM_cons, List.mapM_cons, head, ih tail]

theorem foldlM_eq_of_mem {f f' : β → α → m β} {b : β} (hf : ∀ b, ∀ a ∈ as, f' b a = f b a) :
    as.foldlM f' b = as.foldlM f b := by
  induction as generalizing b with
  | nil => rfl
  | cons a as ih =>
    rw [List.foldlM_cons, List.foldlM_cons, hf b a List.mem_cons_self]
    exact bind_congr fun c ↦ ih fun b a mem ↦ hf b a (List.mem_cons_of_mem _ mem)

theorem allM_eq_of_mem {f f' : α → m Bool} (hf : ∀ a ∈ as, f' a = f a) :
    as.allM f' = as.allM f := by
  induction as with
  | nil => rfl
  | cons a as ih =>
    obtain ⟨head, tail⟩ := List.forall_mem_cons.1 hf
    rw [List.allM, List.allM, head, ih tail]

theorem anyM_eq_of_mem {f f' : α → m Bool} (hf : ∀ a ∈ as, f' a = f a) :
    as.anyM f' = as.anyM f := by
  induction as with
  | nil => rfl
  | cons a as ih =>
    obtain ⟨head, tail⟩ := List.forall_mem_cons.1 hf
    rw [List.anyM, List.anyM, head, ih tail]

end Lists

namespace Evaluator

/-- Two evaluators read the same in a region, except for declared domains, and find the same
values. -/
structure Resembles (ev ev' : Evaluator) (P : ExprKey → Prop) (V : VarKey → Prop) : Prop
    extends toContext : Context.Resembles ev.toContext ev'.toContext P V where
  keeps : ev.KeepsElements
  eval : ∀ e, P e → ev'.eval e = ev.eval e

namespace Resembles

variable {ev ev' : Evaluator} {P : ExprKey → Prop} {V : VarKey → Prop} {e x : ExprKey} {v : VarKey}
  (h : ev.Resembles ev' P V)

include h

/-! ### What the rules share -/

theorem elements {a : LazyArray} (hx : P x) (array : Gives (ev.arrayOf x) a) :
    ∀ y ∈ a.elements, P y :=
  fun y hy ↦ h.closed.reaches hx (reaches_elements h.keeps array y hy)

theorem intOf (hx : P x) : ev'.intOf x = ev.intOf x := by
  simp only [Evaluator.intOf, h.eval x hx, h.locating hx]

theorem boolOf (hx : P x) : ev'.boolOf x = ev.boolOf x := by
  simp only [Evaluator.boolOf, h.eval x hx, h.locating hx]

theorem setOf (hx : P x) : ev'.setOf x = ev.setOf x := by
  simp only [Evaluator.setOf, h.eval x hx, h.locating hx]

theorem arrayOf (hx : P x) : ev'.arrayOf x = ev.arrayOf x := by
  simp only [Evaluator.arrayOf, h.eval x hx, h.locating hx]

/-- A rule that follows a chain of names does the same if what follows does. -/
theorem chain {f f' : ChainEnd → EvalM α} (he : P e)
    (next : ∀ c : ChainEnd, c.Within P V → f' c = f c) :
    EvalM.inScope (ev'.locating e (ev'.chainEnd e >>= f')) =
      EvalM.inScope (ev.locating e (ev.chainEnd e >>= f)) := by
  rw [h.locating he]
  congr 2
  refine bind_eq_of_gives (h.chainEnd he) fun c hc ↦ next c ?_
  exact h.chainEnd_within he (Gives.of_chainEnd hc)

/-! ### Builtins -/

theorem cardinality (he : P e) : ev'.cardinality e = ev.cardinality e := by
  unfold Evaluator.cardinality
  rw [h.setOf he, h.failAt he]

theorem indexSet (k : Nat) (he : P e) (sets : ∀ d ∈ ev.model.indexSetsOf e, P d) :
    ev'.indexSet e k = ev.indexSet e k := by
  unfold Evaluator.indexSet
  simp only [h.form he, h.failAt he, h.arrayOf he]
  split
  · next name v form =>
    simp only [h.indexSets (h.named e name v he form)]
    split
    · rfl
    · next set entry => exact h.setOf (sets set (Model.mem_indexSetsOf form entry))
    · rfl
  · rfl
  · rfl

theorem indexRange (operation : String) (hx : P x) :
    ev'.indexRange operation x = ev.indexRange operation x := by
  unfold Evaluator.indexRange
  rw [h.setOf hx, h.failAt hx]

section Arguments

variable {args : List ExprKey} (hargs : ∀ x ∈ args, P x)

include hargs

omit h in
/-- The only argument is in the region if all arguments are. -/
theorem soleArg (name : String) {f f' : ExprKey → EvalM α} (hf : ∀ x, P x → f' x = f x) :
    (ConstraintEval.soleArg name args >>= f') = ConstraintEval.soleArg name args >>= f := by
  refine bind_eq_of_gives rfl fun x gives ↦ hf x ?_
  unfold ConstraintEval.soleArg at gives
  split at gives
  · rw [gives.of_pure]
    exact hargs _ (by simp)
  · exact gives.not_fail.elim

/-- Folding an array comes by elements of the region only. -/
theorem ofElements (name : String) {f f' : LazyArray → EvalM α}
    (hf : ∀ a, (∀ y ∈ a.elements, P y) → f' a = f a) :
    (ConstraintEval.soleArg name args >>= fun x ↦ ev'.arrayOf x >>= f') =
      ConstraintEval.soleArg name args >>= fun x ↦ ev.arrayOf x >>= f :=
  soleArg hargs name fun _ hx ↦ bind_eq_of_gives (h.arrayOf hx) fun a ha ↦ hf a (h.elements hx ha)

theorem extremum (side : Side) : ev'.extremum side args = ev.extremum side args := by
  unfold Evaluator.extremum
  split
  · next x =>
    have hx := hargs x (by simp)
    rw [h.ty hx]
    congr 1
    refine bind_eq_of_gives (h.arrayOf hx) fun a ha ↦ ?_
    rw [mapM_eq_of_mem fun y hy ↦ h.intOf (h.elements hx ha y hy)]
  · next x y => simp only [h.intOf (hargs x (by simp)), h.intOf (hargs y (by simp))]
  · rfl

theorem extremumOfSet (side : Side) : ev'.extremumOfSet side args = ev.extremumOfSet side args :=
  soleArg hargs _ fun x hx ↦ by rw [h.setOf hx]

theorem sum : ev'.sum args = ev.sum args :=
  h.ofElements hargs _ fun a inside ↦ foldlM_eq_of_mem fun total y hy ↦ by
    rw [h.intOf (inside y hy)]

theorem length : ev'.length args = ev.length args := h.ofElements hargs _ fun _ _ ↦ rfl

theorem boolToInt : ev'.boolToInt args = ev.boolToInt args :=
  soleArg hargs _ fun x hx ↦ by rw [h.boolOf hx]

theorem allOf : ev'.allOf args = ev.allOf args :=
  h.ofElements hargs _ fun _ inside ↦ allM_eq_of_mem fun y hy ↦ h.boolOf (inside y hy)

theorem anyOf : ev'.anyOf args = ev.anyOf args :=
  h.ofElements hargs _ fun _ inside ↦ anyM_eq_of_mem fun y hy ↦ h.boolOf (inside y hy)

theorem rearrange (dimensions : Nat) :
    ev'.rearrange dimensions args = ev.rearrange dimensions args := by
  unfold Evaluator.rearrange
  simp only
  split
  · next sets flat split =>
    rw [List.splitAt_eq, Prod.mk.injEq] at split
    have hflat : P flat :=
      hargs flat (List.mem_of_mem_drop (split.2 ▸ List.mem_singleton_self flat))
    have hsets : ∀ x ∈ sets, P x := fun x hx ↦
      hargs x (List.mem_of_mem_take (split.1.symm ▸ hx))
    rw [h.arrayOf hflat, h.failAt hflat, mapM_eq_of_mem fun x hx ↦ h.indexRange _ (hsets x hx)]
  · rfl

end Arguments

theorem apply {args : List ExprKey} {b : Builtin}
    (parts : ∀ x ∈ ev.model.mentionedByCall args b, P x) (blind : b.seesDomains = false) :
    ev'.apply args b = ev.apply args b := by
  have hargs : ∀ x ∈ args, P x := fun x hx ↦ parts x (Model.mem_mentionedByCall b hx)
  cases b with
  | extremum side => exact congrArg (Value.int <$> ·) (h.extremum hargs side)
  | extremumOfSet side => exact congrArg (Value.int <$> ·) (h.extremumOfSet hargs side)
  | sum => exact congrArg (Value.int <$> ·) (h.sum hargs)
  | length => exact congrArg (Value.int <$> ·) (h.length hargs)
  | boolToInt => exact congrArg (Value.int <$> ·) (h.boolToInt hargs)
  | allOf => exact congrArg (Value.bool <$> ·) (h.allOf hargs)
  | anyOf => exact congrArg (Value.bool <$> ·) (h.anyOf hargs)
  | cardinality => exact soleArg hargs _ fun x hx ↦ by rw [h.cardinality hx]
  | indexSet k =>
    refine soleArg (fun x hx ↦ hx) _ fun x hx ↦ ?_
    rw [h.indexSet k (hargs x hx) fun d set ↦
      parts d (Model.mem_mentionedByCall_indexSet k hx set)]
  | rearrange n => exact congrArg (Value.array <$> ·) (h.rearrange hargs n)
  | isBounded | bound | boundOfElements | upperSet | domain | domainOfElements => cases blind

/-! ### Values -/

theorem valueOfBinary (op : BinaryOp) {left right : ExprKey} (hl : P left) (hr : P right) :
    ev'.valueOfBinary op left right = ev.valueOfBinary op left right := by
  unfold Evaluator.valueOfBinary
  rw [h.eval left hl, h.eval right hr]

theorem valueOfElement {source : ExprKey} {indices : List ExprKey}
    (parts : ∀ x ∈ source :: indices, P x) :
    ev'.valueOfElement source indices = ev.valueOfElement source indices := by
  obtain ⟨hsource, hindices⟩ := List.forall_mem_cons.1 parts
  refine bind_eq_of_gives (h.arrayOf hsource) fun a ha ↦ ?_
  refine bind_eq_of_gives (mapM_eq_of_mem fun x hx ↦ h.intOf (hindices x hx)) fun is _ ↦ ?_
  refine bind_eq_of_gives rfl fun x selected ↦ h.eval x ?_
  exact h.elements hsource ha x (mem_elements_of_select selected.of_ofExcept)

section Calls

variable (seeing : ∀ x name f args b, P x → ev.model.form x = .call name (some f) args →
  ev.registry.builtin? f = some b → b.seesDomains = true → ev'.apply args b = ev.apply args b)

include seeing

theorem valueOfCall {name : String} {resolved : Option FnKey} {args : List ExprKey} (he : P e)
    (form : ev.model.form e = .call name resolved args) :
    ev'.valueOfCall name resolved args = ev.valueOfCall name resolved args := by
  cases resolved with
  | none => rfl
  | some f =>
    rw [Evaluator.valueOfCall, Evaluator.valueOfCall, h.registry]
    cases bound : ev.registry.builtin? f with
    | none => rfl
    | some b =>
      have same : ev'.apply args b = ev.apply args b := by
        cases sees : b.seesDomains with
        | true => exact seeing e name f args b he form bound sees
        | false => exact h.apply (h.closed.call he form bound) sees
      simp only [same]

theorem valueByForm (he : P e) : ev'.valueByForm e = ev.valueByForm e := by
  have operands : ∀ x ∈ (ev.model.form e).operands, P x := fun x ↦ h.operand he
  unfold Evaluator.valueByForm
  rw [h.form he, h.ty he, h.eval e he]
  split
  · rfl
  · rfl
  · next members form =>
    rw [form] at operands
    have hmembers : ∀ x ∈ members, P x := operands
    rw [mapM_eq_of_mem fun x hx ↦ h.intOf (hmembers x hx)]
  · next lo hi form =>
    rw [form] at operands
    simp only [h.intOf (operands lo (by simp [Form.operands])),
      h.intOf (operands hi (by simp [Form.operands]))]
  · rfl
  · rfl
  · next source indices form =>
    rw [form] at operands
    exact h.valueOfElement operands
  · next name resolved args form => exact h.valueOfCall seeing he form
  · next op left right form =>
    rw [form] at operands
    exact h.valueOfBinary op (operands left (by simp [Form.operands]))
      (operands right (by simp [Form.operands]))
  · next op x form =>
    rw [form] at operands
    rw [h.eval x (operands x (by simp [Form.operands]))]
  · next cond yes no form =>
    rw [form] at operands
    rw [h.boolOf (operands cond (by simp [Form.operands])),
      h.eval yes (operands yes (by simp [Form.operands])),
      h.eval no (operands no (by simp [Form.operands]))]

theorem valueStep (he : P e) : ev'.valueStep e = ev.valueStep e := by
  refine bind_eq_of_gives (h.chain he fun c within ↦ ?_) fun _ _ ↦ rfl
  cases c with
  | expression x => exact h.valueByForm seeing within
  | undefined v => rw [valueOfEnd, valueOfEnd, h.missingValue within]

end Calls

end Resembles

end Evaluator

/-- With the same number of levels, contexts that resemble each other on a region have the same
values there, if no call in the region sees declared domains. -/
theorem Context.Resembles.ofLevels {ctx ctx' : Context} {P : ExprKey → Prop} {V : VarKey → Prop}
    (h : ctx.Resembles ctx' P V) (avoids : ∀ e, P e → ctx.Avoids (·.seesDomains = true) e)
    (n : Nat) : (Evaluator.ofLevels ctx n).Resembles (Evaluator.ofLevels ctx' n) P V := by
  have resembles : Context.Resembles (Evaluator.ofLevels ctx n).toContext
      (Evaluator.ofLevels ctx' n).toContext P V := by
    rwa [Evaluator.toContext_ofLevels, Evaluator.toContext_ofLevels]
  have keeps := keepsElements_ofLevels ctx n
  induction n with
  | zero => exact { resembles with keeps, eval := fun _ _ ↦ rfl }
  | succ n ih =>
    have below := ih (by rwa [Evaluator.toContext_ofLevels, Evaluator.toContext_ofLevels])
      (keepsElements_ofLevels ctx n)
    refine { resembles with keeps, eval := fun e he ↦ below.valueStep ?_ he }
    intro x name f args b hx form bound sees
    rw [Evaluator.toContext_ofLevels] at form bound
    exact (avoids x hx x .refl name f args b form bound sees).elim

end ConstraintEval
