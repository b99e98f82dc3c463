import ConstraintEval.Eval.Query
import ConstraintEval.Proofs.Acyclic.Models
import ConstraintEval.Proofs.Evaluation.Termination
import ConstraintEval.Proofs.Logic.Pending
import ConstraintEval.Proofs.Logic.Rules

/-!
# Evaluation settles without cycles

In a model without cycles no name of a pending declaration ever comes up again: what follows the
visit to a variable stays among the expressions that the declaration gives, and these do not come
back to the variable. So every evaluation comes to an end, and none fails because a declaration is
pending. This is a logic of evaluation.
-/

namespace ConstraintEval

open Relation Pending

variable {ctx : Context} {α β : Type}

/-! ### Expressions that nothing pending is named in -/

/-- No name of a pending declaration can come up while an expression is worked out. -/
def Context.Clear (ctx : Context) (p : Pending) (e : ExprKey) : Prop :=
  ∀ x name v, ctx.Reaches e x → ctx.model.form x = .name name (some v) → p.holds v = false

/-- Visits are not limited, and no name of a pending declaration can come up in a region. -/
structure Context.ClearOn (ctx : Context) (P : ExprKey → Prop) (p : Pending) : Prop where
  unlimited : p.limit = none
  clear : ∀ e, P e → ctx.Clear p e

/-- No expression comes back to itself, and going on to what is mentioned comes to an end. -/
def Context.Acyclic (ctx : Context) : Prop := WellFounded fun x e ↦ ctx.Below e x

variable {p q : Pending} {e x : ExprKey}

theorem closed_clear (ctx : Context) (p : Pending) : ctx.Closed (ctx.Clear p) :=
  fun _ _ clear mentioned y name v reaches ↦ clear y name v (.head mentioned reaches)

/-- The visit to a variable leaves all clear that its declaration gives. -/
theorem Context.Clear.add (acyclic : ctx.Acyclic) {v : Visit} {nested : Bool}
    (clear : ctx.Clear p x) (given : x ∈ ctx.model.mentionedBy v.key) :
    ctx.Clear (p.add v nested) x := by
  intro y name u reaches form
  rw [← Bool.not_eq_true, holds_add]
  rintro (rfl | held)
  · have mentioned : x ∈ ctx.mentioned y := by simpa only [Context.mentioned, form] using given
    exact acyclic.irrefl.irrefl x (TransGen.tail' reaches mentioned)
  · rw [clear y name u reaches form] at held
    cases held

/-- Following a chain of names in which nothing is pending does not fail for that, and what comes
after its end is clear of what has been visited. The variables that have been seen along the chain
are pending, so none of them is seen again, and there are enough steps for all others. -/
theorem settled_followChain (acyclic : ctx.Acyclic) (seen : List VarKey) {nested : Bool}
    {steps : Nat} {r : Except Failure ChainEnd} (unlimited : p.limit = none)
    (clear : ctx.Clear p e) (nodup : seen.Nodup)
    (held : ∀ u ∈ seen, p.holds u = true ∧ u.index < ctx.model.declared.size)
    (room : ctx.model.declared.size < steps + seen.length)
    (follow : ctx.followChain nested steps p e = (r, q)) :
    Settled r ∧ q.limit = none ∧ ∀ c, r = .ok c → c.In ctx (ctx.Clear q) := by
  induction steps generalizing nested p e seen with
  | zero =>
    -- All declarations would have been seen, and one more.
    have le := VarKey.length_le_of_nodup nodup fun u hu ↦ (held u hu).2
    omega
  | succ steps ih =>
    unfold Context.followChain at follow
    split at follow
    · cases follow
      exact ⟨settled_error rfl, unlimited, fun _ eq ↦ nomatch eq⟩
    · next name v form =>
      have fresh : p.holds v = false := clear e name v .refl form
      let visit := ctx.visitTo v (ctx.model.span e)
      have entered : p.enter visit nested = .ok (p.add visit nested) :=
        enter_of_fresh unlimited fresh
      have given : ∀ d ∈ ctx.model.mentionedBy v, ctx.Clear (p.add visit nested) d :=
        fun d hd ↦ .add acyclic ((closed_clear ctx p).declaration clear form d hd) hd
      simp only [show p.enter (ctx.visitTo v (ctx.model.span e)) nested = _ from entered] at follow
      split at follow
      · cases follow
        refine ⟨settled_ok _, unlimited, fun c eq ↦ ?_⟩
        cases eq
        exact fun d domain ↦ given d (by simp [Model.mentionedBy, domain])
      · next d defined =>
        have new : v ∉ seen := by
          intro mem
          rw [(held v mem).1] at fresh
          cases fresh
        refine ih (p := p.add visit nested) (v :: seen) unlimited
          (given d (by simp [Model.mentionedBy, defined])) (List.nodup_cons.2 ⟨new, nodup⟩) ?_ ?_
          follow
        · refine List.forall_mem_cons.2 ⟨⟨holds_add.2 (.inl rfl), ?_⟩, fun u hu ↦ ?_⟩
          · exact Model.index_lt_of_definition defined
          · exact ⟨holds_add.2 (.inr (held u hu).1), (held u hu).2⟩
        · rw [List.length_cons]
          omega
    · cases follow
      refine ⟨settled_ok _, unlimited, fun c eq ↦ ?_⟩
      cases eq
      exact clear

/-! ### Failures that are not about pending declarations -/

private theorem aboutPending_locate (e : ExprKey) (f : Failure) (s : EvalState) :
    (ctx.locate e f s).cause.aboutPending = f.cause.aboutPending := by
  rw [Context.cause_locate]

theorem Settled.locate {r : Except Failure α} (h : Settled r) (e : ExprKey) (s : EvalState) :
    Settled (r.mapError fun f ↦ ctx.locate e f s) := by
  cases r with
  | ok a => exact settled_ok a
  | error f => exact settled_error ((aboutPending_locate e f s).trans (h f rfl))

/-! ### Steps that settle -/

/-- A step comes to an end where its region is clear, with a result of some kind. -/
structure Settles (ctx : Context) (good : α → Prop) (P : ExprKey → Prop) (x : StepM α) : Prop where
  keeps : KeepsPending x
  ends : ∀ s, ctx.ClearOn P s.pending → ∃ a t, x s = some (a, t) ∧ good a

/-- A step comes to an end where its region is clear, whatever its result is. -/
abbrev Concludes (ctx : Context) (P : ExprKey → Prop) (x : StepM α) : Prop :=
  Settles ctx (fun _ ↦ True) P x

namespace Settles

variable {P P' : ExprKey → Prop}

theorem weaken {good : α → Prop} {x : StepM α} (le : ∀ y, P y → P' y)
    (h : Settles ctx good P x) : Settles ctx good P' x :=
  ⟨h.keeps, fun s clear ↦ h.ends s ⟨clear.unlimited, fun y hy ↦ clear.clear y (le y hy)⟩⟩

theorem pure {good : α → Prop} {a : α} (h : good a) : Settles ctx good P (Pure.pure a) :=
  ⟨.pure a, fun s _ ↦ ⟨a, s, rfl, h⟩⟩

private theorem clear_after {x : StepM α} {s t : EvalState} {a : α} (keeps : KeepsPending x)
    (clear : ctx.ClearOn P s.pending) (run : x s = some (a, t)) : ctx.ClearOn P t.pending := by
  rw [keeps s a t run]
  exact clear

theorem failAt (e : ExprKey) {cause : Cause} (h : cause.aboutPending = false) :
    Settles ctx Settled P (ctx.failAt e cause : EvalM α).run :=
  ⟨.failAt e cause, fun s _ ↦ ⟨_, s, rfl, settled_error ((aboutPending_locate e _ s).trans h)⟩⟩

theorem keep (v : Value) :
    Settles ctx Settled P (do modify (EvalState.keep v); return v : EvalM Value).run :=
  ⟨.keep v, fun s _ ↦ ⟨.ok v, s.keep v, rfl, settled_ok v⟩⟩

theorem bind {x : EvalM α} {f : α → EvalM β} (hx : Settles ctx Settled P x.run)
    (hf : ∀ a, Gives x a → Settles ctx Settled P (f a).run) :
    Settles ctx Settled P (x >>= f).run := by
  refine ⟨hx.keeps.bind fun a gives ↦ (hf a gives).keeps, fun s clear ↦ ?_⟩
  obtain ⟨r, t, run, settled⟩ := hx.ends s clear
  change ∃ r u, (x >>= f) s = some (r, u) ∧ _
  rw [EvalM.bind_apply, show x s = _ from run]
  cases r with
  | ok a => exact (hf a ⟨s, t, run⟩).ends t (clear_after hx.keeps clear run)
  | error g => exact ⟨.error g, t, rfl, settled_error (settled g rfl)⟩

theorem locating (e : ExprKey) {x : EvalM α} (hx : Settles ctx Settled P x.run) :
    Settles ctx Settled P (ctx.locating e x).run := by
  refine ⟨hx.keeps.locating e, fun s clear ↦ ?_⟩
  obtain ⟨r, t, run, settled⟩ := hx.ends s clear
  change ∃ r u, ctx.locating e x s = some (r, u) ∧ _
  rw [Context.locating_apply, show x s = _ from run]
  exact ⟨_, t, rfl, settled.locate e t⟩

theorem inScope {x : EvalM α} (hx : Settles ctx Settled P x.run) :
    Settles ctx Settled P (EvalM.inScope x).run := by
  refine ⟨hx.keeps.inScope, fun s clear ↦ ?_⟩
  obtain ⟨r, t, run, settled⟩ := hx.ends s.openScope clear
  change ∃ r u, EvalM.inScope x s = some (r, u) ∧ _
  rw [EvalM.inScope_apply, show x s.openScope = _ from run]
  exact ⟨r, s.closeTo t, rfl, settled⟩

theorem chain (acyclic : ctx.Acyclic) (e : ExprKey) {f : ChainEnd → EvalM α}
    (hf : ∀ c P, Leads ctx e c → ctx.Closed P → c.In ctx P → Settles ctx Settled P (f c).run) :
    Settles ctx Settled (ctx.Reaches e)
      (EvalM.inScope (ctx.locating e (ctx.chainEnd e >>= f))).run := by
  refine ⟨.chain e fun c leads ↦ ?_, fun s clear ↦ ?_⟩
  · exact (hf c (ctx.Reaches e) leads (closed_reaches ctx e)
      ((closed_reaches ctx e).chainEnd .refl leads)).keeps
  change ∃ r u, EvalM.inScope _ s = some (r, u) ∧ _
  rw [Context.chain_apply]
  cases follow : ctx.followChain true (ctx.model.declared.size + 1) s.pending e with
  | mk end? p =>
    obtain ⟨settled, unlimited, inside⟩ := settled_followChain acyclic []
      clear.unlimited (clear.clear e .refl) List.nodup_nil (by simp) (by simp) follow
    cases end? with
    | error g =>
      exact ⟨_, _, rfl, settled_error ((aboutPending_locate e g _).trans (settled g rfl))⟩
    | ok c =>
      obtain ⟨r, t, run, settled⟩ :=
        (hf c (ctx.Clear p) (leads_of_followChain follow) (closed_clear ctx p) (inside c rfl)).ends
          { s.openScope with pending := p } ⟨unlimited, fun y clear ↦ clear⟩
      exact ⟨_, _, congrArg (Option.map _) run, settled.locate e t⟩

theorem bind_bounds {x : BoundM α} {f : α → BoundM β} (hx : Concludes ctx P x.run)
    (hf : ∀ a, Offers x a → Concludes ctx P (f a).run) :
    Concludes ctx P (x >>= f).run := by
  refine ⟨hx.keeps.bind_bounds fun a offers ↦ (hf a offers).keeps, fun s clear ↦ ?_⟩
  obtain ⟨o, t, run, -⟩ := hx.ends s clear
  change ∃ o u, (x >>= f) s = some (o, u) ∧ _
  rw [BoundM.bind_apply, show x s = _ from run]
  cases o with
  | some a => exact (hf a ⟨s, t, run⟩).ends t (clear_after hx.keeps clear run)
  | none => exact ⟨none, t, rfl, trivial⟩

theorem orElse {x y : BoundM α} (hx : Concludes ctx P x.run)
    (hy : Concludes ctx P y.run) :
    Concludes ctx P (x <|> y).run := by
  refine ⟨hx.keeps.orElse hy.keeps, fun s clear ↦ ?_⟩
  obtain ⟨o, t, run, -⟩ := hx.ends s clear
  change ∃ o u, (x <|> y) s = some (o, u) ∧ _
  rw [BoundM.orElse_apply, show x s = _ from run]
  cases o with
  | some a => exact ⟨some a, t, rfl, trivial⟩
  | none => exact hy.ends t (clear_after hx.keeps clear run)

theorem inScope_bounds {x : BoundM α} (hx : Concludes ctx P x.run) :
    Concludes ctx P (BoundM.inScope x).run := by
  refine ⟨hx.keeps.inScope_bounds, fun s clear ↦ ?_⟩
  obtain ⟨o, t, run, -⟩ := hx.ends s.openScope clear
  change ∃ o u, BoundM.inScope x s = some (o, u) ∧ _
  rw [BoundM.inScope_apply, show x s.openScope = _ from run]
  exact ⟨o, s.closeTo t, rfl, trivial⟩

theorem bounds {x : EvalM α} (hx : Settles ctx Settled P x.run) :
    Concludes ctx P x.bounds.run := by
  refine ⟨hx.keeps.bounds, fun s clear ↦ ?_⟩
  obtain ⟨r, t, run, -⟩ := hx.ends s clear
  change ∃ o u, x.bounds s = some (o, u) ∧ _
  rw [EvalM.bounds_apply, show x s = _ from run]
  exact ⟨_, t, rfl, trivial⟩

theorem visit (acyclic : ctx.Acyclic) {name : String} {v : VarKey} {x y : BoundM α}
    (form : ctx.model.form e = .name name (some v))
    (hx : Concludes ctx (ctx.Reaches e) x.run)
    (hy : ∀ P, ctx.Closed P → (∀ d ∈ ctx.model.mentionedBy v, P d) →
      Concludes ctx P y.run) :
    Concludes ctx (ctx.Reaches e)
      (BoundM.inScope
        (x <|> ((ctx.enter v (ctx.model.span e)).bounds >>= fun _ ↦ y))).run := by
  refine ⟨hx.keeps.visit (hy (ctx.Reaches e) (closed_reaches ctx e)
    ((closed_reaches ctx e).declaration .refl form)).keeps, fun s clear ↦ ?_⟩
  obtain ⟨o, t, run, -⟩ := hx.ends s.openScope clear
  change ∃ o u, BoundM.inScope _ s = some (o, u) ∧ _
  rw [Context.visit_apply, show x s.openScope = _ from run]
  cases o with
  | some a => exact ⟨some a, _, rfl, trivial⟩
  | none =>
    simp only [Option.bind_some]
    split
    · next p entered =>
      obtain ⟨-, -, rfl⟩ := enter_eq_ok_iff.1 entered
      have clear' : ctx.ClearOn (ctx.Reaches e) t.pending :=
        clear_after (s := s.openScope) hx.keeps clear run
      have given : ∀ d ∈ ctx.model.mentionedBy v,
          ctx.Clear (t.pending.add (ctx.visitTo v (ctx.model.span e)) true) d := fun d hd ↦
        .add acyclic
          (clear'.clear d ((closed_reaches ctx e).declaration .refl form d hd)) hd
      obtain ⟨o, u, run', -⟩ := (hy _ (closed_clear ctx _) given).ends
        { t with pending := t.pending.add (ctx.visitTo v (ctx.model.span e)) true }
        ⟨clear'.unlimited, fun y clear ↦ clear⟩
      rw [show y _ = _ from run']
      exact ⟨o, _, rfl, trivial⟩
    · exact ⟨none, _, rfl, trivial⟩

theorem succeeds {x : BoundM α} (hx : Concludes ctx P x.run) :
    Settles ctx Settled P x.succeeds.run := by
  refine ⟨hx.keeps.succeeds, fun s clear ↦ ?_⟩
  obtain ⟨o, t, run, -⟩ := hx.ends s clear
  refine ⟨.ok o.isSome, t, ?_, settled_ok _⟩
  change (Option.bind (Option.bind (x s) _) _) = _
  rw [show x s = _ from run]
  rfl

theorem orFail {x : BoundM α} (e : ExprKey) {cause : Cause} (h : cause.aboutPending = false)
    (hx : Concludes ctx P x.run) :
    Settles ctx Settled P (x.orFail (ctx.failureAt e cause)).run := by
  refine ⟨hx.keeps.orFail e cause, fun s clear ↦ ?_⟩
  obtain ⟨o, t, run, -⟩ := hx.ends s clear
  change ∃ r u, x.orFail _ s = some (r, u) ∧ _
  rw [BoundM.orFail_apply, show x s = _ from run]
  cases o with
  | some a => exact ⟨_, _, rfl, settled_ok a⟩
  | none => exact ⟨_, _, rfl, settled_error ((aboutPending_locate e _ t).trans h)⟩

end Settles

/-- That steps settle is passed on by all ways of putting them together. -/
def settling (acyclic : ctx.Acyclic) : EvalLogic ctx where
  Evals P _ x := Settles ctx Settled P x.run
  Bounds P _ x := Concludes ctx P x.run
  Searches _ := True
  weaken := .weaken
  ofExcept := .pure
  failAt e _ h := .failAt e h
  bind := .bind
  locating e _ hx := .locating e hx
  inScope := .inScope
  keep := .keep
  chain e _ hf := .chain acyclic e hf
  weaken_bounds := .weaken
  ofOption _ := .pure trivial
  bind_bounds := .bind_bounds
  orElse := .orElse
  inScope_bounds := .inScope_bounds
  bounds := .bounds
  visit := .visit acyclic
  succeeds _ := .succeeds
  orFail e _ h _ := .orFail e h

/-! ### Models without cycles -/

theorem Model.Acyclic.context {m : Model} {registry : Registry} {defines : Prop}
    (built : m.Built defines) (acyclic : m.Acyclic) : (Context.mk m registry).Acyclic := by
  have wf : WellFounded (TransGen fun x e ↦ x ∈ (Context.mk m registry).mentioned e) :=
    (acyclic.wellFounded_mentioned built.operands_lt).transGen
  refine Subrelation.wf (fun {x e} below ↦ ?_) wf
  exact transGen_swap.1 below

private theorem mk_evaluator (ctx : Context) :
    Evaluator.mk ctx ctx.evaluator.eval ctx.evaluator.bounds = ctx.evaluator :=
  (Evaluator.ofLevels_eq_mk ctx ctx.levels).symm

/-- In a model without cycles the evaluator settles. -/
theorem Context.Acyclic.handles (acyclic : ctx.Acyclic) :
    Evaluator.Handles ⟨ctx, ctx.evaluator.eval, ctx.evaluator.bounds⟩ (settling acyclic)
      fun _ ↦ True := by
  have mk := mk_evaluator ctx
  have keeps : Evaluator.KeepsElements ⟨ctx, ctx.evaluator.eval, ctx.evaluator.bounds⟩ := by
    rw [mk]
    exact keepsElements_ofLevels ctx ctx.levels
  have settles (e : ExprKey) :
      (settling acyclic).Evals (ctx.Reaches e) (ctx.evaluator.eval e) ∧
        (settling acyclic).Bounds (ctx.Reaches e) (ctx.evaluator.bounds e) := by
    induction e using acyclic.induction with
    | _ e ih =>
      have below : Evaluator.Handles ⟨ctx, ctx.evaluator.eval, ctx.evaluator.bounds⟩
          (settling acyclic) (ctx.Below e) :=
        ⟨closed_below ctx e, keeps, fun x hx ↦ (ih x hx).1, fun x hx ↦ (ih x hx).2⟩
      have self : (settling acyclic).Evals (ctx.Reaches e) (ctx.evaluator.eval e) := by
        rw [Context.eval_evaluator, ← mk]
        exact Evaluator.evals_valueStep below fun _ _ _ ↦ trivial
      refine ⟨self, ?_⟩
      rw [Context.bounds_evaluator, ← mk]
      exact Evaluator.bounds_boundsStep below self
  exact ⟨fun _ _ _ _ ↦ trivial, keeps, fun x _ ↦ (settles x).1, fun x _ ↦ (settles x).2⟩

/-- A query that is asked alone is the only one to be answered. -/
private theorem ask_of_run {q : Query} {a : Answer} {t : EvalState}
    (run : ctx.evaluator.answer q (.fresh none) = some (a, t)) : ctx.ask none [q] = some [a] := by
  change Option.map _ (Option.bind (ctx.evaluator.answer q (.fresh none)) _) = _
  rw [run]
  rfl

private theorem clearOn_fresh (P : ExprKey → Prop) :
    ctx.ClearOn P (EvalState.fresh none).pending := ⟨rfl, fun _ _ _ _ _ _ _ ↦ rfl⟩

/-- An evaluation that settles is a question that is answered. -/
private theorem ask_of_settles {P : ExprKey → Prop} {q : Query} {answer : α → Answer}
    {x : EvalM α} (asks : ctx.evaluator.answer q = Evaluator.reply answer x)
    (value : ∀ a f, answer a ≠ .failed f) (h : Settles ctx Settled P x.run) :
    ∃ a, ctx.ask none [q] = some [a] ∧ ∀ f, a = .failed f → f.cause.aboutPending = false := by
  obtain ⟨r, t, run, settled⟩ := h.ends (.fresh none) (clearOn_fresh P)
  have replied : ctx.evaluator.answer q (.fresh none) = (x.run (.fresh none)).bind fun r ↦ _ :=
    congrFun asks (.fresh none)
  rw [run] at replied
  cases r with
  | ok a => exact ⟨answer a, ask_of_run replied, fun f eq ↦ (value a f eq).elim⟩
  | error g =>
    refine ⟨.failed g, ask_of_run replied, fun f eq ↦ ?_⟩
    cases eq
    exact settled g rfl

/-- In a model without cycles every question about the value, the bounds, the domains or the index
sets of an expression is answered, and no answer is a failure about the declarations that are
pending. A model that is put together without defining variables after their declaration has no
cycles. -/
theorem answered_without_cycles {m : Model} {defines : Prop} (registry : Registry)
    (built : m.Built defines) (acyclic : defines → m.Acyclic) (e : ExprKey) (dimension : Nat)
    (q : Query) (asked : q ∈ [.value e, .bounds e, .domain e, .domainOfElements e, .upperSet e,
      .indexSet e dimension]) :
    ∃ a, (Context.mk m registry).ask none [q] = some [a] ∧
      ∀ f, a = .failed f → f.cause.aboutPending = false := by
  let ctx : Context := ⟨m, registry⟩
  have settles : ctx.Acyclic := (built.acyclic_of acyclic).context built
  have handles := settles.handles
  have asks (q : Query) : ctx.evaluator.answer q =
      (Evaluator.mk ctx ctx.evaluator.eval ctx.evaluator.bounds).answer q := by
    rw [mk_evaluator]
  simp only [List.mem_cons, List.not_mem_nil, or_false] at asked
  rcases asked with rfl | rfl | rfl | rfl | rfl | rfl
  · exact ask_of_settles (asks (.value e)) (fun _ _ ↦ nofun) (handles.eval trivial)
  · have bounds : Concludes ctx (fun _ ↦ True) (ctx.evaluator.bounds e).run :=
      handles.bounds trivial
    obtain ⟨o, t, run, -⟩ := bounds.ends (.fresh none) (clearOn_fresh _)
    have answered : ctx.evaluator.answer (.bounds e) (.fresh none) =
        ((ctx.evaluator.bounds e).run (.fresh none)).bind fun r ↦ some (.bounds r.1, r.2) := rfl
    rw [run] at answered
    exact ⟨.bounds o, ask_of_run answered, fun _ eq ↦ nomatch eq⟩
  · exact ask_of_settles (asks (.domain e)) (fun _ _ ↦ nofun) (handles.domainOf trivial)
  · exact ask_of_settles (asks (.domainOfElements e)) (fun _ _ ↦ nofun)
      (handles.domainOfElements trivial)
  · exact ask_of_settles (asks (.upperSet e)) (fun _ _ ↦ nofun) (handles.upperSet trivial)
  · exact ask_of_settles (asks (.indexSet e dimension)) (fun _ _ ↦ nofun)
      (handles.indexSet dimension trivial fun _ _ ↦ trivial)

/-- The model of an array that holds a variable, and of its element. -/
def elementOfNamed : Model :=
  let build : Build Unit := do
    let one ← Build.int .one
    let y ← Build.addVariable
      { name := "y", span := .nowhere, ty := .int .par, domain := none, indexSets := [],
        definition := some one }
    let array ← Build.array [← Build.name y]
    let a ← Build.addVariable
      { name := "a", span := .nowhere, ty := (Ty.int .par).arrayOf 1, domain := none,
        indexSets := [none], definition := some array }
    let _ ← Build.element (← Build.name a) [one]
  (build.run .empty).2

/-- The element is worked out long after the array has been found, and that is no cycle. -/
theorem element_answered_without_cycles :
    elementOfNamed.Built True ∧ elementOfNamed.Acyclic ∧
    ∃ a, (Context.mk elementOfNamed .empty).ask none [.value ⟨4⟩] = some [a] ∧
      ∀ f, a = .failed f → f.cause.aboutPending = false := by
  let int : Ty := .int .par
  have built : elementOfNamed.Built False := Model.Built.empty
    |>.node (.int .one) .nowhere int (by decide) (by decide)
    |>.addVariable ⟨"y", .nowhere, int, none, [], some ⟨0⟩⟩ (by decide) (by decide) (by simp)
    |>.node (.name "y" (some ⟨0⟩)) .nowhere int (by decide) (by decide)
    |>.literal
    |>.node (.array ⟨⟨0⟩, [⟨1⟩], [Build.fromOne 1]⟩) .nowhere (int.arrayOf 1) (by decide)
      (by decide)
    |>.addVariable ⟨"a", .nowhere, int.arrayOf 1, none, [none], some ⟨2⟩⟩ (by decide) (by decide)
      (by simp)
    |>.node (.name "a" (some ⟨1⟩)) .nowhere (int.arrayOf 1) (by decide) (by decide)
    |>.node (.element ⟨3⟩ [⟨0⟩]) .nowhere int (by decide) (by decide)
  exact ⟨built.mono False.elim, built.acyclic, answered_without_cycles .empty
    (built.mono False.elim) (fun _ : True ↦ built.acyclic) ⟨4⟩ 1 (.value ⟨4⟩) List.mem_cons_self⟩

end ConstraintEval
