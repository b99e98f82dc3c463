import ConstraintEval.Proofs.Logic.Replay

/-!
# Limits on nesting

A limit on how deeply declarations nest makes evaluations fail that would not fail otherwise, and
changes no value, with one exception: a search for bounds goes on after a failure. Where the
limit is as large as the number of declarations it is never reached.
-/

namespace ConstraintEval

open Pending

namespace Pending

/-- One lot of pending declarations is the same as another one, but for a limit that allows as
much nesting or more. -/
structure Loosened (p q : Pending) : Prop where
  visited : q.visited = p.visited
  nesting : q.nesting = p.nesting
  limit : ∀ n, q.limit = some n → ∃ k, p.limit = some k ∧ k ≤ n

/-- Distinct variables of a model are visited under a limit, and the limit counts no more than
these. -/
structure Counted (m : Model) (limit : Nat) (p : Pending) : Prop where
  limited : p.limit = some limit
  nodup : p.visited.Nodup
  named : ∀ v ∈ p.visited, m.Names v
  nesting : p.nesting ≤ p.visited.length

variable {m : Model} {p q : Pending} {v : Visit} {nested : Bool}

theorem Loosened.add (h : p.Loosened q) : (p.add v nested).Loosened (q.add v nested) where
  visited := congrArg (v.key :: ·) h.visited
  nesting := congrArg (· + nested.toNat) h.nesting
  limit := h.limit

theorem Loosened.holds_eq (h : p.Loosened q) (v : VarKey) : q.holds v = p.holds v := by
  rw [holds, holds, h.visited]

theorem Counted.add {limit : Nat} (h : p.Counted m limit) (fresh : p.holds v.key = false)
    (named : m.Names v.key) : (p.add v nested).Counted m limit where
  limited := h.limited
  nodup := by
    refine List.nodup_cons.2 ⟨fun mem ↦ ?_, h.nodup⟩
    rw [holds, List.contains_eq_mem, decide_eq_false_iff_not] at fresh
    exact fresh mem
  named := List.forall_mem_cons.2 ⟨named, h.named⟩
  nesting := by
    have le := h.nesting
    have count : nested.toNat ≤ 1 := by cases nested <;> decide
    simp only [Pending.add, List.length_cons]
    omega

/-- A limit that is not below the number of declarations leaves room for another visit. -/
theorem Counted.nesting_lt {limit : Nat} (h : p.Counted m limit) {u : VarKey}
    (fresh : p.holds u = false) (named : m.Names u)
    (declared : ∀ w, m.Names w → w.index < m.declared.size) (le : m.declared.size ≤ limit) :
    p.nesting < limit := by
  have added : (p.add ⟨u, "", .nowhere⟩ true).Counted m limit := h.add fresh named
  have length : (u :: p.visited).length ≤ m.declared.size := by
    refine VarKey.length_le_of_nodup added.nodup (List.forall_mem_cons.2 ⟨declared u named, ?_⟩)
    exact fun w hw ↦ declared w (h.named w hw)
  have nesting := h.nesting
  rw [List.length_cons] at length
  omega

end Pending

/-- All variables that a model names are declared, and a limit is no less than their number. -/
def Model.Roomy (m : Model) (limit : Nat) : Prop :=
  (∀ v, m.Names v → v.index < m.declared.size) ∧ m.declared.size ≤ limit

/-- Runs under a limit are replayed under a looser one. Both refuse the same visits where the
limit has room for all of them. -/
def Replay.loosening (ctx : Context) (limit : Nat) : Replay ctx where
  Rel p q := p.Loosened q ∧ p.Counted ctx.model limit
  Agrees _ := ctx.model.Roomy limit
  enter named rel h := by
    obtain ⟨fresh, within, rfl⟩ := enter_eq_ok_iff.1 h
    refine ⟨_, enter_eq_ok_iff.2 ⟨?_, fun n limited counts ↦ ?_, rfl⟩, rel.1.add,
      rel.2.add fresh named⟩
    · rw [rel.1.holds_eq, fresh]
    · obtain ⟨k, limited', le⟩ := rel.1.limit n limited
      rw [rel.1.nesting]
      exact Nat.lt_of_lt_of_le (within k limited' counts) le
  refuse {p q v nested f} named roomy rel h := by
    cases enter : q.enter v nested with
    | error f' => exact ⟨f', rfl⟩
    | ok o =>
      obtain ⟨fresh, -, -⟩ := enter_eq_ok_iff.1 enter
      rw [rel.1.holds_eq] at fresh
      have room : ∀ n, p.limit = some n → nested = true → p.nesting < n := by
        intro n limited _
        rw [rel.2.limited] at limited
        cases limited
        exact rel.2.nesting_lt fresh named roomy.1 roomy.2
      rw [enter_eq_ok_iff.2 ⟨fresh, room, rfl⟩] at h
      cases h

/-- A value that is found under a limit on nesting is found under every looser limit and without
one, if no builtin that looks for bounds comes to the name of a variable on the way, or if the
limit leaves room for every declaration. -/
theorem eval_of_eval_limited (ctx : Context) (e : ExprKey) (v : Value) (limit : Nat)
    (looser : Option Nat) (le : ∀ n, looser = some n → limit ≤ n)
    (searches : (∀ x, ctx.Reaches e x → ctx.LooksForBounds x → ∀ y name u, ctx.Below x y →
        ctx.model.form y ≠ .name name (some u)) ∨ ctx.model.Roomy limit)
    (found : ∃ t, ctx.evaluator.eval e (.fresh (some limit)) = some (.ok v, t)) :
    ∃ t, ctx.evaluator.eval e (.fresh looser) = some (.ok v, t) := by
  obtain ⟨t, found⟩ := found
  have agrees : (Replay.loosening ctx limit).AgreesOnSearches e := by
    intro x reaches looks y name u below form
    rcases searches with unnamed | roomy
    · exact (unnamed x reaches looks y name u below form).elim
    · exact roomy
  have loosened : (Pending.empty (some limit)).Loosened (.empty looser) :=
    ⟨rfl, rfl, fun n limited ↦ ⟨limit, rfl, le n limited⟩⟩
  have counted : (Pending.empty (some limit)).Counted ctx.model limit :=
    ⟨rfl, List.nodup_nil, (fun _ h ↦ nomatch h), Nat.le_refl 0⟩
  exact Replay.eval_of_eval _ agrees ⟨loosened, counted⟩ found

/-- The model of a variable that is defined by another one, and of the question whether it has
bounds. -/
def boundsOfSuccessor : Model :=
  let build : Build Unit := do
    Library.declareAll
    let y ← Build.addVariable
      { name := "y", span := .nowhere, ty := .int .par, domain := none, indexSets := [],
        definition := some (← Build.int .one) }
    let sum ← Build.binary (.arith .add) (← Build.name y) (← Build.int .one)
    let x ← Build.addVariable
      { name := "x", span := .nowhere, ty := .int .par, domain := none, indexSets := [],
        definition := some sum }
    let _ ← Build.call "has_bounds" [← Build.name x]
  (build.run .empty).2

/-- The model with the standard library. -/
def successorContext : Context where
  model := boundsOfSuccessor
  registry := ((Registry.ofLibrary boundsOfSuccessor).toOption).getD .empty

/-- If only one declaration may nest, then no bounds are found, and that is the answer; if two may
nest, then there are some. -/
theorem limit_changes_answer :
    Registry.ofLibrary successorContext.model = .ok successorContext.registry ∧
    successorContext.evaluator.eval ⟨5⟩ (.fresh (some 1)) =
      some (.ok (.bool false), .fresh (some 1)) ∧
    successorContext.evaluator.eval ⟨5⟩ (.fresh (some 2)) =
      some (.ok (.bool true), .fresh (some 2)) := by
  decide +kernel

private theorem index_lt_of_named {m : Model} {count : Nat}
    (all : m.nodes.toList.all (fun n ↦ n.form.resolved?.all (·.index < count)) = true)
    (v : VarKey) (named : m.Names v) : v.index < count := by
  obtain ⟨e, name, form⟩ := named
  have within := Model.form_of_all (fun form ↦ form.resolved?.all (·.index < count)) all rfl e
  rw [form] at within
  exact of_decide_eq_true within

/-- Two declarations may nest, and there are no more, so the bounds are found without a limit as
well. -/
theorem limit_keeps_answer :
    successorContext.model.Roomy 2 ∧
    successorContext.evaluator.eval ⟨5⟩ (.fresh (some 2)) =
      some (.ok (.bool true), .fresh (some 2)) ∧
    ∃ t, successorContext.evaluator.eval ⟨5⟩ (.fresh none) = some (.ok (.bool true), t) := by
  have declared : successorContext.model.nodes.toList.all
      (fun n ↦ n.form.resolved?.all (·.index < successorContext.model.declared.size)) = true := by
    decide +kernel
  have room : successorContext.model.declared.size ≤ 2 := by decide +kernel
  have found : successorContext.evaluator.eval ⟨5⟩ (.fresh (some 2)) =
      some (.ok (.bool true), .fresh (some 2)) := by
    decide +kernel
  have roomy : successorContext.model.Roomy 2 := ⟨index_lt_of_named declared, room⟩
  exact ⟨roomy, found, eval_of_eval_limited successorContext ⟨5⟩ (.bool true) 2 none (by simp)
    (.inr roomy) ⟨_, found⟩⟩

end ConstraintEval
