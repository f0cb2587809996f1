import GradientReplay.Proofs.Procedure.Backward
import GradientReplay.Proofs.Recorder.Lineage
import GradientReplay.Proofs.Recorder.Search

/-!
The backward order of a compiled procedure.

It is what the search from the output finds, put into descending order: the expressions that the
output depends on, each after all that use its result. So when the rule of an expression is applied,
all contributions to the gradient of its result have been made (`Procedure.Descent`).
-/

namespace GradientReplay

variable {α : Type}

section Order

variable [Zero α] [Add α] [Sub α] [Mul α] [Div α] [BEq α]

/-- The expressions of a compiled procedure are numbered by position. -/
theorem Session.Compiled.numbered {p : Procedure α} (compiled : Compiled p) (j : ExpressionId)
    (e : Expression α) (he : p.forwardOrder[j]? = some e) : e.id = j := by
  obtain ⟨s, output, reached, finished⟩ := compiled
  obtain ⟨r, node, previous, current, -, -, rfl⟩ := Recorder.finish_ok finished
  obtain ⟨last, placed⟩ := reached_placed reached current
  exact placed.positions j e he

variable [Neg α]

namespace Procedure

/-- What is asked of the backward order of a procedure. -/
structure Descent (p : Procedure α) : Prop where
  /-- It holds exactly the expressions that the output depends on. -/
  exact : ∀ e, e ∈ p.backwardOrder ↔
    e ∈ p.forwardOrder ∧ DependsOn p.forwardOrder p.output e.result
  /-- The numbers strictly descend, so each expression stands there once. -/
  descending : p.backwardOrder.Pairwise (·.id > ·.id)
  /-- All expressions that use a result come before the one that gives it. -/
  users : ∀ before e after, p.backwardOrder = before ++ e :: after →
    ∀ e' ∈ p.backwardOrder, e.result ∈ e'.term.arguments → e' ∈ before
  /-- From its own rule on, no rule changes the gradient of a result. -/
  settled : ∀ before e after, p.backwardOrder = before ++ e :: after →
    ∀ (i j : Index) (nodes : Nodes α),
      (Expression.backwardAll i (e :: after) nodes).state.gradient? e.result j =
        nodes.gradient? e.result j

omit [Zero α] [Add α] [Sub α] [Mul α] [Div α] [BEq α] [Neg α] in
/-- From an expression of the backward order on, no expression uses its result. -/
theorem not_used_after {p : Procedure α} (valid : p.plan.Valid) {before after : List (Expression α)}
    {e : Expression α} (split : p.backwardOrder = before ++ e :: after) :
    ∀ e' ∈ e :: after, e.result ∉ e'.term.arguments := by
  intro e' he' uses
  have sub : e :: after ⊆ p.forwardOrder := by
    intro x hx
    apply valid.backward_subset
    show x ∈ p.backwardOrder
    rw [split]
    exact List.mem_append_right before hx
  have descending : p.backwardOrder.Pairwise fun e e' => e'.result < e.result := by
    have eq : p.backwardOrder = GradientReplay.backwardOrder p.forwardOrder p.output := valid.backward
    rw [eq]
    exact valid.ordered.backwardOrder_descending
  rw [split] at descending
  have first := (List.pairwise_cons.mp (List.pairwise_append.mp descending).2.1).1
  have above := valid.ordered.arguments e' (sub he') e.result uses
  rcases List.mem_cons.mp he' with rfl | he'
  · exact lt_irrefl _ above
  · exact lt_asymm above (first e' he')

end Procedure

/-- The backward order of a compiled procedure is as it should be, and it is what the search from
the output finds: the search ends, and the expressions it noted, each once, are the backward order
when they are put into descending order. -/
theorem Session.Compiled.backwardOrder_descent {p : Procedure α} (compiled : Compiled p) :
    p.Descent ∧
      (∃ ids, Search.Ends p.forwardOrder (Search.start p.output) ids) ∧
      ∀ ids, Search.Ends p.forwardOrder (Search.start p.output) ids →
        ids.Nodup ∧
          (ids.mergeSort (· ≥ ·)).map (p.forwardOrder[·]?) = p.backwardOrder.map some := by
  have valid := compiled.plan_valid
  have eq : p.backwardOrder = backwardOrder p.forwardOrder p.output := valid.backward
  refine ⟨?_, Search.exists_ends _ _, fun ids ends => ?_⟩
  · constructor
    · intro e
      rw [eq]
      exact valid.ordered.mem_backwardOrder_iff
    · rw [eq, ← List.pairwise_map]
      exact Search.backwardOrder_ids compiled.numbered p.output
    · intro before e after split e' he' uses
      rw [split] at he'
      rcases List.mem_append.mp he' with he' | he'
      · exact he'
      · exact absurd uses (Procedure.not_used_after valid split e' he')
    · intro before e after split i j nodes
      apply Expression.backwardAll_gradient?
      left
      intro e' he' receives
      exact Procedure.not_used_after valid split e' he' (e'.term.receivers_subset receives)
  · rw [eq]
    exact ends.sorted valid.ordered compiled.numbered

/-- Two builds of `h = x + w`, `y = h * h + h`, the second not ended yet; `x + x` is computed on the
way and not used. -/
def fanCalls : List (Call Int) :=
  [.hold (.fill [2] 1), .hold (.fill [2] 2), .register [1],
    .begin 0, .compute (.arithmetic .add 0 1), .compute (.arithmetic .multiply 2 2),
    .compute (.arithmetic .add 0 0), .compute (.arithmetic .add 3 2), .finish 5,
    .begin 0, .compute (.arithmetic .add 0 1), .compute (.arithmetic .multiply 6 6),
    .compute (.arithmetic .add 0 0), .compute (.arithmetic .add 7 6)]

/-- The sum that is not used is left out, and the product with itself stands there once. -/
theorem fan_descent :
    ∃ p : Procedure Int, Session.Compiled p ∧ p.backwardOrder.map (·.id) = [3, 1, 0] ∧
      p.Descent ∧ ∃ ids, Search.Ends p.forwardOrder (Search.start p.output) ids ∧
        (ids.mergeSort (· ≥ ·)).map (p.forwardOrder[·]?) = p.backwardOrder.map some := by
  have compiled : Session.Compiled _ := ⟨(Session.start "fan").run fanCalls, 9, ⟨"fan", _, rfl⟩, rfl⟩
  obtain ⟨descent, ⟨ids, ends⟩, sorted⟩ := compiled.backwardOrder_descent
  exact ⟨_, compiled, rfl, descent, ids, ends, (sorted ids ends).2⟩

end Order

end GradientReplay
