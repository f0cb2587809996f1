import GradientReplay.Proofs.Gradient.Step
import GradientReplay.Proofs.Procedure.Evaluation
import Mathlib.Algebra.Field.Rat

/-!
Reverse mode is exact.

For a procedure without links that was recorded by computing, a replay forward and one back at the
same index give the gradients of the input and of the constants as they should be: whatever tangents
the input and the constants have, the gradient of the output pairs with the tangent of the output as
these gradients do with these tangents (`backward_exact`).
-/

namespace GradientReplay

open Finset

variable {α : Type} [Field α] [BEq α]

namespace Procedure

/-- After a successful replay forward at an index without gradients, with no node stopped and
values of the shapes of the nodes, the index is ready to be gone back at. -/
theorem forward_ready {q : Procedure α} (valid : q.plan.Valid) {i : Index} {x : Tensor α}
    {out : NodeId} (fresh : ∀ n, q.nodes.gradient? n i = none) (isOpen : q.nodes.Open)
    (computed : (q.forward i x).result = .ok out)
    (fits : (q.forward i x).state.nodes.Fits i) : (q.forward i x).state.Ready i where
  holds := by
    rw [q.forward_forwardOrder]
    exact forward_holds valid computed
  fits := fits
  isOpen := (Nodes.open_of_unvalued (q.forward_unvalued i x)).mpr isOpen
  fresh := by
    intro n
    rw [Nodes.gradient?_of_unvalued (q.forward_unvalued i x), fresh]

/-- A replay back at an index that is ready is exact, if the procedure has no links. -/
theorem ready_exact {r : Procedure α} (valid : r.plan.Valid) (unlinked : r.links = []) {i : Index}
    (ready : r.Ready i) {g : Tensor α} (fits : g.shape = Link.shapeOf r.nodes r.output)
    {back : NodeId} (swept : (r.backward i g).result = .ok back) (κ : NodeId → Tangent α)
    (δ : Tangent α) :
    let nodes := (r.backward i g).state.nodes
    let τ := Expression.tangents (nodes.valueAt i) (r.plan.seeds κ δ []) r.plan.forwardOrder
    nodes.Graded i ∧
      g.pair (τ r.plan.output) = nodes.pairing i r.plan.input δ +
        ∑ n ∈ r.plan.constants, nodes.pairing i n (κ n) := by
  intro nodes τ
  have bare : ∀ e ∈ r.forwardOrder, r.plan.seeds κ δ [] e.result = 0 := by
    intro e he
    apply valid.seeds_of_result _ he
    intro c hc
    cases hc
  obtain ⟨graded, total⟩ :=
    step_total valid ready fits (by simp [unlinked]) (by simp [unlinked]) swept bare
  have ungraded := r.backward_ungraded i g
  have value : nodes.valueAt i = r.nodes.valueAt i := Nodes.valueAt_of_ungraded ungraded i
  have length : nodes.length = r.plan.nodes.length := by
    rw [Nodes.length_of_ungraded ungraded, r.plan_nodes_length]
  refine ⟨graded, ?_⟩
  have split := valid.total_seeds length i κ δ [] (by simp) .nil
  simp only [unlinked, List.map_nil, List.sum_nil, add_zero] at total split
  rw [← split, ← total]
  simp only [τ, value]
  rfl

/-- Reverse mode is exact: the inner product of the gradient of the output with its tangent is the
sum of the inner products of the gradients of the input and of the constants with theirs. -/
theorem backward_exact {p q : Procedure α} (assisted : Session.Assisted p)
    (unlinked : p.links = []) (reaches : p.Reaches q) {i : Index}
    (fresh : ∀ n, q.nodes.gradient? n i = none) (isOpen : q.nodes.Open) {x g : Tensor α}
    (inputFits : x.shape = p.plan.shapeOf p.input)
    (outputFits : g.shape = p.plan.shapeOf p.output) {out back : NodeId}
    (computed : (q.forward i x).result = .ok out)
    (swept : ((q.forward i x).state.backward i g).result = .ok back)
    (κ : NodeId → Tangent α) (δ : Tangent α) :
    let nodes := ((q.forward i x).state.backward i g).state.nodes
    let τ := Expression.tangents (nodes.valueAt i) (p.plan.seeds κ δ []) p.forwardOrder
    nodes.Graded i ∧
      g.pair (τ p.output) =
        nodes.pairing i p.input δ + ∑ n ∈ p.plan.constants, nodes.pairing i n (κ n) := by
  have planQ := reaches_plan reaches
  have planR : (q.forward i x).state.plan = p.plan := (q.forward_plan i x).trans planQ
  have valid := assisted.compiled.plan_valid
  have validQ : q.plan.Valid := planQ ▸ valid
  have validR : (q.forward i x).state.plan.Valid := planR ▸ valid
  have fits : (q.forward i x).state.nodes.Fits i := by
    apply forward_fits validQ _ (reaches_vacant assisted.compiled.vacant reaches) computed
    · have input : q.input = p.input := congrArg Plan.input planQ
      rw [inputFits, planQ, input]
    · intro l hl
      rw [links_eq_nil planQ unlinked] at hl
      cases hl
    · rw [planQ]
      exact assisted.plan_shaped
  have gradientFits : g.shape = Link.shapeOf (q.forward i x).state.nodes
      (q.forward i x).state.output := by
    have output : (q.forward i x).state.output = p.output := congrArg Plan.output planR
    rw [outputFits, ← plan_shapeOf, planR, output]
  have exact := ready_exact validR (links_eq_nil planR unlinked)
    (forward_ready validQ fresh isOpen computed fits) gradientFits swept κ δ
  rw [planR] at exact
  exact exact

/-- A build of `y = x * w + w` with `x` of two elements and a single `w`, after one before it. -/
def productSession : Session ℚ :=
  (Session.start "product").run
    [.hold (.fill [2] 3), .hold (.fill [1] 2), .register [1],
      .begin 0, .compute (.arithmetic .multiply 0 1), .finish 2]

def productCalls : List (Call ℚ) :=
  [.begin 0, .compute (.arithmetic .multiply 0 1), .compute (.arithmetic .add 3 1)]

theorem product_exact :
    ∃ p : Procedure ℚ, Session.Assisted p ∧
      let nodes := ((p.forward 0 (.fill [2] 3)).state.backward 0 (.fill [2] 1)).state.nodes
      let τ := Expression.tangents (nodes.valueAt 0) (p.plan.seeds (fun _ => 1) 1 []) p.forwardOrder
      (Tensor.fill [2] 1).pair (τ p.output) =
        nodes.pairing 0 p.input 1 + ∑ n ∈ p.plan.constants, nodes.pairing 0 n 1 := by
  have assisted : Session.Assisted _ := ⟨productSession, productCalls, 4, ⟨"product", _, rfl⟩, rfl,
    by decide, rfl⟩
  have compiled := assisted.compiled
  refine ⟨_, assisted, ?_⟩
  exact (backward_exact (x := .fill [2] 3) (g := .fill [2] 1) assisted rfl ⟨[], rfl⟩
    (fun n => compiled.fresh n 0) compiled.isOpen rfl rfl rfl rfl (fun _ => 1) 1).2

end Procedure

end GradientReplay
