import GradientReplay.Proofs.Procedure.Backward

/-!
Does every gradient that is handed on go further?

Within one replay it does: with an expression the backward order holds all that give its receivers.
Across replays a link hands the gradient of its consumer to its producer, and the
expression of the producer is in the backward order only if the output depends on the producer
within one replay. So the backward order is closed under the flow of gradients exactly when the
output depends on the producer of every link whose consumer receives gradients
(`flowClosed_iff`).
-/

namespace GradientReplay

variable {α : Type}

namespace Procedure

/-- The node receives gradients: it is the output, or a receiver of some expression of the backward
order. -/
def Receives (p : Procedure α) (n : NodeId) : Prop :=
  n = p.output ∨ ∃ e ∈ p.backwardOrder, n ∈ e.term.receivers

/-- The backward order is closed under the flow of gradients. -/
structure FlowClosed (p : Procedure α) : Prop where
  /-- With an expression it holds the expressions that give its receivers. -/
  within : ∀ e ∈ p.backwardOrder, ∀ e' ∈ p.forwardOrder, e'.result ∈ e.term.receivers →
    e' ∈ p.backwardOrder
  /-- With a consumer that receives gradients it holds the expression that gives the producer. -/
  across : ∀ l ∈ p.links, p.Receives l.consumer →
    ∀ e ∈ p.forwardOrder, e.result = l.producer → e ∈ p.backwardOrder

variable [Zero α] [Add α] [Sub α] [Mul α] [Div α] [BEq α]

/-- No gradient that a link hands on is dropped, exactly when the output depends, within one
replay, on the producer of every link whose consumer receives gradients. -/
theorem flowClosed_iff {p : Procedure α} (compiled : Session.Compiled p) :
    p.FlowClosed ↔
      ∀ l ∈ p.links, p.Receives l.consumer → DependsOn p.forwardOrder p.output l.producer := by
  have valid := compiled.plan_valid
  constructor
  · intro closed l hl receives
    obtain ⟨e, he, give⟩ := exists_producer valid hl
    have found := closed.across l hl receives e he give
    have depends := (valid.mem_backward_iff he).mp found
    rw [give] at depends
    exact depends
  · intro depends
    constructor
    · intro e he e' he' give
      exact valid.backward_closed he he' (e.term.receivers_subset give)
    · intro l hl receives e he give
      apply (valid.mem_backward_iff he).mpr
      rw [give]
      exact depends l hl receives

/-- Two builds of `s = s + x` with the new state as output, the second not ended yet. -/
def sumSession : Session Int :=
  (Session.start "sum").run
    [.hold (.fill [1] 3), .hold (.fill [1] 0),
      .begin 0, .compute (.arithmetic .add 1 0), .finish 2,
      .begin 0, .compute (.arithmetic .add 2 0)]

theorem sum_closed : ∃ p : Procedure Int, Session.Compiled p ∧ p.links ≠ [] ∧ p.FlowClosed := by
  refine ⟨_, ⟨sumSession, 3, ⟨"sum", _, rfl⟩, rfl⟩, List.cons_ne_nil _ _, ?_⟩
  refine (flowClosed_iff ⟨sumSession, 3, ⟨"sum", _, rfl⟩, rfl⟩).mpr fun l hl _ => ?_
  cases List.mem_singleton.mp hl
  exact .self 2

/-! ### A state that is computed late -/

/-- Two builds of `y = x + s`, `s = x * w`, the second not ended yet: the output depends on the
state of the index before, and not on the new one. -/
def lateSession : Session Int :=
  (Session.start "late").run
    [.hold (.fill [1] 3), .hold (.fill [1] 2), .hold (.fill [1] 0), .register [1],
      .begin 0, .compute (.arithmetic .add 0 2), .compute (.arithmetic .multiply 0 1), .finish 3,
      .begin 0, .compute (.arithmetic .add 0 4), .compute (.arithmetic .multiply 0 1)]

theorem late_not_closed : ∃ p : Procedure Int, Session.Compiled p ∧ ¬ p.FlowClosed := by
  refine ⟨_, ⟨lateSession, 5, ⟨"late", _, rfl⟩, rfl⟩, fun closed => ?_⟩
  have receives : (1 : NodeId) ∈ (Term.arithmetic (α := Int) .add 0 1).receivers := by decide
  have found := closed.across ⟨4, 1, none, none⟩ (List.mem_singleton.mpr rfl)
    (.inr ⟨_, List.mem_cons_self, receives⟩) ⟨1, .arithmetic .multiply 0 3, 4⟩
    (List.mem_cons_of_mem _ List.mem_cons_self) rfl
  cases List.mem_singleton.mp found

end Procedure

end GradientReplay
