import GradientReplay.Expression.Basic
import GradientReplay.Outcome

/-!
Going forward: at an index, the result node of an expression takes the value of the term at the
values of the argument nodes.
-/

namespace GradientReplay.Expression

variable {α : Type} [Zero α] [Add α] [Sub α] [Mul α] [Div α] [BEq α]

/-- The value of the term at an index. -/
def evaluate (e : Expression α) (i : Index) (nodes : Nodes α) : Except ReplayError (Tensor α) := do
  let term ← e.term.traverse (nodes.readValue i)
  ofTensor term.eval

/-- Store the value of the term in the result node. -/
def forward (e : Expression α) (i : Index) (nodes : Nodes α) : Except ReplayError (Nodes α) := do
  let value ← e.evaluate i nodes
  .ok (nodes.setValue e.result i value)

/-- `forward` for each expression in order, until one fails. -/
def forwardAll (i : Index) (expressions : List (Expression α)) (nodes : Nodes α) :
    Outcome ReplayError (Nodes α) Unit :=
  .each (fun nodes e => .ofExcept nodes (e.forward i nodes)) nodes expressions

end GradientReplay.Expression
