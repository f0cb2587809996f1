import GradientReplay.Expression.Backward
import GradientReplay.Expression.Forward
import GradientReplay.Graph.Arena
import GradientReplay.Graph.Link

/-!
Procedures: a compiled build, which can be replayed at any number of indices. Going forward it
takes an input at an index and computes every node; going back it takes the gradient of the output
and spreads it over the nodes that led there.

A failing replay keeps the part of the work that was done.
-/

namespace GradientReplay

structure Procedure (α : Type) where
  name : String
  /-- All expressions, in the order in which they are computed. -/
  forwardOrder : List (Expression α)
  /-- The expressions that the output depends on, the last one first. -/
  backwardOrder : List (Expression α)
  input : NodeId
  output : NodeId
  links : List (Link α)
  nodes : Nodes α
  /-- The nodes that can be asked for by tensor: the registered constants, input and output. -/
  bound : List (TensorId × NodeId)

namespace Procedure

variable {α : Type}

/-- The node of a tensor that can be asked for. -/
def nodeOf (p : Procedure α) (tensor : TensorId) : Except ReplayError NodeId :=
  match p.bound.lookup tensor with
  | some node => .ok node
  | none => .error (.unbound tensor)

/-- Does a state pass from index to index? -/
def hasLinks (p : Procedure α) : Bool := !p.links.isEmpty

/-! ### Replay at one index -/

section Replay

variable [Zero α] [Add α] [Sub α] [Mul α] [Div α] [Neg α] [BEq α]

/-- At an index, carry the state over from the index before, bind the input, and compute the
expressions in order. The answer is the output node. -/
def forward (p : Procedure α) (i : Index) (input : Tensor α) :
    Outcome ReplayError (Procedure α) NodeId :=
  let (links, nodes) := Link.carryAll i p.links p.nodes
  let run := Expression.forwardAll i p.forwardOrder (nodes.setValue p.input i input)
  (run.embed fun nodes => { p with links, nodes }).andThen fun p _ => .done p p.output

/-- At an index, set the gradient of the output, give back the gradients of the carried state from
the index after, and apply the rules of the backward order. The answer is the input node. -/
def backward (p : Procedure α) (i : Index) (gradient : Tensor α) :
    Outcome ReplayError (Procedure α) NodeId :=
  let given := Link.giveBackAll i p.links (p.nodes.setGradient p.output i gradient)
  (given.embed fun (links, nodes) => { p with links, nodes }).andThen fun p _ =>
    ((Expression.backwardAll i p.backwardOrder p.nodes).embed fun nodes => { p with nodes }).andThen
      fun p _ => .done p p.input

end Replay

/-- The value of the output at an index. -/
def outputValue (p : Procedure α) (i : Index) : Except ReplayError (Tensor α) :=
  p.nodes.readValue i p.output

/-- The gradient of the input at an index. -/
def inputGradient (p : Procedure α) (i : Index) : Except ReplayError (Tensor α) :=
  p.nodes.readGradient i p.input

/-! ### Resets -/

/-- Forget all values and gradients, and the readings of the links. -/
def reset (p : Procedure α) : Procedure α :=
  { p with nodes := p.nodes.map Node.reset, links := p.links.map Link.reset }

/-- Forget the values and gradients at one index. -/
def resetIndex (p : Procedure α) (i : Index) : Procedure α :=
  { p with nodes := p.nodes.map (·.resetIndex i) }

/-- Forget the readings of the links, as between two sequences. -/
def resetLinks (p : Procedure α) : Procedure α := { p with links := p.links.map Link.reset }

/-! ### Constants -/

/-- The mean gradient of the node of a tensor over the indices; zeros if it has none. -/
def gradientMean [Zero α] [Add α] [Div α] [NatCast α] (p : Procedure α) (tensor : TensorId) :
    Except ReplayError (Tensor α) := do
  let node ← p.nodeOf tensor
  match p.nodes[node]? with
  | none => .error (.unbound tensor)
  | some n =>
      let mean ← ofTensor n.gradientMean
      .ok (mean.getD n.blank)

/-- Give a constant the present contents of its tensor. -/
def updateConstant (p : Procedure α) (x : Operand α) : Except ReplayError (Procedure α) := do
  let node ← p.nodeOf x.id
  match p.nodes[node]? with
  | none => .error (.unbound x.id)
  | some n =>
      let n ← n.setConstant x.tensor
      .ok { p with nodes := p.nodes.set node n }

/-- Stop the gradients of the node of a tensor, or let them through again. -/
def setStopped (p : Procedure α) (tensor : TensorId) (stopped : Bool) :
    Except ReplayError (Procedure α) := do
  let node ← p.nodeOf tensor
  .ok { p with nodes := p.nodes.modify node (·.setStopped stopped) }

end Procedure

end GradientReplay
