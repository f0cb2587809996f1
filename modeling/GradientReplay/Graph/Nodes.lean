import GradientReplay.Graph.Node

/-!
The nodes of a build in order of their numbers, read and written one at a time. What is asked of a
number that no node has is answered as for a node that holds nothing.
-/

namespace GradientReplay

/-- Nodes in order: the node numbered `k` is at position `k`. -/
abbrev Nodes (α : Type) := List (Node α)

namespace Nodes

variable {α : Type}

def value? (nodes : Nodes α) (node : NodeId) (i : Index) : Option (Tensor α) :=
  nodes[node]?.bind (·.value? i)

def gradient? (nodes : Nodes α) (node : NodeId) (i : Index) : Option (Tensor α) :=
  nodes[node]?.bind (·.gradient? i)

/-- The value of a node at an index, which has to be there. -/
def readValue (nodes : Nodes α) (i : Index) (node : NodeId) : Except ReplayError (Tensor α) :=
  match nodes.value? node i with
  | some value => .ok value
  | none => .error (.missingValue node i)

/-- The gradient of a node at an index, which has to be there. -/
def readGradient (nodes : Nodes α) (i : Index) (node : NodeId) : Except ReplayError (Tensor α) :=
  match nodes.gradient? node i with
  | some gradient => .ok gradient
  | none => .error (.missingGradient node i)

def setValue (nodes : Nodes α) (node : NodeId) (i : Index) (value : Tensor α) : Nodes α :=
  nodes.modify node (·.setValue i value)

def setGradient (nodes : Nodes α) (node : NodeId) (i : Index) (gradient : Tensor α) : Nodes α :=
  nodes.modify node (·.setGradient i gradient)

/-- Add a contribution to the gradient of a node at an index, or subtract it. -/
def accumulate [Zero α] [Add α] [Sub α] [Neg α] (nodes : Nodes α) (node : NodeId) (i : Index)
    (sign : Sign) (gradient : Tensor α) : Except ReplayError (Nodes α) :=
  match nodes[node]? with
  | none => .ok nodes
  | some n => do
      let n ← ofTensor (n.accumulate i sign gradient)
      .ok (nodes.set node n)

end Nodes

end GradientReplay
