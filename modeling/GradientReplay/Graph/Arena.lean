import GradientReplay.Graph.Nodes
import GradientReplay.Outcome

/-!
Arenas: the nodes of a build, and which tensor is bound to which of them. A tensor is known by its
identity alone, so tensors of equal contents have nodes of their own.
-/

namespace GradientReplay

/-- A tensor that a caller holds: its identity and its present contents. -/
structure Operand (α : Type) where
  id : TensorId
  tensor : Tensor α

namespace Operand

variable {α : Type}

/-- Change the contents in place: the identity stays, and a change that fails changes nothing. -/
def change (x : Operand α) (f : Tensor α → Except TensorError (Tensor α)) :
    Outcome TensorError (Operand α) Unit :=
  .ofExcept x ((f x.tensor).map fun tensor => { x with tensor })

/-- Add a tensor in place. -/
def increase [Add α] (x : Operand α) (b : Tensor α) : Outcome TensorError (Operand α) Unit :=
  x.change (·.increase b)

/-- Subtract a tensor in place. -/
def decrease [Sub α] (x : Operand α) (b : Tensor α) : Outcome TensorError (Operand α) Unit :=
  x.change (·.decrease b)

end Operand

structure Arena (α : Type) where
  nodes : Nodes α
  bindings : List (TensorId × NodeId)

namespace Arena

variable {α : Type}

def empty : Arena α := ⟨[], []⟩

/-- The node bound to a tensor. -/
def find? (arena : Arena α) (tensor : TensorId) : Option NodeId := arena.bindings.lookup tensor

/-- Is the tensor bound to a node? -/
def binds (arena : Arena α) (tensor : TensorId) : Bool := (arena.find? tensor).isSome

/-- The node bound to a tensor, which has to have one. -/
def nodeOf (arena : Arena α) (tensor : TensorId) : Except ReplayError NodeId :=
  match arena.find? tensor with
  | some node => .ok node
  | none => .error (.unbound tensor)

/-- The node bound to a tensor; if it has none, a new one with the properties given. -/
def define (arena : Arena α) (x : Operand α) (constant : Bool) (build : Nat)
    (origin : Origin ExpressionId) : Arena α × NodeId :=
  match arena.find? x.id with
  | some node => (arena, node)
  | none =>
      let node := arena.nodes.length
      (⟨arena.nodes ++ [.create node x.tensor constant build origin],
        arena.bindings ++ [(x.id, node)]⟩, node)

/-- Forget all bindings; the nodes stay. -/
def unbind (arena : Arena α) : Arena α := { arena with bindings := [] }

end Arena

end GradientReplay
