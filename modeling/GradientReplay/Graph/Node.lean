import GradientReplay.Graph.Error
import GradientReplay.Tensor.Elementwise

/-!
Nodes: the places of a graph, with a value and a gradient at each index where one was stored.

A constant has one value, shared by all indices, and ignores values stored at an index; its
gradients are kept by index like those of any node. A node of a single element, such as a bias
that was spread over a tensor, takes the sum of each gradient that reaches it.
-/

namespace GradientReplay

/-- Where a node comes from, as told when it was made; `ι` numbers the expressions. -/
inductive Origin (ι : Type) where
  /-- The declared input, or a constant first used by this expression. -/
  | leaf (expression : ι)
  /-- The result of this expression of the same build. -/
  | result (expression : ι)
  /-- The result of this expression of the build before, used as an argument. -/
  | carried (expression : ι)
  deriving DecidableEq, Repr

namespace Origin

variable {ι κ : Type}

/-- The expression that an origin names. -/
def expression : Origin ι → ι
  | leaf e | result e | carried e => e

def isCarried : Origin ι → Bool
  | carried _ => true
  | _ => false

/-- The same origin with another numbering of the expressions. -/
def map (f : ι → κ) : Origin ι → Origin κ
  | leaf e => leaf (f e)
  | result e => result (f e)
  | carried e => carried (f e)

end Origin

/-- Is a contribution to a gradient added or subtracted? -/
inductive Sign where
  | plus
  | minus
  deriving DecidableEq, Repr

structure Node (α : Type) where
  id : NodeId
  /-- The tensor as it was when the node was made: the shape, and the value of a constant. -/
  reference : Tensor α
  constant : Bool
  build : Nat
  origin : Origin ExpressionId
  /-- A stopped node takes no contributions to its gradients. -/
  stopped : Bool
  values : Series (Tensor α)
  gradients : Series (Tensor α)

namespace Node

variable {α : Type}

/-- A node without values or gradients. -/
def create (id : NodeId) (reference : Tensor α) (constant : Bool) (build : Nat)
    (origin : Origin ExpressionId) : Node α :=
  ⟨id, reference, constant, build, origin, false, .empty, .empty⟩

def shape (n : Node α) : Shape := n.reference.shape

/-- Zeros in the shape of the node. -/
def blank [Zero α] (n : Node α) : Tensor α := n.reference.zerosLike

/-! ### Values -/

/-- The value at an index: of a constant, the shared one. -/
def value? (n : Node α) (i : Index) : Option (Tensor α) :=
  if n.constant then some n.reference else n.values.get? i

/-- Store a value at an index; a constant stays as it is. -/
def setValue (n : Node α) (i : Index) (value : Tensor α) : Node α :=
  if n.constant then n else { n with values := n.values.insert i value }

/-- Replace the shared value of a constant by one of the same shape. -/
def setConstant (n : Node α) (value : Tensor α) : Except ReplayError (Node α) :=
  if !n.constant then .error (.notConstant n.id)
  else if n.shape ≠ value.shape then .error (.shapeFixed n.id n.shape value.shape)
  else .ok { n with reference := value }

/-! ### Gradients -/

def gradient? (n : Node α) (i : Index) : Option (Tensor α) := n.gradients.get? i

/-- Store a gradient at an index, over what was there, even in a stopped node. -/
def setGradient (n : Node α) (i : Index) (gradient : Tensor α) : Node α :=
  { n with gradients := n.gradients.insert i gradient }

/-- A contribution as the node takes it: summed, if the node has a single element and it has
not. -/
def fit [Zero α] [Add α] (n : Node α) (gradient : Tensor α) : Tensor α :=
  if n.reference.isSingle && !gradient.isSingle then .fill n.shape gradient.sum else gradient

/-- Add a contribution to what a gradient is so far, or begin with it. -/
def combineGradient [Add α] [Sub α] [Neg α] (sign : Sign) (old : Option (Tensor α))
    (gradient : Tensor α) : Except TensorError (Tensor α) :=
  match old, sign with
  | some old, .plus => old.increase gradient
  | some old, .minus => old.decrease gradient
  | none, .plus => .ok gradient
  | none, .minus => .ok gradient.neg

/-- Add a contribution to the gradient at an index, or subtract it. -/
def accumulate [Zero α] [Add α] [Sub α] [Neg α] (n : Node α) (i : Index) (sign : Sign)
    (gradient : Tensor α) : Except TensorError (Node α) :=
  if n.stopped then .ok n
  else do
    let gradient ← combineGradient sign (n.gradient? i) (n.fit gradient)
    .ok (n.setGradient i gradient)

/-- The sum of the gradients over all indices, in their order; `none` if there are none. -/
def gradientSum [Add α] (n : Node α) : Except TensorError (Option (Tensor α)) :=
  match n.gradients.values with
  | [] => .ok none
  | first :: rest => do
      let sum ← rest.foldlM Tensor.increase first
      .ok (some sum)

/-- The mean of the gradients over the indices that have one; `none` if there are none. -/
def gradientMean [Add α] [Div α] [NatCast α] (n : Node α) :
    Except TensorError (Option (Tensor α)) := do
  let sum ← n.gradientSum
  .ok (sum.map fun sum => sum.divNumber (n.gradients.size : α))

def setStopped (n : Node α) (stopped : Bool) : Node α := { n with stopped }

/-! ### Resets -/

/-- Forget the values and gradients at all indices; a constant keeps its shared value. -/
def reset (n : Node α) : Node α := { n with values := .empty, gradients := .empty }

/-- Forget the value and the gradient at one index. -/
def resetIndex (n : Node α) (i : Index) : Node α :=
  { n with values := n.values.erase i, gradients := n.gradients.erase i }

end Node

end GradientReplay
