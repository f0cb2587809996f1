import GradientReplay.Expression.Basic
import GradientReplay.Outcome

/-!
Going back: at an index, the gradient of the result of an expression is spread over its arguments
by the rule of the operation.

The rule lists contributions, each to one argument, and is worked out whole before the first
contribution is made. The second argument of a binary function takes none: it is a target or a
parameter.
-/

namespace GradientReplay

/-- What a rule hands to one argument. -/
structure Contribution (α : Type) where
  node : NodeId
  sign : Sign
  gradient : Tensor α

variable {α : Type} [Zero α] [Add α] [Sub α] [Mul α] [Div α] [Neg α] [BEq α]

/-- The contributions of a term to its arguments, from the gradient `g` of its result; `read`
gives the values of nodes. -/
def Term.contributions (read : NodeId → Except ReplayError (Tensor α)) (g : Tensor α) :
    Term α NodeId → Except ReplayError (List (Contribution α))
  | unary f x => do
      let slope := f.slope (← read x)
      let gx ← ofTensor (slope.mul g)
      .ok [⟨x, .plus, gx⟩]
  | binary f x c => do
      let a ← read x
      let b ← read c
      let slope ← ofTensor (f.slope a b)
      let gx ← ofTensor (slope.mul g)
      .ok [⟨x, .plus, gx⟩]
  | arithmetic .add x y => .ok [⟨x, .plus, g⟩, ⟨y, .plus, g⟩]
  | arithmetic .subtract x y => .ok [⟨x, .plus, g⟩, ⟨y, .minus, g⟩]
  | arithmetic .dot x y => do
      let a ← read x
      let b ← read y
      let bt ← ofTensor b.transpose
      let gx ← ofTensor (g.matMul bt)
      let at' ← ofTensor a.transpose
      let gy ← ofTensor (at'.matMul g)
      .ok [⟨x, .plus, gx⟩, ⟨y, .plus, gy⟩]
  | arithmetic .multiply x y => do
      let b ← read y
      let gx ← ofTensor (g.mul b)
      let a ← read x
      let gy ← ofTensor (a.mul g)
      .ok [⟨x, .plus, gx⟩, ⟨y, .plus, gy⟩]
  | arithmetic .divide x y => do
      let a ← read x
      let b ← read y
      let gx ← ofTensor (g.div b)
      let ga ← ofTensor (g.mul a)
      let bb ← ofTensor (b.mul b)
      let gy ← ofTensor (ga.div bb)
      .ok [⟨x, .plus, gx⟩, ⟨y, .minus, gy⟩]

/-- Make a contribution at an index. -/
def Contribution.apply (i : Index) (nodes : Nodes α) (c : Contribution α) :
    Outcome ReplayError (Nodes α) Unit :=
  .ofExcept nodes (nodes.accumulate c.node i c.sign c.gradient)

namespace Expression

/-- The contributions of an expression at an index. -/
def contributions (e : Expression α) (i : Index) (nodes : Nodes α) :
    Except ReplayError (List (Contribution α)) := do
  let g ← nodes.readGradient i e.result
  e.term.contributions (nodes.readValue i) g

/-- Make the contributions of an expression in order, until one fails. -/
def backward (e : Expression α) (i : Index) (nodes : Nodes α) :
    Outcome ReplayError (Nodes α) Unit :=
  match e.contributions i nodes with
  | .error cause => ⟨nodes, .error cause⟩
  | .ok contributions => .each (Contribution.apply i) nodes contributions

/-- `backward` for each expression in order, until one fails. -/
def backwardAll (i : Index) (expressions : List (Expression α)) (nodes : Nodes α) :
    Outcome ReplayError (Nodes α) Unit :=
  .each (fun nodes e => e.backward i nodes) nodes expressions

end Expression

end GradientReplay
