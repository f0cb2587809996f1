import GradientReplay.Tensor.Basic

/-!
Matrices: tensors of rank two. The product of an `m × k` and a `k × n` matrix has at `(i, j)` the
sum over the shared axis, and the transpose swaps the axes.
-/

namespace GradientReplay.Tensor

variable {α : Type}

/-- The rows and columns of a matrix. -/
def dimensions (operator : Operator) (t : Tensor α) : Except TensorError (Nat × Nat) :=
  match t.shape with
  | [rows, columns] => .ok (rows, columns)
  | _ => .error (.notMatrix operator t.shape)

/-- The element at an offset of row-major elements; zero outside them. -/
def element [Zero α] (data : Array α) (offset : Nat) : α := data.getD offset 0

/-- The sum of the products along the shared axis of `k` places, added from the left to zero, each
product and each sum rounded by itself where the arithmetic rounds. -/
def innerProduct [Zero α] [Add α] [Mul α] (k : Nat) (row column : Nat → α) : α :=
  ((List.range k).map fun l => row l * column l).foldl (· + ·) 0

/-- Matrix product. That the product can be stored (`Shape.storable`) is assumed of the factors and
not checked: over an empty shared axis, as of `[2 ^ 33, 0]` and `[0, 2 ^ 33]`, two factors that can
be stored have a product that cannot. -/
def matMul [Zero α] [Add α] [Mul α] (a b : Tensor α) : Except TensorError (Tensor α) := do
  let (m, k) ← a.dimensions .matMul
  let (k', n) ← b.dimensions .matMul
  if k ≠ k' then .error (.shapesDiffer .matMul a.shape b.shape)
  else
    let left := a.data.toArray
    let right := b.data.toArray
    .ok <| generate [m, n] fun p =>
      innerProduct k (fun l => element left (p / n * k + l)) fun l => element right (l * n + p % n)

/-- Swap the two axes of a matrix. -/
def transpose [Zero α] (t : Tensor α) : Except TensorError (Tensor α) := do
  let (m, n) ← t.dimensions .transpose
  let data := t.data.toArray
  .ok <| generate [n, m] fun p => element data (p % m * n + p / m)

end GradientReplay.Tensor
