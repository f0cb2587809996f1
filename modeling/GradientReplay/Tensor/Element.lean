import GradientReplay.Tensor.Basic

/-!
Reading and writing one element of a tensor. An index list is valid when it has one index per
axis, each below its dimension; it then picks the element at its row-major offset.
-/

namespace GradientReplay.Tensor

variable {α : Type}

/-- The element that an index list picks. -/
def get (t : Tensor α) (index : List Nat) : Except TensorError α :=
  match (t.shape.offset? index).bind (t.data[·]?) with
  | some x => .ok x
  | none => .error (.outOfBounds index t.shape)

/-- The tensor with the element that an index list picks replaced. -/
def set (t : Tensor α) (index : List Nat) (x : α) : Except TensorError (Tensor α) :=
  match t.shape.offset? index with
  | some k => .ok ⟨t.shape, t.data.set k x, by simp [t.length_data]⟩
  | none => .error (.outOfBounds index t.shape)

end GradientReplay.Tensor
