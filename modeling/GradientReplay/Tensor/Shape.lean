/-!
Shapes: the dimensions of a tensor, first axis first. A shape fixes how many elements there are,
and an index list picks one of them by its row-major offset.
-/

namespace GradientReplay

/-- The dimensions of a tensor; `[]` is the shape of a number without axes. -/
abbrev Shape := List Nat

namespace Shape

/-- The number of elements: the product of the dimensions. -/
def size (shape : Shape) : Nat := shape.foldr (· * ·) 1

theorem size_pair (m n : Nat) : size [m, n] = m * n := by simp [size]

/-- The product of the dimensions that are not zero. -/
def extent (shape : Shape) : Nat := size (shape.filter (· ≠ 0))

/-- The largest extent that storage can address: 2^63 - 1. -/
def maxExtent : Nat := 9223372036854775807

/-- A shape can be stored when its extent is addressable, even if an axis is empty. -/
def storable (shape : Shape) : Bool := shape.extent ≤ maxExtent

/-- The row-major offset of an index list: one index per axis, each below its dimension. -/
def offset? : Shape → List Nat → Option Nat
  | [], [] => some 0
  | d :: ds, i :: is => if i < d then (offset? ds is).map (i * size ds + ·) else none
  | _, _ => none

/-- The text of a shape or index list: `[2, 3]`. -/
def text (shape : Shape) : String :=
  "[" ++ ", ".intercalate (shape.map toString) ++ "]"

end Shape

end GradientReplay
