import GradientReplay.Tensor.Error

/-!
Tensors: numbers arranged in a shape and held in row-major order. The type keeps the one
invariant, that there are as many elements as the shape has places, so every operation on tensors
proves it once, where it builds its result.

The numbers are of any type: `Float` when a program runs, a field in statements about derivatives.
-/

namespace GradientReplay

@[ext]
structure Tensor (α : Type) where
  shape : Shape
  /-- The elements in row-major order. -/
  data : List α
  length_data : data.length = shape.size

namespace Tensor

variable {α : Type}

/-! ### Construction -/

/-- The tensor with these elements, if they fill a storable shape. -/
def ofList? (data : List α) (shape : Shape) : Except TensorError (Tensor α) :=
  if h : data.length = shape.size ∧ shape.storable then .ok ⟨shape, data, h.1⟩
  else .error (.lengthMismatch data.length shape)

/-- The tensor whose element at each offset is given by a function. -/
def generate (shape : Shape) (element : Nat → α) : Tensor α :=
  ⟨shape, (List.range shape.size).map element, by simp⟩

/-- The tensor with one number everywhere. -/
def fill (shape : Shape) (number : α) : Tensor α :=
  ⟨shape, List.replicate shape.size number, by simp⟩

/-- As `fill`, for a shape that may be too large to store. -/
def fill? (shape : Shape) (number : α) : Option (Tensor α) :=
  if shape.storable then some (fill shape number) else none

/-- The tensor of this shape with zeros everywhere. -/
def zeros [Zero α] (shape : Shape) : Tensor α := fill shape 0

/-- Zeros in the shape of another tensor. -/
def zerosLike [Zero α] (t : Tensor α) : Tensor α := zeros t.shape

/-! ### Properties -/

/-- The number of axes. -/
def rank (t : Tensor α) : Nat := t.shape.length

/-- The number of elements. -/
def size (t : Tensor α) : Nat := t.data.length

/-- A tensor of one element, whatever its rank, stands for a number. -/
def isSingle (t : Tensor α) : Bool := t.size == 1

/-- The number that a tensor of one element stands for. -/
def number? (t : Tensor α) : Option α :=
  match t.data with
  | [x] => some x
  | _ => none

/-- Two tensors are equal when their shapes are and their elements compare equal in order. -/
instance [BEq α] : BEq (Tensor α) where
  beq a b := a.shape == b.shape && a.data == b.data

/-- A tensor equals a number when it stands for one that compares equal to it. -/
def equalsNumber [BEq α] (t : Tensor α) (x : α) : Bool :=
  match t.number? with
  | some y => y == x
  | none => false

/-! ### Maps and sums -/

/-- Apply a function to every element. -/
def map (f : α → α) (t : Tensor α) : Tensor α :=
  ⟨t.shape, t.data.map f, by simp [t.length_data]⟩

/-- The sum of the elements, added from the left to zero. Where addition is not exact the order
matters: floats added up in several running sums can give another last bit. -/
def sum [Zero α] [Add α] (t : Tensor α) : α := t.data.foldl (· + ·) 0

/-- The mean of the elements; zero if there are none. -/
def mean [Zero α] [Add α] [Div α] [NatCast α] (t : Tensor α) : α :=
  if t.data.isEmpty then 0 else t.sum / (t.size : α)

/-- Every element with its sign changed. -/
def neg [Neg α] (t : Tensor α) : Tensor α := t.map (- ·)

/-- Add a number to every element. -/
def addNumber [Add α] (t : Tensor α) (x : α) : Tensor α := t.map (· + x)

/-- Subtract a number from every element. -/
def subNumber [Sub α] (t : Tensor α) (x : α) : Tensor α := t.map (· - x)

/-- Multiply every element by a number. -/
def mulNumber [Mul α] (t : Tensor α) (x : α) : Tensor α := t.map (· * x)

/-- Divide every element by a number, zero included. -/
def divNumber [Div α] (t : Tensor α) (x : α) : Tensor α := t.map (· / x)

/-! ### Integer powers -/

/-- The power by repeated squaring: `acc * base ^ n`, the odd bits multiplied in from the lowest. -/
def powerFrom [Mul α] (acc base : α) (n : Nat) : α :=
  if h : n = 0 then acc
  else
    let acc := if n % 2 = 1 then acc * base else acc
    if n / 2 = 0 then acc else powerFrom acc (base * base) (n / 2)
termination_by n

/-- An integer power; a negative one is the reciprocal of the positive power. -/
def integerPower [One α] [Mul α] [Div α] (x : α) (n : Int) : α :=
  let power := powerFrom 1 x n.natAbs
  if n < 0 then 1 / power else power

/-- Raise every element to an integer power. -/
def pow [One α] [Mul α] [Div α] (t : Tensor α) (n : Int) : Tensor α :=
  t.map (integerPower · n)

end Tensor

end GradientReplay
