import GradientReplay.Tensor.Basic

/-!
Elementwise operations on two tensors. The operands go together when their shapes are equal or
one of them has a single element, which is then used at every place of the other.

The operations that change a tensor in place let only their right operand have a single element.
-/

namespace GradientReplay.Tensor

variable {α : Type}

/-- Combine two tensors element by element. -/
def zipWith (operator : Operator) (f : α → α → α) (a b : Tensor α) :
    Except TensorError (Tensor α) :=
  if h : a.shape = b.shape then
    .ok ⟨a.shape, List.zipWith f a.data b.data, by simp [a.length_data, b.length_data, h]⟩
  else
    match b.number?, a.number? with
    | some y, _ => .ok (a.map fun x => f x y)
    | none, some x => .ok (b.map fun y => f x y)
    | none, none => .error (.shapesDiffer operator a.shape b.shape)

def add [Add α] (a b : Tensor α) : Except TensorError (Tensor α) :=
  zipWith .add (· + ·) a b

def sub [Sub α] (a b : Tensor α) : Except TensorError (Tensor α) :=
  zipWith .subtract (· - ·) a b

def mul [Mul α] (a b : Tensor α) : Except TensorError (Tensor α) :=
  zipWith .multiply (· * ·) a b

/-- Does some element compare equal to zero? -/
def hasZero [Zero α] [BEq α] (t : Tensor α) : Bool := t.data.any (· == 0)

/-- Elementwise quotient; a zero in the divisor is an error, whatever the shapes. -/
def div [Zero α] [BEq α] [Div α] (a b : Tensor α) : Except TensorError (Tensor α) :=
  if b.hasZero then .error .zeroDivisor else zipWith .divide (· / ·) a b

/-- Combine with a two-argument function. -/
def combine (f : α → α → α) (a b : Tensor α) : Except TensorError (Tensor α) :=
  zipWith .combine f a b

/-! ### In place -/

/-- The new contents of `a` after an operation in place with `b`: `a` keeps its shape. -/
def update (operator : Operator) (f : α → α → α) (a b : Tensor α) :
    Except TensorError (Tensor α) :=
  if h : a.shape = b.shape then
    .ok ⟨a.shape, List.zipWith f a.data b.data, by simp [a.length_data, b.length_data, h]⟩
  else
    match b.number? with
    | some y => .ok (a.map fun x => f x y)
    | none => .error (.shapesDiffer operator a.shape b.shape)

/-- The contents of `a` after `b` was added to it in place. -/
def increase [Add α] (a b : Tensor α) : Except TensorError (Tensor α) :=
  update .increase (· + ·) a b

/-- The contents of `a` after `b` was subtracted from it in place. -/
def decrease [Sub α] (a b : Tensor α) : Except TensorError (Tensor α) :=
  update .decrease (· - ·) a b

end GradientReplay.Tensor
