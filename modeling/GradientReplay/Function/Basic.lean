import GradientReplay.Tensor.Elementwise

/-!
Functions that act on tensors element by element, each with the derivative that goes with it. A
binary function `f x c` is differentiated in `x` only: `c` is a target or a parameter.

A function is one of the known kinds or of the caller's own making.
-/

namespace GradientReplay

/-- The known unary functions. -/
inductive UnaryKind where
  | linear | sigmoid | tanh | relu | exp | log | sqrt | abs | sin | cos | softplus | square
  | reciprocal
  deriving DecidableEq, Repr

/-- The known binary functions. -/
inductive BinaryKind where
  | meanSquaredError | meanAbsoluteError | crossEntropy | pow | max | min
  deriving DecidableEq, Repr

/-! ### Names -/

/-- The name of a kind in formulas and descriptors. -/
def UnaryKind.label : UnaryKind → String
  | .linear => "LINEAR"
  | .sigmoid => "SIGMOID"
  | .tanh => "TANH"
  | .relu => "RELU"
  | .exp => "EXP"
  | .log => "LOG"
  | .sqrt => "SQRT"
  | .abs => "ABS"
  | .sin => "SIN"
  | .cos => "COS"
  | .softplus => "SOFTPLUS"
  | .square => "SQUARE"
  | .reciprocal => "RECIPROCAL"

/-- The name by which a caller asks for a kind. -/
def UnaryKind.name : UnaryKind → String
  | .linear => "Linear"
  | .sigmoid => "Sigmoid"
  | .tanh => "Tanh"
  | .relu => "Relu"
  | .exp => "Exp"
  | .log => "Log"
  | .sqrt => "Sqrt"
  | .abs => "Abs"
  | .sin => "Sin"
  | .cos => "Cos"
  | .softplus => "Softplus"
  | .square => "Square"
  | .reciprocal => "Reciprocal"

def UnaryKind.all : List UnaryKind :=
  [.linear, .sigmoid, .tanh, .relu, .exp, .log, .sqrt, .abs, .sin, .cos, .softplus, .square,
    .reciprocal]

def UnaryKind.ofName? (name : String) : Option UnaryKind :=
  UnaryKind.all.find? fun kind => kind.name == name

/-- The name of a kind in formulas and descriptors. -/
def BinaryKind.label : BinaryKind → String
  | .meanSquaredError => "MEAN_SQUARED_ERROR"
  | .meanAbsoluteError => "MEAN_ABSOLUTE_ERROR"
  | .crossEntropy => "CROSS_ENTROPY"
  | .pow => "POW"
  | .max => "MAX"
  | .min => "MIN"

/-- The name by which a caller asks for a kind. -/
def BinaryKind.name : BinaryKind → String
  | .meanSquaredError => "MeanSquaredError"
  | .meanAbsoluteError => "MeanAbsoluteError"
  | .crossEntropy => "CrossEntropy"
  | .pow => "Pow"
  | .max => "Max"
  | .min => "Min"

def BinaryKind.all : List BinaryKind :=
  [.meanSquaredError, .meanAbsoluteError, .crossEntropy, .pow, .max, .min]

def BinaryKind.ofName? (name : String) : Option BinaryKind :=
  BinaryKind.all.find? fun kind => kind.name == name

/-! ### Functions with their derivatives -/

structure UnaryFunction (α : Type) where
  /-- `none` for a function of the caller's own making. -/
  kind : Option UnaryKind
  value : α → α
  derivative : α → α

structure BinaryFunction (α : Type) where
  /-- `none` for a function of the caller's own making. -/
  kind : Option BinaryKind
  value : α → α → α
  /-- The derivative in the first argument. -/
  derivative : α → α → α

variable {α : Type}

/-- The name in formulas; functions of the caller's own making share one. -/
def UnaryFunction.label (f : UnaryFunction α) : String := (f.kind.map (·.label)).getD "CUSTOM"

/-- The name in formulas; functions of the caller's own making share one. -/
def BinaryFunction.label (f : BinaryFunction α) : String := (f.kind.map (·.label)).getD "CUSTOM"

/-- The function at every element. -/
def UnaryFunction.apply (f : UnaryFunction α) (x : Tensor α) : Tensor α := x.map f.value

/-- The derivative at every element. -/
def UnaryFunction.slope (f : UnaryFunction α) (x : Tensor α) : Tensor α := x.map f.derivative

/-- The function at every pair of elements. -/
def BinaryFunction.apply (f : BinaryFunction α) (x c : Tensor α) : Except TensorError (Tensor α) :=
  Tensor.combine f.value x c

/-- The derivative at every pair of elements. -/
def BinaryFunction.slope (f : BinaryFunction α) (x c : Tensor α) : Except TensorError (Tensor α) :=
  Tensor.combine f.derivative x c

end GradientReplay
