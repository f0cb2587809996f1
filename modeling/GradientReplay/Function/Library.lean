import GradientReplay.Function.Arithmetic

/-!
The known functions on doubles: the arithmetic ones, and those that need exponentials, logarithms
or circular functions.
-/

namespace GradientReplay

/-! ### Scalars -/

def logistic (x : Float) : Float := 1 / (1 + Float.exp (-x))

/-- The logarithm of `1 + u` without loss for small `u`: where `1 + u` rounds, the quotient of
logarithm and rounded increment makes up for it. -/
def logOnePlus (u : Float) : Float :=
  let w := 1 + u
  if w == 1 then u
  else if w.isInf then Float.log w
  else Float.log w * (u / (w - 1))

/-! ### The functions of each kind -/

def UnaryKind.function : UnaryKind → UnaryFunction Float
  | .linear => .linear
  | .sigmoid => ⟨some .sigmoid, logistic, fun x => logistic x * (1 - logistic x)⟩
  | .tanh => ⟨some .tanh, Float.tanh, fun x => 1 - Float.tanh x * Float.tanh x⟩
  | .relu => .relu
  | .exp => ⟨some .exp, Float.exp, Float.exp⟩
  | .log => ⟨some .log, Float.log, fun x => 1 / x⟩
  | .sqrt => ⟨some .sqrt, Float.sqrt, fun x => 1 / (2 * Float.sqrt x)⟩
  | .abs => .abs
  | .sin => ⟨some .sin, Float.sin, Float.cos⟩
  | .cos => ⟨some .cos, Float.cos, fun x => -Float.sin x⟩
  | .softplus => ⟨some .softplus, fun x => logOnePlus (Float.exp x), logistic⟩
  | .square => .square
  | .reciprocal => .reciprocal

def BinaryKind.function : BinaryKind → BinaryFunction Float
  | .meanSquaredError => .meanSquaredError
  | .meanAbsoluteError => .meanAbsoluteError
  | .crossEntropy => ⟨some .crossEntropy, fun x c => -(c * Float.log x), fun x c => -(c / x)⟩
  | .pow => ⟨some .pow, Float.pow, fun x c => c * Float.pow x (c - 1)⟩
  | .max => .max
  | .min => .min

end GradientReplay
