import GradientReplay.Function.Basic

/-!
The known functions that need only arithmetic and comparison, over any type of numbers that has
them. On doubles they keep signs of zero and pass on what is not a number, each as its comment
says.
-/

namespace GradientReplay

variable {α : Type}

/-! ### Scalars -/

/-- The absolute value; zero of either sign gives plain zero. -/
def absolute [Zero α] [Sub α] [LE α] [DecidableLE α] (x : α) : α :=
  if x ≤ 0 then 0 - x else x

/-- One with the sign of a number, zeros with their own sign; what is not equal to itself stays. -/
def signOf [Zero α] [One α] [Neg α] [Div α] [BEq α] [LT α] [DecidableLT α] (x : α) : α :=
  if x == x then if x < 0 ∨ 1 / x < 0 then -1 else 1 else x

/-- The larger of two numbers; of a number and what is not equal to itself, the number. -/
def larger [BEq α] [LT α] [DecidableLT α] (x c : α) : α :=
  if x < c ∨ x != x then c else x

/-- The smaller of two numbers; of a number and what is not equal to itself, the number. -/
def smaller [BEq α] [LT α] [DecidableLT α] (x c : α) : α :=
  if c < x ∨ x != x then c else x

/-! ### Unary functions -/

namespace UnaryFunction

def linear [One α] : UnaryFunction α := ⟨some .linear, fun x => x, fun _ => 1⟩

def relu [Zero α] [One α] [LT α] [DecidableLT α] : UnaryFunction α :=
  ⟨some .relu, fun x => if x < 0 then 0 else x, fun x => if x < 0 then 0 else 1⟩

def abs [Zero α] [One α] [Neg α] [Sub α] [Div α] [BEq α] [LE α] [DecidableLE α] [LT α]
    [DecidableLT α] : UnaryFunction α :=
  ⟨some .abs, absolute, signOf⟩

def square [One α] [Add α] [Mul α] : UnaryFunction α :=
  ⟨some .square, fun x => x * x, fun x => (1 + 1) * x⟩

def reciprocal [One α] [Neg α] [Mul α] [Div α] : UnaryFunction α :=
  ⟨some .reciprocal, fun x => 1 / x, fun x => -1 / (x * x)⟩

end UnaryFunction

/-! ### Binary functions -/

namespace BinaryFunction

/-- Half the square of the distance to the target. -/
def meanSquaredError [One α] [Add α] [Sub α] [Mul α] [Div α] : BinaryFunction α :=
  ⟨some .meanSquaredError, fun x c => (x - c) * (x - c) / (1 + 1), fun x c => x - c⟩

/-- The distance to the target. -/
def meanAbsoluteError [Zero α] [One α] [Neg α] [Sub α] [Div α] [BEq α] [LE α] [DecidableLE α]
    [LT α] [DecidableLT α] : BinaryFunction α :=
  ⟨some .meanAbsoluteError, fun x c => absolute (x - c), fun x c => signOf (x - c)⟩

def max [Zero α] [One α] [BEq α] [LE α] [DecidableLE α] [LT α] [DecidableLT α] :
    BinaryFunction α :=
  ⟨some .max, larger, fun x c => if c ≤ x then 1 else 0⟩

def min [Zero α] [One α] [BEq α] [LE α] [DecidableLE α] [LT α] [DecidableLT α] :
    BinaryFunction α :=
  ⟨some .min, smaller, fun x c => if x ≤ c then 1 else 0⟩

end BinaryFunction

end GradientReplay
