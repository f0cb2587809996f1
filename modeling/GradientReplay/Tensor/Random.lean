import GradientReplay.Tensor.Basic

/-!
Tensors of random numbers between two bounds, both included. The numbers are a function of the
seed alone, so one seed always gives one tensor.
-/

namespace GradientReplay.Tensor

/-- One step of a counter-based generator: the mixed word of a counter. -/
def mix (counter : UInt64) : UInt64 :=
  let z := (counter ^^^ (counter >>> 30)) * 0xbf58476d1ce4e5b9
  let z := (z ^^^ (z >>> 27)) * 0x94d049bb133111eb
  z ^^^ (z >>> 31)

/-- The number between zero and one, both included, that the upper bits of a word stand for. -/
def unitInterval (word : UInt64) : Float :=
  (word >>> 11).toFloat / 9007199254740991.0

/-- The `k`-th number of a seed, between the bounds. -/
def draw (low high : Float) (seed : UInt64) (k : Nat) : Float :=
  let word := mix (seed + (k.toUInt64 + 1) * 0x9e3779b97f4a7c15)
  let x := low + (high - low) * unitInterval word
  if x < low then low else if x > high then high else x

/-- Random numbers in a shape; the bounds must be in order, finite and of finite distance, and
the shape storable. -/
def random? (low high : Float) (shape : Shape) (seed : UInt64) : Option (Tensor Float) :=
  if low ≤ high ∧ low.isFinite ∧ high.isFinite ∧ (high - low).isFinite ∧ shape.storable then
    some (generate shape (draw low high seed))
  else none

end GradientReplay.Tensor
