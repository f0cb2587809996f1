/-!
The exact value of a double, as a whole number times a power of two, and rounding of quotients
to the nearest whole number. All decimal text of numbers is computed from these two.
-/

namespace GradientReplay.Decimal

/-- What the bits of a double stand for. -/
inductive Binary where
  /-- The number `significand * 2 ^ exponent`, with its sign. -/
  | finite (negative : Bool) (significand : Nat) (exponent : Int)
  | infinite (negative : Bool)
  | notANumber
  deriving DecidableEq, Repr

/-- Sixty-four bits: sign, eleven bits of exponent, fifty-two of fraction. -/
def Binary.ofBits (bits : UInt64) : Binary :=
  let negative : Bool := bits.toNat / Nat.pow 2 63 = 1
  let exponent : Nat := bits.toNat / Nat.pow 2 52 % Nat.pow 2 11
  let fraction := bits.toNat % Nat.pow 2 52
  if exponent = 2047 then if fraction = 0 then .infinite negative else .notANumber
  else if exponent = 0 then .finite negative fraction (-1074)
  else .finite negative (Nat.pow 2 52 + fraction) ((exponent : Int) - 1075)

def Binary.ofFloat (x : Float) : Binary := .ofBits x.toBits

/-- The number `significand * 2 ^ exponent` as a quotient of whole numbers. -/
def quotient (significand : Nat) (exponent : Int) : Nat × Nat :=
  (significand * Nat.pow 2 exponent.toNat, Nat.pow 2 (-exponent).toNat)

/-- The whole number nearest to a quotient; a tie goes to the even neighbour. -/
def roundDiv (num den : Nat) : Nat :=
  let whole := num / den
  let rest := num % den
  if 2 * rest < den ∨ (2 * rest = den ∧ whole % 2 = 0) then whole else whole + 1

end GradientReplay.Decimal
