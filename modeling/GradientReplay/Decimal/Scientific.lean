import GradientReplay.Decimal.Binary

/-!
Scientific text: a fixed count of significant digits, rounded from the exact value with ties to
the even neighbour, trailing zeros dropped, and the exponent without sign or leading zeros unless
it is negative: `1.5e0`, `2e1`, `-4.5e-2`.
-/

namespace GradientReplay.Decimal

/-- How many decimal digits a whole number has. -/
def digitCount (n : Nat) : Nat := (Nat.toDigits 10 n).length

/-- Is `10 ^ e ≤ num / den`? -/
def tenPowLe (e : Int) (num den : Nat) : Bool :=
  Nat.pow 10 e.toNat * den ≤ num * Nat.pow 10 (-e).toNat

/-- The exponent `e` of a positive quotient: `10 ^ e ≤ num / den < 10 ^ (e + 1)`. -/
def decimalExponent (num den : Nat) : Int :=
  let e : Int := digitCount num - digitCount den
  if tenPowLe e num den then e else e - 1

/-- A positive quotient rounded to so many significant digits: the digits as a whole number, and
the exponent of the first of them. -/
def significantDigits (count num den : Nat) : Nat × Int :=
  let e := decimalExponent num den
  let shift : Int := count - 1 - e
  let digits := roundDiv (num * Nat.pow 10 shift.toNat) (den * Nat.pow 10 (-shift).toNat)
  if digits = Nat.pow 10 count then (Nat.pow 10 (count - 1), e + 1) else (digits, e)

/-- Digits with the point after the first; zeros at the end are dropped. -/
def mantissaText (digits : Nat) : String :=
  let kept := ((Nat.toDigits 10 digits).reverse.dropWhile (· = '0')).reverse
  match kept with
  | [] => "0"
  | [d] => String.singleton d
  | d :: rest => String.ofList (d :: '.' :: rest)

/-- The text of a double with so many significant digits. -/
def scientific (count : Nat) (x : Float) : String :=
  match Binary.ofFloat x with
  | .notANumber => "NaN"
  | .infinite negative => if negative then "-inf" else "inf"
  | .finite negative significand exponent =>
      let body :=
        if significand = 0 then "0e0"
        else
          let (num, den) := quotient significand exponent
          let (digits, e) := significantDigits count num den
          mantissaText digits ++ "e" ++ toString e
      if negative then "-" ++ body else body

end GradientReplay.Decimal
