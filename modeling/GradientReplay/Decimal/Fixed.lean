import GradientReplay.Decimal.Binary

/-!
Fixed-point text: a fixed count of places behind the point, rounded from the exact value with
ties to the even neighbour, and padded on the left to a least width.
-/

namespace GradientReplay.Decimal

/-- Put blanks in front of a text until it has the width. -/
def padLeft (width : Nat) (s : String) : String :=
  "".pushn ' ' (width - s.length) ++ s

/-- The digits of `n`, with zeros in front up to the width. -/
def zeroPadded (width n : Nat) : String :=
  let digits := toString n
  "".pushn '0' (width - digits.length) ++ digits

/-- The text of a double with so many places; the sign of a negative zero is kept. -/
def fixed (places : Nat) (x : Float) : String :=
  match Binary.ofFloat x with
  | .notANumber => "NaN"
  | .infinite negative => if negative then "-inf" else "inf"
  | .finite negative significand exponent =>
      let (num, den) := quotient significand exponent
      let unit := Nat.pow 10 places
      let scaled := roundDiv (num * unit) den
      let body := toString (scaled / unit) ++ "." ++ zeroPadded places (scaled % unit)
      if negative then "-" ++ body else body

end GradientReplay.Decimal
