/-!
Numerals: numbers as they are written, before it is decided what they are read as. A word is a
numeral without sign, fraction and exponent below 2^64; a double takes any numeral that does not
exceed its range.
-/

namespace GradientReplay

structure Numeral where
  negative : Bool
  whole : Nat
  /-- The digits behind the point, as a number, and how many there are. -/
  fraction : Option (Nat × Nat)
  exponent : Option Int
  deriving DecidableEq, Repr

namespace Numeral

/-- The numeral of a whole number. -/
def ofNat (n : Nat) : Numeral := ⟨false, n, none, none⟩

/-- All digits as one whole number. -/
def digits (n : Numeral) : Nat :=
  match n.fraction with
  | none => n.whole
  | some (value, count) => n.whole * Nat.pow 10 count + value

/-- The power of ten that scales the digits. -/
def scale (n : Numeral) : Int :=
  n.exponent.getD 0 - (n.fraction.map fun f => (f.2 : Int)).getD 0

/-- The word that a numeral stands for; minus zero is none. -/
def toWord? (n : Numeral) : Option UInt64 :=
  match n with
  | ⟨false, whole, none, none⟩ => if whole < UInt64.size then some whole.toUInt64 else none
  | _ => none

/-! ### Doubles -/

/-- Drop digits from the end until the rest fits a word; each dropped digit scales the rest by
ten. -/
def leadingWord (digits : Nat) (scale : Int) : Nat × Int :=
  if digits < UInt64.size then (digits, scale) else leadingWord (digits / 10) (scale + 1)
termination_by digits
decreasing_by
  unfold UInt64.size at *
  omega

/-- The double nearest to a power of ten. -/
def tenPower (n : Nat) : Float := Float.ofScientific 1 false n

/-- A word times a power of ten, in the arithmetic of doubles; none beyond their range. -/
def scaled? (digits : Nat) (scale : Int) : Option Float :=
  let x := digits.toFloat
  if 308 < scale then if digits = 0 then some x else none
  else if 0 ≤ scale then
    let y := x * tenPower scale.toNat
    if y.isInf then none else some y
  else if -308 ≤ scale then some (x / tenPower (-scale).toNat)
  else if -616 ≤ scale then some (x / tenPower 308 / tenPower (-scale - 308).toNat)
  else some 0

/-- The double that a numeral stands for. -/
def toFloat? (n : Numeral) : Option Float :=
  let (digits, scale) := leadingWord n.digits n.scale
  (scaled? digits scale).map fun x => if n.negative then -x else x

/-! ### Text -/

/-- The digits of a fraction, with the zeros in front that its count of digits asks for. -/
def fractionText (value count : Nat) : List Char :=
  let digits := Nat.toDigits 10 value
  List.replicate (count - digits.length) '0' ++ digits

def text (n : Numeral) : List Char :=
  let sign := if n.negative then ['-'] else []
  let fraction :=
    match n.fraction with
    | none => []
    | some (value, count) => '.' :: fractionText value count
  let exponent :=
    match n.exponent with
    | none => []
    | some (.ofNat e) => 'e' :: Nat.toDigits 10 e
    | some (.negSucc e) => 'e' :: '-' :: Nat.toDigits 10 (e + 1)
  sign ++ Nat.toDigits 10 n.whole ++ fraction ++ exponent

end Numeral

end GradientReplay
