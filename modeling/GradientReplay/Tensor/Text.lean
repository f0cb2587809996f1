import GradientReplay.Decimal.Fixed
import GradientReplay.Tensor.Basic

/-!
The text of a tensor of numbers: elements in nested brackets with four places each, a matrix one
row a line, then the shape. Beyond rank two only the shape is told.
-/

namespace GradientReplay.Tensor

/-- One element: at least eight columns, four places. -/
def elementText (x : Float) : String := Decimal.padLeft 8 (Decimal.fixed 4 x)

/-- One row: elements in brackets. -/
def rowText (row : List Float) : String :=
  "[" ++ ", ".intercalate (row.map elementText) ++ "]"

/-- The rows of a matrix, each in brackets, the second and later ones on lines of their own. -/
def matrixText (rows columns : Nat) (data : List Float) : String :=
  let row (i : Nat) := rowText ((data.drop (i * columns)).take columns)
  "[" ++ ", \n ".intercalate ((List.range rows).map row) ++ "]"

/-- The elements in brackets and the shape under them. -/
def text (t : Tensor Float) : String :=
  let framed (body : String) := body ++ "\n形状: " ++ t.shape.text
  match t.shape with
  | [] => framed ("".intercalate (t.data.map elementText))
  | [_] => framed (rowText t.data)
  | [rows, columns] => framed (matrixText rows columns t.data)
  | _ => "<对于阶数大于二（rank>2）的张量（形状：" ++ t.shape.text ++ "）无法展示具体数据>"

end GradientReplay.Tensor
