import GradientReplay.Tensor.Shape

/-!
Why a tensor operation fails: each cause is a constructor, its wording is `TensorError.message`.
-/

namespace GradientReplay

/-- The operations that check the shapes of their operands. -/
inductive Operator where
  | add
  | increase
  | subtract
  | decrease
  | multiply
  | divide
  | matMul
  | transpose
  | combine
  deriving DecidableEq, Repr

/-- The name of an operation in messages. -/
def Operator.label : Operator → String
  | .add => "相加"
  | .increase => "自相加"
  | .subtract => "相减"
  | .decrease => "自相减"
  | .multiply => "逐元素相乘"
  | .divide => "逐元素相除"
  | .matMul => "矩阵相乘"
  | .transpose => "转置"
  | .combine => "应用二元函数"

inductive TensorError where
  /-- The shapes of the two operands do not go together. -/
  | shapesDiffer (operator : Operator) (first second : Shape)
  /-- So many elements do not fill the shape, or the shape cannot be stored. -/
  | lengthMismatch (length : Nat) (shape : Shape)
  /-- The operation takes tensors of rank two only. -/
  | notMatrix (operator : Operator) (shape : Shape)
  /-- The index list does not pick an element. -/
  | outOfBounds (index : List Nat) (shape : Shape)
  /-- The divisor has an element that is zero. -/
  | zeroDivisor
  deriving DecidableEq, Repr

def TensorError.message : TensorError → String
  | .shapesDiffer operator first second =>
      "形状不一致，故无法" ++ operator.label ++ "：第一个张量的形状为" ++ first.text ++
        "，第二个张量的形状为" ++ second.text
  | .lengthMismatch length shape =>
      "数据长度" ++ toString length ++ "与形状" ++ shape.text ++ "不匹配"
  | .notMatrix operator shape =>
      operator.label ++ "只接受2阶张量，但得到形状" ++ shape.text
  | .outOfBounds index shape =>
      "索引" ++ Shape.text index ++ "超出形状" ++ shape.text ++ "的范围"
  | .zeroDivisor => "作为除数的张量中存在为零元素"

end GradientReplay
