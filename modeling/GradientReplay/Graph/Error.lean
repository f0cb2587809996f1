import GradientReplay.Series
import GradientReplay.Tensor.Error

/-!
The numbers by which nodes, expressions and tensors are told apart, and why recording or replaying
fails.
-/

namespace GradientReplay

/-- The position of a node among the nodes of its build. -/
abbrev NodeId := Nat

/-- The position of an expression among the expressions of its build. -/
abbrev ExpressionId := Nat

/-- The identity of a tensor that a caller holds. Two tensors of equal contents differ in it. -/
abbrev TensorId := Nat

/-- The text of a node: `n3`. -/
def NodeId.text (node : NodeId) : String := "n" ++ toString node

inductive ReplayError where
  /-- The output of a build is no node of it. -/
  | outputUnbound
  /-- The tensor has no node. -/
  | unbound (id : TensorId)
  /-- The result of an expression is one of its arguments. -/
  | resultIsArgument
  /-- The result of an expression is a node of the build already. -/
  | resultBound (id : TensorId)
  /-- A build was begun while one was going on. -/
  | alreadyRecording
  /-- An expression was given while no build was going on. -/
  | notRecording
  /-- A build was ended while none was going on. -/
  | nothingToFinish
  /-- Only a constant has a value to be replaced. -/
  | notConstant (node : NodeId)
  /-- The new value of a constant has another shape. -/
  | shapeFixed (node : NodeId) (shape other : Shape)
  /-- The node has no value at the index. -/
  | missingValue (node : NodeId) (index : Index)
  /-- The node has no gradient at the index. -/
  | missingGradient (node : NodeId) (index : Index)
  /-- A tensor operation failed. -/
  | tensor (cause : TensorError)
  /-- The index after the last one was asked for. -/
  | indexOverflow
  deriving DecidableEq, Repr

/-- Is an error the answer of the call that it stopped? An overflow is not: it breaks the call off
without an answer. -/
def ReplayError.answered : ReplayError → Bool
  | .indexOverflow => false
  | _ => true

theorem ReplayError.answered_of_ne {e : ReplayError} (ne : e ≠ .indexOverflow) :
    e.answered = true := by
  cases e <;> first | rfl | exact absurd rfl ne

/-- The wording of an error; `name` writes the identity of a tensor. -/
def ReplayError.message (name : TensorId → String) : ReplayError → String
  | .outputUnbound => "输出张量未在本次构建中注册为节点"
  | .unbound id => "张量（id=" ++ name id ++ "）没有对应的节点"
  | .resultIsArgument => "表达式的结果不能同时作为其参数"
  | .resultBound id => "结果张量（id=" ++ name id ++ "）已在本次构建中登记过"
  | .alreadyRecording => "已有正在构建的过程，须先调用end_procedure"
  | .notRecording => "没有正在构建的过程，须先调用new_procedure"
  | .nothingToFinish => "没有正在构建的过程"
  | .notConstant node => "节点" ++ NodeId.text node ++ "不是常量节点，无法更新其共享值"
  | .shapeFixed node shape other =>
      "节点" ++ NodeId.text node ++ "的形状为" ++ shape.text ++ "，与新值的形状" ++ other.text ++
        "不一致"
  | .missingValue node index =>
      "节点" ++ NodeId.text node ++ "在索引" ++ toString index.toNat ++ "处没有值"
  | .missingGradient node index =>
      "节点" ++ NodeId.text node ++ "在索引" ++ toString index.toNat ++ "处没有梯度"
  | .tensor cause => cause.message
  | .indexOverflow => "attempt to add with overflow"

/-- A failure of a tensor operation, as a failure of the replay. -/
def ofTensor {β : Type} : Except TensorError β → Except ReplayError β
  | .ok b => .ok b
  | .error cause => .error (.tensor cause)

@[simp] theorem ofTensor_ok {β : Type} {x : Except TensorError β} {b : β} :
    ofTensor x = .ok b ↔ x = .ok b := by
  cases x <;> simp [ofTensor]

end GradientReplay
