import GradientReplay.Expression.Formula
import GradientReplay.Procedure.Basic

/-!
The text of a procedure: one line an expression for each direction, and a summary with the counts
of nodes in front and the links behind.
-/

namespace GradientReplay.Procedure

variable {α : Type}

/-- The expressions in the order in which they are computed. -/
def expressionChain (p : Procedure α) : List String :=
  p.forwardOrder.map fun e => e.chainLine e.formula

/-- The rules in the order in which they are applied. -/
def gradientChain (p : Procedure α) : List String :=
  p.backwardOrder.map fun e => e.chainLine e.gradientFormula

/-- The counts of nodes and constants, and the ends of the graph. -/
def countLine (p : Procedure α) : String :=
  "节点" ++ toString p.nodes.length ++ "个（常量" ++
    toString (p.nodes.filter (·.constant)).length ++ "个），输入" ++ NodeId.text p.input ++
    "，输出" ++ NodeId.text p.output

def linkText (link : Link α) : String :=
  NodeId.text link.producer ++ " -> " ++ NodeId.text link.consumer

/-- The summary, line by line. -/
def summaryLines (p : Procedure α) : List String :=
  let indent (line : String) := "  " ++ line
  ["过程[" ++ p.name ++ "]", p.countLine, "前向："] ++ p.expressionChain.map indent ++
    "反向：" :: p.gradientChain.map indent ++
    if p.hasLinks then "关联：" :: p.links.map fun link => indent (linkText link) else []

def summary (p : Procedure α) : String := "\n".intercalate p.summaryLines

end GradientReplay.Procedure
