import GradientReplay.Expression.Basic

/-!
The formulas of an expression: what it computes going forward, and what its rule does to the
gradients of its arguments going back. `d(n0)` is the gradient of a node.
-/

namespace GradientReplay.Expression

variable {α : Type}

/-- The gradient of a node. -/
def gradientText (node : String) : String := "d(" ++ node ++ ")"

/-- What a term computes; nodes are given by their texts. -/
def termText : Term α String → String
  | .unary f x => f.label ++ "(" ++ x ++ ")"
  | .binary f x c => f.label ++ "(" ++ x ++ ", " ++ c ++ ")"
  | .arithmetic .add x y => x ++ " + " ++ y
  | .arithmetic .subtract x y => x ++ " - " ++ y
  | .arithmetic .dot x y => x ++ " · " ++ y
  | .arithmetic .multiply x y => x ++ " * " ++ y
  | .arithmetic .divide x y => x ++ " / " ++ y

/-- What the rule of a term does; `dx`, `dy` and `dr` are the gradients of the arguments and of the
result `r`. -/
def ruleText (r : String) : Term α String → String
  | .unary f x => gradientText x ++ " += " ++ f.label ++ "'(" ++ x ++ ") * " ++ gradientText r
  | .binary f x c =>
      gradientText x ++ " += " ++ f.label ++ "'(" ++ x ++ ", " ++ c ++ ") * " ++ gradientText r
  | .arithmetic operation x y =>
      let dx := gradientText x
      let dy := gradientText y
      let dr := gradientText r
      match operation with
      | .add => dx ++ " += " ++ dr ++ ", " ++ dy ++ " += " ++ dr
      | .subtract => dx ++ " += " ++ dr ++ ", " ++ dy ++ " -= " ++ dr
      | .dot => dx ++ " += " ++ dr ++ " · " ++ y ++ "ᵀ, " ++ dy ++ " += " ++ x ++ "ᵀ · " ++ dr
      | .multiply => dx ++ " += " ++ dr ++ " * " ++ y ++ ", " ++ dy ++ " += " ++ x ++ " * " ++ dr
      | .divide =>
          dx ++ " += " ++ dr ++ " / " ++ y ++ ", " ++ dy ++ " -= " ++ dr ++ " * " ++ x ++ " / " ++
            y ++ "^2"

/-- `n0 + n1 = n2`. -/
def formula (e : Expression α) : String :=
  termText (e.term.map NodeId.text) ++ " = " ++ NodeId.text e.result

/-- `d(n0) += d(n2), d(n1) += d(n2)`. -/
def gradientFormula (e : Expression α) : String :=
  ruleText (NodeId.text e.result) (e.term.map NodeId.text)

/-- A line of a chain: number, name and formula. -/
def chainLine (e : Expression α) (formula : String) : String :=
  "表达式 " ++ toString e.id ++ ": " ++ e.term.label ++ ": " ++ formula

end GradientReplay.Expression
