import GradientReplay.Graph.Link
import GradientReplay.Recorder.Recording

/-!
How gradients and states flow through a build: which expressions the output depends on, in the
order in which their rules have to be applied, and which states pass from one index to the next.
-/

namespace GradientReplay

variable {α : Type}

/-! ### The backward order -/

/-- Of expressions listed from the last to the first, those whose result is wanted. An expression
that is wanted makes its arguments wanted; they are results of earlier expressions or of none. -/
def wantedFrom : List NodeId → List (Expression α) → List (Expression α)
  | _, [] => []
  | wanted, e :: earlier =>
      if e.result ∈ wanted then e :: wantedFrom (e.term.arguments ++ wanted) earlier
      else wantedFrom wanted earlier

/-- The expressions that a node depends on, from the last to the first: when the rule of one is
applied, all contributions to the gradient of its result have been made. -/
def backwardOrder (expressions : List (Expression α)) (output : NodeId) : List (Expression α) :=
  wantedFrom [output] expressions.reverse

/-! ### The links -/

/-- The expression of the build before that a node was carried over from. -/
def carriedFrom? (nodes : Nodes α) (node : NodeId) : Option ExpressionId :=
  match nodes[node]?.map Node.origin with
  | some (.carried source) => some source
  | _ => none

/-- The arguments of an expression that have a counterpart in an expression of so many arguments:
the first one, and the second one if both have it. -/
def pairedArguments (e : Expression α) (arity : Nat) : List NodeId := e.term.arguments.take arity

/-- The carried nodes among the paired arguments, each once, in order of first use. -/
def carriedArguments (nodes : Nodes α) (arities : List Nat)
    (expressions : List (Expression α)) : List NodeId :=
  let paired := (List.zipWith pairedArguments expressions arities).flatten
  (paired.filter fun node => (carriedFrom? nodes node).isSome).eraseDups

/-- The links of a build: each carried node is fed from the result of the expression at the place
that it was carried over from. A build with another count of expressions than the one before has
another structure, and no links. -/
def stateLinks (arities : List Nat) (nodes : Nodes α) (expressions : List (Expression α)) :
    List (Link α) :=
  if arities.length ≠ expressions.length then []
  else
    (carriedArguments nodes arities expressions).filterMap fun consumer => do
      let source ← carriedFrom? nodes consumer
      let producer ← expressions[source]?
      some (.create producer.result consumer)

end GradientReplay
