import GradientReplay.Expression.Basic
import GradientReplay.Graph.Arena

/-!
A build that is going on: the nodes bound so far and the expressions recorded so far. Node 0 is the
declared input.

An argument that is not bound yet gets a node: a carried one if it is a result of the build before,
and a constant otherwise. A result has to be new to the build.
-/

namespace GradientReplay

/-- What a build leaves for the one after it. -/
structure Predecessor where
  build : Nat
  /-- How many arguments each expression has. -/
  arities : List Nat
  /-- Which expression each result tensor came from. -/
  results : List (TensorId × ExpressionId)

/-- Is the tensor a result of that build? -/
def Predecessor.produced (previous : Predecessor) (tensor : TensorId) : Bool :=
  (previous.results.lookup tensor).isSome

structure Recording (α : Type) where
  build : Nat
  arena : Arena α
  expressions : List (Expression α)
  /-- Which expression each result tensor comes from. -/
  results : List (TensorId × ExpressionId)
  input : TensorId
  inputNode : NodeId

namespace Recording

variable {α : Type}

/-- A build with its declared input and nothing recorded. -/
def start (build : Nat) (input : Operand α) : Recording α :=
  let (arena, node) := Arena.empty.define input false build (.leaf 0)
  ⟨build, arena, [], [], input.id, node⟩

/-- A result is neither an argument of its expression nor bound already. -/
def checkResult (r : Recording α) (result : TensorId) (arguments : List TensorId) :
    Except ReplayError Unit :=
  if result ∈ arguments then .error .resultIsArgument
  else if r.arena.binds result then .error (.resultBound result)
  else .ok ()

/-- Bind an argument of the next expression. -/
def bindArgument (r : Recording α) (previous : Option Predecessor) (x : Operand α) :
    Recording α × NodeId :=
  let carried := do
    let p ← previous
    let source ← p.results.lookup x.id
    some (p.build, source)
  let (arena, node) :=
    match carried with
    | some (build, source) => r.arena.define x false build (.carried source)
    | none => r.arena.define x true r.build (.leaf r.expressions.length)
  ({ r with arena }, node)

/-- Bind the arguments of the next expression, the first one first. -/
def bindTerm (r : Recording α) (previous : Option Predecessor) :
    Term α (Operand α) → Recording α × Term α NodeId
  | .unary f x =>
      let (r, x) := r.bindArgument previous x
      (r, .unary f x)
  | .binary f x c =>
      let (r, x) := r.bindArgument previous x
      let (r, c) := r.bindArgument previous c
      (r, .binary f x c)
  | .arithmetic operation x y =>
      let (r, x) := r.bindArgument previous x
      let (r, y) := r.bindArgument previous y
      (r, .arithmetic operation x y)

/-- Bind the result of the next expression, and add the expression. -/
def push (r : Recording α) (term : Term α NodeId) (result : Operand α) : Recording α :=
  let id := r.expressions.length
  let (arena, node) := r.arena.define result false r.build (.result id)
  { r with
    arena
    expressions := r.expressions ++ [⟨id, term, node⟩]
    results := r.results ++ [(result.id, id)] }

/-- Record that a term over tensors gives a result; the answer is the number of the expression. -/
def record (r : Recording α) (previous : Option Predecessor) (term : Term α (Operand α))
    (result : Operand α) : Except ReplayError (Recording α × ExpressionId) := do
  r.checkResult result.id (term.arguments.map (·.id))
  let (r, term) := r.bindTerm previous term
  .ok (r.push term result, r.expressions.length)

/-- What the build leaves for the one after it. -/
def summarize (r : Recording α) : Predecessor :=
  ⟨r.build, r.expressions.map (·.term.arguments.length), r.results⟩

end Recording

end GradientReplay
