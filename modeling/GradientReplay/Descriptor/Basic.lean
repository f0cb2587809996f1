import GradientReplay.Procedure.Basic

/-!
Descriptors: the structure of a procedure without its numbers, for display and comparison. All
numbers in a descriptor are words.
-/

namespace GradientReplay

namespace Descriptor

structure NodeEntry where
  id : UInt64
  shape : List UInt64
  constant : Bool
  origin : Origin UInt64
  deriving DecidableEq, Repr

/-- What an expression computes; functions are known by their labels. -/
inductive Kind where
  | unary (function : String)
  | binary (function : String)
  | arithmetic (operation : Arithmetic)
  deriving DecidableEq, Repr

structure ExpressionEntry where
  id : UInt64
  kind : Kind
  first : UInt64
  second : Option UInt64
  result : UInt64
  deriving DecidableEq, Repr

structure LinkEntry where
  producer : UInt64
  consumer : UInt64
  deriving DecidableEq, Repr

end Descriptor

structure Descriptor where
  /-- The version of the format. -/
  version : String
  name : String
  input : UInt64
  output : UInt64
  nodes : List Descriptor.NodeEntry
  expressions : List Descriptor.ExpressionEntry
  /-- The numbers of the expressions in backward order. -/
  backward : List UInt64
  links : List Descriptor.LinkEntry
  deriving DecidableEq, Repr

namespace Descriptor

variable {α : Type}

/-- The version of the format that `Procedure.describe` writes. -/
def currentVersion : String := "0.1.0"

/-- How many nodes are constants. -/
def constantCount (d : Descriptor) : Nat := (d.nodes.filter (·.constant)).length

def NodeEntry.ofNode (n : Node α) : NodeEntry :=
  ⟨n.id.toUInt64, n.shape.map Nat.toUInt64, n.constant, n.origin.map Nat.toUInt64⟩

def Kind.ofTerm {ν : Type} : Term α ν → Kind
  | .unary f _ => .unary f.label
  | .binary f _ _ => .binary f.label
  | .arithmetic operation _ _ => .arithmetic operation

def ExpressionEntry.ofExpression (e : Expression α) : ExpressionEntry :=
  ⟨e.id.toUInt64, .ofTerm e.term, e.term.first.toUInt64, e.term.second?.map Nat.toUInt64,
    e.result.toUInt64⟩

def LinkEntry.ofLink (l : Link α) : LinkEntry := ⟨l.producer.toUInt64, l.consumer.toUInt64⟩

end Descriptor

/-- The structure of a procedure. -/
def Procedure.describe {α : Type} (p : Procedure α) : Descriptor where
  version := Descriptor.currentVersion
  name := p.name
  input := p.input.toUInt64
  output := p.output.toUInt64
  nodes := p.nodes.map .ofNode
  expressions := p.forwardOrder.map .ofExpression
  backward := p.backwardOrder.map fun e => e.id.toUInt64
  links := p.links.map .ofLink

end GradientReplay
