import GradientReplay.Descriptor.Basic
import GradientReplay.Json.Record
import GradientReplay.Json.Syntax
import GradientReplay.Json.Writer

/-!
Descriptors as JSON text. Writing puts all fields in their order, and leaves out a second argument
or a list of links that is not there. Reading takes every spelling of a record.

The kind of an expression is a record whose field `type` tells which other fields there are. It is
read into memory whole before that field is known, so everything in it has to be meaningful, and
not nested too deep.
-/

namespace GradientReplay

/-! ### Origins -/

def Origin.toJson : Origin UInt64 → Json
  | .leaf e => .ofFields [("Leaf", .ofWord e)]
  | .result e => .ofFields [("Result", .ofWord e)]
  | .carried e => .ofFields [("Carried", .ofWord e)]

def Origin.ofJson? : Json → Option (Origin UInt64)
  | .object [(some key, value)] =>
      match key with
      | "Leaf" => value.toWord?.map .leaf
      | "Result" => value.toWord?.map .result
      | "Carried" => value.toWord?.map .carried
      | _ => none
  | _ => none

namespace Descriptor

/-! ### Kinds -/

/-- The name of the field that tells the kinds apart. -/
def tagName : String := "type"

def Kind.toJson : Kind → Json
  | .unary function => .ofFields [(tagName, .ofString "UnaryFunction"), ("function", .ofString function)]
  | .binary function =>
      .ofFields [(tagName, .ofString "BinaryFunction"), ("function", .ofString function)]
  | .arithmetic operation => .ofFields [(tagName, .ofString operation.name)]

/-- The deepest nesting of a kind: what is left of 127 levels inside descriptor, list and
expression. -/
def maxKindDepth : Nat := 124

/-- The kind for a tag, and the rest of the record as an object or an array. -/
def Kind.ofTag? (tag : String) (content : Json) : Option Kind :=
  let function := do
    let r ← content.record? ["function"]
    r.required 0 Json.toString?
  match tag with
  | "UnaryFunction" => function.map .unary
  | "BinaryFunction" => function.map .binary
  | _ => do
      let operation ← Arithmetic.ofName? tag
      match content with
      | .array (_ :: _) => none
      | _ => some (.arithmetic operation)

def Kind.ofJson? (tree : Json) : Option Kind :=
  if tree.meaningful && tree.depth ≤ maxKindDepth then
    match tree with
    | .object fields => do
        let tag ← (← Json.field? fields tagName)
        Kind.ofTag? (← tag.toString?) (.object (fields.filter fun (key, _) => key ≠ some tagName))
    | .array (tag :: rest) => do Kind.ofTag? (← tag.toString?) (.array rest)
    | _ => none
  else none

/-! ### Entries -/

def NodeEntry.toJson (n : NodeEntry) : Json :=
  .ofFields [("id", .ofWord n.id), ("shape", .array (n.shape.map .ofWord)),
    ("constant", .bool n.constant), ("provenance", n.origin.toJson)]

def NodeEntry.ofJson? (tree : Json) : Option NodeEntry := do
  let r ← tree.record? ["id", "shape", "constant", "provenance"]
  let id ← r.required 0 Json.toWord?
  let shape ← r.required 1 (Json.toList? Json.toWord?)
  let constant ← r.required 2 Json.toBool?
  let origin ← r.required 3 Origin.ofJson?
  some ⟨id, shape, constant, origin⟩

def ExpressionEntry.toJson (e : ExpressionEntry) : Json :=
  let second := e.second.toList.map fun second => ("arg2", Json.ofWord second)
  .ofFields <| [("id", .ofWord e.id), ("kind", e.kind.toJson), ("arg1", .ofWord e.first)] ++ second ++
    [("result", .ofWord e.result)]

def ExpressionEntry.ofJson? (tree : Json) : Option ExpressionEntry := do
  let r ← tree.record? ["id", "kind", "arg1", "arg2", "result"]
  let id ← r.required 0 Json.toWord?
  let kind ← r.required 1 Kind.ofJson?
  let first ← r.required 2 Json.toWord?
  let second ← r.nullable 3 Json.toWord?
  let result ← r.required 4 Json.toWord?
  some ⟨id, kind, first, second, result⟩

def LinkEntry.toJson (l : LinkEntry) : Json :=
  .ofFields [("producer", .ofWord l.producer), ("consumer", .ofWord l.consumer)]

def LinkEntry.ofJson? (tree : Json) : Option LinkEntry := do
  let r ← tree.record? ["producer", "consumer"]
  let producer ← r.required 0 Json.toWord?
  let consumer ← r.required 1 Json.toWord?
  some ⟨producer, consumer⟩

/-! ### Descriptors -/

def toTree (d : Descriptor) : Json :=
  let links := if d.links.isEmpty then [] else [("links", Json.array (d.links.map (·.toJson)))]
  .ofFields <| [("version", .ofString d.version), ("name", .ofString d.name),
    ("input", .ofWord d.input), ("output", .ofWord d.output),
    ("nodes", .array (d.nodes.map (·.toJson))),
    ("expressions", .array (d.expressions.map (·.toJson))),
    ("backward", .array (d.backward.map .ofWord))] ++ links

def ofTree? (tree : Json) : Option Descriptor := do
  let r ← tree.record?
    ["version", "name", "input", "output", "nodes", "expressions", "backward", "links"]
  let version ← r.required 0 Json.toString?
  let name ← r.required 1 Json.toString?
  let input ← r.required 2 Json.toWord?
  let output ← r.required 3 Json.toWord?
  let nodes ← r.required 4 (Json.toList? NodeEntry.ofJson?)
  let expressions ← r.required 5 (Json.toList? ExpressionEntry.ofJson?)
  let backward ← r.required 6 (Json.toList? Json.toWord?)
  let links ← r.defaulted 7 (Json.toList? LinkEntry.ofJson?) []
  some ⟨version, name, input, output, nodes, expressions, backward, links⟩

/-- The text of a descriptor, over several lines. -/
def toJson (d : Descriptor) : String := d.toTree.pretty

/-- The descriptor that a text spells. -/
def ofJson? (text : String) : Option Descriptor := (Json.parse? text).bind ofTree?

end Descriptor

end GradientReplay
