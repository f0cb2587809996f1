import GradientReplay.Json.Record
import GradientReplay.Json.Syntax
import GradientReplay.Tensor.Basic

/-!
Tensors as JSON. A tensor is a record with the one field `data`, which holds the version of the
format, the shape and the elements in row-major order. That inner record has no unknown fields,
and of a repeated field the last one counts, though each has to be readable.
-/

namespace GradientReplay.Tensor

/-- The tree of a tensor; how a number is written is left to the caller. -/
def toJson {α : Type} (number : α → Json) (t : Tensor α) : Json :=
  .ofFields [("data", .ofFields [("v", .ofNat 1), ("dim", .array (t.shape.map .ofNat)),
    ("data", .array (t.data.map number))])]

/-- The version of the format, which is one. -/
def version? (tree : Json) : Option Unit :=
  if tree.toWord? = some 1 then some () else none

def dimensions? (tree : Json) : Option Shape :=
  (tree.toList? Json.toWord?).map fun words => words.map UInt64.toNat

def elements? (tree : Json) : Option (List Float) := tree.toList? Json.toFloat?

/-- The last value for a name; each of them has to decode. -/
def lastNamed? {β : Type} (fields : List (Option String × Json)) (name : String)
    (decode : Json → Option β) : Option β := do
  let values ← (Json.allNamed name fields).mapM decode
  values.getLast?

/-- The tensor of a shape and elements, if they go together. -/
def assemble? (shape : Shape) (data : List Float) : Option (Tensor Float) :=
  (ofList? data shape).toOption

/-- The inner record: version, shape and elements. -/
def body? : Json → Option (Tensor Float)
  | .object fields => do
      if fields.all fun (key, _) => key = some "v" ∨ key = some "dim" ∨ key = some "data" then
        lastNamed? fields "v" version?
        let shape ← lastNamed? fields "dim" dimensions?
        let data ← lastNamed? fields "data" elements?
        assemble? shape data
      else none
  | .array [version, shape, data] => do
      version? version
      assemble? (← dimensions? shape) (← elements? data)
  | _ => none

def ofTree? (tree : Json) : Option (Tensor Float) := do
  let r ← tree.record? ["data"]
  r.required 0 body?

/-- The tensor that a text spells. -/
def ofJson? (text : String) : Option (Tensor Float) := (Json.parse? text).bind ofTree?

end GradientReplay.Tensor
