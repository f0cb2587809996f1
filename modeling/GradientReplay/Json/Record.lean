import GradientReplay.Json.Basic

/-!
Records: trees that hold known fields. A record is written as an object, whose fields stand in any
order and may have unknown ones among them, or as an array of the fields in their order. A known
field that is repeated is an error, and so are more items than fields.
-/

namespace GradientReplay.Json

structure Record where
  /-- Is the record written as an array? -/
  positional : Bool
  /-- The known fields in order, as far as they are there. -/
  values : List (Option Json)

/-- All that fields of an object give for a name. -/
def allNamed (name : String) (fields : List (Option String × Json)) : List Json :=
  fields.filterMap fun (key, value) => if key = some name then some value else none

/-- What a field of an object holds, if it is there; none if it is repeated. -/
def field? (fields : List (Option String × Json)) (name : String) : Option (Option Json) :=
  match allNamed name fields with
  | [] => some none
  | [value] => some (some value)
  | _ => none

/-- Read a tree as a record with these fields. -/
def record? (names : List String) : Json → Option Record
  | .object fields =>
      if fields.all fun (key, _) => key.isSome then do
        let values ← names.mapM (field? fields)
        some ⟨false, values⟩
      else none
  | .array items =>
      if items.length ≤ names.length then
        some ⟨true, items.map some ++ List.replicate (names.length - items.length) none⟩
      else none
  | _ => none

namespace Record

variable {β : Type}

/-- A field that has to be there. -/
def required (r : Record) (position : Nat) (decode : Json → Option β) : Option β :=
  match r.values[position]? with
  | some (some value) => decode value
  | _ => none

/-- A field that may be null, or absent from an object. -/
def nullable (r : Record) (position : Nat) (decode : Json → Option β) : Option (Option β) :=
  match r.values[position]? with
  | some (some .null) => some none
  | some (some value) => (decode value).map some
  | _ => if r.positional then none else some none

/-- A field that has a value also when it is absent. -/
def defaulted (r : Record) (position : Nat) (decode : Json → Option β) (absent : β) : Option β :=
  match r.values[position]? with
  | some (some value) => decode value
  | _ => some absent

end Record

end GradientReplay.Json
