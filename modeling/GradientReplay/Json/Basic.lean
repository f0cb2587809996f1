import GradientReplay.Json.Numeral

/-!
Trees of data, as JSON text spells them. A tree keeps what the text says: numerals as written, and
the fields of an object in order, repeated ones too. What a tree means is decided by whoever
decodes it.

A string literal can hold an escaped surrogate without its partner. Such a literal is well formed,
but stands for no text; its content here is `none`.
-/

namespace GradientReplay

inductive Json where
  | null
  | bool (value : Bool)
  | number (value : Numeral)
  | string (text : Option String)
  | array (items : List Json)
  | object (fields : List (Option String × Json))

namespace Json

/-- A string literal with this text. -/
def ofString (s : String) : Json := .string (some s)

/-- A whole number. -/
def ofNat (n : Nat) : Json := .number (.ofNat n)

/-- A word. -/
def ofWord (n : UInt64) : Json := ofNat n.toNat

/-- An object with these fields in order. -/
def ofFields (fields : List (String × Json)) : Json :=
  .object (fields.map fun (key, value) => (some key, value))

/-! ### Decoding of plain values -/

def toString? : Json → Option String
  | .string text => text
  | _ => none

def toBool? : Json → Option Bool
  | .bool value => some value
  | _ => none

def toWord? : Json → Option UInt64
  | .number n => n.toWord?
  | _ => none

def toFloat? : Json → Option Float
  | .number n => n.toFloat?
  | _ => none

/-- A list whose items all decode. -/
def toList? {β : Type} (decode : Json → Option β) : Json → Option (List β)
  | .array items => items.mapM decode
  | _ => none

/-! ### Trees that are read whole -/

/-- How deep arrays and objects are nested. -/
def depth : Json → Nat
  | .array items => itemsDepth items + 1
  | .object fields => fieldsDepth fields + 1
  | _ => 0
where
  itemsDepth : List Json → Nat
    | [] => 0
    | item :: rest => max item.depth (itemsDepth rest)
  fieldsDepth : List (Option String × Json) → Nat
    | [] => 0
    | (_, value) :: rest => max value.depth (fieldsDepth rest)

/-- Does every literal stand for something: each string for a text, each numeral for a double? -/
def meaningful : Json → Bool
  | .number n => n.toFloat?.isSome
  | .string text => text.isSome
  | .array items => itemsMeaningful items
  | .object fields => fieldsMeaningful fields
  | _ => true
where
  itemsMeaningful : List Json → Bool
    | [] => true
    | item :: rest => item.meaningful && itemsMeaningful rest
  fieldsMeaningful : List (Option String × Json) → Bool
    | [] => true
    | (key, value) :: rest => key.isSome && value.meaningful && fieldsMeaningful rest

end Json

end GradientReplay
