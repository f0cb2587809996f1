import GradientReplay.Json.Token

/-!
From tokens to trees. The machine takes one token at a time. It keeps a stack of the arrays and
objects that are not complete, and what it expects next.
-/

namespace GradientReplay.Json

/-- A field that has been read. -/
abbrev Field := Option String × Json

/-- An array or object that is not complete: what it holds so far, the last part first. -/
inductive Frame where
  | array (items : List Json)
  /-- The key belongs to the field that is being read. -/
  | object (fields : List Field) (key : Option String)

/-- What may come next. -/
inductive Expect where
  | value (stack : List Frame)
  /-- After an opening bracket: an item, or the end of the array. -/
  | firstItem (stack : List Frame)
  /-- After an opening brace: a key, or the end of the object. -/
  | firstKey (stack : List Frame)
  /-- After a comma in an object: a key. -/
  | key (fields : List Field) (stack : List Frame)
  | colon (fields : List Field) (key : Option String) (stack : List Frame)
  /-- After an item: a comma, or the end of the array. -/
  | afterItem (items : List Json) (stack : List Frame)
  /-- After a field: a comma, or the end of the object. -/
  | afterField (fields : List Field) (stack : List Frame)
  /-- The tree is complete. -/
  | nothing (tree : Json)

namespace Expect

/-- A tree is complete: it is the whole, or a part of the innermost frame. -/
def complete (tree : Json) : List Frame → Expect
  | [] => .nothing tree
  | .array items :: stack => .afterItem (tree :: items) stack
  | .object fields name :: stack => .afterField ((name, tree) :: fields) stack

/-- A token where a value is expected. -/
def beginValue (stack : List Frame) : Token → Option Expect
  | .null => some (complete .null stack)
  | .bool b => some (complete (.bool b) stack)
  | .number n => some (complete (.number n) stack)
  | .string text => some (complete (.string text) stack)
  | .openBracket => some (.firstItem stack)
  | .openBrace => some (.firstKey stack)
  | _ => none

/-- One token; none where it cannot stand. -/
def step : Expect → Token → Option Expect
  | .value stack, token => beginValue stack token
  | .firstItem stack, .closeBracket => some (complete (.array []) stack)
  | .firstItem stack, token => beginValue (.array [] :: stack) token
  | .firstKey stack, .closeBrace => some (complete (.object []) stack)
  | .firstKey stack, .string name => some (.colon [] name stack)
  | .key fields stack, .string name => some (.colon fields name stack)
  | .colon fields name stack, .colon => some (.value (.object fields name :: stack))
  | .afterItem items stack, .comma => some (.value (.array items :: stack))
  | .afterItem items stack, .closeBracket => some (complete (.array items.reverse) stack)
  | .afterField fields stack, .comma => some (.key fields stack)
  | .afterField fields stack, .closeBrace => some (complete (.object fields.reverse) stack)
  | _, _ => none

end Expect

/-- The tree that tokens spell. -/
def ofTokens? (tokens : List Token) : Option Json :=
  match tokens.foldlM Expect.step (.value []) with
  | some (.nothing tree) => some tree
  | _ => none

/-- The tree that a text spells. -/
def parse? (text : String) : Option Json := (Token.ofChars? text.toList).bind ofTokens?

end GradientReplay.Json
