import GradientReplay.Json.Basic

/-!
From trees to text. A layout says what stands between the parts: the open layout gives each item a
line of its own, indented by two blanks a level; the compact one puts nothing there. Empty arrays
and objects are closed at once in both.
-/

namespace GradientReplay.Json

/-- What stands between the parts of arrays and objects. -/
structure Layout where
  /-- In front of an item at a depth, and of the closing bracket. -/
  line : Nat → List Char
  /-- Between a key and its value. -/
  colon : List Char

def Layout.spread : Layout := ⟨fun depth => '\n' :: List.replicate (2 * depth) ' ', [':', ' ']⟩

def Layout.compact : Layout := ⟨fun _ => [], [':']⟩

/-- A hexadecimal digit. -/
def hexDigit (n : Nat) : Char := if n < 10 then Char.ofNat (n + 48) else Char.ofNat (n + 87)

/-- A character inside a string literal: quotes, backslashes and controls are escaped, all else
stands for itself. -/
def escape (c : Char) : List Char :=
  match c with
  | '"' => ['\\', '"']
  | '\\' => ['\\', '\\']
  | '\x08' => ['\\', 'b']
  | '\x0c' => ['\\', 'f']
  | '\n' => ['\\', 'n']
  | '\r' => ['\\', 'r']
  | '\t' => ['\\', 't']
  | c =>
      if c.toNat < 0x20 then
        ['\\', 'u', '0', '0', hexDigit (c.toNat / 16), hexDigit (c.toNat % 16)]
      else [c]

/-- A string literal. One that stands for no text is a surrogate without a partner. -/
def quote : Option String → List Char
  | some text => '"' :: text.toList.flatMap escape ++ ['"']
  | none => ['"', '\\', 'u', 'd', '8', '0', '0', '"']

mutual

/-- The text of a tree that stands at a depth. -/
def render (layout : Layout) (depth : Nat) : Json → List Char
  | .null => ['n', 'u', 'l', 'l']
  | .bool true => ['t', 'r', 'u', 'e']
  | .bool false => ['f', 'a', 'l', 's', 'e']
  | .number n => n.text
  | .string text => quote text
  | .array [] => ['[', ']']
  | .array (item :: items) =>
      '[' :: layout.line (depth + 1) ++ render layout (depth + 1) item ++
        renderItems layout (depth + 1) items ++ layout.line depth ++ [']']
  | .object [] => ['{', '}']
  | .object ((key, value) :: fields) =>
      '{' :: layout.line (depth + 1) ++ quote key ++ layout.colon ++
        render layout (depth + 1) value ++ renderFields layout (depth + 1) fields ++
        layout.line depth ++ ['}']

/-- The items after the first. -/
def renderItems (layout : Layout) (depth : Nat) : List Json → List Char
  | [] => []
  | item :: items =>
      ',' :: layout.line depth ++ render layout depth item ++ renderItems layout depth items

/-- The fields after the first. -/
def renderFields (layout : Layout) (depth : Nat) : List (Option String × Json) → List Char
  | [] => []
  | (key, value) :: fields =>
      ',' :: layout.line depth ++ quote key ++ layout.colon ++ render layout depth value ++
        renderFields layout depth fields

end

/-- The text over several lines. -/
def pretty (tree : Json) : String := String.ofList (tree.render .spread 0)

/-- The text on one line. -/
def compact (tree : Json) : String := String.ofList (tree.render .compact 0)

end GradientReplay.Json
