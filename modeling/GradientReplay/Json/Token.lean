import GradientReplay.Json.Basic

/-!
Tokens of JSON text. The reader takes one character at a time and is always in one of the states of
`Scan`; what lies between tokens may be any blanks. Reading a concatenation is reading the first
part, and then the second from the state reached.
-/

namespace GradientReplay

inductive Token where
  | openBrace
  | closeBrace
  | openBracket
  | closeBracket
  | colon
  | comma
  | null
  | bool (value : Bool)
  | number (value : Numeral)
  | string (text : Option String)
  deriving DecidableEq, Repr

namespace Token

/-! ### String literals -/

/-- The part of a string literal that has been read. -/
structure Quoted where
  /-- The characters, the last one first; none if a surrogate had no partner. -/
  chars : Option (List Char)
  /-- An escaped leading surrogate that waits for its partner. -/
  leading : Option Nat
  deriving DecidableEq, Repr

namespace Quoted

def empty : Quoted := ⟨some [], none⟩

/-- A literal in which some surrogate has no partner. -/
def broken : Quoted := ⟨none, none⟩

def push (q : Quoted) (c : Char) : Quoted :=
  match q.leading with
  | some _ => broken
  | none => { q with chars := q.chars.map (c :: ·) }

def isLeading (unit : Nat) : Bool := 0xD800 ≤ unit && unit < 0xDC00

def isTrailing (unit : Nat) : Bool := 0xDC00 ≤ unit && unit < 0xE000

/-- The character that a pair of surrogates stands for. -/
def pair (leading trailing : Nat) : Char :=
  Char.ofNat (0x10000 + (leading - 0xD800) * 0x400 + (trailing - 0xDC00))

/-- An escape by the number of a unit: a character, or one half of a pair of surrogates. -/
def pushUnit (q : Quoted) (unit : Nat) : Quoted :=
  match q.leading with
  | some leading =>
      if isTrailing unit then ⟨q.chars.map (pair leading unit :: ·), none⟩ else broken
  | none =>
      if isTrailing unit then broken
      else if isLeading unit then { q with leading := some unit }
      else q.push (Char.ofNat unit)

/-- The text of a literal that has been read to its end. -/
def close (q : Quoted) : Option String :=
  match q.leading with
  | some _ => none
  | none => q.chars.map fun chars => String.ofList chars.reverse

end Quoted

/-! ### The reader -/

/-- What is being read. -/
inductive Scan where
  /-- Nothing: a token may begin. -/
  | between
  /-- A word, with the letters still to come. -/
  | word (letters : List Char) (token : Token)
  /-- A string literal. -/
  | quoted (q : Quoted)
  /-- An escape: the backslash has been read. -/
  | escape (q : Quoted)
  /-- The number of a unit, with the count of digits still to come. -/
  | unit (q : Quoted) (left value : Nat)
  /-- A numeral: its sign has been read. -/
  | minus
  /-- The whole part; after a leading zero no digit follows. -/
  | whole (n : Numeral) (more : Bool)
  /-- The point has been read, and a digit must follow. -/
  | point (n : Numeral)
  /-- The digits behind the point. -/
  | fraction (n : Numeral)
  /-- The mark of the exponent has been read. -/
  | mark (n : Numeral)
  /-- The sign of the exponent has been read, and a digit must follow. -/
  | sign (n : Numeral) (negative : Bool)
  /-- The digits of the exponent. -/
  | exponent (n : Numeral) (negative : Bool)
  deriving DecidableEq, Repr

/-- The blanks of JSON text. -/
def isBlank (c : Char) : Bool := c == ' ' || c == '\n' || c == '\r' || c == '\t'

def digit? (c : Char) : Option Nat :=
  if '0' ≤ c ∧ c ≤ '9' then some (c.toNat - '0'.toNat) else none

def hexDigit? (c : Char) : Option Nat :=
  if '0' ≤ c ∧ c ≤ '9' then some (c.toNat - '0'.toNat)
  else if 'a' ≤ c ∧ c ≤ 'f' then some (c.toNat - 'a'.toNat + 10)
  else if 'A' ≤ c ∧ c ≤ 'F' then some (c.toNat - 'A'.toNat + 10)
  else none

/-- The character that a backslash and a letter stand for. -/
def escaped? (c : Char) : Option Char :=
  match c with
  | '"' => some '"'
  | '\\' => some '\\'
  | '/' => some '/'
  | 'b' => some '\x08'
  | 'f' => some '\x0c'
  | 'n' => some '\n'
  | 'r' => some '\r'
  | 't' => some '\t'
  | _ => none

namespace Scan

/-- A character where a token may begin: the token if it is complete, and the next state. -/
def start (c : Char) : Option (List Token × Scan) :=
  match c with
  | '{' => some ([.openBrace], .between)
  | '}' => some ([.closeBrace], .between)
  | '[' => some ([.openBracket], .between)
  | ']' => some ([.closeBracket], .between)
  | ':' => some ([.colon], .between)
  | ',' => some ([.comma], .between)
  | '"' => some ([], .quoted .empty)
  | 'n' => some ([], .word ['u', 'l', 'l'] .null)
  | 't' => some ([], .word ['r', 'u', 'e'] (.bool true))
  | 'f' => some ([], .word ['a', 'l', 's', 'e'] (.bool false))
  | '-' => some ([], .minus)
  | c =>
      if isBlank c then some ([], .between)
      else (digit? c).map fun d => ([], .whole (.ofNat d) (d ≠ 0))

/-- A character that ends a numeral, and may itself be a token. -/
def endNumeral (n : Numeral) (c : Char) : Option (List Token × Scan) :=
  (start c).map fun (tokens, scan) => (.number n :: tokens, scan)

/-- Another digit of the whole part. -/
def pushWhole (n : Numeral) (d : Nat) : Numeral := { n with whole := n.whole * 10 + d }

/-- Another digit behind the point. -/
def pushFraction (n : Numeral) (d : Nat) : Numeral :=
  let (value, count) := n.fraction.getD (0, 0)
  { n with fraction := some (value * 10 + d, count + 1) }

/-- Another digit of the exponent. -/
def pushExponent (n : Numeral) (negative : Bool) (d : Nat) : Numeral :=
  let e := (n.exponent.getD 0).natAbs * 10 + d
  { n with exponent := some (if negative then -(e : Int) else e) }

def isMark (c : Char) : Bool := c == 'e' || c == 'E'

/-- One character: the tokens that it completes, and the next state; none where it cannot stand. -/
def step (scan : Scan) (c : Char) : Option (List Token × Scan) :=
  match scan with
  | .between => start c
  | .word [] _ => none
  | .word [letter] token => if c = letter then some ([token], .between) else none
  | .word (letter :: letters) token => if c = letter then some ([], .word letters token) else none
  | .quoted q =>
      if c = '"' then some ([.string q.close], .between)
      else if c = '\\' then some ([], .escape q)
      else if c.toNat < 0x20 then none
      else some ([], .quoted (q.push c))
  | .escape q =>
      if c = 'u' then some ([], .unit q 4 0)
      else (escaped? c).map fun c => ([], .quoted (q.push c))
  | .unit q left value =>
      (hexDigit? c).map fun d =>
        let value := value * 16 + d
        if left ≤ 1 then ([], .quoted (q.pushUnit value)) else ([], .unit q (left - 1) value)
  | .minus => (digit? c).map fun d => ([], .whole ⟨true, d, none, none⟩ (d ≠ 0))
  | .whole n more =>
      match digit? c with
      | some d => if more then some ([], .whole (pushWhole n d) true) else none
      | none =>
          if c = '.' then some ([], .point n)
          else if isMark c then some ([], .mark n)
          else endNumeral n c
  | .point n => (digit? c).map fun d => ([], .fraction (pushFraction n d))
  | .fraction n =>
      match digit? c with
      | some d => some ([], .fraction (pushFraction n d))
      | none => if isMark c then some ([], .mark n) else endNumeral n c
  | .mark n =>
      if c = '+' then some ([], .sign n false)
      else if c = '-' then some ([], .sign n true)
      else (digit? c).map fun d => ([], .exponent (pushExponent n false d) false)
  | .sign n negative =>
      (digit? c).map fun d => ([], .exponent (pushExponent n negative d) negative)
  | .exponent n negative =>
      match digit? c with
      | some d => some ([], .exponent (pushExponent n negative d) negative)
      | none => endNumeral n c

/-- The end of the text: a numeral is complete, other tokens are not. -/
def finish : Scan → Option (List Token)
  | .between => some []
  | .whole n _ | .fraction n | .exponent n _ => some [.number n]
  | _ => none

end Scan

/-- The tokens so far, the last one first, and what is being read. -/
abbrev Reader := List Token × Scan

def Reader.feed (reader : Reader) (c : Char) : Option Reader :=
  (reader.2.step c).map fun (tokens, scan) => (tokens.reverse ++ reader.1, scan)

/-- The tokens of a text. -/
def ofChars? (text : List Char) : Option (List Token) := do
  let (tokens, scan) ← text.foldlM Reader.feed (([], .between) : Reader)
  let last ← scan.finish
  some (tokens.reverse ++ last)

end Token

end GradientReplay
