import GradientReplay.Json.Token
import GradientReplay.Json.Writer
import Mathlib.Data.Nat.Basic

/-!
Texts that spell tokens.

The tokens of a text stand in their order, with any blanks around them, and a numeral ends before a
character that cannot go on with it (`Token.Spells`). Strings may be escaped in any way that stands
for them (`Token.Literal`). Reading such a text gives exactly these tokens
(`Token.Spells.ofChars?_eq`). Numerals are whole numbers here, as words are written.
-/

namespace GradientReplay

namespace Token

/-- How a token is written. -/
def text : Token → List Char
  | .openBrace => ['{']
  | .closeBrace => ['}']
  | .openBracket => ['[']
  | .closeBracket => [']']
  | .colon => [':']
  | .comma => [',']
  | .null => ['n', 'u', 'l', 'l']
  | .bool true => ['t', 'r', 'u', 'e']
  | .bool false => ['f', 'a', 'l', 's', 'e']
  | .number n => n.text
  | .string s => Json.quote s

/-- The text does not go on with a numeral that stands in front of it. -/
def Breaks (text : List Char) : Prop :=
  ∀ c ∈ text.head?, digit? c = none ∧ c ≠ '.' ∧ Scan.isMark c = false

/-- The token can stand in front of the text. -/
def Before (rest : List Char) : Token → Prop
  | .number n => (∃ k, n = .ofNat k) ∧ Breaks rest
  | _ => True

/-- The unit that four digits name in an escape. -/
def unit? : List Char → Option Nat
  | [a, b, c, d] => do
      let a ← hexDigit? a
      let b ← hexDigit? b
      let c ← hexDigit? c
      let d ← hexDigit? d
      some (((a * 16 + b) * 16 + c) * 16 + d)
  | _ => none

/-- What stands between the quotes of a literal stands for the text: each character for itself, or
escaped by a letter, by the number of a unit, or by those of a pair of surrogates. -/
inductive Literal : List Char → List Char → Prop where
  | done : Literal [] []
  | plain {c : Char} {cs s : List Char} : c ≠ '"' → c ≠ '\\' → 0x20 ≤ c.toNat →
      Literal cs s → Literal (c :: cs) (c :: s)
  | letter {e c : Char} {cs s : List Char} : escaped? e = some c →
      Literal cs s → Literal ('\\' :: e :: cs) (c :: s)
  | unit {digits : List Char} {n : Nat} {cs s : List Char} : unit? digits = some n →
      Quoted.isLeading n = false → Quoted.isTrailing n = false →
      Literal cs s → Literal ('\\' :: 'u' :: digits ++ cs) (Char.ofNat n :: s)
  | pair {high low : List Char} {l t : Nat} {cs s : List Char} :
      unit? high = some l → Quoted.isLeading l = true →
      unit? low = some t → Quoted.isTrailing t = true → Literal cs s →
      Literal (('\\' :: 'u' :: high) ++ ('\\' :: 'u' :: low) ++ cs) (Quoted.pair l t :: s)

/-- The text is made of the tokens in their order, with any blanks around them. A string may be
spelled by any literal that stands for it. -/
inductive Spells : List Char → List Token → Prop where
  | done : Spells [] []
  | blank {c : Char} {rest : List Char} {tokens : List Token} :
      isBlank c = true → Spells rest tokens → Spells (c :: rest) tokens
  | token {t : Token} {rest : List Char} {tokens : List Token} :
      t.Before rest → Spells rest tokens → Spells (t.text ++ rest) (t :: tokens)
  | literal {cs s rest : List Char} {tokens : List Token} : Literal cs s → Spells rest tokens →
      Spells ('"' :: cs ++ ['"'] ++ rest) (.string (some (String.ofList s)) :: tokens)

/-! ### Reading from the middle of a text -/

/-- The tokens of a text of which the reader has taken a part already. -/
def readFrom (reader : Reader) (rest : List Char) : Option (List Token) := do
  let (tokens, scan) ← rest.foldlM Reader.feed reader
  let last ← scan.finish
  some (tokens.reverse ++ last)

section Reading

variable {reader reader' : Reader} {done part rest : List Char} {acc : List Token} {c : Char}

theorem readFrom_append (h : part.foldlM Reader.feed reader = some reader') :
    readFrom reader (part ++ rest) = readFrom reader' rest := by
  unfold readFrom
  rw [List.foldlM_append, h]
  rfl

theorem readFrom_cons : readFrom reader (c :: rest) = (reader.feed c).bind (readFrom · rest) := by
  unfold readFrom
  rw [List.foldlM_cons]
  cases reader.feed c <;> rfl

theorem feed_blank (blank : isBlank c = true) :
    Reader.feed (acc, .between) c = some (acc, .between) := by
  have cases : c = ' ' ∨ c = '\n' ∨ c = '\r' ∨ c = '\t' := by
    simpa [isBlank, or_assoc] using blank
  rcases cases with rfl | rfl | rfl | rfl <;> rfl

end Reading

/-! ### Numerals -/

section Numerals

variable {acc : List Token} {rest : List Char} {n : Numeral} {more : Bool}

theorem digit?_digitChar : ∀ d < 10, digit? d.digitChar = some d := by decide

/-- A digit begins a numeral. -/
theorem start_digitChar : ∀ d < 10,
    Scan.start d.digitChar = some ([], .whole (.ofNat d) (d ≠ 0)) := by decide

/-- The digits of a number are read as this number. Only a lone zero lets no digit follow. -/
theorem foldlM_toDigits (acc : List Token) (k : Nat) :
    (Nat.toDigits 10 k).foldlM Reader.feed (acc, .between) =
      some (acc, .whole (.ofNat k) (k ≠ 0)) := by
  induction k using Nat.strong_induction_on with
  | _ k ih =>
    rcases Nat.lt_or_ge k 10 with small | large
    · rw [Nat.toDigits_of_lt_base small]
      simp [Reader.feed, Scan.step, start_digitChar k small]
    · have fewer : k / 10 < k := by omega
      have front : k / 10 ≠ 0 := by omega
      have last : k % 10 < 10 := Nat.mod_lt _ (by decide)
      have whole : k / 10 * 10 + k % 10 = k := by omega
      have positive : k ≠ 0 := by omega
      rw [Nat.toDigits_of_base_le (by decide) large, List.foldlM_append, ih _ fewer]
      simp [Reader.feed, Scan.step, digit?_digitChar _ last, front, Scan.pushWhole, Numeral.ofNat,
        whole, positive]

theorem text_ofNat (k : Nat) : (Numeral.ofNat k).text = Nat.toDigits 10 k := by
  simp [Numeral.text, Numeral.ofNat]

/-- A numeral is complete where nothing goes on with it. -/
theorem readFrom_whole (breaks : Breaks rest) :
    readFrom (acc, .whole n more) rest = readFrom (.number n :: acc, .between) rest := by
  cases rest with
  | nil => simp [readFrom, Scan.finish]
  | cons c rest =>
      obtain ⟨digit, point, mark⟩ := breaks c rfl
      rw [readFrom_cons, readFrom_cons]
      simp only [Reader.feed, Scan.step, digit, point, mark, Scan.endNumeral]
      cases Scan.start c <;> simp

end Numerals

/-! ### String literals -/

section Literals

variable {cs s : List Char} {c : Char} {n : Nat}

theorem hexDigit?_hexDigit : ∀ d < 16, hexDigit? (Json.hexDigit d) = some d := by decide

theorem not_trailing (leading : Quoted.isLeading n = true) : Quoted.isTrailing n = false := by
  simp only [Quoted.isLeading, Bool.and_eq_true, decide_eq_true_eq] at leading
  simp only [Quoted.isTrailing, Bool.and_eq_false_iff, decide_eq_false_iff_not]
  omega

/-- An escape by number is read as its unit. -/
theorem foldlM_unit (acc : List Token) (q : Quoted) (named : unit? cs = some n) :
    ('\\' :: 'u' :: cs).foldlM Reader.feed (acc, .quoted q) =
      some (acc, .quoted (q.pushUnit n)) := by
  unfold unit? at named
  split at named
  · rename_i a b c d
    simp only [Option.bind_eq_bind, Option.bind_eq_some_iff, Option.some.injEq] at named
    obtain ⟨a', ha, b', hb, c', hc, d', hd, rfl⟩ := named
    simp [Reader.feed, Scan.step, ha, hb, hc, hd]
  · cases named

/-- What stands for a text between quotes is read as this text. -/
theorem Literal.foldlM (literal : Literal cs s) (acc : List Token) (chars : List Char) :
    cs.foldlM Reader.feed (acc, .quoted ⟨some chars, none⟩) =
      some (acc, .quoted ⟨some (s.reverse ++ chars), none⟩) := by
  induction literal generalizing chars with
  | done => rfl
  | @plain c _ _ quote backslash large _ ih =>
      have kept := ih (c :: chars)
      simpa [Reader.feed, Scan.step, quote, backslash, Nat.not_lt.mpr large, Quoted.push] using kept
  | @letter e c _ _ escaped _ ih =>
      have other : e ≠ 'u' := by
        rintro rfl
        cases escaped
      have kept := ih (c :: chars)
      simpa [Reader.feed, Scan.step, other, escaped, Quoted.push] using kept
  | @unit cs n _ _ named leading trailing _ ih =>
      have read := foldlM_unit acc ⟨some chars, none⟩ named
      have kept := ih (Char.ofNat n :: chars)
      rw [List.foldlM_append, read, Option.bind_eq_bind, Option.bind_some]
      simpa [Quoted.pushUnit, Quoted.push, leading, trailing] using kept
  | @pair high low l t _ _ first leading second trailing _ ih =>
      have opened := foldlM_unit acc ⟨some chars, none⟩ first
      have closed := foldlM_unit acc ⟨some chars, some l⟩ second
      have half : Quoted.pushUnit ⟨some chars, none⟩ l = ⟨some chars, some l⟩ := by
        simp [Quoted.pushUnit, leading, not_trailing leading]
      have kept := ih (Quoted.pair l t :: chars)
      rw [List.foldlM_append, List.foldlM_append, opened, Option.bind_eq_bind, Option.bind_some,
        half, closed, Option.bind_some]
      simpa [Quoted.pushUnit, trailing] using kept

/-- A control character that is escaped by its number. -/
theorem unit?_control (small : c.toNat < 0x20) :
    unit? ['0', '0', Json.hexDigit (c.toNat / 16), Json.hexDigit (c.toNat % 16)] =
      some c.toNat := by
  have zero : hexDigit? '0' = some 0 := by decide
  have high := hexDigit?_hexDigit (c.toNat / 16) (by omega)
  have low := hexDigit?_hexDigit (c.toNat % 16) (by omega)
  have whole : c.toNat / 16 * 16 + c.toNat % 16 = c.toNat := by omega
  simp [unit?, zero, high, low, whole]

/-- A character as it is written stands for itself. -/
theorem Literal.escape (c : Char) (literal : Literal cs s) :
    Literal (Json.escape c ++ cs) (c :: s) := by
  unfold Json.escape
  split
  case h_8 quote backslash _ _ _ _ _ =>
    split
    · rename_i small
      have stands := literal.unit (unit?_control small)
        (by simp only [Quoted.isLeading, Bool.and_eq_false_iff, decide_eq_false_iff_not]; omega)
        (by simp only [Quoted.isTrailing, Bool.and_eq_false_iff, decide_eq_false_iff_not]; omega)
      rwa [Char.ofNat_toNat] at stands
    · rename_i large
      exact literal.plain quote backslash (Nat.not_lt.mp large)
  all_goals exact literal.letter rfl

theorem literal_escapes (s : List Char) : Literal (s.flatMap Json.escape) s := by
  induction s with
  | nil => exact .done
  | cons c s ih => exact ih.escape c

/-- A literal in quotes is read as its text. -/
theorem Literal.foldlM_quoted (literal : Literal cs s) (acc : List Token) :
    ('"' :: cs ++ ['"']).foldlM Reader.feed (acc, .between) =
      some (.string (some (String.ofList s)) :: acc, .between) := by
  have opened : Reader.feed (acc, .between) '"' = some (acc, .quoted ⟨some [], none⟩) := rfl
  rw [List.cons_append, List.foldlM_cons, opened, Option.bind_eq_bind, Option.bind_some,
    List.foldlM_append, literal.foldlM]
  simp [Reader.feed, Scan.step, Quoted.close]

/-- A string is read as it was written. -/
theorem foldlM_quote (acc : List Token) (s : Option String) :
    (Json.quote s).foldlM Reader.feed (acc, .between) = some (.string s :: acc, .between) := by
  cases s with
  | none => rfl
  | some s =>
      have read := (literal_escapes s.toList).foldlM_quoted acc
      rwa [String.ofList_toList] at read

end Literals

/-! ### Texts -/

variable {text rest : List Char} {tokens : List Token} {acc : List Token} {t : Token}

/-- A token is read where it can stand. -/
theorem readFrom_text (before : t.Before rest) :
    readFrom (acc, .between) (t.text ++ rest) = readFrom (t :: acc, .between) rest := by
  cases t with
  | number n =>
      obtain ⟨⟨k, rfl⟩, breaks⟩ := before
      rw [Token.text, text_ofNat, readFrom_append (foldlM_toDigits acc k), readFrom_whole breaks]
  | string s => exact readFrom_append (foldlM_quote acc s)
  | bool b => cases b <;> exact readFrom_append rfl
  | openBrace | closeBrace | openBracket | closeBracket | colon | comma | null =>
      exact readFrom_append rfl

theorem Spells.readFrom_eq (spells : Spells text tokens) (acc : List Token) :
    readFrom (acc, .between) text = some (acc.reverse ++ tokens) := by
  induction spells generalizing acc with
  | done => rfl
  | blank blank _ ih =>
      rw [readFrom_cons, feed_blank blank]
      exact ih acc
  | token before _ ih =>
      rw [readFrom_text before, ih]
      simp
  | literal literal _ ih =>
      rw [readFrom_append (literal.foldlM_quoted acc), ih]
      simp

/-- Reading a text gives the tokens that it spells. -/
theorem Spells.ofChars?_eq (spells : Spells text tokens) : ofChars? text = some tokens :=
  spells.readFrom_eq []

/-- Blanks in front of a text change nothing. -/
theorem Spells.blanks {blanks : List Char} (blank : ∀ c ∈ blanks, isBlank c = true)
    (spells : Spells text tokens) : Spells (blanks ++ text) tokens := by
  induction blanks with
  | nil => exact spells
  | cons c blanks ih =>
      refine .blank (blank c List.mem_cons_self) (ih fun d hd => ?_)
      exact blank d (List.mem_cons_of_mem c hd)

theorem breaks_of_blank {c : Char} (blank : isBlank c = true) (rest : List Char) :
    Breaks (c :: rest) := by
  have cases : c = ' ' ∨ c = '\n' ∨ c = '\r' ∨ c = '\t' := by
    simpa [isBlank, or_assoc] using blank
  rintro _ ⟨⟩
  rcases cases with rfl | rfl | rfl | rfl <;> decide

/-- Blanks in front of a text go on with no numeral if the text does not. -/
theorem Breaks.blanks {blanks : List Char} (blank : ∀ c ∈ blanks, isBlank c = true)
    (breaks : Breaks rest) : Breaks (blanks ++ rest) := by
  cases blanks with
  | nil => exact breaks
  | cons c blanks => exact breaks_of_blank (blank c List.mem_cons_self) _

end Token

end GradientReplay
