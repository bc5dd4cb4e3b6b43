/-
  FiniteAutomata.Text.Quoted

  Texts between quotation marks, as messages and displayed automata show them. The mark is
  a single quote, or a double quote where the text has single quotes and no double ones.
  The mark in use and the backslash get a backslash; line feed, carriage return and tab have
  letters of their own; any other character without a visible form is written by its code
  point in the shortest of three hexadecimal forms.
-/
import FiniteAutomata.Text.Basic
import FiniteAutomata.Text.Printable

namespace FiniteAutomata

namespace Text

/-- The single quotation mark. -/
def singleQuote : Char := Char.ofNat 0x27

/-- The double quotation mark. -/
def doubleQuote : Char := Char.ofNat 0x22

/-- The escape character. -/
def backslash : Char := Char.ofNat 0x5c

/-- The digits of a number in base sixteen, lower case, `width` of them. -/
def hexDigits : Nat → Nat → List Char
  | 0, _ => []
  | width + 1, n => hexDigits width (n / 16) ++ [Nat.digitChar (n % 16)]

/-- A code point in the shortest form that holds it: two, four or eight digits. -/
def escapeCode (n : Nat) : List Char :=
  if n < 0x100 then backslash :: 'x' :: hexDigits 2 n
  else if n < 0x10000 then backslash :: 'u' :: hexDigits 4 n
  else backslash :: 'U' :: hexDigits 8 n

/-- One character between quotation marks of the given kind. -/
def quoteChar (mark c : Char) : List Char :=
  if c == mark || c == backslash then [backslash, c]
  else if c == '\n' then [backslash, 'n']
  else if c == '\r' then [backslash, 'r']
  else if c == '\t' then [backslash, 't']
  else if isPrintable c then [c]
  else escapeCode c.toNat

/-- The quotation mark for a text. -/
def markFor (t : Text) : Char :=
  if t.contains singleQuote && !t.contains doubleQuote then doubleQuote else singleQuote

/-- A text between quotation marks. -/
def quoted (t : Text) : Text :=
  markFor t :: (t.flatMap (quoteChar (markFor t)) ++ [markFor t])

end Text

end FiniteAutomata
