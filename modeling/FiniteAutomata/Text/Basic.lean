/-
  FiniteAutomata.Text.Basic

  Texts are lists of code points. Lengths and positions count code points, and texts are
  ordered code point by code point.
-/
import FiniteAutomata.Ordered

namespace FiniteAutomata

/-- A text, as its code points in order. -/
abbrev Text := List Char

namespace Text

/-- A text as a string. -/
def toString (t : Text) : String := String.ofList t

/-- A natural number in decimal digits. -/
def ofNat (n : Nat) : Text := Nat.toDigits 10 n

/-- A whole number in decimal digits, behind a minus sign if it is negative. -/
def ofInt (n : Int) : Text := if n < 0 then '-' :: ofNat n.natAbs else ofNat n.natAbs

/-- Texts one after another, with a separator between neighbours. -/
def joined (separator : Text) (ts : List Text) : Text := (ts.intersperse separator).flatten

end Text

end FiniteAutomata
