/-
  FiniteAutomata.Release

  The version of the library, as numbers and as text.
-/
import FiniteAutomata.Text.Basic

namespace FiniteAutomata

namespace Release

/-- The parts of the version: two numbers, the build, and any further marks. -/
def parts : List Nat := [0, 3, 1]

/-- The version as a text: with the build only if asked for, and with further marks only if
    both are asked for. -/
def text (build extra : Bool) : Text :=
  Text.joined ['.'] ((parts.take (if build then 3 else 2)).map Text.ofNat) ++
    if build && extra then ((parts.drop 3).map Text.ofNat).flatten else []

end Release

end FiniteAutomata
