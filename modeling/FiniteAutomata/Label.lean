/-
  FiniteAutomata.Label

  Edge labels: a text that is read as one symbol, or the empty move. A label is compared as
  a whole, whatever its length; the empty move is written as the mark `<EPSILON>` and
  equals no text, not even the text of its own name.
-/
import FiniteAutomata.Text.Basic

namespace FiniteAutomata

/-- A named mark that stands for no symbol of the input. -/
structure Mark where
  name : Text

namespace Mark

/-- A mark is shown as its name between angle brackets. -/
def display (m : Mark) : Text := '<' :: (m.name ++ ['>'])

/-- The mark of edges that read nothing. -/
def epsilon : Mark := ⟨['E', 'P', 'S', 'I', 'L', 'O', 'N']⟩

end Mark

/-- The label of an edge, or one element of a word. -/
inductive Label where
  | epsilon
  | text (t : Text)
  deriving DecidableEq

namespace Label

/-- Whether following the label reads nothing. -/
def isEpsilon : Label → Bool
  | epsilon => true
  | text _ => false

/-- The symbol that the label reads, if it reads one. -/
def toText? : Label → Option Text
  | epsilon => none
  | text t => some t

/-- A symbol is shown as it is, the empty move as its mark. -/
def display : Label → Text
  | epsilon => Mark.epsilon.display
  | text t => t

/-- The empty move comes before all symbols. -/
instance : Ordered Label :=
  .along (fun l => l.toText?.toList) fun a b h => by cases a <;> cases b <;> simp_all [toText?]

@[simp] theorem toText?_eq_some {l : Label} {t : Text} : l.toText? = some t ↔ l = text t := by
  cases l <;> simp [toText?]

end Label

/-- A word is read label by label. -/
abbrev Word := List Label

namespace Word

/-- A text read symbol by symbol, each code point being one label. -/
def ofText (t : Text) : Word := t.map fun c => .text [c]

end Word

end FiniteAutomata
