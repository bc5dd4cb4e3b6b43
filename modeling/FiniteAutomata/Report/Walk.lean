/-
  FiniteAutomata.Report.Walk

  Walking a nondeterministic automaton and a deterministic one side by side along one word.
  The live set goes on to the end of the word even where it is empty; the deterministic
  automaton leaves the walk for good where it has no transition.
-/
import FiniteAutomata.Display

namespace FiniteAutomata

/-- Where both automata are after part of a word. -/
structure Pace where
  /-- The numbers of the live states. -/
  live : List Int
  isFinal : Bool
  labels : List Text
  /-- The cell, displayed, whether it accepts, and the symbols it offers. -/
  cell : Option (Text × Bool × List Text)

namespace Pace

/-- What is seen at a live set and a cell. -/
def of (g : Graph) (cells : Cells) (live : StateSet) (cell : Option CellId) : Pace where
  live := g.numbers live
  isFinal := g.isFinal live
  labels := (g.liveLabels live).toList
  cell := cell.map fun c =>
    (Display.cell g (cells.get c), (cells.get c).accepting, (cells.get c).labels)

/-- What is seen at the start and after each label of a word. -/
def along (g : Graph) (cells : Cells) (live : StateSet) (cell : Option CellId) : Word → List Pace
  | [] => [of g cells live cell]
  | l :: w =>
    of g cells live cell ::
      along g cells (g.step live l) (cell.bind fun c => (cells.get c).next l) w

end Pace

end FiniteAutomata
