/-
  FiniteAutomata.Report.Dfa

  All that can be read off a deterministic automaton. Its cells are numbered by their place
  in the automaton, the last one if a cell is listed twice; a cell that is not listed has no
  number.
-/
import FiniteAutomata.Display

namespace FiniteAutomata

/-- What a cell is made of. -/
structure CellReport where
  display : Text
  isDead : Bool
  /-- The transitions, each with the number of its target. -/
  transitions : List (Text × Option Nat)

/-- What a deterministic automaton is made of. -/
structure DfaReport where
  display : Text
  size : Nat
  initial : Option Nat
  alphabet : List Text
  isTotal : Bool
  dead : Option Nat
  /-- The sets that accepting cells stand for, by their numbers. -/
  finalSets : List (List Int)
  states : List CellReport

namespace DfaReport

/-- The last place of a cell in a list. -/
def placeOf (states : List CellId) (c : CellId) : Option Nat :=
  match states with
  | [] => none
  | d :: rest =>
    match placeOf rest c with
    | some i => some (i + 1)
    | none => if d = c then some 0 else none

/-- Sets of states by their numbers, in lexicographic order. -/
def numberSets (g : Graph) (sets : List StateSet) : List (List Int) :=
  Ordered.sort (sets.map g.numbers)

/-- The report on one cell of an automaton. -/
def cellReport (g : Graph) (cells : Cells) (d : Dfa) (c : CellId) : CellReport where
  display := Display.cell g (cells.get c)
  isDead := (cells.get c).isDead
  transitions := (cells.get c).transitions.map fun (t, dest) => (t, placeOf d.states dest)

/-- The report on an automaton, given the sets that its accepting cells stand for. -/
def of (g : Graph) (cells : Cells) (d : Dfa) (finals : List StateSet) : DfaReport where
  display := Display.dfa d
  size := d.states.length
  initial := placeOf d.states d.initial
  alphabet := d.alphabet.toList
  isTotal := d.isTotal cells
  dead := (d.deadState? cells).bind (placeOf d.states)
  finalSets := numberSets g finals
  states := d.states.map (cellReport g cells d)

end DfaReport

end FiniteAutomata
