/-
  FiniteAutomata.Dfa.Basic

  Deterministic automata. A cell stands for a set of states of the graph and keeps, for each
  symbol, the cell that follows. Cells live in one table and are known by their place in it;
  two cells are equal when they stand for the same set, wherever they lie. The cell of the
  empty set is dead: it offers no symbol.
-/
import FiniteAutomata.Graph.Live
import FiniteAutomata.Machine.Basic

namespace FiniteAutomata

/-- The place of a cell in its table. -/
abbrev CellId := Nat

/-- A state of a deterministic automaton. -/
structure Cell where
  /-- The states of the graph that the cell stands for. -/
  members : StateSet
  accepting : Bool
  /-- The following cell for each symbol, in the order in which symbols were first given. -/
  transitions : List (Text × CellId)

namespace Cell

/-- A cell without transitions that does not accept. -/
def ofSet (members : StateSet) : Cell := ⟨members, false, []⟩

/-- Whether the cell stands for no state at all. -/
def isDead (c : Cell) : Bool := c.members.isEmpty

/-- The symbols that have a transition. -/
def symbols (c : Cell) : List Text := c.transitions.map Prod.fst

/-- The symbols on offer: none at a dead cell. -/
def labels (c : Cell) : List Text := if c.isDead then [] else c.symbols

/-- Where a symbol leads. Nothing but a symbol leads anywhere. -/
def next (c : Cell) : Label → Option CellId
  | .epsilon => none
  | .text t => c.transitions.lookup t

/-- Sets the target of a symbol; a symbol that has one keeps its place. -/
def setTarget (t : Text) (dest : CellId) : List (Text × CellId) → List (Text × CellId)
  | [] => [(t, dest)]
  | (u, old) :: rest => if u = t then (t, dest) :: rest else (u, old) :: setTarget t dest rest

/-- Gives a symbol its following cell. -/
def addTransition (c : Cell) (t : Text) (dest : CellId) : Cell :=
  { c with transitions := setTarget t dest c.transitions }

end Cell

/-- The table of all cells. -/
abbrev Cells := Array Cell

namespace Cells

/-- The cell at a place; beyond the table, a dead one. -/
def get (cells : Cells) (c : CellId) : Cell := cells[c]?.getD (.ofSet .empty)

/-- Walking a table from cell to cell. -/
def machine (cells : Cells) (start : CellId) : Machine CellId where
  start := start
  next c l := (cells.get c).next l
  isFinal c := (cells.get c).accepting
  labels c := .ofList (cells.get c).labels

/-- Where the transitions of a cell lead. -/
def successors (cells : Cells) (c : CellId) : List CellId :=
  (cells.get c).transitions.map Prod.snd

theorem bounded_successors (cells : Cells) : Worklist.Bounded cells.successors := by
  refine ⟨cells.toList.flatMap fun cell => cell.transitions.map Prod.snd, fun c d hd => ?_⟩
  rw [successors, get] at hd
  cases at_c : cells[c]? with
  | none =>
    rw [at_c] at hd
    cases hd
  | some cell =>
    rw [at_c] at hd
    exact List.mem_flatMap.mpr ⟨cell, Array.mem_toList_iff.mpr (Array.mem_of_getElem? at_c), hd⟩

/-- The cells that transitions reach from a cell. -/
def reachable (cells : Cells) (c : CellId) : List CellId :=
  Worklist.explore cells.successors cells.bounded_successors [c]

end Cells

/-- A deterministic automaton, as a handle on the table of cells. -/
structure Dfa where
  initial : CellId
  /-- The cells of the automaton in order. -/
  states : List CellId
  alphabet : SortedSet Text

namespace Dfa

/-- The automaton as a machine whose positions are cells. -/
def machine (d : Dfa) (cells : Cells) : Machine CellId := cells.machine d.initial

/-- Whether the automaton accepts a word. -/
def accepts (d : Dfa) (cells : Cells) (w : Word) : Bool := (d.machine cells).accepts w

/-- Whether every cell has a transition for exactly the symbols of the alphabet. -/
def isTotal (d : Dfa) (cells : Cells) : Bool :=
  d.states.all fun c => decide (SortedSet.ofList (cells.get c).symbols = d.alphabet)

/-- The first dead cell, if there is one. -/
def deadState? (d : Dfa) (cells : Cells) : Option CellId :=
  d.states.find? fun c => (cells.get c).isDead

/-- The sets that the accepting cells stand for, equal cells counting once. -/
def finalSets (d : Dfa) (cells : Cells) : List StateSet :=
  ((d.states.filter fun c => (cells.get c).accepting).map fun c => (cells.get c).members).eraseDups

end Dfa

end FiniteAutomata
