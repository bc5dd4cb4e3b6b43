/-
  FiniteAutomata.Session.Change

  Commands that change objects in place. The change shows through every name of the object
  and through every automaton that the object belongs to.
-/
import FiniteAutomata.Session.Answer

namespace FiniteAutomata

/-- A command that changes an object, or whether a log is written. -/
inductive Change where
  | edge (src : StateId) (l : Label) (dest : StateId)
  | stateAccepting (q : StateId) (value : Bool)
  | cellAccepting (c : CellId) (value : Bool)
  | transition (src : CellId) (t : Text) (dest : CellId)
  | logging (on : Bool)

namespace Change

/-- The values that a change names. -/
def mentions : Change → List Value
  | edge src _ dest => [.state src, .state dest]
  | stateAccepting q _ => [.state q]
  | cellAccepting c _ => [.cell c]
  | transition src _ dest => [.cell src, .cell dest]
  | logging _ => []

/-- The session after a change. -/
def apply (s : Session) : Change → Session
  | edge src l dest => { s with graph := s.graph.addEdge src l dest }
  | stateAccepting q value => { s with graph := s.graph.setAccepting q value }
  | cellAccepting c value =>
    { s with cells := s.cells.modify c fun cell => { cell with accepting := value } }
  | transition src t dest =>
    { s with cells := s.cells.modify src fun cell => cell.addTransition t dest }
  | logging on => { s with logging := on }

/-- What is answered once the change is made: an edge is displayed. -/
def answer (s : Session) : Change → Answer
  | edge src l dest => .edge (Display.edge s.graph src ⟨l, dest⟩) l.isEpsilon
  | _ => .done

end Change

end FiniteAutomata
