/-
  FiniteAutomata.Session.Value

  What a name in a session may stand for, how it is shown in short, and when two values are
  the same: states, automata and builders by identity, sets by their members, cells by the
  sets they stand for.
-/
import FiniteAutomata.Session.Basic

namespace FiniteAutomata

/-- An object of a session, a set of its states, or nothing. -/
inductive Value where
  | state (s : StateId)
  | nfa (x : NfaId)
  | dfa (x : DfaId)
  | cell (c : CellId)
  | set (live : StateSet)
  | builder (b : BuilderId)
  | nothing
  deriving DecidableEq

/-- An automaton of either kind. -/
inductive Automaton where
  | nfa (x : NfaId)
  | dfa (x : DfaId)
  deriving DecidableEq

/-- Where a walk of either kind is. -/
inductive Position where
  | live (live : StateSet)
  | cell (c : CellId)
  deriving DecidableEq

/-- An automaton as a value. -/
def Automaton.toValue : Automaton → Value
  | nfa x => .nfa x
  | dfa x => .dfa x

/-- A position as a value. -/
def Position.toValue : Position → Value
  | live s => .set s
  | cell c => .cell c

/-- A value shown in short: a set by the numbers of its members, other objects by their
    display, and what has none by nothing. -/
inductive Brief where
  | numbers (ns : List Int)
  | text (t : Text)
  | nothing

namespace Session

/-- Whether a value names objects of the session only. -/
def has (s : Session) : Value → Bool
  | .state q => decide (q < s.graph.size)
  | .nfa x => decide (x < s.nfas.size)
  | .dfa x => decide (x < s.dfas.size)
  | .cell c => decide (c < s.cells.size)
  | .set live => live.toList.all fun q => decide (q < s.graph.size)
  | .builder b => decide (b < s.builders.size)
  | .nothing => true

/-- The short form of a value. -/
def brief (s : Session) : Value → Brief
  | .state q => .text (Display.state s.graph q)
  | .nfa x => .text (Display.nfa s.graph (s.nfa x))
  | .dfa x => .text (Display.dfa (s.dfa x))
  | .cell c => .text (Display.cell s.graph (s.cells.get c))
  | .set live => .numbers (s.graph.numbers live)
  | .builder _ => .nothing
  | .nothing => .nothing

/-- Whether two cells stand for the same set. -/
def sameMembers (s : Session) (c d : CellId) : Bool :=
  decide ((s.cells.get c).members = (s.cells.get d).members)

/-- Whether two values are the same. -/
def same (s : Session) : Value → Value → Bool
  | .cell c, .cell d => s.sameMembers c d
  | v, w => decide (v = w)

/-- Where a walk of an automaton starts. -/
def startOf (s : Session) : Automaton → Position
  | .nfa x => .live ((s.nfa x).start s.graph)
  | .dfa x => .cell (s.dfa x).initial

end Session

end FiniteAutomata
