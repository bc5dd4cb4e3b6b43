/-
  FiniteAutomata.Nfa.Basic

  A nondeterministic automaton is a pair of states of the shared graph: where it starts, and
  the state that ends it when it is put together with others. All states that edges reach
  from the first belong to it. It is walked with the set of its live states; a label that
  leaves no state live ends the walk.
-/
import FiniteAutomata.Graph.Reachable
import FiniteAutomata.Machine.Basic

namespace FiniteAutomata

/-- A nondeterministic automaton, as a handle on the shared graph. -/
structure Nfa where
  initial : StateId
  final : StateId
  deriving DecidableEq

namespace Graph

/-- Walking a graph with live sets. -/
def machine (g : Graph) (start : StateSet) : Machine StateSet where
  start := start
  next live l := if (g.step live l).isEmpty then none else some (g.step live l)
  isFinal := g.isFinal
  labels := g.liveLabels

end Graph

namespace Nfa

/-- The live set before anything is read. -/
def start (n : Nfa) (g : Graph) : StateSet := g.closure (.ofList [n.initial])

/-- The automaton as a machine whose positions are live sets. -/
def machine (n : Nfa) (g : Graph) : Machine StateSet := g.machine (n.start g)

/-- Whether the automaton accepts a word. -/
def accepts (n : Nfa) (g : Graph) (w : Word) : Bool := (n.machine g).accepts w

/-- The symbols on the edges of some states. -/
def symbolsOf (g : Graph) (states : List StateId) : SortedSet Text :=
  .ofList (states.flatMap fun s => (g.labels s).toList)

end Nfa

end FiniteAutomata
