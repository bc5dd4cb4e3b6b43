/-
  FiniteAutomata.Report.Nfa

  All that can be read off a nondeterministic automaton, given its states: the states and
  the accepting ones by number, the symbols in use, and every edge as a triple. Triples go
  state by state in the order of the states, and within a state in the order of its edges;
  where two states share a number, the triples are sorted as a whole, since their states
  could not be told apart.
-/
import FiniteAutomata.Display

namespace FiniteAutomata

/-- An edge by the numbers of its states and its label. -/
abbrev Triple := Int × Label × Int

/-- What a nondeterministic automaton is made of. -/
structure NfaReport where
  display : Text
  size : Nat
  /-- The states, displayed. -/
  states : List Text
  /-- The numbers of the accepting states. -/
  finals : List Int
  symbols : List Text
  triples : List Triple

namespace NfaReport

/-- States displayed by ascending number; of equal numbers those that do not accept come
    first. -/
def displayStates (g : Graph) (states : List StateId) : List Text :=
  (Ordered.sort (states.map fun s => (g.num s, g.accepting s))).map fun (num, accepting) =>
    Display.numbered num accepting

/-- The edges of states, in the order of the states. -/
def edgesOf (g : Graph) (states : List StateId) : List Triple :=
  states.flatMap fun s => (g.edges s).map fun e => (g.num s, e.label, g.num e.dest)

/-- The edges of states, sorted if two of the states share a number. -/
def triplesOf (g : Graph) (states : List StateId) : List Triple :=
  if (states.map g.num).Nodup then edgesOf g states else Ordered.sort (edgesOf g states)

/-- The report on an automaton, given its states and those of them that accept. -/
def of (g : Graph) (n : Nfa) (states : List StateId) (finals : StateSet) : NfaReport where
  display := Display.nfa g n
  size := states.length
  states := displayStates g states
  finals := g.numbers finals
  symbols := (Nfa.symbolsOf g states).toList
  triples := triplesOf g states

end NfaReport

end FiniteAutomata
