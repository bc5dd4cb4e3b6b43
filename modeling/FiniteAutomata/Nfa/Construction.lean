/-
  FiniteAutomata.Nfa.Construction

  Putting automata together by Thompson's rules. Each rule links the end states of its
  operands by empty moves and takes their accepting mark away; no state is ever copied, so
  an automaton that has become part of another goes on sharing its states with it.

  A construction site is the shared graph and the number that the next new state gets.
-/
import FiniteAutomata.Nfa.Basic
import FiniteAutomata.Pattern.Token

namespace FiniteAutomata

namespace Graph

/-- Adds an empty move. -/
def addEpsilon (g : Graph) (src dest : StateId) : Graph := g.addEdge src .epsilon dest

end Graph

/-- A graph under construction. -/
structure Site where
  graph : Graph
  /-- The number of the next new state. -/
  counter : Nat

namespace Site

/-- A new state with the next number. -/
def newState (c : Site) (accepting : Bool) : StateId × Site :=
  (c.graph.size, ⟨c.graph.addState c.counter accepting, c.counter + 1⟩)

/-- Two new states, of which the second accepts: the ends of a new automaton. -/
def newEnds (c : Site) : Nfa × Site :=
  let (s, c) := c.newState false
  let (e, c) := c.newState true
  (⟨s, e⟩, c)

/-- Applies a change to the graph. -/
def modify (c : Site) (change : Graph → Graph) : Site := { c with graph := change c.graph }

/-- An automaton that reads one symbol. -/
def symbol (label : Text) (c : Site) : Nfa × Site :=
  let (n, c) := c.newEnds
  (n, c.modify fun g => g.addEdge n.initial (.text label) n.final)

/-- First `x`, then `y`. -/
def concat (x y : Nfa) (c : Site) : Nfa × Site :=
  (⟨x.initial, y.final⟩,
    c.modify fun g => (g.addEpsilon x.final y.initial).setAccepting x.final false)

/-- Leads from the new initial state through `x` to the new final one. -/
def enclose (ends x : Nfa) (g : Graph) : Graph :=
  ((g.addEpsilon ends.initial x.initial).addEpsilon x.final ends.final).setAccepting x.final false

/-- Either `x` or `y`. -/
def choice (x y : Nfa) (c : Site) : Nfa × Site :=
  let (ends, c) := c.newEnds
  (ends, c.modify fun g => enclose ends y (enclose ends x g))

/-- Joins `x` and `y`. -/
def join : Connective → Nfa → Nfa → Site → Nfa × Site
  | .union => choice
  | .concat => concat

/-- Repeats `x`. There is a way around it if it may be left out, and a way back to its
    start if it may stand more than once. -/
def repetition (r : Repetition) (x : Nfa) (c : Site) : Nfa × Site :=
  let (ends, c) := c.newEnds
  (ends, c.modify fun g =>
    let g := g.addEpsilon ends.initial x.initial
    let g := if r.allowsNone then g.addEpsilon ends.initial ends.final else g
    let g := if r.allowsMany then g.addEpsilon x.final x.initial else g
    (g.addEpsilon x.final ends.final).setAccepting x.final false)

end Site

end FiniteAutomata
