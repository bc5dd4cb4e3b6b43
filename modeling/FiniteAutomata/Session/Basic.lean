/-
  FiniteAutomata.Session.Basic

  The objects of a session: one shared graph, one table of cells, the automata that are
  handles on them, and the builders that number new states. Objects are known by their place
  and are never removed, so a name given to an object stays good.

  Some views of an automaton are kept from the first time they are asked for and never
  brought up to date: the states of a nondeterministic one, those of them that accept, and
  the sets that the accepting cells of a deterministic one stand for.
-/
import FiniteAutomata.Dfa.Subset
import FiniteAutomata.Display
import FiniteAutomata.Nfa.Construction

namespace FiniteAutomata

abbrev NfaId := Nat

abbrev DfaId := Nat

abbrev BuilderId := Nat

/-- A nondeterministic automaton and the views of it that are kept. -/
structure NfaObject where
  handle : Nfa
  states : Option (List StateId)
  finals : Option StateSet

/-- A deterministic automaton and the view of it that is kept. -/
structure DfaObject where
  handle : Dfa
  finals : Option (List StateSet)

/-- All objects, and whether a log is written. -/
structure Session where
  graph : Graph
  cells : Cells
  nfas : Array NfaObject
  dfas : Array DfaObject
  /-- The number of the next new state of each builder. -/
  builders : Array Nat
  logging : Bool

namespace Session

/-- A session without objects. -/
def fresh (logging : Bool) : Session := ⟨.empty, #[], #[], #[], #[], logging⟩

/-! ## Objects -/

/-- A nondeterministic automaton by its place. -/
def nfa (s : Session) (x : NfaId) : Nfa :=
  match s.nfas[x]? with
  | some o => o.handle
  | none => ⟨0, 0⟩

/-- A deterministic automaton by its place. -/
def dfa (s : Session) (x : DfaId) : Dfa :=
  match s.dfas[x]? with
  | some o => o.handle
  | none => ⟨0, [], .empty⟩

/-- The number that the next new state of a builder gets. -/
def counter (s : Session) (b : BuilderId) : Nat := s.builders[b]?.getD 0

/-- Adds a nondeterministic automaton. -/
def addNfa (s : Session) (n : Nfa) : NfaId × Session :=
  (s.nfas.size, { s with nfas := s.nfas.push ⟨n, none, none⟩ })

/-- Adds a deterministic automaton. -/
def addDfa (s : Session) (d : Dfa) : DfaId × Session :=
  (s.dfas.size, { s with dfas := s.dfas.push ⟨d, none⟩ })

/-- The construction site of a builder. -/
def siteOf (s : Session) (b : BuilderId) : Site := ⟨s.graph, s.counter b⟩

/-- Takes over what a builder has done at its site. -/
def leaveSite (s : Session) (b : BuilderId) (c : Site) : Session :=
  { s with graph := c.graph, builders := s.builders.setIfInBounds b c.counter }

/-! ## Kept views -/

/-- The states of an automaton as they were when first asked for, if they were. -/
def keptStates (s : Session) (x : NfaId) : Option (List StateId) :=
  s.nfas[x]?.bind NfaObject.states

/-- The accepting states of an automaton as they were when first asked for. -/
def keptFinals (s : Session) (x : NfaId) : Option StateSet := s.nfas[x]?.bind NfaObject.finals

/-- The final sets of an automaton as they were when first asked for. -/
def keptFinalSets (s : Session) (x : DfaId) : Option (List StateSet) :=
  s.dfas[x]?.bind DfaObject.finals

/-- The states of an automaton, by number: those kept, or those that its initial state
    reaches now, which are then kept. -/
def viewStates (s : Session) (x : NfaId) : List StateId × Session :=
  match s.keptStates x with
  | some states => (states, s)
  | none =>
    let states := s.graph.reachable (s.nfa x).initial
    (states, { s with nfas := s.nfas.modify x fun o => { o with states := some states } })

/-- The accepting states of an automaton: those kept, or those of its states that accept
    now, which are then kept. -/
def viewFinals (s : Session) (x : NfaId) : StateSet × Session :=
  match s.keptFinals x with
  | some finals => (finals, s)
  | none =>
    let (states, s) := s.viewStates x
    let finals : StateSet := .ofList (states.filter s.graph.accepting)
    (finals, { s with nfas := s.nfas.modify x fun o => { o with finals := some finals } })

/-- The final sets of an automaton: those kept, or those of the cells that accept now, which
    are then kept. -/
def viewFinalSets (s : Session) (x : DfaId) : List StateSet × Session :=
  match s.keptFinalSets x with
  | some finals => (finals, s)
  | none =>
    let finals := (s.dfa x).finalSets s.cells
    (finals, { s with dfas := s.dfas.modify x fun o => { o with finals := some finals } })

end Session

end FiniteAutomata
