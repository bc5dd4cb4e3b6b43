/-
  FiniteAutomata.Session.Maker

  Commands that make an object or find one, and never fail: single states, the rules of
  construction, handles on given states and cells, and the steps of a walk.
-/
import FiniteAutomata.Session.Value

namespace FiniteAutomata

/-- A command that gives a value. -/
inductive Maker where
  | builder
  /-- A state with the next number of a builder. -/
  | builderState (b : BuilderId) (accepting : Bool)
  /-- A state with a number of its own. -/
  | state (num : Int) (accepting : Bool)
  | symbol (b : BuilderId) (label : Text)
  | join (b : BuilderId) (c : Connective) (x y : NfaId)
  | repetition (b : BuilderId) (r : Repetition) (x : NfaId)
  | nfa (initial final : StateId)
  | initialState (x : NfaId)
  | finalState (x : NfaId)
  | closure (live : StateSet)
  | move (live : StateSet) (l : Label)
  | start (a : Automaton)
  | next (p : Position) (l : Label)
  | cell (members : StateSet)
  | dfa (initial : CellId) (states : List CellId) (alphabet : List Text)

namespace Maker

/-- The values that a maker names. -/
def mentions : Maker → List Value
  | builder | state _ _ => []
  | builderState b _ | symbol b _ => [.builder b]
  | join b _ x y => [.builder b, .nfa x, .nfa y]
  | repetition b _ x => [.builder b, .nfa x]
  | nfa i f => [.state i, .state f]
  | initialState x | finalState x => [.nfa x]
  | closure live | move live _ | cell live => [.set live]
  | start a => [a.toValue]
  | next p _ => [p.toValue]
  | dfa i states _ => .cell i :: states.map .cell

/-- Lets a builder build an automaton. -/
def build (s : Session) (b : BuilderId) (rule : Site → Nfa × Site) : Value × Session :=
  let (n, c) := rule (s.siteOf b)
  let (x, s) := (s.leaveSite b c).addNfa n
  (.nfa x, s)

/-- Makes or finds the value. -/
def make (s : Session) : Maker → Value × Session
  | builder => (.builder s.builders.size, { s with builders := s.builders.push 0 })
  | builderState b accepting =>
    let (q, c) := (s.siteOf b).newState accepting
    (.state q, s.leaveSite b c)
  | state num accepting =>
    (.state s.graph.size, { s with graph := s.graph.addState num accepting })
  | symbol b label => build s b fun c => c.symbol label
  | join b j x y => build s b fun c => c.join j (s.nfa x) (s.nfa y)
  | repetition b r x => build s b fun c => c.repetition r (s.nfa x)
  | nfa i f =>
    let (x, s) := s.addNfa ⟨i, f⟩
    (.nfa x, s)
  | initialState x => (.state (s.nfa x).initial, s)
  | finalState x => (.state (s.nfa x).final, s)
  | closure live => (.set (s.graph.closure live), s)
  | move live l => (.set (s.graph.move live l), s)
  | start a => ((s.startOf a).toValue, s)
  | next (.live live) l => (.set (s.graph.step live l), s)
  | next (.cell c) l =>
    match (s.cells.get c).next l with
    | some d => (.cell d, s)
    | none => (.nothing, s)
  | cell members => (.cell s.cells.size, { s with cells := s.cells.push (.ofSet members) })
  | dfa i states alphabet =>
    let (x, s) := s.addDfa ⟨i, states, .ofList alphabet⟩
    (.dfa x, s)

end Maker

end FiniteAutomata
