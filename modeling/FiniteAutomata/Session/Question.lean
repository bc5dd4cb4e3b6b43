/-
  FiniteAutomata.Session.Question

  Questions whose answers are worked out anew each time: asking one leaves the session as it
  is. None of them looks at a kept view.
-/
import FiniteAutomata.Machine.Enumeration
import FiniteAutomata.Session.Answer

namespace FiniteAutomata

/-- A question about the objects of a session. -/
inductive Question where
  | display (v : Value)
  | counter (b : BuilderId)
  | dfaSize (x : DfaId)
  | isFinal (p : Position)
  | labels (p : Position)
  | accepts (a : Automaton) (w : Word)
  /-- The first texts accepted from a position, the start if none is given. -/
  | texts (a : Automaton) (maxlen : Int) (sofar : Text) (limit : Nat) (start : Option Position)
  | edges (q : StateId)
  | destinations (q : StateId) (l : Label)
  | symbols (q : StateId)
  | isDead (c : CellId)
  | isTotal (x : DfaId)
  | deadState (x : DfaId)
  | same (v w : Value)
  | walk (x : NfaId) (y : DfaId) (w : Word)

namespace Session

/-- The first texts accepted from a position. Along a chain of empty symbols the positions
    come round again, so a chain that passes every position within reach once for each text
    still wanted has found them all, or finds no more. -/
def textsAt (s : Session) (maxlen : Int) (sofar : Text) (limit : Nat) : Position → List Text
  | .live live =>
    (s.graph.machine live).takeTexts maxlen ((limit + 1) * Nat.pow 2 s.graph.size) limit live sofar
  | .cell c =>
    (s.cells.machine c).takeTexts maxlen ((limit + 1) * ((s.cells.reachable c).length + 1)) limit c
      sofar

/-- Whether an automaton accepts a word. -/
def accepts (s : Session) : Automaton → Word → Bool
  | .nfa x => (s.nfa x).accepts s.graph
  | .dfa x => (s.dfa x).accepts s.cells

/-- Whether a position accepts. -/
def isFinal (s : Session) : Position → Bool
  | .live live => s.graph.isFinal live
  | .cell c => (s.cells.get c).accepting

/-- The symbols on offer at a position, in order. -/
def labels (s : Session) : Position → SortedSet Text
  | .live live => s.graph.liveLabels live
  | .cell c => .ofList (s.cells.get c).labels

/-- An edge, displayed, and whether it is an empty move. -/
def shownEdge (s : Session) (q : StateId) (e : Edge) : Text × Bool :=
  (Display.edge s.graph q e, e.label.isEpsilon)

end Session

namespace Question

/-- The values that a question names. -/
def mentions : Question → List Value
  | display v => [v]
  | counter b => [.builder b]
  | dfaSize x | isTotal x | deadState x => [.dfa x]
  | isFinal p | labels p => [p.toValue]
  | accepts a _ => [a.toValue]
  | texts a _ _ _ start => a.toValue :: (start.map Position.toValue).toList
  | edges q | destinations q _ | symbols q => [.state q]
  | isDead c => [.cell c]
  | same v w => [v, w]
  | walk x y _ => [.nfa x, .dfa y]

/-- The answer to a question. -/
def answer (s : Session) : Question → Answer
  | display v => .brief (s.brief v)
  | counter b => .count (s.counter b)
  | dfaSize x => .count (s.dfa x).states.length
  | isFinal p => .flag (s.isFinal p)
  | labels p => .texts (s.labels p).toList
  | accepts a w => .flag (s.accepts a w)
  | texts a maxlen sofar limit start =>
    .texts (s.textsAt maxlen sofar limit (start.getD (s.startOf a)))
  | edges q => .edges ((s.graph.edges q).map (s.shownEdge q))
  | destinations q l => .numbers ((s.graph.destinations q l).map s.graph.num)
  | symbols q => .texts (s.graph.labels q).toList
  | isDead c => .flag (s.cells.get c).isDead
  | isTotal x => .flag ((s.dfa x).isTotal s.cells)
  | deadState x =>
    match (s.dfa x).deadState? s.cells with
    | some c => .text (Display.cell s.graph (s.cells.get c))
    | none => .done
  | same v w => .flag (s.same v w)
  | walk x y w =>
    .walk (Pace.along s.graph s.cells ((s.nfa x).start s.graph) (some (s.dfa y).initial) w)

end Question

end FiniteAutomata
