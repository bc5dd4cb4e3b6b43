/-
  FiniteAutomata.Session.Command

  All commands of a session and what they do (`perform`). A command that names an object
  which the session does not have is refused and changes nothing. Putting a pattern into
  postfix order and building an automaton may fail; the states made before the failure stay
  in the graph, and the counter of the builder stays advanced.

  Records are written only while logging is on. To write that an automaton was built, its
  states are counted, and so kept, at once; the states of an automaton that is made
  deterministic are counted and kept in any case.
-/
import FiniteAutomata.Session.Change
import FiniteAutomata.Session.Maker
import FiniteAutomata.Session.Question
import FiniteAutomata.Session.View

namespace FiniteAutomata

/-- A command. -/
inductive Command where
  | make (m : Maker)
  | change (c : Change)
  | ask (q : Question)
  | view (v : View)
  /-- Puts a pattern into postfix order. -/
  | arrange (pattern : Text)
  /-- Builds the automaton of tokens in postfix order, with a given builder or a new one. -/
  | assemble (tokens : Text) (b : Option BuilderId)
  /-- Builds the automaton of a pattern. -/
  | compile (pattern : Text)
  /-- Makes an automaton deterministic, over a given alphabet or over its own symbols. -/
  | determinize (x : NfaId) (alphabet : Option (List Label))

namespace Command

/-- The values that a command names. -/
def mentions : Command → List Value
  | make m => m.mentions
  | change c => c.mentions
  | ask q => q.mentions
  | view v => v.mentions
  | arrange _ | compile _ => []
  | assemble _ b => (b.map Value.builder).toList
  | determinize x _ => [.nfa x]

end Command

namespace Session

/-- A record, if a log is written. -/
def logged (s : Session) (r : Record) : List Record := if s.logging then [r] else []

/-- Adds a newly built automaton; if a log is written, its states are counted for it. -/
def announce (s : Session) (n : Nfa) (tokens : Text) : Outcome × Session :=
  let (x, s) := s.addNfa n
  if s.logging then
    let (states, s) := s.viewStates x
    (⟨.ok (.value (.nfa x)), [.assembled states.length tokens]⟩, s)
  else (.ok (.value (.nfa x)), s)

/-- Takes over what was built at a site. -/
def takeOver (s : Session) (b : Option BuilderId) (c : Site) : Session :=
  match b with
  | some b => s.leaveSite b c
  | none => { s with graph := c.graph }

/-- Builds the automaton of tokens in postfix order. -/
def assemble (s : Session) (tokens : Text) (b : Option BuilderId) : Outcome × Session :=
  let (result, c) := Assembly.assemble (Token.ofText tokens) ⟨s.graph, (b.map s.counter).getD 0⟩
  match result with
  | .ok n => (s.takeOver b c).announce n tokens
  | .error f => (.refused (.assembly f tokens), s.takeOver b c)

/-- Puts a pattern into postfix order. -/
def arrange (s : Session) (pattern : Text) : Except Fault Text × List Record :=
  match Pattern.toPostfix (Token.ofText pattern) with
  | .ok tokens => (.ok (Token.toText tokens), s.logged (.arranged pattern (Token.toText tokens)))
  | .error i => (.error (.imbalance i pattern), [])

/-- Builds the automaton of a pattern. -/
def compile (s : Session) (pattern : Text) : Outcome × Session :=
  match s.arrange pattern with
  | (.ok tokens, log) =>
    let (outcome, s) := s.assemble tokens none
    (outcome.after log, s)
  | (.error f, log) => (⟨.error f, log⟩, s)

/-- The symbols over which an automaton is made deterministic. -/
def alphabetFor (s : Session) (x : NfaId) : Option (List Label) → SortedSet Text × Session
  | some alphabet => (Subset.symbols alphabet, s)
  | none =>
    let (states, s) := s.viewStates x
    (Nfa.symbolsOf s.graph states, s)

/-- Makes an automaton deterministic. -/
def determinize (s : Session) (x : NfaId) (alphabet : Option (List Label)) : Outcome × Session :=
  let (symbols, s) := s.alphabetFor x alphabet
  let (d, cells) := Subset.determinize (s.nfa x) s.graph symbols s.cells
  let (states, s) := s.viewStates x
  let (y, s) := { s with cells := cells }.addDfa d
  (⟨.ok (.value (.dfa y)),
    s.logged (.determinized states.length d.states.length symbols.size)⟩, s)

/-- Carries out a command whose objects are all there. -/
def execute (s : Session) : Command → Outcome × Session
  | .make m =>
    let (v, s) := m.make s
    (.ok (.value v), s)
  | .change c =>
    let s := c.apply s
    (.ok (c.answer s), s)
  | .ask q => (.ok (q.answer s), s)
  | .view v =>
    let (a, s) := v.look s
    (.ok a, s)
  | .arrange pattern =>
    let (result, log) := s.arrange pattern
    (⟨result.map .text, log⟩, s)
  | .assemble tokens b => s.assemble tokens b
  | .compile pattern => s.compile pattern
  | .determinize x alphabet => s.determinize x alphabet

/-- Carries out a command. -/
def perform (s : Session) (c : Command) : Outcome × Session :=
  if c.mentions.all s.has then s.execute c else (.refused .unknownObject, s)

end Session

end FiniteAutomata
