/-
  FiniteAutomata.Session.Answer

  What a command gives back: an answer or the reason why there is none, and the records that
  it wrote to the log.
-/
import FiniteAutomata.Fault
import FiniteAutomata.Record
import FiniteAutomata.Report.Dfa
import FiniteAutomata.Report.Nfa
import FiniteAutomata.Report.Walk
import FiniteAutomata.Session.Value

namespace FiniteAutomata

/-- The answer to a command. -/
inductive Answer where
  | done
  | value (v : Value)
  | brief (b : Brief)
  | flag (b : Bool)
  | count (n : Nat)
  | text (t : Text)
  | texts (ts : List Text)
  | numbers (ns : List Int)
  | numberSets (sets : List (List Int))
  /-- An edge, displayed, and whether it is an empty move. -/
  | edge (display : Text) (isEpsilon : Bool)
  | edges (es : List (Text × Bool))
  | triples (ts : List Triple)
  | nfaReport (r : NfaReport)
  | dfaReport (r : DfaReport)
  | walk (paces : List Pace)

/-- What a command gives back. -/
structure Outcome where
  answer : Except Fault Answer
  log : List Record

namespace Outcome

/-- An answer without records. -/
def ok (a : Answer) : Outcome := ⟨.ok a, []⟩

/-- A refusal without records. -/
def refused (f : Fault) : Outcome := ⟨.error f, []⟩

/-- Puts records before those of an outcome. -/
def after (log : List Record) (o : Outcome) : Outcome := { o with log := log ++ o.log }

end Outcome

end FiniteAutomata
