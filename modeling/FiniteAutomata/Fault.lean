/-
  FiniteAutomata.Fault

  Why a request is refused, and the message that says so. Messages about a pattern quote the
  pattern as it was given; messages about tokens in postfix order quote those, and count
  positions in them from nought.
-/
import FiniteAutomata.Nfa.Assembly
import FiniteAutomata.Pattern.Postfix
import FiniteAutomata.Text.Quoted

namespace FiniteAutomata

/-- Why a request is refused. -/
inductive Fault where
  /-- The parentheses of a pattern do not match. -/
  | imbalance (i : Imbalance) (pattern : Text)
  /-- Tokens in postfix order make no automaton. -/
  | assembly (f : AssemblyFault) (tokens : Text)
  /-- An automaton of which nothing is known was asked a question. -/
  | unanswered
  /-- A named object does not exist. -/
  | unknownObject
  deriving DecidableEq

namespace Fault

/-- The wording of a fault. -/
def message : Fault → Text
  | imbalance .unbalanced pattern => "Unbalanced ')' in ".toList ++ pattern.quoted
  | imbalance .unclosed pattern => "Unclosed '(' in ".toList ++ pattern.quoted
  | assembly (.missingOperand o pos) _ =>
    "Operator ".toList ++ Text.quoted [o.toChar] ++ " at position ".toList ++ Text.ofNat pos ++
      " is missing an operand".toList
  | assembly (.unknownOperator t pos) tokens =>
    "Unknown operator ".toList ++ Text.quoted [t.toChar] ++ " at position ".toList ++
      Text.ofNat pos ++ " of ".toList ++ tokens.quoted
  | assembly .noOperand tokens => "No operand in ".toList ++ tokens.quoted
  | assembly (.leftOver count) tokens =>
    Text.ofNat count ++ " fragments left over after ".toList ++ tokens.quoted
  | unanswered => []
  | unknownObject => "No such object".toList

end Fault

end FiniteAutomata
