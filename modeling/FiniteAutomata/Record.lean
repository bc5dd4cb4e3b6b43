/-
  FiniteAutomata.Record

  What is written to the log: one record when a pattern has been put into postfix order, one
  when an automaton has been built, one when it has been made deterministic.
-/
import FiniteAutomata.Text.Quoted

namespace FiniteAutomata

/-- One entry of the log. -/
inductive Record where
  | arranged (pattern tokens : Text)
  | assembled (states : Nat) (tokens : Text)
  | determinized (states cells symbols : Nat)
  deriving DecidableEq

namespace Record

/-- The wording of a record. -/
def message : Record → Text
  | arranged pattern tokens =>
    "Postfix form of ".toList ++ pattern.quoted ++ " is ".toList ++ tokens.quoted
  | assembled states tokens =>
    "Built NFA with ".toList ++ Text.ofNat states ++ " states from ".toList ++ tokens.quoted
  | determinized states cells symbols =>
    "Subset construction: ".toList ++ Text.ofNat states ++ " NFA states -> ".toList ++
      Text.ofNat cells ++ " DFA states over ".toList ++ Text.ofNat symbols ++ " symbols".toList

end Record

end FiniteAutomata
