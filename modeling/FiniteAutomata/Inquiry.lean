/-
  FiniteAutomata.Inquiry

  What may be asked of an automaton of any kind. An automaton of which neither states nor
  steps are given answers nothing, not even a question that other answers would settle.
-/
import FiniteAutomata.Session.Answer

namespace FiniteAutomata

/-- A question that makes sense for every automaton. -/
inductive Inquiry where
  | size
  | states
  | start
  | next
  | isFinal
  | labels
  | accepts
  | texts
  deriving DecidableEq

/-- The answer of an automaton of which nothing is given. -/
def Inquiry.answer (_ : Inquiry) : Except Fault Answer := .error .unanswered

end FiniteAutomata
