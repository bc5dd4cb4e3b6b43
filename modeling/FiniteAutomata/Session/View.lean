/-
  FiniteAutomata.Session.View

  Questions whose answers rest on kept views. The first such question about an automaton
  fixes the view for all later ones, whatever happens to the automaton in between; edges and
  accepting marks of the states in the view are read anew where they are asked for.
-/
import FiniteAutomata.Session.Answer

namespace FiniteAutomata

/-- A question that is answered from kept views. -/
inductive View where
  | states (x : NfaId)
  | finals (x : NfaId)
  | nfaSize (x : NfaId)
  | triples (x : NfaId)
  | symbols (x : NfaId)
  | nfaReport (x : NfaId)
  | finalSets (x : DfaId)
  | dfaReport (x : DfaId)

namespace View

/-- The values that a view names. -/
def mentions : View → List Value
  | states x | finals x | nfaSize x | triples x | symbols x | nfaReport x => [.nfa x]
  | finalSets x | dfaReport x => [.dfa x]

/-- Answers from the kept views, keeping those that were not kept yet. -/
def look (s : Session) : View → Answer × Session
  | states x =>
    let (kept, s) := s.viewStates x
    (.texts (NfaReport.displayStates s.graph kept), s)
  | finals x =>
    let (accepting, s) := s.viewFinals x
    (.numbers (s.graph.numbers accepting), s)
  | nfaSize x =>
    let (kept, s) := s.viewStates x
    (.count kept.length, s)
  | triples x =>
    let (kept, s) := s.viewStates x
    (.triples (NfaReport.triplesOf s.graph kept), s)
  | symbols x =>
    let (kept, s) := s.viewStates x
    (.texts (Nfa.symbolsOf s.graph kept).toList, s)
  | nfaReport x =>
    let (kept, s) := s.viewStates x
    let (accepting, s) := s.viewFinals x
    (.nfaReport (.of s.graph (s.nfa x) kept accepting), s)
  | finalSets x =>
    let (sets, s) := s.viewFinalSets x
    (.numberSets (DfaReport.numberSets s.graph sets), s)
  | dfaReport x =>
    let (sets, s) := s.viewFinalSets x
    (.dfaReport (.of s.graph s.cells (s.dfa x) sets), s)

end View

end FiniteAutomata
