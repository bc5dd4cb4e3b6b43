/-
  FiniteAutomata.Display

  The short forms in which states, edges, cells and automata are shown: the kind of the
  object and its numbers between angle brackets. What accepts is marked by a star.
-/
import FiniteAutomata.Dfa.Basic
import FiniteAutomata.Nfa.Basic
import FiniteAutomata.Text.Quoted

namespace FiniteAutomata

namespace Display

/-- The mark of what accepts. -/
def star (accepting : Bool) : Text := if accepting then ['*'] else []

/-- A state that has a number and accepts or not. -/
def numbered (num : Int) (accepting : Bool) : Text :=
  "<State ".toList ++ Text.ofInt num ++ star accepting ++ ['>']

/-- A state of a graph. -/
def state (g : Graph) (s : StateId) : Text := numbered (g.num s) (g.accepting s)

/-- An edge of a graph that leaves from a state. -/
def edge (g : Graph) (src : StateId) (e : Edge) : Text :=
  "<Transition ".toList ++ Text.ofInt (g.num src) ++ " -".toList ++ e.label.display ++
    "-> ".toList ++ Text.ofInt (g.num e.dest) ++ ['>']

/-- A nondeterministic automaton, by the numbers of its two ends. -/
def nfa (g : Graph) (n : Nfa) : Text :=
  "<NFA ".toList ++ Text.ofInt (g.num n.initial) ++ " -> ".toList ++ Text.ofInt (g.num n.final) ++
    ['>']

/-- A cell, by the numbers of the states it stands for. -/
def cell (g : Graph) (c : Cell) : Text :=
  "<DfaState \x7b".toList ++ Text.joined [','] ((g.numbers c.members).map Text.ofInt) ++
    "\x7d".toList ++ star c.accepting ++ ['>']

/-- A deterministic automaton, by its size and its alphabet. -/
def dfa (d : Dfa) : Text :=
  "<DFA ".toList ++ Text.ofNat d.states.length ++ " states over ".toList ++
    Text.quoted d.alphabet.toList.flatten ++ ['>']

end Display

end FiniteAutomata
