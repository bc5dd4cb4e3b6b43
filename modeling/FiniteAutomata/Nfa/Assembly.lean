/-
  FiniteAutomata.Nfa.Assembly

  Building an automaton from tokens in postfix order, with a stack of the automata that wait
  for their operator. The first token that cannot be used ends the assembly; whatever was
  built up to there stays in the graph, and the counter with it.
-/
import FiniteAutomata.Nfa.Construction

namespace FiniteAutomata

/-- Why tokens in postfix order make no automaton. -/
inductive AssemblyFault where
  /-- An operator finds too few operands before it. -/
  | missingOperand (o : Operator) (pos : Nat)
  /-- A token is neither an operand nor an operator. -/
  | unknownOperator (t : Token) (pos : Nat)
  /-- There is no token at all. -/
  | noOperand
  /-- Several automata are left that no operator joins. -/
  | leftOver (count : Nat)
  deriving DecidableEq

namespace Assembly

/-- Builds on from the token at a position, with the waiting automata, the latest first. -/
def assembleFrom (pos : Nat) (stack : List Nfa) (c : Site) :
    List Token → Except AssemblyFault Nfa × Site
  | [] =>
    match stack with
    | [] => (.error .noOperand, c)
    | [n] => (.ok n, c)
    | _ => (.error (.leftOver stack.length), c)
  | .operand x :: rest =>
    let (n, c) := c.symbol [x]
    assembleFrom (pos + 1) (n :: stack) c rest
  | .op (.unary r) :: rest =>
    match stack with
    | x :: stack =>
      let (n, c) := c.repetition r x
      assembleFrom (pos + 1) (n :: stack) c rest
    | [] => (.error (.missingOperand (.unary r) pos), c)
  | .op (.binary j) :: rest =>
    match stack with
    | y :: x :: stack =>
      let (n, c) := c.join j x y
      assembleFrom (pos + 1) (n :: stack) c rest
    | _ => (.error (.missingOperand (.binary j) pos), c)
  | t :: _ => (.error (.unknownOperator t pos), c)

/-- Builds the automaton of tokens in postfix order. -/
def assemble (tokens : List Token) (c : Site) : Except AssemblyFault Nfa × Site :=
  assembleFrom 0 [] c tokens

end Assembly

end FiniteAutomata
