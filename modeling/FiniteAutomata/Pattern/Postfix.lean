/-
  FiniteAutomata.Pattern.Postfix

  From patterns as they are written to postfix order. First the concatenation marks that a
  writer leaves out are put in; then each operator is moved behind its operands.

  The operators that wait for their right operand are kept by parenthesis: those of the
  group being read, and those of every group around it. An operator that comes in first
  releases the waiting ones of its own group that bind at least as tightly, so equal
  operators group to the left. Nothing else than the parentheses is checked here.
-/
import FiniteAutomata.Pattern.Token

namespace FiniteAutomata

/-- What may be wrong with the parentheses of a pattern. -/
inductive Imbalance where
  /-- A closing parenthesis closes nothing. -/
  | unbalanced
  /-- An opening parenthesis is never closed. -/
  | unclosed
  deriving DecidableEq

namespace Pattern

/-! ## Marks of concatenation -/

/-- Puts a concatenation mark between two neighbours that are joined without an operator. -/
def markConcat : List Token → List Token
  | [] => []
  | [t] => [t]
  | t :: u :: rest =>
    if t.endsOperand && u.startsOperand then t :: .op (.binary .concat) :: markConcat (u :: rest)
    else t :: markConcat (u :: rest)

/-! ## Postfix order -/

/-- Whether a waiting operator is released when another comes in. -/
def releasedBy (incoming waiting : Operator) : Bool :=
  decide (incoming.precedence ≤ waiting.precedence)

/-- The rest of a token list in postfix order, behind the waiting operators of the group
    being read (the latest first) and of the groups around it (the innermost first). -/
def arrange (group : List Operator) (outer : List (List Operator)) :
    List Token → Except Imbalance (List Token)
  | [] =>
    match outer with
    | [] => .ok (group.map .op)
    | _ :: _ => .error .unclosed
  | .operand c :: rest => (arrange group outer rest).map (.operand c :: ·)
  | .lparen :: rest => arrange [] (group :: outer) rest
  | .rparen :: rest =>
    match outer with
    | [] => .error .unbalanced
    | next :: outer => (arrange next outer rest).map (group.map .op ++ ·)
  | .op o :: rest =>
    (arrange (o :: group.dropWhile (releasedBy o)) outer rest).map
      ((group.takeWhile (releasedBy o)).map .op ++ ·)

/-- The tokens of a pattern in postfix order, marks of concatenation included. -/
def toPostfix (tokens : List Token) : Except Imbalance (List Token) :=
  arrange [] [] (markConcat tokens)

end Pattern

end FiniteAutomata
