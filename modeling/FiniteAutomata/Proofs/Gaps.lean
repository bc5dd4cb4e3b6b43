/-
  FiniteAutomata.Proofs.Gaps

  Missing operands. An operand is missing between two neighbours if none ends at the first
  and none starts at the second. Such gaps are not looked for when a pattern is read; they
  show in the number of operands, which then is too small for the connectives
  (`operands_add_missing`). Parentheses, repetitions and the marks that are put in even out.
-/
import FiniteAutomata.Proofs.Heights
import FiniteAutomata.Proofs.Marks

namespace FiniteAutomata

namespace Pattern

/-! ## Missing operands -/

/-- How many operands are missing in a token list. `ended` says whether an operand ends right
    before it; behind it an operand must have ended. -/
def missing (ended : Bool) : List Token → Nat
  | [] => if ended then 0 else 1
  | t :: rest => (if ended || t.startsOperand then 0 else 1) + missing t.endsOperand rest

/-- Whether a mark belongs before a token list, as a number. -/
def joint (ended : Bool) (tokens : List Token) : Nat :=
  (ended && tokens.head?.any Token.startsOperand).toNat

theorem countP_isOperand_seam (t : Token) (rest : List Token) :
    (seam [t] rest).countP Token.isOperand = 0 := by
  rw [seam]
  split <;> rfl

theorem countP_isBinary_seam (t : Token) (rest : List Token) :
    (seam [t] rest).countP Token.isBinary = joint t.endsOperand rest := by
  show (if (t.endsOperand && rest.head?.any Token.startsOperand) = true then _ else _ :
    List Token).countP Token.isBinary = (t.endsOperand && rest.head?.any Token.startsOperand).toNat
  cases t.endsOperand && rest.head?.any Token.startsOperand <;> rfl

/-- What one token adds to the operands and the gaps, and to the connectives, depends on its
    kind and on what stands before it. -/
theorem kinds_balance (ended : Bool) (t : Token) (rest : List Token) :
    [t].countP Token.isOperand + (if ended || t.startsOperand then 0 else 1) + ended.toNat =
      [t].countP Token.isBinary + t.endsOperand.toNat + joint ended (t :: rest) := by
  match t, ended with
  | .operand _, true | .operand _, false => rfl
  | .op (.unary _), true | .op (.unary _), false => rfl
  | .op (.binary _), true | .op (.binary _), false => rfl
  | .lparen, true | .lparen, false => rfl
  | .rparen, true | .rparen, false => rfl

/-- Operands and gaps together are one more than the connectives, the marks included. -/
theorem operands_add_missing_add (ended : Bool) (tokens : List Token) :
    (markConcat tokens).countP Token.isOperand + missing ended tokens + ended.toNat =
      (markConcat tokens).countP Token.isBinary + 1 + joint ended tokens := by
  induction tokens generalizing ended with
  | nil => cases ended <;> rfl
  | cons t rest ih =>
    have later := ih t.endsOperand
    have balance := kinds_balance ended t rest
    rw [markConcat_cons, ← List.singleton_append, List.countP_append, List.countP_append,
      List.countP_append, List.countP_append, countP_isOperand_seam, countP_isBinary_seam, missing]
    omega

theorem operands_add_missing (tokens : List Token) :
    (markConcat tokens).countP Token.isOperand + missing false tokens =
      (markConcat tokens).countP Token.isBinary + 1 :=
  operands_add_missing_add false tokens

end Pattern

end FiniteAutomata
