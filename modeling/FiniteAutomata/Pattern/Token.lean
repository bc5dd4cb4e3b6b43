/-
  FiniteAutomata.Pattern.Token

  The tokens of patterns. Seven characters are operators or parentheses, every other
  character is an operand that stands for itself; one character is one token, so positions
  in a text and in its token list agree. `Token.ofChar_toChar` says that no character is
  lost in reading.
-/
import FiniteAutomata.Text.Basic

namespace FiniteAutomata

/-- How often a part of a pattern may stand. It is written behind the part. -/
inductive Repetition where
  /-- Any number of times. -/
  | star
  /-- Once or more often. -/
  | plus
  /-- Once or not at all. -/
  | question
  deriving DecidableEq

namespace Repetition

/-- How a repetition is written. -/
def toChar : Repetition → Char
  | star => '*'
  | plus => '+'
  | question => '?'

/-- All repetitions. -/
def all : List Repetition := [star, plus, question]

/-- Whether the part may be left out. -/
def allowsNone : Repetition → Bool
  | star | question => true
  | plus => false

/-- Whether the part may stand more than once. -/
def allowsMany : Repetition → Bool
  | star | plus => true
  | question => false

end Repetition

/-- How two parts of a pattern are joined. It is written between them. -/
inductive Connective where
  /-- Either part. -/
  | union
  /-- Both parts, one after the other. -/
  | concat
  deriving DecidableEq

namespace Connective

/-- How a connective is written. Concatenation has a mark of its own, the middle dot. -/
def toChar : Connective → Char
  | union => '|'
  | concat => '·'

/-- All connectives. -/
def all : List Connective := [union, concat]

end Connective

/-- What repeats or joins parts of a pattern. -/
inductive Operator where
  | unary (r : Repetition)
  | binary (c : Connective)
  deriving DecidableEq

namespace Operator

/-- How an operator is written. -/
def toChar : Operator → Char
  | unary r => r.toChar
  | binary c => c.toChar

/-- How tightly an operator binds. The sign for once or more often binds tighter than the
    other two repetitions, though all three stand behind their part. -/
def precedence : Operator → Nat
  | binary .union => 1
  | binary .concat => 2
  | unary .star => 3
  | unary .question => 3
  | unary .plus => 4

/-- All operators. -/
def all : List Operator := Repetition.all.map unary ++ Connective.all.map binary

end Operator

/-- One character of a pattern, read. -/
inductive Token where
  | operand (c : Char)
  | op (o : Operator)
  | lparen
  | rparen
  deriving DecidableEq

namespace Token

/-- The token that a character is. -/
def ofChar : Char → Token
  | '|' => op (.binary .union)
  | '·' => op (.binary .concat)
  | '*' => op (.unary .star)
  | '?' => op (.unary .question)
  | '+' => op (.unary .plus)
  | '(' => lparen
  | ')' => rparen
  | c => operand c

/-- How a token is written. -/
def toChar : Token → Char
  | operand c => c
  | op o => o.toChar
  | lparen => '('
  | rparen => ')'

/-- The tokens of a text. -/
def ofText (t : Text) : List Token := t.map ofChar

/-- Tokens as a text. -/
def toText (ts : List Token) : Text := ts.map toChar

theorem ofChar_toChar (c : Char) : (ofChar c).toChar = c := by
  unfold ofChar
  split <;> rfl

theorem toText_ofText (t : Text) : toText (ofText t) = t := by
  simp [toText, ofText, Function.comp_def, ofChar_toChar]

/-- Whether a token stands for itself. -/
def isOperand : Token → Bool
  | operand _ => true
  | _ => false

/-- Whether something that a further operand may follow ends here. -/
def endsOperand : Token → Bool
  | operand _ => true
  | op (.unary _) => true
  | op (.binary _) => false
  | lparen => false
  | rparen => true

/-- Whether something that may follow an operand starts here. -/
def startsOperand : Token → Bool
  | operand _ => true
  | op _ => false
  | lparen => true
  | rparen => false

/-- The seven tokens that are not operands. -/
def reserved : List Token := [lparen, rparen] ++ Operator.all.map op

end Token

/-- Whether a text is not one of the seven reserved characters; a text of any other length
    than one is not. -/
def isOperandText : Text → Bool
  | [c] => (Token.ofChar c).isOperand
  | _ => true

end FiniteAutomata
