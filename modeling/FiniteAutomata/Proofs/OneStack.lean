/-
  FiniteAutomata.Proofs.OneStack

  Postfix order by one stack. `Pattern.arrange` keeps the waiting operators of each group
  apart. Here they all lie on one stack, and so do the parentheses that are open, each below the
  operators of its group. How tightly the topmost token binds is looked up in a table that
  knows operators only.

  The stack of a run that has come so far is laid out by its groups (`layout`). It is taken down
  to the next parenthesis and never further, so the table is asked for operators only, and
  both ways to keep them agree on every token list (`read_layout`).
-/
import FiniteAutomata.Pattern.Postfix

namespace FiniteAutomata

/-- How tightly a token binds, as far as that is known. -/
def Token.precedence? : Token → Option Nat
  | .op o => some o.precedence
  | .operand _ | .lparen | .rparen => none

namespace OneStack

/-- Why a run ends early. -/
inductive Halt where
  | imbalance (i : Imbalance)
  /-- It is not known how tightly the token binds. -/
  | unranked (t : Token)
  deriving DecidableEq

/-- What `)` puts out, and the stack without the `(` that it closes. -/
def close : List Token → Except Halt (List Token × List Token)
  | [] => .error (.imbalance .unbalanced)
  | .lparen :: stack => .ok ([], stack)
  | t :: stack => (close stack).map fun (out, kept) => (t :: out, kept)

/-- What an operator of the given precedence puts out, and what it leaves on the stack. -/
def yieldTo (incoming : Nat) : List Token → Except Halt (List Token × List Token)
  | [] => .ok ([], [])
  | .lparen :: stack => .ok ([], .lparen :: stack)
  | t :: stack =>
    match t.precedence? with
    | none => .error (.unranked t)
    | some waiting =>
      if incoming ≤ waiting then
        (yieldTo incoming stack).map fun (out, kept) => (t :: out, kept)
      else .ok ([], t :: stack)

/-- What is left on the stack in the end. -/
def finish : List Token → Except Halt (List Token)
  | [] => .ok []
  | .lparen :: _ => .error (.imbalance .unclosed)
  | t :: stack => (finish stack).map (t :: ·)

/-- The rest of a token list in postfix order, behind what is on the stack. -/
def read (stack : List Token) : List Token → Except Halt (List Token)
  | [] => finish stack
  | .operand c :: rest => (read stack rest).map (.operand c :: ·)
  | .lparen :: rest => read (.lparen :: stack) rest
  | .rparen :: rest => (close stack).bind fun (out, kept) => (read kept rest).map (out ++ ·)
  | .op o :: rest =>
    (yieldTo o.precedence stack).bind fun (out, kept) =>
      (read (.op o :: kept) rest).map (out ++ ·)

theorem read_rparen {stack out kept : List Token} (h : close stack = .ok (out, kept))
    (rest : List Token) : read stack (.rparen :: rest) = (read kept rest).map (out ++ ·) := by
  rw [read, h]
  rfl

theorem read_op {o : Operator} {stack out kept : List Token}
    (h : yieldTo o.precedence stack = .ok (out, kept)) (rest : List Token) :
    read stack (.op o :: rest) = (read (.op o :: kept) rest).map (out ++ ·) := by
  rw [read, h]
  rfl

/-! ## The layout of the stack -/

/-- The stack on which the operators of `group` wait, and below them those of the groups around
    it, each group on its parenthesis. -/
def layout (group : List Operator) (outer : List (List Operator)) : List Token :=
  group.map .op ++ outer.flatMap fun next => .lparen :: next.map .op

theorem close_ops (group : List Operator) (stack : List Token) :
    close (group.map .op ++ stack) =
      (close stack).map fun (out, kept) => (group.map .op ++ out, kept) := by
  induction group with
  | nil => exact (congrFun Except.map_id (close stack)).symm
  | cons o group ih =>
    show (close (group.map .op ++ stack)).map _ = _
    rw [ih]
    cases close stack <;> rfl

theorem close_layout (group next : List Operator) (outer : List (List Operator)) :
    close (layout group (next :: outer)) = .ok (group.map .op, layout next outer) := by
  rw [layout, close_ops, List.flatMap_cons]
  show Except.ok (group.map Token.op ++ [], layout next outer) = _
  rw [List.append_nil]

theorem finish_ops (group : List Operator) (stack : List Token) :
    finish (group.map .op ++ stack) = (finish stack).map (group.map .op ++ ·) := by
  induction group with
  | nil => exact (congrFun Except.map_id (finish stack)).symm
  | cons o group ih =>
    show (finish (group.map .op ++ stack)).map _ = _
    rw [ih]
    cases finish stack <;> rfl

theorem yieldTo_layout (o : Operator) (group : List Operator) (outer : List (List Operator)) :
    yieldTo o.precedence (layout group outer) =
      .ok ((group.takeWhile (Pattern.releasedBy o)).map .op,
        layout (group.dropWhile (Pattern.releasedBy o)) outer) := by
  induction group with
  | nil => cases outer <;> rfl
  | cons q group ih =>
    show (if o.precedence ≤ q.precedence then _ else _) = _
    by_cases tight : o.precedence ≤ q.precedence
    · have released : Pattern.releasedBy o q = true := decide_eq_true tight
      rw [if_pos tight, List.takeWhile_cons_of_pos released, List.dropWhile_cons_of_pos released]
      show Except.map _ (yieldTo o.precedence (layout group outer)) = _
      rw [ih]
      rfl
    · have waits : ¬ Pattern.releasedBy o q = true := by
        rwa [Pattern.releasedBy, decide_eq_true_eq]
      rw [if_neg tight, List.takeWhile_cons_of_neg waits, List.dropWhile_cons_of_neg waits]
      rfl

/-! ## Both ways agree -/

theorem mapError_map (x : Except Imbalance (List Token)) (f : List Token → List Token) :
    (x.map f).mapError Halt.imbalance = (x.mapError Halt.imbalance).map f := by
  cases x <;> rfl

/-- By one stack, the tokens come out in the same order or the same parenthesis is missed, and
    the table knows every token that it is asked for. -/
theorem read_layout (group : List Operator) (outer : List (List Operator)) (tokens : List Token) :
    read (layout group outer) tokens =
      (Pattern.arrange group outer tokens).mapError .imbalance := by
  induction tokens generalizing group outer with
  | nil =>
    cases outer with
    | nil => exact (finish_ops group []).trans (congrArg Except.ok (List.append_nil _))
    | cons next outer => exact finish_ops group _
  | cons t rest ih =>
    match t, outer with
    | .operand c, outer =>
      rw [read, ih]
      exact (mapError_map _ _).symm
    | .lparen, outer => exact ih [] (group :: outer)
    | .rparen, [] =>
      rw [read, layout, List.flatMap_nil, close_ops]
      rfl
    | .rparen, next :: outer =>
      rw [read_rparen (close_layout group next outer), ih]
      exact (mapError_map _ _).symm
    | .op o, outer =>
      have later := ih (o :: group.dropWhile (Pattern.releasedBy o)) outer
      rw [read_op (yieldTo_layout o group outer)]
      exact (congrArg _ later).trans (mapError_map _ _).symm

end OneStack

end FiniteAutomata
