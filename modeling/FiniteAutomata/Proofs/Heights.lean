/-
  FiniteAutomata.Proofs.Heights

  How the assembly of an automaton ends. Which automata wait does not matter for that, only
  how many; so the outcome can be read off the tokens by keeping a height (`heightFrom`).
  The height goes up with an operand and down with a connective, and it never comes back to
  nought.
-/
import FiniteAutomata.Nfa.Assembly

namespace FiniteAutomata

namespace Token

/-- Whether a token is a connective. -/
def isBinary : Token → Bool
  | op (.binary _) => true
  | _ => false

end Token

namespace Assembly

/-- How many automata wait behind the tokens when `h` wait before them, or the first token
    that cannot be used. -/
def heightFrom (pos h : Nat) : List Token → Except AssemblyFault Nat
  | [] => .ok h
  | .operand _ :: rest => heightFrom (pos + 1) (h + 1) rest
  | .op (.unary r) :: rest =>
    if 1 ≤ h then heightFrom (pos + 1) h rest else .error (.missingOperand (.unary r) pos)
  | .op (.binary j) :: rest =>
    if 2 ≤ h then heightFrom (pos + 1) (h - 1) rest else .error (.missingOperand (.binary j) pos)
  | t :: _ => .error (.unknownOperator t pos)

/-- What is wrong when all tokens are used, by how many automata wait. -/
def settle : Nat → Except AssemblyFault Unit
  | 0 => .error .noOperand
  | 1 => .ok ()
  | h + 2 => .error (.leftOver (h + 2))

/-- How an assembly ends depends on the number of the waiting automata alone. -/
theorem assembleFrom_outcome (pos : Nat) (stack : List Nfa) (c : Site) (tokens : List Token) :
    (assembleFrom pos stack c tokens).1.map (fun _ => ()) =
      (heightFrom pos stack.length tokens).bind settle := by
  -- Each rule puts one automaton in place of its operands, whatever these are.
  induction tokens generalizing pos stack c with
  | nil =>
    match stack with
    | [] | [_] | _ :: _ :: _ => rfl
  | cons t rest ih =>
    match t, stack with
    | .operand x, stack => exact ih (pos + 1) ((c.symbol [x]).1 :: stack) (c.symbol [x]).2
    | .op (.unary r), [] => rfl
    | .op (.unary r), x :: stack =>
      rw [heightFrom, List.length_cons, if_pos (Nat.le_add_left 1 stack.length)]
      exact ih (pos + 1) ((c.repetition r x).1 :: stack) (c.repetition r x).2
    | .op (.binary j), [] | .op (.binary j), [_] => rfl
    | .op (.binary j), y :: x :: stack =>
      rw [heightFrom, List.length_cons, List.length_cons,
        if_pos (Nat.le_add_left 2 stack.length)]
      exact ih (pos + 1) ((c.join j x y).1 :: stack) (c.join j x y).2
    | .lparen, stack | .rparen, stack => rfl

/-! ## Heights and contents -/

/-- Tokens that can all be used raise the height by their operands and lower it by their
    connectives, but not to nought. -/
theorem height_of_ok {pos h k : Nat} {tokens : List Token} (ok : heightFrom pos h tokens = .ok k) :
    k + tokens.countP Token.isBinary = h + tokens.countP Token.isOperand ∧
      (0 < h ∨ tokens ≠ [] → 0 < k) := by
  -- Once an automaton waits, one waits for good: operators need one and leave one.
  induction tokens generalizing pos h with
  | nil =>
    cases ok
    simp
  | cons t rest ih =>
    match t with
    | .operand x =>
      obtain ⟨counts, positive⟩ := ih ok
      refine ⟨?_, fun _ => positive (Or.inl (Nat.succ_pos h))⟩
      simp [List.countP_cons, Token.isBinary, Token.isOperand]
      omega
    | .op (.unary r) =>
      rw [heightFrom] at ok
      split at ok
      · next hh =>
        obtain ⟨counts, positive⟩ := ih ok
        refine ⟨?_, fun _ => positive (Or.inl hh)⟩
        simpa [List.countP_cons, Token.isBinary, Token.isOperand] using counts
      · cases ok
    | .op (.binary j) =>
      rw [heightFrom] at ok
      split at ok
      · next hh =>
        obtain ⟨counts, positive⟩ := ih ok
        refine ⟨?_, fun _ => positive (Or.inl (by omega))⟩
        simp [List.countP_cons, Token.isBinary, Token.isOperand]
        omega
      · cases ok
    | .lparen | .rparen => cases ok

/-- Without parentheses among the tokens, only operands may be missing. -/
theorem missingOperand_of_error {pos h : Nat} {tokens : List Token} {f : AssemblyFault}
    (parens : ∀ t ∈ tokens, t ≠ .lparen ∧ t ≠ .rparen)
    (error : heightFrom pos h tokens = .error f) : ∃ o p, f = .missingOperand o p := by
  induction tokens generalizing pos h with
  | nil => cases error
  | cons t rest ih =>
    have later : ∀ u ∈ rest, u ≠ .lparen ∧ u ≠ .rparen := by
      intro u hu
      exact parens u (List.mem_cons_of_mem t hu)
    match t with
    | .operand x => exact ih later error
    | .op (.unary r) =>
      rw [heightFrom] at error
      split at error
      · exact ih later error
      · exact ⟨_, _, (Except.error.inj error).symm⟩
    | .op (.binary j) =>
      rw [heightFrom] at error
      split at error
      · exact ih later error
      · exact ⟨_, _, (Except.error.inj error).symm⟩
    | .lparen => exact absurd rfl (parens _ List.mem_cons_self).1
    | .rparen => exact absurd rfl (parens _ List.mem_cons_self).2

end Assembly

end FiniteAutomata
