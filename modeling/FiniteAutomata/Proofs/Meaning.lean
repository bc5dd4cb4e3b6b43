/-
  FiniteAutomata.Proofs.Meaning

  What operators do to languages, and what tokens in postfix order stand for: each operand
  puts its one-letter language on a stack, each operator takes its operands off and puts the
  result back.

  Repeating once or more often may be exchanged with the other two repetitions
  (`apply_plus_comm`), so it does not matter that it binds tighter than they do.
-/
import FiniteAutomata.Pattern.Token
import Mathlib.Computability.Language
import Mathlib.Order.CompletePartialOrder

namespace FiniteAutomata

open Computability

variable {α β : Type}

/-! ## Operators on languages -/

namespace Repetition

/-- The language of a part that is repeated. -/
def apply (r : Repetition) (L : Language α) : Language α :=
  match r with
  | star => L∗
  | plus => L * L∗
  | question => 1 + L

/-- A way around, then once through, then as often again as the repetition allows. -/
theorem apply_eq (r : Repetition) (L : Language α) :
    r.apply L = (if r.allowsNone then 1 else 0) + L * (if r.allowsMany then L∗ else 1) := by
  cases r with
  | star =>
    show L∗ = 1 + L * L∗
    rw [one_add_mul_kstar]
  | plus =>
    show L * L∗ = 0 + L * L∗
    rw [zero_add]
  | question =>
    show 1 + L = 1 + L * 1
    rw [mul_one]

theorem kstar_mul_kstar_self (L : Language α) : (L * L∗)∗ = L∗ := by
  apply le_antisymm
  · calc (L * L∗)∗ ≤ (L∗)∗ := kstar_mono mul_kstar_le_kstar
      _ = L∗ := kstar_idem L
  · have once : L ≤ L * L∗ := by
      calc L = L * 1 := (mul_one L).symm
        _ ≤ L * L∗ := mul_le_mul_right one_le_kstar L
    exact kstar_mono once

theorem kstar_one_add (L : Language α) : (1 + L)∗ = L∗ := by
  apply le_antisymm
  · have some : 1 + L ≤ L∗ := add_le one_le_kstar le_kstar
    calc (1 + L)∗ ≤ (L∗)∗ := kstar_mono some
      _ = L∗ := kstar_idem L
  · exact kstar_mono (le_add_of_nonneg_left zero_le)

/-- It does not matter which of two repetitions comes first if one of them is once or more
    often. -/
theorem apply_plus_comm (r : Repetition) (L : Language α) :
    plus.apply (r.apply L) = r.apply (plus.apply L) := by
  cases r with
  | plus => rfl
  | star =>
    show L∗ * (L∗)∗ = (L * L∗)∗
    rw [kstar_idem, kstar_mul_kstar, kstar_mul_kstar_self]
  | question =>
    show (1 + L) * (1 + L)∗ = 1 + L * L∗
    rw [kstar_one_add, one_add_mul_kstar, add_mul, one_mul]
    exact add_eq_left_iff_le.mpr mul_kstar_le_kstar

theorem map_apply (f : α → β) (r : Repetition) (L : Language α) :
    Language.map f (r.apply L) = r.apply (Language.map f L) := by
  cases r with
  | star => exact Language.map_kstar f L
  | plus => simp only [apply, map_mul, Language.map_kstar]
  | question => simp only [apply, map_add, map_one]

end Repetition

namespace Connective

/-- The language of two parts that are joined. -/
def apply (j : Connective) (L M : Language α) : Language α :=
  match j with
  | union => L + M
  | concat => L * M

theorem map_apply (f : α → β) (j : Connective) (L M : Language α) :
    Language.map f (j.apply L M) = j.apply (Language.map f L) (Language.map f M) := by
  cases j with
  | union => exact map_add _ L M
  | concat => exact map_mul _ L M

end Connective

/-! ## Tokens in postfix order -/

namespace Pattern

/-- What one token does to a stack of languages, the latest first. The right operand of a
    connective lies above the left one. -/
def evalToken : Token → List (Language Char) → Option (List (Language Char))
  | .operand x, stack => some ({[x]} :: stack)
  | .op (.unary r), L :: stack => some (r.apply L :: stack)
  | .op (.binary j), M :: L :: stack => some (j.apply L M :: stack)
  | _, _ => none

/-- What tokens do to a stack of languages, or nothing if one of them cannot be used. -/
def eval (stack : List (Language Char)) : List Token → Option (List (Language Char))
  | [] => some stack
  | t :: rest => (evalToken t stack).bind fun stack => eval stack rest

theorem eval_append (stack : List (Language Char)) (u v : List Token) :
    eval stack (u ++ v) = (eval stack u).bind fun stack => eval stack v := by
  induction u generalizing stack with
  | nil => rfl
  | cons t u ih =>
    rw [List.cons_append, eval, eval]
    cases evalToken t stack with
    | none => rfl
    | some next => exact ih next

end Pattern

end FiniteAutomata
