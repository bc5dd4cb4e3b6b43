/-
  FiniteAutomata.Machine.Basic

  What walking an automaton takes, whatever its positions are: a start, a step that may find
  no way on, which positions accept, and the symbols on offer at each. A word is accepted
  when the walk along the whole of it never gets stuck and ends in an accepting position.
-/
import FiniteAutomata.Label
import FiniteAutomata.SortedSet

namespace FiniteAutomata

/-- An automaton as a walker sees it; `σ` holds its positions. -/
structure Machine (σ : Type) where
  start : σ
  /-- The position after a label, or none when there is no way on. -/
  next : σ → Label → Option σ
  isFinal : σ → Bool
  /-- The symbols that may be tried at a position. -/
  labels : σ → SortedSet Text

namespace Machine

variable {σ : Type}

/-- The position after a word, or none when the walk gets stuck on the way. -/
def run (m : Machine σ) : σ → Word → Option σ
  | s, [] => some s
  | s, l :: w =>
    match m.next s l with
    | some t => m.run t w
    | none => none

/-- Whether the whole word leads to an accepting position. -/
def accepts (m : Machine σ) (w : Word) : Bool :=
  match m.run m.start w with
  | some s => m.isFinal s
  | none => false

theorem run_append (m : Machine σ) (s : σ) (u w : Word) :
    m.run s (u ++ w) = (m.run s u).bind fun t => m.run t w := by
  induction u generalizing s with
  | nil => rfl
  | cons l u ih =>
    simp only [List.cons_append, run]
    cases m.next s l with
    | none => rfl
    | some t => exact ih t

end Machine

end FiniteAutomata
