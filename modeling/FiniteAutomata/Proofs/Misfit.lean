/-
  FiniteAutomata.Proofs.Misfit

  Where an assembly breaks off, and what it has done up to there. A token is a misfit behind
  others when it is a parenthesis, or an operator that finds fewer automata than it takes;
  how many are there is a matter of heights alone (`height`). Tokens that all fit are a run
  of steps (`exists_run`), whatever comes behind them (`Run.assembleFrom_append`), and every
  step moves the counter by what its token needs.

  So the first misfit decides: the fault names it and its position, and the counter stands
  where the tokens before it have brought it. Without a misfit, the height at the end decides
  (`assemble_verdict`).
-/
import FiniteAutomata.Proofs.Census
import Mathlib.Data.List.Induction

namespace FiniteAutomata

namespace Token

/-- Whether the assembly makes two new states for a token: for an operand, a repetition and a
    union. -/
def makesEnds : Token → Bool
  | operand _ | op (.unary _) | op (.binary .union) => true
  | op (.binary .concat) | lparen | rparen => false

/-- How many automata wait behind a token when `h` wait before it. -/
def raise (h : Nat) : Token → Nat
  | operand _ => h + 1
  | op (.binary _) => h - 1
  | _ => h

end Token

/-- How many automata an operator takes. -/
def Operator.arity : Operator → Nat
  | unary _ => 1
  | binary _ => 2

namespace Assembly

/-! ## Misfits -/

/-- How many automata wait behind tokens. -/
def height (tokens : List Token) : Nat := tokens.foldl Token.raise 0

/-- A token that cannot be used when `h` automata wait: a parenthesis, or an operator that
    takes more. -/
def Misfit (h : Nat) : Token → Prop
  | .operand _ => False
  | .op o => h < o.arity
  | .lparen | .rparen => True

/-- No token is a misfit behind those before it. -/
def Fitting (tokens : List Token) : Prop :=
  ∀ u t, u ++ [t] <+: tokens → ¬ Misfit (height u) t

/-- What is wrong with a misfit at a position. -/
def faultOf (pos : Nat) : Token → AssemblyFault
  | .op o => .missingOperand o pos
  | t => .unknownOperator t pos

theorem height_concat (u : List Token) (t : Token) : height (u ++ [t]) = t.raise (height u) :=
  List.foldl_concat ..

theorem fitting_nil : Fitting [] := by
  intro u t sub
  have none : u ++ [t] = [] := List.prefix_nil.mp sub
  simp at none

theorem fitting_concat {u : List Token} {t : Token} :
    Fitting (u ++ [t]) ↔ Fitting u ∧ ¬ Misfit (height u) t := by
  constructor
  · intro fits
    exact ⟨fun v t' sub => fits v t' (sub.trans (List.prefix_append u [t])),
      fits u t (List.prefix_refl _)⟩
  · rintro ⟨fits, fit⟩ v t' sub
    rcases List.prefix_concat_iff.mp sub with same | sub
    · obtain ⟨rfl, last⟩ := List.append_inj' same rfl
      cases last
      exact fit
    · exact fits v t' sub

/-- Either all tokens fit, or there is a first one that does not. -/
theorem fitting_or_exists_misfit (tokens : List Token) :
    Fitting tokens ∨ ∃ used t rest, tokens = used ++ t :: rest ∧ Fitting used ∧
      Misfit (height used) t := by
  induction tokens using List.reverseRecOn with
  | nil => exact Or.inl fitting_nil
  | append_singleton u t ih =>
    rcases ih with fits | ⟨used, t', rest, rfl, fits, misfit⟩
    · by_cases misfit : Misfit (height u) t
      · exact Or.inr ⟨u, t, [], rfl, fits, misfit⟩
      · exact Or.inl (fitting_concat.mpr ⟨fits, misfit⟩)
    · exact Or.inr ⟨used, t', rest ++ [t], by simp, fits, misfit⟩

/-! ## Runs of fitting tokens -/

variable {t : Token} {used rest tokens : List Token} {stack mid out : List Nfa} {c d e : Site}

theorem Run.concat (run : Run used stack c mid d) (step : Step t mid d out e) :
    Run (used ++ [t]) stack c out e := by
  induction run with
  | nil => exact .cons step (.nil out e)
  | cons first _ ih => exact .cons first (ih step)

/-- A token that fits has a step. -/
theorem exists_step (fit : ¬ Misfit stack.length t) (c : Site) :
    ∃ out d, Step t stack c out d ∧ out.length = t.raise stack.length := by
  -- by how much of the stack the token takes; a stack too low makes it a misfit
  match t, stack with
  | .operand x, stack => exact ⟨_, _, .operand x stack c, rfl⟩
  | .op (.unary r), x :: stack => exact ⟨_, _, .unary r x stack c, rfl⟩
  | .op (.binary j), y :: x :: stack => exact ⟨_, _, .binary j x y stack c, rfl⟩
  | .op (.unary r), [] => exact absurd Nat.zero_lt_one fit
  | .op (.binary j), [] => exact absurd Nat.zero_lt_two fit
  | .op (.binary j), [x] => exact absurd Nat.one_lt_two fit
  | .lparen, stack | .rparen, stack => exact absurd trivial fit

theorem exists_run (fits : Fitting used) (c : Site) :
    ∃ out d, Run used [] c out d ∧ out.length = height used := by
  induction used using List.reverseRecOn with
  | nil => exact ⟨[], c, .nil [] c, rfl⟩
  | append_singleton u t ih =>
    obtain ⟨fits, fit⟩ := fitting_concat.mp fits
    obtain ⟨mid, d, run, hmid⟩ := ih fits
    rw [← hmid] at fit
    obtain ⟨out, e, step, hout⟩ := exists_step fit d
    exact ⟨out, e, run.concat step, by rw [hout, hmid, height_concat]⟩

/-- An assembly goes through the steps of a run and on from there. -/
theorem Run.assembleFrom_append (run : Run used stack c out d) (pos : Nat) (rest : List Token) :
    assembleFrom pos stack c (used ++ rest) = assembleFrom (pos + used.length) out d rest := by
  induction run generalizing pos with
  | nil => rfl
  | @cons t used _ _ _ _ _ _ step _ ih =>
    have next : pos + (t :: used).length = pos + 1 + used.length := by
      rw [List.length_cons]
      omega
    rw [next, ← ih (pos + 1)]
    cases step <;> rfl

theorem Run.heightFrom (run : Run used stack c out d) (pos : Nat) :
    heightFrom pos stack.length used = .ok out.length := by
  induction run generalizing pos with
  | nil => rfl
  | cons step _ ih =>
    cases step with
    | operand x stack c => exact ih (pos + 1)
    | unary r x stack c =>
      rw [Assembly.heightFrom, List.length_cons, if_pos (Nat.le_add_left 1 stack.length)]
      exact ih (pos + 1)
    | binary j x y stack c =>
      rw [Assembly.heightFrom, List.length_cons, List.length_cons,
        if_pos (Nat.le_add_left 2 stack.length)]
      exact ih (pos + 1)

/-- A misfit ends the assembly and leaves the site as it is. -/
theorem assembleFrom_misfit (misfit : Misfit stack.length t) (pos : Nat) (c : Site)
    (rest : List Token) :
    assembleFrom pos stack c (t :: rest) = (.error (faultOf pos t), c) := by
  match t, stack with
  | .op (.unary r), [] | .op (.binary j), [] | .op (.binary j), [x] => rfl
  | .lparen, stack | .rparen, stack => rfl
  | .op (.unary r), x :: stack =>
    have low : stack.length + 1 < 1 := misfit
    omega
  | .op (.binary j), y :: x :: stack =>
    have low : stack.length + 2 < 2 := misfit
    omega

/-! ## Counting -/

/-- How many states the assembly of fitting tokens makes. -/
def statesOf (tokens : List Token) : Nat := 2 * tokens.countP Token.makesEnds

theorem Run.counter (run : Run used stack c out d) : d.counter = c.counter + statesOf used := by
  induction run with
  | nil => rfl
  | @cons t rest _ _ _ _ _ _ step _ ih =>
    have first : t.stateCount = 2 * if t.makesEnds = true then 1 else 0 := by
      cases step with
      | operand x | unary r x => rfl
      | binary j x y => cases j <;> rfl
    rw [ih, step.grows.counter, first, statesOf, statesOf, List.countP_cons]
    omega

/-- Behind fitting tokens, as many automata wait as there are more operands than connectives;
    there is one if there is a token. -/
theorem height_of_fitting (fits : Fitting tokens) :
    height tokens + tokens.countP Token.isBinary = tokens.countP Token.isOperand ∧
      (tokens ≠ [] → 0 < height tokens) := by
  obtain ⟨out, d, run, same⟩ := exists_run fits ⟨.empty, 0⟩
  obtain ⟨counts, positive⟩ := height_of_ok (run.heightFrom 0)
  rw [same, List.length_nil, Nat.zero_add] at counts
  rw [same] at positive
  exact ⟨counts, fun some => positive (Or.inr some)⟩

/-! ## The end of an assembly -/

/-- The first misfit is what is wrong. -/
theorem assemble_of_misfit (fits : Fitting used) (misfit : Misfit (height used) t) (c : Site)
    (rest : List Token) :
    (assemble (used ++ t :: rest) c).1 = .error (faultOf used.length t) ∧
      (assemble (used ++ t :: rest) c).2.counter = c.counter + statesOf used := by
  obtain ⟨out, d, run, same⟩ := exists_run fits c
  rw [← same] at misfit
  rw [assemble, run.assembleFrom_append, assembleFrom_misfit misfit, Nat.zero_add]
  exact ⟨rfl, run.counter⟩

/-- Without a misfit, the height at the end decides. -/
theorem assemble_of_fitting (fits : Fitting tokens) (c : Site) :
    (assemble tokens c).1.map (fun _ => ()) = settle (height tokens) ∧
      (assemble tokens c).2.counter = c.counter + statesOf tokens := by
  obtain ⟨out, d, run, same⟩ := exists_run fits c
  have whole := run.assembleFrom_append 0 []
  rw [List.append_nil] at whole
  rw [assemble, whole, ← same, ← run.counter]
  match out with
  | [] | [_] | _ :: _ :: _ => exact ⟨rfl, rfl⟩

end Assembly

/-! ## In a session -/

namespace Session

open Assembly

variable {s : Session} {tokens : Text} {b : Option BuilderId}

/-- Tokens that make no automaton are refused for that. -/
theorem assemble_of_error {f : AssemblyFault}
    (error : (Assembly.assemble (Token.ofText tokens) ⟨s.graph, (b.map s.counter).getD 0⟩).1 =
      .error f) : (s.assemble tokens b).1.answer = .error (.assembly f tokens) := by
  unfold assemble
  simp only [error]
  rfl

/-- The answer by what the assembly comes to, when only the height of the stack is known. -/
theorem answer_of_settle {h : Nat}
    (settled : (Assembly.assemble (Token.ofText tokens) ⟨s.graph, (b.map s.counter).getD 0⟩).1.map
      (fun _ => ()) = settle h) :
    (h = 0 ∧ (s.assemble tokens b).1.answer = .error (.assembly .noOperand tokens)) ∨
      (h = 1 ∧ ∃ x, (s.assemble tokens b).1.answer = .ok (.value (.nfa x))) ∨
      (1 < h ∧ (s.assemble tokens b).1.answer = .error (.assembly (.leftOver h) tokens)) := by
  match result : Assembly.assemble (Token.ofText tokens) ⟨s.graph, (b.map s.counter).getD 0⟩, h with
  | (.ok n, c), 1 => exact Or.inr (Or.inl ⟨rfl, _, (assemble_of_ok result).1⟩)
  | (.error f, c), 0 =>
    rw [result] at settled
    cases settled
    exact Or.inl ⟨rfl, assemble_of_error (congrArg Prod.fst result)⟩
  | (.error f, c), h + 2 =>
    rw [result] at settled
    cases settled
    exact Or.inr (Or.inr ⟨by omega, assemble_of_error (congrArg Prod.fst result)⟩)
  | (.ok n, c), 0 | (.ok n, c), h + 2 | (.error f, c), 1 =>
    rw [result] at settled
    cases settled

/-- A builder's counter after an assembly, if that is known at the site. -/
theorem counter_of_site {states : Nat} (there : ∀ y ∈ b, y < s.builders.size)
    (grown : (Assembly.assemble (Token.ofText tokens)
      ⟨s.graph, (b.map s.counter).getD 0⟩).2.counter = (b.map s.counter).getD 0 + states) :
    ∀ y ∈ b, (s.assemble tokens b).2.counter y = s.counter y + states := by
  rintro y rfl
  rw [counter_assemble (there y rfl)]
  exact grown

/-- What becomes of any tokens, with any builder of the session. Up to the first token that is a
    parenthesis or an operator for which too few automata wait, all tokens are used; that token
    is refused with its position, for what it is. If there is none, nothing is missing just if
    there are tokens and they leave no more than one automaton. The counter of the builder has
    gone on by two for each token used that needs new states, in any case. -/
theorem assemble_verdict (s : Session) (tokens : Text) (b : Option BuilderId)
    (there : ∀ y ∈ b, y < s.builders.size) :
    ∃ used rest, Token.ofText tokens = used ++ rest ∧ Fitting used ∧
      (∀ y ∈ b, (s.perform (.assemble tokens b)).2.counter y =
        s.counter y + 2 * used.countP Token.makesEnds) ∧
      ((∃ t later, rest = t :: later ∧ Misfit (height used) t ∧
          (s.perform (.assemble tokens b)).1.answer =
            .error (.assembly (faultOf used.length t) tokens)) ∨
        (rest = [] ∧
          height used + used.countP Token.isBinary = used.countP Token.isOperand ∧
          ((s.perform (.assemble tokens b)).1.answer = .error (.assembly .noOperand tokens) ↔
            tokens = []) ∧
          (∀ k, (s.perform (.assemble tokens b)).1.answer =
              .error (.assembly (.leftOver k) tokens) ↔ k = height used ∧ 1 < k) ∧
          ((∃ x, (s.perform (.assemble tokens b)).1.answer = .ok (.value (.nfa x))) ↔
            tokens ≠ [] ∧ height used ≤ 1))) := by
  have all : (Command.assemble tokens b).mentions.all s.has = true := by
    cases b with
    | none => rfl
    | some y => simpa [Command.mentions, has] using there y rfl
  have performed : s.perform (.assemble tokens b) = s.assemble tokens b := if_pos all
  rw [performed]
  let c : Site := ⟨s.graph, (b.map s.counter).getD 0⟩
  rcases fitting_or_exists_misfit (Token.ofText tokens) with
    fits | ⟨used, t, later, split, fits, misfit⟩
  · obtain ⟨settled, counter⟩ := assemble_of_fitting fits c
    obtain ⟨counts, positive⟩ := height_of_fitting fits
    have empty : Token.ofText tokens = [] ↔ tokens = [] := List.map_eq_nil_iff
    have zero : height (Token.ofText tokens) = 0 ↔ tokens = [] := by
      rw [← empty]
      refine ⟨fun low => ?_, fun none => by rw [none]; rfl⟩
      by_contra some
      exact absurd (positive some) (by omega)
    refine ⟨Token.ofText tokens, [], (List.append_nil _).symm, fits,
      counter_of_site there counter, Or.inr ⟨rfl, counts, ?_⟩⟩
    rw [Ne, ← zero]
    -- the three heights exclude one another, as do the three answers
    rcases answer_of_settle settled with ⟨h, answer⟩ | ⟨h, x, answer⟩ | ⟨h, answer⟩
    · simp [answer, h]
    · simp [answer, h]
    · rw [answer]
      refine ⟨by simp; omega, fun k => ?_, by simp; omega⟩
      simp
      omega
  · obtain ⟨error, counter⟩ := assemble_of_misfit fits misfit c later
    rw [← split] at error counter
    exact ⟨used, t :: later, split, fits, counter_of_site there counter,
      Or.inl ⟨t, later, rfl, misfit, assemble_of_error error⟩⟩

theorem assemble_verdict_paren :
    let s : Session := { fresh false with builders := #[7] }
    let r := s.perform (.assemble "ab·)c".toList (some 0))
    (∀ y ∈ some 0, y < s.builders.size) ∧
      r.1.answer = .error (.assembly (.unknownOperator .rparen 3) "ab·)c".toList) ∧
      r.2.counter 0 = 11 := by
  intro s r
  have there : ∀ y ∈ some 0, y < s.builders.size := by
    rintro y ⟨⟩
    exact Nat.zero_lt_one
  have answered : r.1.answer = .error (.assembly (.unknownOperator .rparen 3) "ab·)c".toList) := by
    rfl
  obtain ⟨used, rest, split, fits, counter, ⟨t, later, rfl, -, answer⟩ | ⟨rfl, -⟩⟩ :=
    assemble_verdict s "ab·)c".toList (some 0) there
  · -- the answer names the position, which is how many tokens were used
    have fault := answered.symm.trans answer
    have place : 3 = used.length := by
      cases t <;> simp [faultOf] at fault
      exact fault
    have first : used = (Token.ofText "ab·)c".toList).take 3 := by
      rw [split, place, List.take_left]
    refine ⟨there, answered, ?_⟩
    rw [counter 0 rfl, first]
    rfl
  · -- the parenthesis is among the tokens
    rw [List.append_nil] at split
    exact absurd trivial (fits [.operand 'a', .operand 'b', .op (.binary .concat)] .rparen
      ⟨[.operand 'c'], split⟩)

end Session

end FiniteAutomata
