/-
  FiniteAutomata.Proofs.Growth

  Assembly step by step, and how far it brings the graph and the counter, whether it goes
  through or not. `Step` says what one token does to the waiting automata and to the site;
  `exists_run` says that every assembly is a run of such steps over the tokens that could be
  used, and over all of them if it goes through.

  Every step adds as many states as its token needs (`Token.stateCount`), with the next
  numbers, and leaves the numbers of all others alone (`Run.grows`).
-/
import FiniteAutomata.Nfa.Assembly
import FiniteAutomata.Proofs.Rules

namespace FiniteAutomata

namespace Graph

@[simp] theorem num_addEpsilon (g : Graph) (src dest q : StateId) :
    (g.addEpsilon src dest).num q = g.num q := num_addEdge g src .epsilon dest q

end Graph

/-- How many states the assembly makes for a token. A mark of concatenation links what is
    there. -/
def Token.stateCount : Token → Nat
  | .op (.binary .concat) => 0
  | _ => 2

/-! ## New states and their numbers -/

namespace Site

/-- Between two sites, `fresh` states were added with the next numbers, and the states that
    were there kept theirs. -/
structure Grows (c d : Site) (fresh : Nat) : Prop where
  size : d.graph.size = c.graph.size + fresh
  counter : d.counter = c.counter + fresh
  num_old : ∀ q < c.graph.size, d.graph.num q = c.graph.num q
  num_new : ∀ i < fresh, d.graph.num (c.graph.size + i) = ((c.counter + i : Nat) : Int)

namespace Grows

variable {c d e : Site} {m k : Nat}

theorem refl (c : Site) : Grows c c 0 where
  size := rfl
  counter := rfl
  num_old _ _ := rfl
  num_new i hi := absurd hi (Nat.not_lt_zero i)

theorem trans (h : Grows c d m) (h' : Grows d e k) : Grows c e (m + k) where
  size := by rw [h'.size, h.size, Nat.add_assoc]
  counter := by rw [h'.counter, h.counter, Nat.add_assoc]
  num_old q hq := by
    have hd : q < d.graph.size := by rw [h.size]; exact Nat.lt_add_right m hq
    rw [h'.num_old q hd, h.num_old q hq]
  num_new i hi := by
    by_cases him : i < m
    · have hd : c.graph.size + i < d.graph.size := by rw [h.size]; omega
      rw [h'.num_old _ hd, h.num_new i him]
    · -- the later states, seen from the site in between
      have place : c.graph.size + i = d.graph.size + (i - m) := by rw [h.size]; omega
      have number : d.counter + (i - m) = c.counter + i := by rw [h.counter]; omega
      rw [place, h'.num_new (i - m) (by omega), number]

/-- Changes that neither add states nor touch numbers. -/
theorem keep {d' : Site} (h : Grows c d m) (size : d'.graph.size = d.graph.size)
    (counter : d'.counter = d.counter) (num : ∀ q, d'.graph.num q = d.graph.num q) :
    Grows c d' m where
  size := size.trans h.size
  counter := counter.trans h.counter
  num_old q hq := (num q).trans (h.num_old q hq)
  num_new i hi := (num _).trans (h.num_new i hi)

theorem le_size (h : Grows c d m) : c.graph.size ≤ d.graph.size := by
  rw [h.size]
  exact Nat.le_add_right _ m

end Grows

theorem grows_newState (c : Site) (a : Bool) : Grows c (c.newState a).2 1 where
  size := Graph.size_addState _ _ _
  counter := rfl
  num_old q hq := by
    show (c.graph.addState c.counter a).num q = _
    rw [Graph.num_addState, if_neg (Nat.ne_of_lt hq)]
  num_new i hi := by
    obtain rfl : i = 0 := Nat.lt_one_iff.mp hi
    show (c.graph.addState c.counter a).num c.graph.size = _
    rw [Graph.num_addState, if_pos rfl]
    rfl

theorem grows_newEnds (c : Site) : Grows c c.newEnds.2 2 :=
  (grows_newState c false).trans (grows_newState _ true)

theorem grows_symbol (t : Text) (c : Site) : Grows c (c.symbol t).2 2 :=
  (grows_newEnds c).keep (by simp) rfl (by simp [symbol, Site.modify])

theorem grows_concat (x y : Nfa) (c : Site) : Grows c (c.concat x y).2 0 :=
  (Grows.refl c).keep (by simp) rfl (by simp [concat, Site.modify])

theorem grows_choice (x y : Nfa) (c : Site) : Grows c (c.choice x y).2 2 :=
  (grows_newEnds c).keep (by simp) rfl (by simp [choice, Site.modify, enclose])

theorem grows_repetition (r : Repetition) (x : Nfa) (c : Site) :
    Grows c (c.repetition r x).2 2 := by
  refine (grows_newEnds c).keep (by simp) rfl fun q => ?_
  cases r <;> simp [repetition, Site.modify, Repetition.allowsNone, Repetition.allowsMany]

theorem grows_join (j : Connective) (x y : Nfa) (c : Site) :
    Grows c (c.join j x y).2 (Token.stateCount (.op (.binary j))) := by
  cases j with
  | union => exact grows_choice x y c
  | concat => exact grows_concat x y c

end Site

/-! ## Assembly as a run of steps -/

namespace Assembly

/-- What a token that can be used does to the waiting automata and to the site. -/
inductive Step : Token → List Nfa → Site → List Nfa → Site → Prop
  | operand (x : Char) (stack : List Nfa) (c : Site) :
      Step (.operand x) stack c ((c.symbol [x]).1 :: stack) (c.symbol [x]).2
  | unary (r : Repetition) (x : Nfa) (stack : List Nfa) (c : Site) :
      Step (.op (.unary r)) (x :: stack) c ((c.repetition r x).1 :: stack) (c.repetition r x).2
  | binary (j : Connective) (x y : Nfa) (stack : List Nfa) (c : Site) :
      Step (.op (.binary j)) (y :: x :: stack) c ((c.join j x y).1 :: stack) (c.join j x y).2

/-- Steps for tokens one after the other. -/
inductive Run : List Token → List Nfa → Site → List Nfa → Site → Prop
  | nil (stack : List Nfa) (c : Site) : Run [] stack c stack c
  | cons {t : Token} {rest : List Token} {stack mid out : List Nfa} {c d e : Site} :
      Step t stack c mid d → Run rest mid d out e → Run (t :: rest) stack c out e

/-- An assembly of tokens comes to its result by a run over the tokens before the first that
    cannot be used. If it goes through, it has used all tokens, and one automaton is left. -/
def ComesTo (tokens : List Token) (stack : List Nfa) (c : Site)
    (result : Except AssemblyFault Nfa × Site) : Prop :=
  ∃ used out, used <+: tokens ∧ Run used stack c out result.2 ∧
    ∀ n, result.1 = .ok n → used = tokens ∧ out = [n]

namespace ComesTo

variable {t : Token} {tokens rest : List Token} {stack mid : List Nfa} {c d : Site}
  {result : Except AssemblyFault Nfa × Site}

theorem step (h : Step t stack c mid d) (k : ComesTo rest mid d result) :
    ComesTo (t :: rest) stack c result := by
  obtain ⟨used, out, sub, run, ok⟩ := k
  refine ⟨t :: used, out, List.cons_prefix_cons.mpr ⟨rfl, sub⟩, .cons h run, fun n hn => ?_⟩
  obtain ⟨rfl, rfl⟩ := ok n hn
  exact ⟨rfl, rfl⟩

theorem fault (f : AssemblyFault) : ComesTo tokens stack c (.error f, c) :=
  ⟨[], stack, List.nil_prefix, .nil stack c, fun n hn => by cases hn⟩

end ComesTo

theorem comesTo (pos : Nat) (stack : List Nfa) (c : Site) (tokens : List Token) :
    ComesTo tokens stack c (assembleFrom pos stack c tokens) := by
  induction tokens generalizing pos stack c with
  | nil =>
    match stack with
    | [n] =>
      refine ⟨[], [n], List.nil_prefix, .nil [n] c, fun m hm => ?_⟩
      cases hm
      exact ⟨rfl, rfl⟩
    | [] | _ :: _ :: _ => exact .fault _
  | cons t rest ih =>
    match t, stack with
    | .operand x, stack => exact .step (.operand x stack c) (ih _ _ _)
    | .op (.unary r), x :: stack => exact .step (.unary r x stack c) (ih _ _ _)
    | .op (.binary j), y :: x :: stack => exact .step (.binary j x y stack c) (ih _ _ _)
    | .op (.unary r), [] => exact .fault _
    | .op (.binary j), [] | .op (.binary j), [_] => exact .fault _
    | .lparen, stack | .rparen, stack => exact .fault _

/-! ## How far a run comes -/

variable {t : Token} {tokens : List Token} {stack out : List Nfa} {c d : Site}

theorem Step.grows (h : Step t stack c out d) : Site.Grows c d t.stateCount := by
  cases h with
  | operand x stack c => exact Site.grows_symbol [x] c
  | unary r x stack c => exact Site.grows_repetition r x c
  | binary j x y stack c => exact Site.grows_join j x y c

/-- A run adds two states for every token that is no mark of concatenation, one after the
    other. -/
theorem Run.grows (h : Run tokens stack c out d) :
    Site.Grows c d (2 * tokens.countP (fun t => t ≠ .op (.binary .concat))) := by
  induction h with
  | nil stack c => exact .refl c
  | @cons t rest _ _ _ _ _ _ step _ ih =>
    have first : t.stateCount = 2 * if decide (t ≠ .op (.binary .concat)) = true then 1 else 0 := by
      by_cases ht : t = .op (.binary .concat)
      · rw [ht]
        rfl
      · rw [Token.stateCount.eq_2 t ht, if_pos (decide_eq_true ht)]
    rw [List.countP_cons, Nat.mul_add, ← first, Nat.add_comm]
    exact step.grows.trans ih

end Assembly

end FiniteAutomata
