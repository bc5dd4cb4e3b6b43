/-
  FiniteAutomata.Proofs.Compiled

  Derived patterns compile to automata of their language. The tokens of a tree in postfix
  form leave the language of the tree on a stack (`eval_post`): the repetitions behind one
  atom come in another order, but those that change places may do so.
-/
import FiniteAutomata.Proofs.Arrangement
import FiniteAutomata.Proofs.Assembled
import FiniteAutomata.Proofs.Balance
import FiniteAutomata.Proofs.Views

namespace FiniteAutomata

/-! ## The language of a postfix form -/

namespace Repetition

variable {α : Type}

/-- Repetitions that are once or more often may all be exchanged with one other. -/
theorem foldl_apply_comm (r : Repetition) {signs : List Repetition} (h : ∀ q ∈ signs, q = plus)
    (L : Language α) : signs.foldl (fun L q => q.apply L) (r.apply L) =
      r.apply (signs.foldl (fun L q => q.apply L) L) := by
  induction signs generalizing L with
  | nil => rfl
  | cons q signs ih =>
    obtain rfl := h q List.mem_cons_self
    rw [List.foldl_cons, List.foldl_cons, apply_plus_comm]
    exact ih (fun p hp => h p (List.mem_cons_of_mem _ hp)) (plus.apply L)

/-- The new order of the repetitions behind an atom does not change the language. -/
theorem foldl_apply_reordered (run : List Repetition) (L : Language α) :
    (reordered run).foldl (fun L r => r.apply L) L = run.foldl (fun L r => r.apply L) L := by
  induction run using reordered.induct generalizing L with
  | case1 => rw [reordered]
  | case2 run ih => rw [reordered, List.foldl_cons, List.foldl_cons, ih]
  | case3 r run hr ih =>
    have signs : ∀ q ∈ run.takeWhile (· = plus), q = plus := by
      intro q hq
      exact of_decide_eq_true (List.all_eq_true.mp List.all_takeWhile q hq)
    -- The signs that moved before `r` are put back behind it.
    calc (reordered (r :: run)).foldl (fun L r => r.apply L) L
        = (run.dropWhile (· = plus)).foldl (fun L r => r.apply L)
            (r.apply ((run.takeWhile (· = plus)).foldl (fun L r => r.apply L) L)) := by
          rw [reordered.eq_3 _ _ hr, List.foldl_append, List.foldl_cons, ih]
      _ = (run.dropWhile (· = plus)).foldl (fun L r => r.apply L)
            ((run.takeWhile (· = plus)).foldl (fun L r => r.apply L) (r.apply L)) := by
          rw [foldl_apply_comm r signs]
      _ = (r :: run).foldl (fun L r => r.apply L) L := by
          rw [← List.foldl_append, List.takeWhile_append_dropWhile, List.foldl_cons]

end Repetition

namespace Pattern

theorem eval_run (run : List Repetition) (L : Language Char) (stack : List (Language Char)) :
    eval (L :: stack) (run.map fun r => .op (.unary r)) =
      some (run.foldl (fun L r => r.apply L) L :: stack) := by
  induction run generalizing L with
  | nil => rfl
  | cons r run ih => exact ih (r.apply L)

/-- The postfix form of two parts that are joined. -/
theorem eval_joined (j : Connective) {u v : List Token} {L M : Language Char}
    {stack : List (Language Char)} (hu : eval stack u = some (L :: stack))
    (hv : eval (L :: stack) v = some (M :: L :: stack)) :
    eval stack (u ++ v ++ [.op (.binary j)]) = some (j.apply L M :: stack) := by
  rw [eval_append, eval_append, hu, Option.bind_some, hv]
  rfl

/-- The postfix form of a tree leaves the language of the tree. -/
theorem eval_post {l : Level} (t : Tree l) (stack : List (Language Char)) :
    eval stack t.post = some (t.lang :: stack) := by
  induction t using Tree.inductRuns generalizing stack with
  | ofTerm t ih | ofFactor f ih => rw [Tree.post, Tree.lang, ih]
  | union e t ihe iht =>
    rw [Tree.post, Tree.lang]
    exact eval_joined .union (ihe stack) (iht _)
  | juxtaposed t f iht ihf =>
    rw [Tree.post, Tree.lang]
    exact eval_joined .concat (iht stack) (ihf _)
  | joined t f iht ihf =>
    rw [Tree.post, Tree.lang]
    exact eval_joined .concat (iht stack) (ihf _)
  | factor f ih =>
    -- the only place where text and postfix form differ in order
    rw [Tree.post_factor, Tree.lang_factor, eval_append, ih, Option.bind_some, eval_run,
      Repetition.foldl_apply_reordered]
  | operand x hx =>
    rw [Tree.post, Tree.lang]
    rfl
  | group e ih => rw [Tree.post, Tree.lang, ih]

end Pattern

/-! ## Compiling in a session -/

namespace Session

variable {s : Session} {pattern : Text} {out : List Token}

/-- A pattern whose parentheses do not match is refused for that. -/
theorem compile_of_imbalance {i : Imbalance}
    (h : Pattern.toPostfix (Token.ofText pattern) = .error i) :
    (s.compile pattern).1.answer = .error (.imbalance i pattern) := by
  unfold compile arrange
  rw [h]

/-- A pattern whose postfix form makes no automaton is refused for that. -/
theorem compile_of_error {f : AssemblyFault}
    (h : Pattern.toPostfix (Token.ofText pattern) = .ok out)
    (error : (Assembly.assemble out ⟨s.graph, 0⟩).1 = .error f) :
    (s.compile pattern).1.answer = .error (.assembly f (Token.toText out)) := by
  have read := Pattern.ofText_toText_of_toPostfix h
  unfold compile arrange assemble
  simp only [h, read, Option.map_none, Option.getD_none, error]
  rfl

/-- A pattern whose postfix form makes an automaton compiles to it. -/
theorem compile_of_ok {n : Nfa} {c : Site}
    (h : Pattern.toPostfix (Token.ofText pattern) = .ok out)
    (ok : Assembly.assemble out ⟨s.graph, 0⟩ = (.ok n, c)) :
    (s.compile pattern).1.answer = .ok (.value (.nfa s.nfas.size)) ∧
      (s.compile pattern).2.graph = c.graph ∧
      (s.compile pattern).2.nfa s.nfas.size = n := by
  have read := Pattern.ofText_toText_of_toPostfix h
  unfold compile arrange assemble
  simp only [h, read, Option.map_none, Option.getD_none, ok]
  exact announce_eq (s.takeOver none c) n (Token.toText out)

/-- A derived pattern compiles to a clean automaton of its language. -/
theorem compile_text (s : Session) (e : Pattern.Tree .expr) :
    (s.compile e.text).1.answer = .ok (.value (.nfa s.nfas.size)) ∧
      ((s.compile e.text).2.nfa s.nfas.size).language (s.compile e.text).2.graph =
        e.lang.map Text.ofLetter := by
  obtain ⟨n, c, ok, -, lang⟩ := Assembly.assemble_of_eval ⟨s.graph, 0⟩ (Pattern.eval_post e [])
  obtain ⟨answer, graph, nfa⟩ := compile_of_ok (Pattern.toPostfix_text e) ok
  refine ⟨answer, ?_⟩
  rw [graph, nfa, lang]

/-- A derived pattern compiles, and the automaton accepts a text just if the text is in the
    language of the tree of the pattern. -/
theorem compile_accepts_iff (s : Session) (e : Pattern.Tree .expr) :
    ∃ x, (s.compile e.text).1.answer = .ok (.value (.nfa x)) ∧
      ∀ w : Text,
        (s.compile e.text).2.accepts (.nfa x) (Word.ofText w) = true ↔ w ∈ e.lang := by
  obtain ⟨answer, lang⟩ := compile_text s e
  refine ⟨s.nfas.size, answer, fun w => ?_⟩
  -- The automaton reads symbols, the tree has letters; a letter is a symbol of its own.
  have letters : (fun c => [c]) = Text.ofLetter := rfl
  have injective : Function.Injective Text.ofLetter := by
    intro x y hxy
    exact List.singleton_injective hxy
  calc (s.compile e.text).2.accepts (.nfa s.nfas.size) (Word.ofText w) = true
      ↔ w.map Text.ofLetter ∈ e.lang.map Text.ofLetter := by
        rw [← lang, Word.ofText_eq, letters]
        rfl
    _ ↔ w ∈ e.lang := (List.map_injective_iff.mpr injective).mem_set_image

end Session

end FiniteAutomata
