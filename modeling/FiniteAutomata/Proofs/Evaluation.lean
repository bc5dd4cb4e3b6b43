/-
  FiniteAutomata.Proofs.Evaluation

  Assembly as evaluation. Whenever tokens in postfix order make an automaton, they can also
  be evaluated on a stack of languages, and what is left is the language that the automaton
  accepts (`assemble_accepts_iff`). That assembly goes through is a matter of heights alone
  (`assembleFrom_outcome`), and evaluation keeps the same heights (`eval_of_heightFrom`).
-/
import FiniteAutomata.Proofs.Assembled
import FiniteAutomata.Proofs.Heights
import FiniteAutomata.Proofs.Views

namespace FiniteAutomata

open Computability

/-- An automaton of a language of letters accepts the texts of the language. -/
theorem Nfa.accepts_ofText_iff {n : Nfa} {g : Graph} {L : Language Char}
    (hL : n.language g = L.map Text.ofLetter) (w : Text) :
    n.accepts g (Word.ofText w) = true ↔ w ∈ L := by
  have injective : Function.Injective Text.ofLetter := fun _ _ h => List.singleton_injective h
  calc n.accepts g (Word.ofText w) = true
      ↔ w.map Text.ofLetter ∈ n.language g := by
        rw [Word.ofText_eq]
        rfl
    _ ↔ w ∈ L := by
        rw [hL]
        exact (List.map_injective_iff.mpr injective).mem_set_image

namespace Assembly

/-! ## Heights of stacks of languages -/

/-- Tokens that can be used on a stack of automata can be used on a stack of languages of the
    same height. -/
theorem eval_of_heightFrom {pos k : Nat} {langs : List (Language Char)} {tokens : List Token}
    (ok : heightFrom pos langs.length tokens = .ok k) :
    ∃ out, Pattern.eval langs tokens = some out ∧ out.length = k := by
  induction tokens generalizing pos langs with
  | nil =>
    cases ok
    exact ⟨langs, rfl, rfl⟩
  | cons t rest ih =>
    -- by the token and by how much of the stack it takes; a stack too low is no success
    match t, langs with
    | .operand x, langs =>
      have grown : heightFrom (pos + 1) (({[x]} : Language Char) :: langs).length rest = .ok k := ok
      exact ih grown
    | .op (.unary r), [] => cases ok
    | .op (.unary r), L :: langs =>
      rw [heightFrom, List.length_cons, if_pos (Nat.le_add_left 1 langs.length)] at ok
      have kept : heightFrom (pos + 1) (r.apply L :: langs).length rest = .ok k := ok
      exact ih kept
    | .op (.binary j), [] | .op (.binary j), [_] => cases ok
    | .op (.binary j), M :: L :: langs =>
      rw [heightFrom, List.length_cons, List.length_cons,
        if_pos (Nat.le_add_left 2 langs.length)] at ok
      have lowered : heightFrom (pos + 1) (j.apply L M :: langs).length rest = .ok k := ok
      exact ih lowered
    | .lparen, langs | .rparen, langs => cases ok

/-- An assembly that goes through leaves one automaton. -/
theorem heightFrom_of_assembleFrom {pos : Nat} {stack : List Nfa} {c d : Site}
    {tokens : List Token} {n : Nfa} (ok : assembleFrom pos stack c tokens = (.ok n, d)) :
    heightFrom pos stack.length tokens = .ok 1 := by
  have outcome := assembleFrom_outcome pos stack c tokens
  rw [ok] at outcome
  match heights : heightFrom pos stack.length tokens with
  | .error f =>
    rw [heights] at outcome
    cases outcome
  | .ok 0 =>
    rw [heights] at outcome
    cases outcome
  | .ok 1 => rfl
  | .ok (h + 2) =>
    rw [heights] at outcome
    cases outcome

/-- Tokens that make an automaton leave one language, and the automaton is one of it. -/
theorem exists_eval_of_assemble {c d : Site} {tokens : List Token} {n : Nfa}
    (ok : assemble tokens c = (.ok n, d)) :
    ∃ L, Pattern.eval [] tokens = some [L] ∧ n.Clean d.graph ∧
      n.language d.graph = L.map Text.ofLetter := by
  have one : heightFrom 0 ([] : List (Language Char)).length tokens = .ok 1 :=
    heightFrom_of_assembleFrom ok
  obtain ⟨out, he, single⟩ := eval_of_heightFrom one
  obtain ⟨L, rfl⟩ := List.length_eq_one_iff.mp single
  obtain ⟨m, e, same, clean, lang⟩ := assemble_of_eval c he
  rw [ok] at same
  cases same
  exact ⟨L, he, clean, lang⟩

end Assembly

/-! ## In a session -/

namespace Session

variable {s : Session} {tokens : Text} {b : Option BuilderId}

/-- The automaton that tokens make is added to the session. -/
theorem assemble_of_ok {n : Nfa} {c : Site}
    (ok : Assembly.assemble (Token.ofText tokens) ⟨s.graph, (b.map s.counter).getD 0⟩ =
      (.ok n, c)) :
    (s.assemble tokens b).1.answer = .ok (.value (.nfa (s.takeOver b c).nfas.size)) ∧
      (s.assemble tokens b).2.graph = c.graph ∧
      (s.assemble tokens b).2.nfa (s.takeOver b c).nfas.size = n := by
  have graph : (s.takeOver b c).graph = c.graph := by cases b <;> rfl
  unfold assemble
  simp only [ok]
  rw [← graph]
  exact announce_eq (s.takeOver b c) n tokens

/-- Only an assembly that goes through is answered. -/
theorem exists_of_assemble {a : Answer} (answered : (s.assemble tokens b).1.answer = .ok a) :
    ∃ n c, Assembly.assemble (Token.ofText tokens) ⟨s.graph, (b.map s.counter).getD 0⟩ =
      (.ok n, c) := by
  match ok : Assembly.assemble (Token.ofText tokens) ⟨s.graph, (b.map s.counter).getD 0⟩ with
  | (.ok n, c) => exact ⟨n, c, rfl⟩
  | (.error f, c) =>
    unfold assemble at answered
    simp only [ok] at answered
    cases answered

/-- Whatever tokens are answered with an automaton, they leave one language when they are
    evaluated on a stack of languages, and the automaton accepts the texts of that language. -/
theorem assemble_accepts_iff (s : Session) (tokens : Text) (b : Option BuilderId) {a : Answer}
    (answered : (s.assemble tokens b).1.answer = .ok a) :
    ∃ x L, a = .value (.nfa x) ∧ Pattern.eval [] (Token.ofText tokens) = some [L] ∧
      ∀ w : Text, (s.assemble tokens b).2.accepts (.nfa x) (Word.ofText w) = true ↔ w ∈ L := by
  obtain ⟨n, c, ok⟩ := exists_of_assemble answered
  obtain ⟨answer, graph, nfa⟩ := assemble_of_ok ok
  obtain ⟨L, he, -, lang⟩ := Assembly.exists_eval_of_assemble ok
  refine ⟨_, L, Except.ok.inj (answered.symm.trans answer), he, fun w => ?_⟩
  rw [← graph, ← nfa] at lang
  exact Nfa.accepts_ofText_iff lang w

theorem assemble_accepts_iff_nested :
    let s : Session := { fresh false with builders := #[7] }
    (s.assemble "ab·c|*".toList (some 0)).1.answer = .ok (.value (.nfa 0)) ∧
      ∀ w : Text, (s.assemble "ab·c|*".toList (some 0)).2.accepts (.nfa 0) (Word.ofText w) = true ↔
        w ∈ (({['a']} * {['b']} + {['c']})∗ : Language Char) := by
  intro s
  have answered : (s.assemble "ab·c|*".toList (some 0)).1.answer = .ok (.value (.nfa 0)) := by
    rfl
  obtain ⟨x, L, same, he, accepts⟩ := assemble_accepts_iff s "ab·c|*".toList (some 0) answered
  cases same
  cases he
  exact ⟨answered, accepts⟩

end Session

end FiniteAutomata
