/-
  FiniteAutomata.Proofs.Composition

  The laws of the rules of construction, for automata of a session. The operands may be any
  clean automata without a common state, compiled or put together by hand: what a rule makes
  is clean again, and its language is that of the rule (`makes_languages`).

  For single automata, cleanness can be checked on a part of the graph that no edge leaves
  and that holds the initial state (`Clean.of_part`); automata with such parts of their own
  have no common state (`Apart.of_parts`).
-/
import FiniteAutomata.Proofs.Laws
import FiniteAutomata.Proofs.Views

namespace FiniteAutomata

open Computability

/-! ## Parts that no edge leaves -/

namespace Graph

/-- No edge leads out of a part of the graph. -/
def Closed (g : Graph) (part : List StateId) : Prop :=
  ∀ p ∈ part, ∀ e ∈ g.edges p, e.dest ∈ part

instance (g : Graph) (part : List StateId) : Decidable (g.Closed part) :=
  inferInstanceAs (Decidable (∀ p ∈ part, ∀ e ∈ g.edges p, e.dest ∈ part))

theorem Reaches.mem_of_closed {g : Graph} {part : List StateId} {s q : StateId}
    (h : g.Reaches s q) (closed : g.Closed part) (hs : s ∈ part) : q ∈ part :=
  h.induct hs fun _ hp he => closed _ hp _ he

end Graph

namespace Nfa

variable {g : Graph} {n m : Nfa} {part other : List StateId}

/-- An automaton is clean if its final state is the only accepting one of a closed part. -/
theorem Clean.of_part (closed : g.Closed part) (initial : n.initial ∈ part)
    (initial_lt : n.initial < g.size) (final : g.accepting n.final = true)
    (only : ∀ q ∈ part, g.accepting q = true → q = n.final) : n.Clean g where
  initial_lt := initial_lt
  final_accepting := final
  only_final q hq := only q (hq.mem_of_closed closed initial)

theorem Holds.mem_of_closed {q : StateId} (h : n.Holds g q) (closed : g.Closed part)
    (initial : n.initial ∈ part) (final : n.final ∈ part) : q ∈ part := by
  rcases h with hq | rfl
  · exact hq.mem_of_closed closed initial
  · exact final

/-- Automata in closed parts without a common state have none either. -/
theorem Apart.of_parts (closed : g.Closed part) (closed' : g.Closed other)
    (hn : n.initial ∈ part ∧ n.final ∈ part) (hm : m.initial ∈ other ∧ m.final ∈ other)
    (disjoint : ∀ q ∈ part, q ∉ other) : Apart g n m := by
  intro q hq hq'
  exact disjoint q (hq.mem_of_closed closed hn.1 hn.2) (hq'.mem_of_closed closed' hm.1 hm.2)

end Nfa

/-! ## The rules in a session -/

namespace Session

/-- The words of symbols that an automaton accepts. -/
def language (s : Session) (x : NfaId) : Language Text := (s.nfa x).language s.graph

/-- What is made is a clean automaton of a language. -/
def Makes (s : Session) (m : Maker) (L : Language Text) : Prop :=
  ∃ z, (m.make s).1 = .nfa z ∧ ((m.make s).2.nfa z).Clean (m.make s).2.graph ∧
    (m.make s).2.language z = L

/-- A rule of construction is used on the shared graph, and its automaton is added. -/
theorem makes_of_rule {s : Session} {b : BuilderId} {m : Maker} {L : Language Text}
    {rule : Site → Nfa × Site} (build : m.make s = Maker.build s b rule)
    (clean : (rule (s.siteOf b)).1.Clean (rule (s.siteOf b)).2.graph)
    (lang : (rule (s.siteOf b)).1.language (rule (s.siteOf b)).2.graph = L) :
    s.Makes m L := by
  have added : (Maker.build s b rule).2.nfa s.nfas.size = (rule (s.siteOf b)).1 :=
    nfa_addNfa (s.leaveSite b (rule (s.siteOf b)).2) _
  refine ⟨s.nfas.size, ?_, ?_, ?_⟩
  · rw [build]
    rfl
  · rw [build, added]
    exact clean
  · rw [language, build, added]
    exact lang

section

variable (s : Session) (b : BuilderId) {x y : NfaId} (hx : (s.nfa x).Clean s.graph)

include hx

theorem makes_repetition (r : Repetition) :
    s.Makes (.repetition b r x) (r.apply (s.language x)) :=
  makes_of_rule (b := b) rfl (Site.yields_repetition (c := s.siteOf b) r hx).clean
    (Site.language_repetition (c := s.siteOf b) r hx)

theorem makes_join (j : Connective) (hy : (s.nfa y).Clean s.graph)
    (apart : Nfa.Apart s.graph (s.nfa x) (s.nfa y)) :
    s.Makes (.join b j x y) (j.apply (s.language x) (s.language y)) :=
  makes_of_rule (b := b) rfl (Site.yields_join (c := s.siteOf b) j hx hy apart).clean
    (Site.language_join (c := s.siteOf b) j hx hy apart)

/-- The laws of the five rules: a repetition of a clean automaton, and a connective of two
    clean ones without a common state, make clean automata of the languages in question. -/
theorem makes_languages :
    s.Makes (.repetition b .star x) (s.language x)∗ ∧
    s.Makes (.repetition b .plus x) (s.language x * (s.language x)∗) ∧
    s.Makes (.repetition b .question x) (s.language x + 1) ∧
    ∀ y, (s.nfa y).Clean s.graph → Nfa.Apart s.graph (s.nfa x) (s.nfa y) →
      s.Makes (.join b .concat x y) (s.language x * s.language y) ∧
      s.Makes (.join b .union x y) (s.language x + s.language y) := by
  refine ⟨makes_repetition s b hx .star, makes_repetition s b hx .plus, ?_, fun y hy apart =>
    ⟨makes_join s b hx .concat hy apart, makes_join s b hx .union hy apart⟩⟩
  rw [add_comm]
  exact makes_repetition s b hx .question

end

/-- The first automaton loops at its only state; in the second, edges leave the final state
    and come back to the initial one. -/
theorem makes_languages_loops :
    let s : Session :=
      { fresh false with
        graph := ((((((Graph.empty.addState 0 true).addState 1 false).addState 2 true).addEdge
          0 (.text ['a']) 0).addEdge 1 (.text ['b']) 2).addEdge 2 (.text ['c']) 1)
        nfas := #[⟨⟨0, 0⟩, none, none⟩, ⟨⟨1, 2⟩, none, none⟩]
        builders := #[3] }
    (s.nfa 0).Clean s.graph ∧ (s.nfa 1).Clean s.graph ∧
      Nfa.Apart s.graph (s.nfa 0) (s.nfa 1) ∧
      s.Makes (.repetition 0 .star 0) (s.language 0)∗ ∧
      s.Makes (.repetition 0 .plus 0) (s.language 0 * (s.language 0)∗) ∧
      s.Makes (.repetition 0 .question 0) (s.language 0 + 1) ∧
      s.Makes (.join 0 .concat 0 1) (s.language 0 * s.language 1) ∧
      s.Makes (.join 0 .union 0 1) (s.language 0 + s.language 1) := by
  intro s
  have loop : s.graph.Closed [0] := by decide
  have round : s.graph.Closed [1, 2] := by decide
  have first : (s.nfa 0).Clean s.graph :=
    .of_part loop (by decide) (by decide) (by decide) (by decide)
  have second : (s.nfa 1).Clean s.graph :=
    .of_part round (by decide) (by decide) (by decide) (by decide)
  have apart : Nfa.Apart s.graph (s.nfa 0) (s.nfa 1) :=
    .of_parts loop round (by decide) (by decide) (by decide)
  obtain ⟨star, plus, question, joins⟩ := makes_languages s 0 first
  exact ⟨first, second, apart, star, plus, question, joins 1 second apart⟩

end Session

end FiniteAutomata
