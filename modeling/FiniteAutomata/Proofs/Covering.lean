/-
  FiniteAutomata.Proofs.Covering

  The texts of an automaton, and those of the deterministic one over an alphabet that covers it:
  the alphabet has every symbol that the automaton can come to read, and maybe others. The
  search from cell to cell goes along with the search with live sets. A cell has the whole
  alphabet on offer; but a symbol that is not on offer at the live set leads to the dead cell,
  where nothing is listed (`Subset.follows`).

  The symbols may have any length but none. So one text may be read in several ways, and it is
  listed once for each way; a text may also end beyond the length bound. The lists still agree
  text by text (`determinize_texts`).
-/
import FiniteAutomata.Proofs.Isomorphism

namespace FiniteAutomata

/-- The alphabet has every symbol that the automaton can come to read. -/
def Nfa.Covered (n : Nfa) (g : Graph) (alphabet : SortedSet Text) : Prop :=
  ∀ q, g.Reaches n.initial q → ∀ t d, ⟨.text t, d⟩ ∈ g.edges q → t ∈ alphabet

namespace Subset

variable {n : Nfa} {g : Graph} {alphabet : SortedSet Text} {live : StateSet}

/-- What is on offer at a live set is in the alphabet. -/
theorem mem_of_mem_liveLabels (covered : n.Covered g alphabet)
    (hl : live ∈ liveSets g alphabet (n.start g)) {t : Text} (ht : t ∈ g.liveLabels live) :
    t ∈ alphabet := by
  obtain ⟨q, hq, offered⟩ := Graph.mem_liveLabels.mp ht
  obtain ⟨d, he⟩ := Graph.mem_labels.mp offered
  exact covered q (within_of_mem_liveSets hl q hq) t d he

/-- A symbol leads on from a live set just if it is on offer there. -/
theorem isEmpty_step_eq_false_iff {t : Text} :
    (g.step live (.text t)).isEmpty = false ↔ t ∈ g.liveLabels live := by
  rw [SortedSet.isEmpty_eq_false_iff]
  constructor
  · rintro ⟨q, hq⟩
    obtain ⟨p, hp, d, he, -⟩ := Graph.exists_of_mem_step hq
    exact Graph.mem_liveLabels.mpr ⟨p, hp, Graph.mem_labels.mpr ⟨d, he⟩⟩
  · intro ht
    obtain ⟨p, hp, offered⟩ := Graph.mem_liveLabels.mp ht
    obtain ⟨d, he⟩ := Graph.mem_labels.mp offered
    exact ⟨d, Graph.mem_closure_iff_path.mpr ⟨d, Graph.mem_move.mpr ⟨p, hp, he⟩, .nil d⟩⟩

/-- Nothing is listed from the cell of the empty live set. -/
theorem barren_placeOf {i : CellId} {cells : Cells} (hl : live ∈ liveSets g alphabet (n.start g))
    (dead : live.isEmpty = true) :
    ((determinize n g alphabet cells).2.machine i).Barren (placeOf n g alphabet cells live) where
  final := (accepting_placeOf cells hl).trans (isFinal_of_isEmpty dead)
  labels := by
    intro t ht
    rw [((mem_labels_placeOf hl).mp ht).1] at dead
    cases dead

/-- The search from cell to cell goes along with the search with live sets. -/
theorem follows (covered : n.Covered g alphabet) (cells : Cells) : (n.machine g).Follows
    ((determinize n g alphabet cells).1.machine (determinize n g alphabet cells).2)
    (· ∈ liveSets g alphabet (n.start g)) (placeOf n g alphabet cells) where
  stays := by
    intro live t next hl offered hnext
    obtain ⟨-, rfl⟩ := Graph.next_machine_eq_some_iff.mp hnext
    exact step_mem_liveSets hl (mem_of_mem_liveLabels covered hl offered)
  final := fun hl => accepting_placeOf cells hl
  labels := by
    intro live t hl offered
    obtain ⟨q, hq, -⟩ := Graph.mem_liveLabels.mp offered
    refine (mem_labels_placeOf hl).mpr ⟨?_, mem_of_mem_liveLabels covered hl offered⟩
    exact SortedSet.isEmpty_eq_false_iff.mpr ⟨q, hq⟩
  next := by
    intro live t hl offered
    have alive := isEmpty_step_eq_false_iff.mpr offered
    have on : (n.machine g).next live (.text t) = some (g.step live (.text t)) :=
      Graph.next_machine_eq_some_iff.mpr ⟨alive, rfl⟩
    rw [on]
    exact next_placeOf hl (mem_of_mem_liveLabels covered hl offered)
  more := by
    intro live t c hl offered only hnext
    have known := ((mem_labels_placeOf hl).mp offered).2
    have next : ((determinize n g alphabet cells).2.get (placeOf n g alphabet cells live)).next
      (.text t) = some c := hnext
    rw [next_placeOf hl known] at next
    obtain rfl := Option.some.inj next
    refine barren_placeOf (step_mem_liveSets hl known) ?_
    by_contra alive
    exact only (isEmpty_step_eq_false_iff.mp (Bool.not_eq_true _ ▸ alive))

end Subset

namespace Session

/-- Made deterministic over an alphabet that covers it and has no empty symbol, an automaton
    lists the same texts, in the same order and as often; both searches end. That holds for every
    length bound and every text that is read already. -/
theorem determinize_texts (s : Session) (x : NfaId) (alphabet : Option (List Label))
    (covered : (s.nfa x).Covered s.graph (s.alphabetFor x alphabet).1)
    (nonempty : [] ∉ (s.alphabetFor x alphabet).1) (maxlen : Int) (sofar : Text) :
    ∃ out y r d, (s.determinize x alphabet).1.answer = .ok (.value (.dfa y)) ∧
      r = (s.determinize x alphabet).2 ∧ d = r.dfa y ∧
      (∀ given ∈ alphabet, ∀ t, t ∈ d.alphabet ↔ .text t ∈ given) ∧
      ((s.nfa x).machine s.graph).Lists maxlen ((s.nfa x).start s.graph) sofar out ∧
      (d.machine r.cells).Lists maxlen d.initial sofar out ∧
      ∀ limit,
        (Question.texts (.nfa x) maxlen sofar limit none).answer s = .texts (out.take limit) ∧
        (Question.texts (.nfa x) maxlen sofar limit none).answer r = .texts (out.take limit) ∧
        (Question.texts (.dfa y) maxlen sofar limit none).answer r = .texts (out.take limit) := by
  obtain ⟨answer, cells, dfa, graph, nfa⟩ := determinize_over s x alphabet
  -- No symbol that the automaton reads is empty, so its search ends.
  have adv := Nfa.advances_machine fun q hq d he => nonempty (covered q hq [] d he)
  have within := Nfa.within_start (s.nfa x) s.graph
  obtain ⟨out, lists⟩ : ∃ out, ((s.nfa x).machine s.graph).Lists maxlen
      ((s.nfa x).start s.graph) sofar out :=
    ⟨_, adv.lists within (Machine.le_length_add_depthFor maxlen 0 sofar)⟩
  have drawn := adv.takeTexts_eq within lists
  -- The other search goes along, from the cell of the first live set.
  have start := Subset.start_mem_liveSets (s.nfa x) s.graph (s.alphabetFor x alphabet).1
  have listed := (Subset.follows covered s.cells).lists start lists
  rw [← Subset.initial_eq_placeOf] at listed
  have drawn' := (Subset.advances_machine nonempty).takeTexts_eq Subset.exists_initial_eq_placeOf
    listed
  rw [← cells, ← dfa] at listed drawn'
  refine ⟨out, _, _, _, answer, rfl, rfl, ?_, lists, listed, fun limit => ⟨?_, ?_, ?_⟩⟩
  · rintro given rfl t
    rw [dfa]
    exact Subset.mem_symbols
  · exact congrArg Answer.texts (drawn _ limit)
  · show Answer.texts (((s.determinize x alphabet).2.graph.machine
      (((s.determinize x alphabet).2.nfa x).start (s.determinize x alphabet).2.graph)).takeTexts
        _ _ _ _ _) = _
    rw [graph, nfa]
    exact congrArg Answer.texts (drawn _ limit)
  · exact congrArg Answer.texts (drawn' _ limit)

/-- The automaton reads `abcd` in two ways, with one of them across the length bound; the alphabet
    has a symbol more. -/
theorem determinize_texts_twice :
    let s : Session :=
      { fresh false with
        graph := (((((((Graph.empty.addState 0 false).addState 1 false).addState 2 false).addState
          3 true).addEdge 0 (.text ['a', 'b']) 1).addEdge 1 (.text ['c', 'd']) 3).addEdge
            0 (.text ['a']) 2).addEdge 2 (.text ['b', 'c', 'd']) 3
        nfas := #[⟨⟨0, 3⟩, none, none⟩] }
    let given : List Label :=
      [.text ['c', 'd'], .text ['a'], .text ['x'], .text ['a', 'b'], .text ['b', 'c', 'd']]
    (s.nfa 0).Covered s.graph (s.alphabetFor 0 (some given)).1 ∧
      [] ∉ (s.alphabetFor 0 (some given)).1 ∧
      ∃ (out : List Text) (y : DfaId), ∀ limit,
        (Question.texts (.nfa 0) 3 [] limit none).answer s = .texts (out.take limit) ∧
        (Question.texts (.dfa y) 3 [] limit none).answer (s.determinize 0 (some given)).2 =
          .texts (out.take limit) := by
  intro s given
  have closed : s.graph.Closed [0, 1, 2, 3] := by decide
  have symbols : ∀ q ∈ [0, 1, 2, 3], ∀ e ∈ s.graph.edges q, e.label ∈ given := by decide
  have covered : (s.nfa 0).Covered s.graph (s.alphabetFor 0 (some given)).1 := fun q hq t d he =>
    Subset.mem_symbols.mpr (symbols q (hq.mem_of_closed closed (by decide)) _ he)
  have nonempty : [] ∉ (s.alphabetFor 0 (some given)).1 := fun h =>
    absurd (Subset.mem_symbols.mp h) (by decide)
  obtain ⟨out, y, r, d, -, rfl, rfl, -, -, -, drawn⟩ :=
    determinize_texts s 0 (some given) covered nonempty 3 []
  exact ⟨covered, nonempty, out, y, fun limit => ⟨(drawn limit).1, (drawn limit).2.2⟩⟩

end Session

end FiniteAutomata
