/-
  FiniteAutomata.Proofs.Shape

  What the deterministic automaton looks like, cell by cell (`Subset.Shape`): which sets the
  cells stand for, in which order they come, where each symbol leads, and which cells are
  dead or accept. The order is that of the least words that lead to the sets, which the
  search for live sets finds breadth first (`Worklist.exists_leastWords`).
-/
import FiniteAutomata.Proofs.Discovery
import FiniteAutomata.Proofs.Fragment
import FiniteAutomata.Proofs.Simulation

namespace FiniteAutomata

open List (Shortlex)

/-- One symbol comes before another one in an alphabet. -/
def Text.Before (t u : Text) : Prop := Ordered.before t u = true

instance : IsTrans Text Text.Before := ⟨fun t u v => Ordered.trans t u v⟩

namespace Subset

/-! ## Words that lead to live sets -/

/-- A word over the alphabet leads an automaton from its start to a live set. -/
def Access (n : Nfa) (g : Graph) (alphabet : SortedSet Text) (u : List Text) (live : StateSet) :
    Prop := (∀ t ∈ u, t ∈ alphabet) ∧ g.run (n.start g) (Word.ofTexts u) = live

/-- The word is the least one, in shortlex order, that leads to a live set. -/
def LeastAccess (n : Nfa) (g : Graph) (alphabet : SortedSet Text) (u : List Text)
    (live : StateSet) : Prop := LeastWord Text.Before (fun v => Access n g alphabet v live) u

variable {n : Nfa} {g : Graph} {alphabet : SortedSet Text} {cells : Cells}

theorem leadsTo_iff_access {u : List Text} {live : StateSet} :
    Worklist.LeadsTo (fun live t => g.step live (.text t)) alphabet.toList (n.start g) u live ↔
      Access n g alphabet u live := by
  rw [Worklist.LeadsTo, Access, Graph.run, Word.ofTexts, List.foldl_map]
  rfl

/-- The live sets are found in the order of their least words. -/
theorem exists_leastAccess (n : Nfa) (g : Graph) (alphabet : SortedSet Text) :
    ∃ words, words.Pairwise (Shortlex Text.Before) ∧
      List.Forall₂ (LeastAccess n g alphabet) words (liveSets g alphabet (n.start g)) := by
  have found := Worklist.exists_leastWords (r := Text.Before) alphabet.ascending
    (bounded_successors g alphabet) (n.start g)
  simp only [leadsTo_iff_access] at found
  exact found

/-- The live sets that are found are those that words over the alphabet lead to. -/
theorem mem_liveSets_iff_access {live : StateSet} :
    live ∈ liveSets g alphabet (n.start g) ↔ ∃ u, Access n g alphabet u live := by
  constructor
  · intro hl
    obtain ⟨words, -, least⟩ := exists_leastAccess n g alphabet
    obtain ⟨i, hi, rfl⟩ := List.getElem_of_mem hl
    have at_i := least.get (least.length_eq ▸ hi) hi
    exact ⟨_, at_i.1⟩
  · rintro ⟨u, within, rfl⟩
    refine (run_placeOf #[] 0 (start_mem_liveSets n g alphabet) fun l hl => ?_).2
    obtain ⟨t, ht, rfl⟩ := List.mem_map.mp hl
    exact ⟨t, within t ht, rfl⟩

/-! ## The cells in order -/

/-- The cells are those of the live sets, in the order in which these were found. -/
theorem states_determinize : (determinize n g alphabet cells).1.states =
    (liveSets g alphabet (n.start g)).map (placeOf n g alphabet cells) := by
  have nodup : (liveSets g alphabet (n.start g)).Nodup := Worklist.nodup_explore _
  show (List.range _).map (cells.size + ·) = _
  refine List.ext_getElem (by simp) fun i hi hi' => ?_
  rw [List.getElem_map, List.getElem_map, List.getElem_range, placeOf, nodup.idxOf_getElem]

/-- The sets that the cells stand for, in order. -/
theorem members_determinize : ((determinize n g alphabet cells).1.states.map fun c =>
    ((determinize n g alphabet cells).2.get c).members) = liveSets g alphabet (n.start g) := by
  rw [states_determinize, List.map_map]
  refine (List.map_congr_left fun live hl => ?_).trans (List.map_id _)
  show ((determinize n g alphabet cells).2.get (placeOf n g alphabet cells live)).members = live
  rw [get_placeOf hl]
  rfl

theorem exists_of_mem_states {c : CellId} (hc : c ∈ (determinize n g alphabet cells).1.states) :
    ∃ live ∈ liveSets g alphabet (n.start g), c = placeOf n g alphabet cells live ∧
      (determinize n g alphabet cells).2.get c =
        cellOf g alphabet (liveSets g alphabet (n.start g)) cells.size live := by
  rw [states_determinize] at hc
  obtain ⟨live, hl, rfl⟩ := List.mem_map.mp hc
  exact ⟨live, hl, rfl, get_placeOf hl⟩

theorem placeOf_mem_states {live : StateSet} (hl : live ∈ liveSets g alphabet (n.start g)) :
    placeOf n g alphabet cells live ∈ (determinize n g alphabet cells).1.states := by
  rw [states_determinize]
  exact List.mem_map_of_mem hl

/-- Every cell has a transition for each symbol of the alphabet, in order. -/
theorem symbols_of_mem_states {c : CellId}
    (hc : c ∈ (determinize n g alphabet cells).1.states) :
    ((determinize n g alphabet cells).2.get c).symbols = alphabet.toList := by
  obtain ⟨live, -, -, cell⟩ := exists_of_mem_states hc
  rw [cell, Cell.symbols, cellOf, List.map_map]
  exact List.map_id _

/-! ## Dead sets -/

theorem eq_of_isEmpty {live dead : StateSet} (h : live.isEmpty = true) (k : dead.isEmpty = true) :
    live = dead := by
  rw [SortedSet.isEmpty_iff] at h k
  exact SortedSet.ext_mem fun q => iff_of_false (h q) (k q)

theorem isFinal_of_isEmpty {live : StateSet} (h : live.isEmpty = true) : g.isFinal live = false :=
  Graph.isFinal_run_of_isEmpty h []

/-! ## The shape -/

/-- What the deterministic automaton of `n` over its alphabet looks like. -/
structure Shape (n : Nfa) (g : Graph) (d : Dfa) (cells : Cells) : Prop where
  /-- The cells stand for the live sets that words over the alphabet lead to. -/
  members : ∀ live, (∃ c ∈ d.states, (cells.get c).members = live) ↔
    ∃ u, Access n g d.alphabet u live
  /-- No two cells stand for the same set. -/
  nodup : (d.states.map fun c => (cells.get c).members).Nodup
  initial : d.states[0]? = some d.initial
  /-- The least words that lead to the cells, one after the other, are in ascending order. -/
  order : ∃ words, words.Pairwise (Shortlex Text.Before) ∧
    List.Forall₂ (fun u c => LeastAccess n g d.alphabet u (cells.get c).members) words d.states
  /-- Every cell has a transition for each symbol of the alphabet, in order. -/
  symbols : ∀ c ∈ d.states, (cells.get c).symbols = d.alphabet.toList
  /-- Every transition leads to the cell of the next live set. -/
  targets : ∀ c ∈ d.states, ∀ p ∈ (cells.get c).transitions, p.2 ∈ d.states ∧
    (cells.get p.2).members = g.closure (g.move (cells.get c).members (.text p.1))
  /-- A dead cell does not accept, leads to itself only, and is the only one. -/
  dead : ∀ c ∈ d.states, (cells.get c).isDead = true → (cells.get c).accepting = false ∧
    (∀ p ∈ (cells.get c).transitions, p.2 = c) ∧
    ∀ e ∈ d.states, (cells.get e).isDead = true → e = c
  accepting : ∀ c ∈ d.states, ((cells.get c).accepting = true ↔
    ∃ q ∈ (cells.get c).members, g.accepting q = true)
  total : d.isTotal cells = true

theorem shape_determinize (n : Nfa) (g : Graph) (alphabet : SortedSet Text) (cells : Cells) :
    Shape n g (determinize n g alphabet cells).1 (determinize n g alphabet cells).2 where
  members live := by
    rw [← List.mem_map, members_determinize]
    exact mem_liveSets_iff_access
  nodup := by
    rw [members_determinize]
    exact Worklist.nodup_explore _
  initial := by
    obtain ⟨rest, found⟩ := liveSets_eq_cons g alphabet (n.start g)
    rw [states_determinize, initial_eq_placeOf, List.getElem?_map, found]
    rfl
  order := by
    obtain ⟨words, ascending, least⟩ := exists_leastAccess n g alphabet
    have sets := @members_determinize n g alphabet cells
    rw [← sets, List.forall₂_map_right_iff] at least
    exact ⟨words, ascending, least⟩
  symbols c hc := symbols_of_mem_states hc
  targets c hc p hp := by
    obtain ⟨live, hl, -, cell⟩ := exists_of_mem_states hc
    rw [cell] at hp ⊢
    obtain ⟨t, ht, rfl⟩ := List.mem_map.mp hp
    have next := step_mem_liveSets hl ht
    exact ⟨placeOf_mem_states next, congrArg Cell.members (get_placeOf next)⟩
  dead c hc hd := by
    obtain ⟨live, -, rfl, cell⟩ := exists_of_mem_states hc
    rw [cell] at hd ⊢
    -- the empty set is a fixed point of every step, and there is no second empty set
    have empty : live.isEmpty = true := hd
    refine ⟨isFinal_of_isEmpty empty, fun p hp => ?_, fun e he hde => ?_⟩
    · obtain ⟨t, -, rfl⟩ := List.mem_map.mp hp
      have next : g.step live (.text t) = live :=
        eq_of_isEmpty (Graph.step_of_isEmpty empty (.text t)) empty
      exact congrArg (placeOf n g alphabet cells) next
    · obtain ⟨other, -, rfl, cell'⟩ := exists_of_mem_states he
      rw [cell'] at hde
      exact congrArg (placeOf n g alphabet cells) (eq_of_isEmpty hde empty)
  accepting c hc := by
    obtain ⟨live, -, -, cell⟩ := exists_of_mem_states hc
    rw [cell]
    exact Graph.isFinal_iff
  total := by
    refine List.all_eq_true.mpr fun c hc => decide_eq_true ?_
    rw [symbols_of_mem_states hc]
    exact SortedSet.ofList_toList alphabet

end Subset

/-! ## In a session -/

namespace Session

/-- Whatever the alphabet, making an automaton deterministic gives one of the shape that the
    alphabet determines; a given alphabet is used without the empty move. -/
theorem determinize_shape (s : Session) (x : NfaId) :
    (∀ given t, t ∈ (s.alphabetFor x (some given)).1 ↔ .text t ∈ given) ∧
    ∀ alphabet, ∃ y, (s.determinize x alphabet).1.answer = .ok (.value (.dfa y)) ∧
      ((s.determinize x alphabet).2.dfa y).alphabet = (s.alphabetFor x alphabet).1 ∧
      Subset.Shape (s.nfa x) s.graph ((s.determinize x alphabet).2.dfa y)
        (s.determinize x alphabet).2.cells := by
  refine ⟨fun given t => ?_, fun alphabet => ?_⟩
  · show t ∈ Subset.symbols given ↔ _
    simp [Subset.symbols]
  · obtain ⟨answer, cells, dfa, -, -⟩ := determinize_over s x alphabet
    refine ⟨s.dfas.size, answer, ?_, ?_⟩
    · rw [dfa]
      rfl
    · rw [dfa, cells]
      exact Subset.shape_determinize _ _ _ _

end Session

end FiniteAutomata
