/-
  FiniteAutomata.Proofs.Simulation

  Walking the deterministic automaton and walking the nondeterministic one side by side. The
  cells that the subset construction adds lie in one block of the table, one for each live
  set (`get_placeOf`), and each symbol of the alphabet leads from the cell of a live set to
  the cell of the next one (`next_placeOf`). So the two walks stay together along every word
  over the alphabet (`run_placeOf`); any other label ends the walk from cell to cell.
-/
import FiniteAutomata.Dfa.Subset
import FiniteAutomata.Proofs.Path
import FiniteAutomata.Proofs.Views
import Mathlib.Data.List.Basic

namespace FiniteAutomata

namespace Subset

/-- A label reads a symbol of the alphabet. -/
def Offered (alphabet : SortedSet Text) (l : Label) : Prop := ∃ t ∈ alphabet, l = .text t

theorem mem_symbols {alphabet : List Label} {t : Text} : t ∈ symbols alphabet ↔ .text t ∈ alphabet := by
  simp [symbols]

theorem offered_symbols {alphabet : List Label} {l : Label} :
    Offered (symbols alphabet) l ↔ l ∈ alphabet ∧ l ≠ .epsilon := by
  simp only [Offered, symbols, SortedSet.mem_ofList, List.mem_filterMap, Label.toText?_eq_some]
  constructor
  · rintro ⟨t, ⟨l, hl, rfl⟩, rfl⟩
    exact ⟨hl, Label.noConfusion⟩
  · rintro ⟨hl, symbol⟩
    cases l with
    | epsilon => exact absurd rfl symbol
    | text t => exact ⟨t, ⟨_, hl, rfl⟩, rfl⟩

/-! ## The cells of the live sets -/

variable {n : Nfa} {g : Graph} {alphabet : SortedSet Text} {cells : Cells}

/-- The cells of the deterministic automaton, behind those of the table. -/
theorem cells_determinize : (determinize n g alphabet cells).2 =
    cells ++ ((liveSets g alphabet (n.start g)).map
      (cellOf g alphabet (liveSets g alphabet (n.start g)) cells.size)).toArray := rfl

/-- Where the cell of a live set lies. -/
def placeOf (n : Nfa) (g : Graph) (alphabet : SortedSet Text) (cells : Cells) (live : StateSet) :
    CellId := cells.size + (liveSets g alphabet (n.start g)).idxOf live

theorem get_placeOf {live : StateSet} (hl : live ∈ liveSets g alphabet (n.start g)) :
    (determinize n g alphabet cells).2.get (placeOf n g alphabet cells live) =
      cellOf g alphabet (liveSets g alphabet (n.start g)) cells.size live := by
  rw [Cells.get, cells_determinize, placeOf, Array.getElem?_append_right (Nat.le_add_right _ _),
    Nat.add_sub_cancel_left, List.getElem?_toArray, List.getElem?_map,
    List.getElem?_idxOf hl, Option.map_some, Option.getD_some]

theorem isDead_placeOf (cells : Cells) {live : StateSet} (hl : live ∈ liveSets g alphabet (n.start g)) :
    ((determinize n g alphabet cells).2.get (placeOf n g alphabet cells live)).isDead =
      live.isEmpty := by
  rw [get_placeOf hl]
  rfl

theorem accepting_placeOf (cells : Cells) {live : StateSet} (hl : live ∈ liveSets g alphabet (n.start g)) :
    ((determinize n g alphabet cells).2.get (placeOf n g alphabet cells live)).accepting =
      g.isFinal live := by
  rw [get_placeOf hl]
  rfl

/-- The first live set that is found is the one that the search starts from. -/
theorem liveSets_eq_cons (g : Graph) (alphabet : SortedSet Text) (start : StateSet) :
    ∃ rest, liveSets g alphabet start = start :: rest := by
  have first : Worklist.fresh [] [start] = [start] :=
    Worklist.fresh_singleton_of_not_mem List.not_mem_nil
  rw [liveSets, Worklist.explore, first, Worklist.visits_cons, List.map_cons]
  exact ⟨_, rfl⟩

/-- The walk from cell to cell starts at the cell of the first live set. -/
theorem initial_eq_placeOf :
    (determinize n g alphabet cells).1.initial = placeOf n g alphabet cells (n.start g) := by
  obtain ⟨rest, found⟩ := liveSets_eq_cons g alphabet (n.start g)
  rw [placeOf, found, List.idxOf_cons_self]
  rfl

theorem start_mem_liveSets (n : Nfa) (g : Graph) (alphabet : SortedSet Text) :
    n.start g ∈ liveSets g alphabet (n.start g) :=
  Worklist.mem_explore.mpr (.start List.mem_cons_self)

theorem step_mem_liveSets {start live : StateSet} (hl : live ∈ liveSets g alphabet start)
    {t : Text} (ht : t ∈ alphabet) : g.step live (.text t) ∈ liveSets g alphabet start := by
  have reached := Worklist.mem_explore.mp hl
  exact Worklist.mem_explore.mpr (reached.step (List.mem_map.mpr ⟨t, ht, rfl⟩))

theorem lookup_map_of_mem {β : Type} (f : Text → β) {l : List Text} {t : Text} (ht : t ∈ l) :
    (l.map fun u => (u, f u)).lookup t = some (f t) := by
  induction l with
  | nil => cases ht
  | cons u l ih =>
    rw [List.map_cons, List.lookup_cons]
    by_cases hu : t = u
    · subst hu
      simp
    · have rest := ih ((List.mem_cons.mp ht).resolve_left hu)
      simpa [beq_eq_false_iff_ne.mpr hu] using rest

theorem lookup_map_of_not_mem {β : Type} (f : Text → β) {l : List Text} {t : Text} (ht : t ∉ l) :
    (l.map fun u => (u, f u)).lookup t = none := by
  refine List.lookup_eq_none_iff.mpr fun p hp => ?_
  obtain ⟨u, hu, rfl⟩ := List.mem_map.mp hp
  have other : t ≠ u := fun same => ht (same ▸ hu)
  exact bne_iff_ne.mpr other

/-- A symbol of the alphabet leads to the cell of the next live set. -/
theorem next_placeOf {live : StateSet} (hl : live ∈ liveSets g alphabet (n.start g)) {t : Text}
    (ht : t ∈ alphabet) : ((determinize n g alphabet cells).2.get
      (placeOf n g alphabet cells live)).next (.text t) =
        some (placeOf n g alphabet cells (g.step live (.text t))) := by
  rw [get_placeOf hl]
  exact lookup_map_of_mem _ ht

/-- Nothing else leads anywhere. -/
theorem next_placeOf_of_not_offered {live : StateSet}
    (hl : live ∈ liveSets g alphabet (n.start g)) {l : Label} (unknown : ¬ Offered alphabet l) :
    ((determinize n g alphabet cells).2.get (placeOf n g alphabet cells live)).next l = none := by
  rw [get_placeOf hl]
  cases l with
  | epsilon => rfl
  | text t => exact lookup_map_of_not_mem _ fun ht => unknown ⟨t, ht, rfl⟩

/-! ## Both walks -/

theorem run_cons (table : Cells) (i c : CellId) (l : Label) (w : Word) :
    (table.machine i).run c (l :: w) =
      ((table.get c).next l).bind fun d => (table.machine i).run d w := by
  have step : (table.machine i).next c l = (table.get c).next l := rfl
  rw [Machine.run, step]
  cases (table.get c).next l <;> rfl

/-- Along a word over the alphabet, the cell is that of the live set. -/
theorem run_placeOf (cells : Cells) (i : CellId) {live : StateSet}
    (hl : live ∈ liveSets g alphabet (n.start g)) {w : Word} (hw : ∀ l ∈ w, Offered alphabet l) :
    ((determinize n g alphabet cells).2.machine i).run (placeOf n g alphabet cells live) w =
        some (placeOf n g alphabet cells (g.run live w)) ∧
      g.run live w ∈ liveSets g alphabet (n.start g) := by
  -- That the live set is one of those found is what makes the next step possible.
  induction w generalizing live with
  | nil => exact ⟨rfl, hl⟩
  | cons l w ih =>
    obtain ⟨t, ht, rfl⟩ := hw l List.mem_cons_self
    have along := ih (step_mem_liveSets hl ht) fun l hl => hw l (List.mem_cons_of_mem _ hl)
    refine ⟨?_, along.2⟩
    rw [run_cons, next_placeOf hl ht]
    exact along.1

/-- Along any other word, there is no way on from some cell. -/
theorem run_placeOf_of_not_offered (cells : Cells) (i : CellId) {live : StateSet}
    (hl : live ∈ liveSets g alphabet (n.start g)) {w : Word}
    (unknown : ¬ ∀ l ∈ w, Offered alphabet l) :
    ((determinize n g alphabet cells).2.machine i).run (placeOf n g alphabet cells live) w =
      none := by
  induction w generalizing live with
  | nil => exact absurd (fun l hl => absurd hl List.not_mem_nil) unknown
  | cons l w ih =>
    rw [run_cons]
    by_cases known : Offered alphabet l
    · obtain ⟨t, ht, rfl⟩ := known
      rw [next_placeOf hl ht]
      refine ih (step_mem_liveSets hl ht) fun later => unknown fun l hl => ?_
      rcases List.mem_cons.mp hl with rfl | hl
      · exact ⟨t, ht, rfl⟩
      · exact later l hl
    · rw [next_placeOf_of_not_offered hl known]
      rfl

/-- After a word over the alphabet, the cell holds the live set and accepts if it does. -/
theorem simulates (n : Nfa) (g : Graph) (cells : Cells) {w : Word}
    (hw : ∀ l ∈ w, Offered alphabet l) :
    ∃ c, ((determinize n g alphabet cells).1.machine (determinize n g alphabet cells).2).run
        (determinize n g alphabet cells).1.initial w = some c ∧
      ((determinize n g alphabet cells).2.get c).members = g.run (n.start g) w ∧
      ((determinize n g alphabet cells).2.get c).accepting = g.isFinal (g.run (n.start g) w) := by
  obtain ⟨walk, found⟩ := run_placeOf cells
    (determinize n g alphabet cells).1.initial (start_mem_liveSets n g alphabet) hw
  rw [← initial_eq_placeOf] at walk
  refine ⟨_, walk, ?_⟩
  rw [get_placeOf found]
  exact ⟨rfl, rfl⟩

/-- From the cell of a live set, the walk along a word ends in an accepting cell just if the
    word is over the alphabet and leads the live set to a final one. -/
theorem any_isFinal_run_placeOf {i : CellId} {live : StateSet}
    (hl : live ∈ liveSets g alphabet (n.start g)) {w : Word} :
    (((determinize n g alphabet cells).2.machine i).run (placeOf n g alphabet cells live) w).any
        ((determinize n g alphabet cells).2.machine i).isFinal = true ↔
      (∀ l ∈ w, Offered alphabet l) ∧ g.isFinal (g.run live w) = true := by
  by_cases hw : ∀ l ∈ w, Offered alphabet l
  · -- over the alphabet, both walks end at the same live set
    obtain ⟨walk, found⟩ := run_placeOf cells i hl hw
    rw [walk, and_iff_right hw, ← accepting_placeOf cells found]
    rfl
  · -- otherwise the walk from cell to cell ends early
    rw [run_placeOf_of_not_offered cells i hl hw]
    exact iff_of_false Bool.noConfusion fun h => hw h.1

/-- The deterministic automaton accepts the words over the alphabet that the
    nondeterministic one accepts. -/
theorem accepts_determinize {w : Word} :
    (determinize n g alphabet cells).1.accepts (determinize n g alphabet cells).2 w = true ↔
      (∀ l ∈ w, Offered alphabet l) ∧ n.accepts g w = true := by
  rw [Dfa.accepts, Machine.accepts_eq_any, Nfa.accepts_eq_isFinal,
    ← any_isFinal_run_placeOf (start_mem_liveSets n g alphabet), ← initial_eq_placeOf]
  rfl

end Subset

/-- The symbols of an automaton stand on edges of states that it reaches. -/
theorem Nfa.mem_symbolsOf_reachable {g : Graph} {i : StateId} {l : Text} :
    l ∈ symbolsOf g (g.reachable i) ↔ ∃ q d, g.Reaches i q ∧ ⟨.text l, d⟩ ∈ g.edges q := by
  simp only [symbolsOf, SortedSet.mem_ofList, List.mem_flatMap, SortedSet.mem_toList,
    Graph.mem_reachable, Graph.mem_labels]
  constructor
  · rintro ⟨q, hq, d, hd⟩
    exact ⟨q, d, hq, hd⟩
  · rintro ⟨q, d, hq, hd⟩
    exact ⟨q, hq, d, hd⟩

/-! ## In a session -/

namespace Session

/-- Finding the alphabet only keeps the states of the automaton, if anything. -/
theorem alphabetFor_snd (s : Session) (x : NfaId) (alphabet : Option (List Label)) :
    (s.alphabetFor x alphabet).2.graph = s.graph ∧ (s.alphabetFor x alphabet).2.cells = s.cells ∧
      (s.alphabetFor x alphabet).2.dfas = s.dfas ∧ (s.alphabetFor x alphabet).2.nfa x = s.nfa x := by
  cases alphabet with
  | some given => exact ⟨rfl, rfl, rfl, rfl⟩
  | none =>
    exact ⟨graph_viewStates s x, cells_viewStates s x, dfas_viewStates s x, nfa_viewStates s x x⟩

/-- If no outdated states are kept, the alphabet that an automaton has of its own is that of the
    edges of its states. -/
theorem alphabetFor_none {s : Session} {x : NfaId} (upToDate : s.UpToDate x) :
    (s.alphabetFor x none).1 =
      Nfa.symbolsOf s.graph (s.graph.reachable (s.nfa x).initial) := by
  show Nfa.symbolsOf (s.viewStates x).2.graph (s.viewStates x).1 = _
  rw [viewStates_fst upToDate, graph_viewStates]

/-- An automaton is made deterministic without a change to the graph and the automata. -/
theorem determinize_over (s : Session) (x : NfaId) (alphabet : Option (List Label)) :
    (s.determinize x alphabet).1.answer = .ok (.value (.dfa s.dfas.size)) ∧
      (s.determinize x alphabet).2.cells =
        (Subset.determinize (s.nfa x) s.graph (s.alphabetFor x alphabet).1 s.cells).2 ∧
      (s.determinize x alphabet).2.dfa s.dfas.size =
        (Subset.determinize (s.nfa x) s.graph (s.alphabetFor x alphabet).1 s.cells).1 ∧
      (s.determinize x alphabet).2.graph = s.graph ∧
      (s.determinize x alphabet).2.nfa x = s.nfa x := by
  obtain ⟨graph, cells, dfas, nfa⟩ := alphabetFor_snd s x alphabet
  unfold determinize
  generalize s.alphabetFor x alphabet = found at graph cells dfas nfa
  obtain ⟨symbols, t⟩ := found
  -- Making the automaton keeps its states, too.
  have kept : (t.viewStates x).2.dfas = s.dfas := (dfas_viewStates t x).trans dfas
  rw [← kept, ← graph, ← cells, ← nfa]
  exact ⟨rfl, rfl, dfa_addDfa { (t.viewStates x).2 with
      cells := (Subset.determinize (t.nfa x) t.graph symbols t.cells).2 } _,
    graph_viewStates t x, nfa_viewStates t x x⟩

theorem determinize_eq (s : Session) (x : NfaId) (alphabet : List Label) :
    (s.determinize x (some alphabet)).1.answer = .ok (.value (.dfa s.dfas.size)) ∧
      (s.determinize x (some alphabet)).2.cells =
        (Subset.determinize (s.nfa x) s.graph (Subset.symbols alphabet) s.cells).2 ∧
      (s.determinize x (some alphabet)).2.dfa s.dfas.size =
        (Subset.determinize (s.nfa x) s.graph (Subset.symbols alphabet) s.cells).1 ∧
      (s.determinize x (some alphabet)).2.graph = s.graph ∧
      (s.determinize x (some alphabet)).2.nfa x = s.nfa x :=
  determinize_over s x (some alphabet)

/-- Made deterministic over an alphabet, an automaton is followed step by step along every
    word over the alphabet, and accepts no other words. The automaton itself stays as it is. -/
theorem determinize_simulates (s : Session) (x : NfaId) (alphabet : List Label) :
    ∃ y, (s.determinize x (some alphabet)).1.answer = .ok (.value (.dfa y)) ∧
      (s.determinize x (some alphabet)).2.graph = s.graph ∧
      (s.determinize x (some alphabet)).2.nfa x = s.nfa x ∧
      (∀ w : Word, (∀ l ∈ w, l ∈ alphabet ∧ l ≠ .epsilon) → ∀ u, u <+: w →
        ∃ c, (((s.determinize x (some alphabet)).2.dfa y).machine
            (s.determinize x (some alphabet)).2.cells).run
              ((s.determinize x (some alphabet)).2.dfa y).initial u = some c ∧
          ((s.determinize x (some alphabet)).2.cells.get c).members =
            s.graph.run ((s.nfa x).start s.graph) u ∧
          (s.determinize x (some alphabet)).2.isFinal (.cell c) =
            s.isFinal (.live (s.graph.run ((s.nfa x).start s.graph) u))) ∧
      ∀ w : Word, (s.determinize x (some alphabet)).2.accepts (.dfa y) w = true ↔
        (∀ l ∈ w, l ∈ alphabet ∧ l ≠ .epsilon) ∧ s.accepts (.nfa x) w = true := by
  obtain ⟨answer, cells, dfa, graph, nfa⟩ := determinize_eq s x alphabet
  refine ⟨s.dfas.size, answer, graph, nfa, fun w hw u hu => ?_, fun w => ?_⟩
  · rw [dfa, cells]
    show ∃ c, _ ∧ _ ∧ ((s.determinize x (some alphabet)).2.cells.get c).accepting = _
    rw [cells]
    exact Subset.simulates _ _ _ fun l hl => Subset.offered_symbols.mpr (hw l (hu.subset hl))
  · show ((s.determinize x (some alphabet)).2.dfa s.dfas.size).accepts
      (s.determinize x (some alphabet)).2.cells w = true ↔ _
    rw [dfa, cells, Subset.accepts_determinize]
    simp only [Subset.offered_symbols]
    rfl

theorem determinize_simulates_word :
    let s := ((fresh false).compile "ab".toList).2
    ∃ c, ((s.determinize 0 (some [.text ['a'], .epsilon, .text ['b']])).2.cells.get c).members =
      s.graph.run ((s.nfa 0).start s.graph) [.text ['a']] := by
  obtain ⟨y, -, -, -, along, -⟩ := determinize_simulates ((fresh false).compile "ab".toList).2 0
    [.text ['a'], .epsilon, .text ['b']]
  obtain ⟨c, -, members, -⟩ := along [.text ['a'], .text ['b']] (by decide) [.text ['a']]
    ⟨[.text ['b']], rfl⟩
  exact ⟨c, members⟩

end Session

end FiniteAutomata
