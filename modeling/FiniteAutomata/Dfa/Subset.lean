/-
  FiniteAutomata.Dfa.Subset

  The subset construction. The live sets that a nondeterministic automaton can reach by the
  symbols of an alphabet are found breadth first, symbols in ascending order, and each
  becomes one cell; every cell has a transition for every symbol. A set from which no state
  moves on leads to the cell of the empty set, which leads to itself.

  The search ends because live sets hold states of the graph only (`bounded_successors`). The
  cells are made when it has ended; to make them during the search, in one loop, comes to the
  same (`Session.determinize_one_loop`).
-/
import FiniteAutomata.Dfa.Basic
import FiniteAutomata.Nfa.Basic

namespace FiniteAutomata

namespace Subset

/-! ## The sets of states of a graph -/

/-- The set of the states whose places are the digits 1 in the binary form of a number. -/
def ofBits (n code : Nat) : StateSet := .ofList ((List.range n).filter code.testBit)

/-- All sets of states of a graph with `n` states. -/
def allSets (n : Nat) : List StateSet := (List.range (1 <<< n)).map (ofBits n)

theorem mem_allSets {n : Nat} {live : StateSet} (h : ∀ s ∈ live, s < n) : live ∈ allSets n := by
  let digits : List Bool := (List.range n).map fun s => decide (s ∈ live)
  have length : digits.length = n := by simp [digits]
  have bound : (BitVec.ofBoolListLE digits).toNat < 1 <<< n := by
    rw [Nat.one_shiftLeft]
    exact Nat.lt_of_lt_of_eq (BitVec.isLt _) (congrArg (2 ^ ·) length)
  refine List.mem_map.mpr ⟨_, List.mem_range.mpr bound, SortedSet.ext_mem fun s => ?_⟩
  have digit : (BitVec.ofBoolListLE digits).toNat.testBit s = digits.getD s false :=
    BitVec.getLsbD_ofBoolListLE
  rw [ofBits, SortedSet.mem_ofList, List.mem_filter, List.mem_range, digit]
  by_cases hs : s < n
  · simp [digits, hs]
  · exact iff_of_false (fun k => hs k.1) fun k => hs (h s k)

/-! ## The search for live sets -/

/-- The symbols of an alphabet that may name the empty move too. -/
def symbols (alphabet : List Label) : SortedSet Text := .ofList (alphabet.filterMap Label.toText?)

/-- The live sets after one symbol of the alphabet. -/
def successors (g : Graph) (alphabet : SortedSet Text) (live : StateSet) : List StateSet :=
  alphabet.toList.map fun t => g.step live (.text t)

theorem mem_step_lt {g : Graph} {live : StateSet} {l : Label} {q : StateId}
    (h : q ∈ g.step live l) : q < g.size := by
  induction Graph.mem_closure.mp h with
  | start hm =>
    obtain ⟨_, _, he⟩ := Graph.mem_move.mp hm
    exact g.dest_lt he
  | step _ hb _ => exact g.dest_lt (Graph.mem_destinations.mp hb)

theorem bounded_successors (g : Graph) (alphabet : SortedSet Text) :
    Worklist.Bounded (successors g alphabet) := by
  refine ⟨allSets g.size, fun live next hnext => ?_⟩
  obtain ⟨t, _, rfl⟩ := List.mem_map.mp hnext
  exact mem_allSets fun s hs => mem_step_lt hs

/-- The live sets that words over the alphabet reach, in the order they are found. -/
def liveSets (g : Graph) (alphabet : SortedSet Text) (start : StateSet) : List StateSet :=
  Worklist.explore (successors g alphabet) (bounded_successors g alphabet) [start]

/-! ## The automaton -/

/-- The cell of a live set, where the cells of `sets` lie in order from the place `base`. -/
def cellOf (g : Graph) (alphabet : SortedSet Text) (sets : List StateSet) (base : CellId)
    (live : StateSet) : Cell where
  members := live
  accepting := g.isFinal live
  transitions := alphabet.toList.map fun t => (t, base + sets.idxOf (g.step live (.text t)))

/-- Adds the cells of the deterministic automaton to the table and gives the automaton. -/
def determinize (n : Nfa) (g : Graph) (alphabet : SortedSet Text) (cells : Cells) : Dfa × Cells :=
  let sets := liveSets g alphabet (n.start g)
  (⟨cells.size, (List.range sets.length).map (cells.size + ·), alphabet⟩,
    cells ++ (sets.map (cellOf g alphabet sets cells.size)).toArray)

end Subset

end FiniteAutomata
