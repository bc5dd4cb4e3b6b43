/-
  FiniteAutomata.Graph.Reachable

  The states that edges of any label reach from one state: the states of an automaton that
  starts there. They are listed by number; `mem_reachable` says which they are.
-/
import FiniteAutomata.Graph.Live

namespace FiniteAutomata

namespace Graph

/-- Where the edges of a state lead, whatever their labels. -/
def successors (g : Graph) (s : StateId) : List StateId := (g.edges s).map Edge.dest

theorem mem_successors {g : Graph} {s d : StateId} :
    d ∈ g.successors s ↔ ∃ l, ⟨l, d⟩ ∈ g.edges s := by
  simp only [successors, List.mem_map]
  constructor
  · rintro ⟨⟨l, d⟩, he, rfl⟩
    exact ⟨l, he⟩
  · rintro ⟨l, h⟩
    exact ⟨⟨l, d⟩, h, rfl⟩

theorem bounded_successors (g : Graph) : Worklist.Bounded g.successors := by
  refine ⟨List.range g.size, fun _ b hb => List.mem_range.mpr ?_⟩
  obtain ⟨l, h⟩ := mem_successors.mp hb
  exact g.dest_lt h

/-- The states that edges of any label reach from a state, ordered by number. -/
def reachable (g : Graph) (s : StateId) : List StateId :=
  (Worklist.explore g.successors g.bounded_successors [s]).mergeSort
    fun a b => decide (g.num a ≤ g.num b)

theorem mem_reachable {g : Graph} {s q : StateId} :
    q ∈ g.reachable s ↔ Worklist.Reaches g.successors [s] q := by
  simp [reachable, Worklist.mem_explore]

/-- The listing is by ascending number. -/
theorem reachable_pairwise (g : Graph) (s : StateId) :
    (g.reachable s).Pairwise fun a b => g.num a ≤ g.num b := by
  have sorted : (g.reachable s).Pairwise fun a b => decide (g.num a ≤ g.num b) = true :=
    List.pairwise_mergeSort (by simpa using fun a b c h k => Int.le_trans h k)
      (by simpa using fun a b => Int.le_total (g.num a) (g.num b)) _
  exact sorted.imp fun h => by simpa using h

/-- No state is listed twice. -/
theorem nodup_reachable (g : Graph) (s : StateId) : (g.reachable s).Nodup :=
  (List.mergeSort_perm _ _).nodup_iff.mpr (Worklist.nodup_explore _)

end Graph

end FiniteAutomata
