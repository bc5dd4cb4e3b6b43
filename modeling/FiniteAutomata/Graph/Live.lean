/-
  FiniteAutomata.Graph.Live

  Walking a graph with a set of live states. The closure of a set adds all states that
  empty moves reach; a move follows the edges of one label out of every member; a step is
  a move and then the closure.

  `mem_closure` says that the closure holds exactly what empty moves reach, `mem_move` that
  a move takes exactly one edge of its label.
-/
import FiniteAutomata.Graph.Basic
import FiniteAutomata.SortedSet
import FiniteAutomata.Worklist

namespace FiniteAutomata

/-- A set of states of a graph. -/
abbrev StateSet := SortedSet StateId

namespace Graph

/-! ## Single states -/

/-- Where the edges of one label lead, oldest first and with repetitions. -/
def destinations (g : Graph) (s : StateId) (l : Label) : List StateId :=
  (g.edges s).filterMap fun e => if e.label = l then some e.dest else none

/-- Where the empty moves of a state lead. -/
def epsilonTargets (g : Graph) (s : StateId) : List StateId := g.destinations s .epsilon

/-- The symbols on the edges of a state. -/
def labels (g : Graph) (s : StateId) : SortedSet Text :=
  .ofList ((g.edges s).filterMap fun e => e.label.toText?)

theorem mem_destinations {g : Graph} {s d : StateId} {l : Label} :
    d ∈ g.destinations s l ↔ ⟨l, d⟩ ∈ g.edges s := by
  simp only [destinations, List.mem_filterMap]
  constructor
  · rintro ⟨e, he, h⟩
    split at h
    · rename_i hl
      cases h
      subst hl
      exact he
    · cases h
  · intro h
    exact ⟨⟨l, d⟩, h, by simp⟩

theorem mem_labels {g : Graph} {s : StateId} {t : Text} :
    t ∈ g.labels s ↔ ∃ d, ⟨.text t, d⟩ ∈ g.edges s := by
  simp only [labels, SortedSet.mem_ofList, List.mem_filterMap, Label.toText?_eq_some]
  constructor
  · rintro ⟨⟨l, d⟩, he, hl⟩
    exact ⟨d, hl ▸ he⟩
  · rintro ⟨d, h⟩
    exact ⟨⟨.text t, d⟩, h, rfl⟩

theorem bounded_epsilonTargets (g : Graph) : Worklist.Bounded g.epsilonTargets :=
  ⟨List.range g.size, fun _ _ hb => List.mem_range.mpr (g.dest_lt (mem_destinations.mp hb))⟩

/-! ## Sets of states -/

/-- The states that empty moves reach from a set, the set itself included. -/
def closure (g : Graph) (live : StateSet) : StateSet :=
  .ofList (Worklist.explore g.epsilonTargets g.bounded_epsilonTargets live.toList)

/-- The states that one edge of a label reaches from a set, without any closure. -/
def move (g : Graph) (live : StateSet) (l : Label) : StateSet :=
  .ofList (live.toList.flatMap fun s => g.destinations s l)

/-- The live set after a label has been read. -/
def step (g : Graph) (live : StateSet) (l : Label) : StateSet := g.closure (g.move live l)

/-- The live set after a word has been read. -/
def run (g : Graph) (live : StateSet) (w : Word) : StateSet := w.foldl g.step live

/-- Whether a member accepts. -/
def isFinal (g : Graph) (live : StateSet) : Bool := live.toList.any g.accepting

/-- The symbols on the edges of the members. -/
def liveLabels (g : Graph) (live : StateSet) : SortedSet Text :=
  .ofList (live.toList.flatMap fun s => (g.labels s).toList)

/-- The numbers of the members, ascending, with repetitions where states share a number. -/
def numbers (g : Graph) (live : StateSet) : List Int := Ordered.sort (live.toList.map g.num)

theorem mem_closure {g : Graph} {live : StateSet} {q : StateId} :
    q ∈ g.closure live ↔ Worklist.Reaches g.epsilonTargets live.toList q := by
  simp [closure, Worklist.mem_explore]

theorem mem_move {g : Graph} {live : StateSet} {l : Label} {q : StateId} :
    q ∈ g.move live l ↔ ∃ s ∈ live, ⟨l, q⟩ ∈ g.edges s := by
  simp [move, mem_destinations]

theorem isFinal_iff {g : Graph} {live : StateSet} :
    g.isFinal live = true ↔ ∃ s ∈ live, g.accepting s = true := by
  simp [isFinal]

theorem mem_liveLabels {g : Graph} {live : StateSet} {t : Text} :
    t ∈ g.liveLabels live ↔ ∃ s ∈ live, t ∈ g.labels s := by
  simp [liveLabels]

end Graph

end FiniteAutomata
