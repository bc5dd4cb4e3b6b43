/-
  FiniteAutomata.Graph.Basic

  The shared graph in which all nondeterministic automata live. A state is known by its
  place in the graph; its number is for display and order only, and several states may
  carry one number. Each state keeps its edges in the order they were added.

  Every edge leads to a state of the graph (`Graph.dest_lt`). A place outside the graph has
  no edges and does not accept. States are never removed, and neither are edges.
-/
import FiniteAutomata.Label

namespace FiniteAutomata

/-- The place of a state in its graph. -/
abbrev StateId := Nat

/-- An outgoing edge. -/
structure Edge where
  label : Label
  dest : StateId
  deriving DecidableEq

/-- What the graph keeps of one state. -/
structure Node where
  /-- The number by which the state is displayed and ordered. -/
  num : Int
  accepting : Bool
  /-- The outgoing edges, oldest first. -/
  edges : List Edge

/-- A graph of states, in which no edge leads outside. -/
structure Graph where
  nodes : Array Node
  closed : ∀ (s : StateId) (n : Node), nodes[s]? = some n → ∀ e ∈ n.edges, e.dest < nodes.size

namespace Graph

/-! ## Reading -/

/-- The number of states; also the place of the next one. -/
def size (g : Graph) : Nat := g.nodes.size

/-- The outgoing edges of a state, oldest first. -/
def edges (g : Graph) (s : StateId) : List Edge :=
  match g.nodes[s]? with
  | some n => n.edges
  | none => []

/-- Whether a state accepts. -/
def accepting (g : Graph) (s : StateId) : Bool :=
  match g.nodes[s]? with
  | some n => n.accepting
  | none => false

/-- The number of a state. -/
def num (g : Graph) (s : StateId) : Int :=
  match g.nodes[s]? with
  | some n => n.num
  | none => 0

theorem dest_lt {g : Graph} {s : StateId} {e : Edge} (h : e ∈ g.edges s) : e.dest < g.size := by
  unfold edges at h
  split at h
  · rename_i n hn
    exact g.closed s n hn e h
  · simp at h

theorem edges_of_size_le {g : Graph} {s : StateId} (h : g.size ≤ s) : g.edges s = [] := by
  simp [edges, Array.getElem?_eq_none h]

theorem accepting_of_size_le {g : Graph} {s : StateId} (h : g.size ≤ s) :
    g.accepting s = false := by
  simp [accepting, Array.getElem?_eq_none h]

/-! ## Building -/

/-- The graph without states. -/
def empty : Graph := ⟨#[], by simp⟩

instance : Inhabited Graph := ⟨empty⟩

/-- Adds a state without edges at the place `g.size`. -/
def addState (g : Graph) (num : Int) (accepting : Bool) : Graph where
  nodes := g.nodes.push ⟨num, accepting, []⟩
  closed s n h e he := by
    rw [Array.getElem?_push] at h
    split at h
    · cases h; simp at he
    · simpa using Nat.lt_succ_of_lt (g.closed s n h e he)

/-- Adds an edge behind those that the state already has. -/
def addEdge (g : Graph) (src : StateId) (label : Label) (dest : StateId) : Graph :=
  if h : dest < g.size then
    { nodes := g.nodes.modify src fun n => { n with edges := n.edges ++ [⟨label, dest⟩] }
      closed := fun s n hn e he => by
        rw [Array.getElem?_modify] at hn
        simp only [Array.size_modify]
        split at hn
        · obtain ⟨m, hm, rfl⟩ := Option.map_eq_some_iff.mp hn
          rcases List.mem_append.mp he with he | he
          · exact g.closed s m hm e he
          · rw [List.mem_singleton] at he; subst he; exact h
        · exact g.closed s n hn e he }
  else g

/-- Makes a state accept, or not. -/
def setAccepting (g : Graph) (s : StateId) (value : Bool) : Graph where
  nodes := g.nodes.modify s fun n => { n with accepting := value }
  closed t n hn e he := by
    rw [Array.getElem?_modify] at hn
    simp only [Array.size_modify]
    split at hn
    · obtain ⟨m, hm, rfl⟩ := Option.map_eq_some_iff.mp hn
      exact g.closed t m hm e he
    · exact g.closed t n hn e he

/-! ## What building changes -/

@[simp] theorem size_empty : empty.size = 0 := rfl

@[simp] theorem edges_empty (s : StateId) : empty.edges s = [] := by simp [edges, empty]

section addState

variable (g : Graph) (k : Int) (a : Bool) (s : StateId)

@[simp] theorem size_addState : (g.addState k a).size = g.size + 1 := by
  simp [size, addState]

@[simp] theorem edges_addState : (g.addState k a).edges s = g.edges s := by
  simp only [edges, addState, Array.getElem?_push]
  by_cases h : s = g.nodes.size <;> simp [h]

@[simp] theorem accepting_addState :
    (g.addState k a).accepting s = if s = g.size then a else g.accepting s := by
  simp only [accepting, addState, Array.getElem?_push, size]
  by_cases h : s = g.nodes.size <;> simp [h]

@[simp] theorem num_addState :
    (g.addState k a).num s = if s = g.size then k else g.num s := by
  simp only [num, addState, Array.getElem?_push, size]
  by_cases h : s = g.nodes.size <;> simp [h]

end addState

section addEdge

variable (g : Graph) (src : StateId) (l : Label) (dest s : StateId)

@[simp] theorem size_addEdge : (g.addEdge src l dest).size = g.size := by
  unfold addEdge
  split
  · simp [size]
  · rfl

theorem edges_addEdge : (g.addEdge src l dest).edges s =
    if s = src ∧ src < g.size ∧ dest < g.size then g.edges s ++ [⟨l, dest⟩] else g.edges s := by
  unfold addEdge
  by_cases h : dest < g.size
  · simp only [h, ↓reduceDIte, edges, Array.getElem?_modify, and_true]
    by_cases hs : src = s
    · subst hs
      by_cases hlt : src < g.size
      · obtain ⟨n, there⟩ : ∃ n, g.nodes[src]? = some n := ⟨_, Array.getElem?_eq_getElem hlt⟩
        simp [hlt, there]
      · have gone : g.nodes[src]? = none := Array.getElem?_eq_none (Nat.le_of_not_lt hlt)
        simp [hlt, gone]
    · simp [hs, Ne.symm hs]
  · simp [h]

@[simp] theorem accepting_addEdge : (g.addEdge src l dest).accepting s = g.accepting s := by
  unfold addEdge
  split
  · simp only [accepting, Array.getElem?_modify]
    by_cases h : src = s
    · cases g.nodes[s]? <;> simp [h]
    · simp [h]
  · rfl

@[simp] theorem num_addEdge : (g.addEdge src l dest).num s = g.num s := by
  unfold addEdge
  split
  · simp only [num, Array.getElem?_modify]
    by_cases h : src = s
    · cases g.nodes[s]? <;> simp [h]
    · simp [h]
  · rfl

end addEdge

section setAccepting

variable (g : Graph) (t : StateId) (v : Bool) (s : StateId)

@[simp] theorem size_setAccepting : (g.setAccepting t v).size = g.size := by
  simp [size, setAccepting]

@[simp] theorem edges_setAccepting : (g.setAccepting t v).edges s = g.edges s := by
  simp only [edges, setAccepting, Array.getElem?_modify]
  by_cases h : t = s
  · cases g.nodes[s]? <;> simp [h]
  · simp [h]

theorem accepting_setAccepting : (g.setAccepting t v).accepting s =
    if s = t ∧ t < g.size then v else g.accepting s := by
  simp only [accepting, setAccepting, Array.getElem?_modify]
  by_cases hs : t = s
  · subst hs
    by_cases hlt : t < g.size
    · obtain ⟨n, there⟩ : ∃ n, g.nodes[t]? = some n := ⟨_, Array.getElem?_eq_getElem hlt⟩
      simp [hlt, there]
    · have gone : g.nodes[t]? = none := Array.getElem?_eq_none (Nat.le_of_not_lt hlt)
      simp [hlt, gone]
  · simp [hs, Ne.symm hs]

@[simp] theorem num_setAccepting : (g.setAccepting t v).num s = g.num s := by
  simp only [num, setAccepting, Array.getElem?_modify]
  by_cases h : t = s
  · cases g.nodes[s]? <;> simp [h]
  · simp [h]

end setAccepting

end Graph

end FiniteAutomata
