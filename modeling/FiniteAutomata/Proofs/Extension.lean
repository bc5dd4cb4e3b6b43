/-
  FiniteAutomata.Proofs.Extension

  Graphs only ever grow. A graph extends another when it has the states of the other under
  their numbers, and behind the edges of the other at most further ones; accepting marks may
  differ. Every change of a graph extends it, so every rule of construction and every
  assembly does (`Assembly.extendsTo_assemble`), whether it goes through or breaks off, and
  whatever the operands are: also when they were used before.

  What is reached in a graph is reached in all its extensions (`ExtendsTo.reaches`).
-/
import FiniteAutomata.Proofs.Growth
import FiniteAutomata.Proofs.Path

namespace FiniteAutomata

namespace Graph

/-- All states and edges of a graph are there in another one, edges in their places, and the
    states have the numbers that they had. -/
structure ExtendsTo (g h : Graph) : Prop where
  size_le : g.size ≤ h.size
  edges : ∀ q, g.edges q <+: h.edges q
  num : ∀ q < g.size, h.num q = g.num q

namespace ExtendsTo

variable {g h k : Graph}

theorem refl (g : Graph) : g.ExtendsTo g where
  size_le := Nat.le_refl _
  edges _ := List.prefix_refl _
  num _ _ := rfl

theorem trans (hg : g.ExtendsTo h) (hk : h.ExtendsTo k) : g.ExtendsTo k where
  size_le := Nat.le_trans hg.size_le hk.size_le
  edges q := (hg.edges q).trans (hk.edges q)
  num q hq := (hk.num q (Nat.lt_of_lt_of_le hq hg.size_le)).trans (hg.num q hq)

theorem mem_edges (ext : g.ExtendsTo h) {q : StateId} {e : Edge} (he : e ∈ g.edges q) :
    e ∈ h.edges q := (ext.edges q).subset he

theorem reaches (ext : g.ExtendsTo h) {i q : StateId} (hq : g.Reaches i q) : h.Reaches i q :=
  hq.induct (.refl h i) fun _ hp he => hp.step (ext.mem_edges he)

end ExtendsTo

/-! ## Single changes -/

variable (g : Graph)

theorem extendsTo_addState (k : Int) (a : Bool) : g.ExtendsTo (g.addState k a) where
  size_le := by
    rw [size_addState]
    exact Nat.le_succ _
  edges q := ⟨[], by rw [List.append_nil, edges_addState]⟩
  num q hq := by
    rw [num_addState, if_neg (Nat.ne_of_lt hq)]

theorem extendsTo_addEdge (src : StateId) (l : Label) (dest : StateId) :
    g.ExtendsTo (g.addEdge src l dest) where
  size_le := Nat.le_of_eq (size_addEdge g src l dest).symm
  edges q := by
    rw [edges_addEdge]
    split
    · exact List.prefix_append _ _
    · exact List.prefix_refl _
  num q _ := num_addEdge g src l dest q

theorem extendsTo_addEpsilon (src dest : StateId) : g.ExtendsTo (g.addEpsilon src dest) :=
  g.extendsTo_addEdge src .epsilon dest

theorem extendsTo_setAccepting (q : StateId) (value : Bool) :
    g.ExtendsTo (g.setAccepting q value) where
  size_le := Nat.le_of_eq (size_setAccepting g q value).symm
  edges p := ⟨[], by rw [List.append_nil, edges_setAccepting]⟩
  num p _ := num_setAccepting g q value p

end Graph

/-! ## The rules of construction -/

namespace Site

variable (c : Site)

theorem extendsTo_newState (accepting : Bool) : c.graph.ExtendsTo (c.newState accepting).2.graph :=
  c.graph.extendsTo_addState c.counter accepting

theorem extendsTo_newEnds : c.graph.ExtendsTo c.newEnds.2.graph :=
  (c.extendsTo_newState false).trans ((c.newState false).2.extendsTo_newState true)

theorem extendsTo_symbol (t : Text) : c.graph.ExtendsTo (c.symbol t).2.graph :=
  c.extendsTo_newEnds.trans (Graph.extendsTo_addEdge _ _ _ _)

theorem extendsTo_enclose (ends x : Nfa) (g : Graph) : g.ExtendsTo (enclose ends x g) :=
  ((Graph.extendsTo_addEpsilon g _ _).trans (Graph.extendsTo_addEpsilon _ _ _)).trans
    (Graph.extendsTo_setAccepting _ _ _)

theorem extendsTo_join (j : Connective) (x y : Nfa) : c.graph.ExtendsTo (c.join j x y).2.graph := by
  cases j with
  | union =>
    exact (c.extendsTo_newEnds.trans (extendsTo_enclose _ x _)).trans (extendsTo_enclose _ y _)
  | concat => exact (Graph.extendsTo_addEpsilon _ _ _).trans (Graph.extendsTo_setAccepting _ _ _)

theorem extendsTo_repetition (r : Repetition) (x : Nfa) :
    c.graph.ExtendsTo (c.repetition r x).2.graph := by
  have around : ∀ (g : Graph) (b : Bool) (p q : StateId),
      g.ExtendsTo (if b then g.addEpsilon p q else g) := by
    intro g b p q
    split
    · exact Graph.extendsTo_addEpsilon g p q
    · exact .refl g
  exact (((c.extendsTo_newEnds.trans (Graph.extendsTo_addEpsilon _ _ _)).trans
    (around _ r.allowsNone _ _)).trans (around _ r.allowsMany _ _)).trans
    ((Graph.extendsTo_addEpsilon _ _ _).trans (Graph.extendsTo_setAccepting _ _ _))

end Site

namespace Assembly

variable {t : Token} {tokens : List Token} {stack out : List Nfa} {c d : Site}

theorem Step.extendsTo (step : Step t stack c out d) : c.graph.ExtendsTo d.graph := by
  cases step with
  | operand x stack c => exact c.extendsTo_symbol [x]
  | unary r x stack c => exact c.extendsTo_repetition r x
  | binary j x y stack c => exact c.extendsTo_join j x y

theorem Run.extendsTo (run : Run tokens stack c out d) : c.graph.ExtendsTo d.graph := by
  induction run with
  | nil stack c => exact .refl c.graph
  | cons step _ ih => exact step.extendsTo.trans ih

theorem extendsTo_assemble (tokens : List Token) (c : Site) :
    c.graph.ExtendsTo (assemble tokens c).2.graph := by
  obtain ⟨_, _, -, run, -⟩ := comesTo 0 [] c tokens
  exact run.extendsTo

end Assembly

end FiniteAutomata
