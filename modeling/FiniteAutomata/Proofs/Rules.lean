/-
  FiniteAutomata.Proofs.Rules

  What the rules of construction do to the graph, edge by edge and mark by mark. Every rule
  adds its edges behind those that were there before, and only new states and the final
  states of the operands get any.
-/
import FiniteAutomata.Nfa.Construction

namespace FiniteAutomata

namespace Graph

theorem edges_addEdge_of_lt {g : Graph} {src dest : StateId} (hs : src < g.size)
    (hd : dest < g.size) (l : Label) (q : StateId) :
    (g.addEdge src l dest).edges q = g.edges q ++ if q = src then [⟨l, dest⟩] else [] := by
  rw [edges_addEdge]
  by_cases h : q = src
  · rw [if_pos ⟨h, hs, hd⟩, if_pos h]
  · rw [if_neg fun k => h k.1, if_neg h, List.append_nil]

theorem edges_addEpsilon {g : Graph} {src dest : StateId} (hs : src < g.size)
    (hd : dest < g.size) (q : StateId) :
    (g.addEpsilon src dest).edges q =
      g.edges q ++ if q = src then [⟨.epsilon, dest⟩] else [] :=
  edges_addEdge_of_lt hs hd .epsilon q

@[simp] theorem size_addEpsilon (g : Graph) (src dest : StateId) :
    (g.addEpsilon src dest).size = g.size := size_addEdge g src .epsilon dest

@[simp] theorem accepting_addEpsilon (g : Graph) (src dest q : StateId) :
    (g.addEpsilon src dest).accepting q = g.accepting q := accepting_addEdge g src .epsilon dest q

end Graph

namespace Site

variable (c : Site)

@[simp] theorem newEnds_fst : c.newEnds.1 = ⟨c.graph.size, c.graph.size + 1⟩ := by
  simp [newEnds, newState]

@[simp] theorem size_newEnds : c.newEnds.2.graph.size = c.graph.size + 2 := by
  simp [newEnds, newState]

theorem initial_lt_newEnds : c.graph.size < c.newEnds.2.graph.size := by
  rw [size_newEnds]
  exact Nat.lt_add_of_pos_right (by decide)

theorem final_lt_newEnds : c.graph.size + 1 < c.newEnds.2.graph.size := by
  rw [size_newEnds]
  exact Nat.lt_succ_self _

theorem lt_newEnds {q : StateId} (h : q < c.graph.size) : q < c.newEnds.2.graph.size := by
  rw [size_newEnds]
  exact Nat.lt_add_right 2 h

@[simp] theorem edges_newEnds (q : StateId) : c.newEnds.2.graph.edges q = c.graph.edges q := by
  simp [newEnds, newState]

@[simp] theorem accepting_newEnds (q : StateId) :
    c.newEnds.2.graph.accepting q =
      if q = c.graph.size + 1 then true else c.graph.accepting q := by
  by_cases h : q = c.graph.size
  · simp [newEnds, newState, h, Graph.accepting_of_size_le]
  · simp [newEnds, newState, h]

/-! ## One symbol -/

section symbol

variable (t : Text) (q : StateId)

@[simp] theorem symbol_fst : (c.symbol t).1 = ⟨c.graph.size, c.graph.size + 1⟩ :=
  c.newEnds_fst

@[simp] theorem size_symbol : (c.symbol t).2.graph.size = c.graph.size + 2 := by
  simp [symbol, modify]

theorem edges_symbol : (c.symbol t).2.graph.edges q =
    c.graph.edges q ++ if q = c.graph.size then [⟨.text t, c.graph.size + 1⟩] else [] := by
  show (c.newEnds.2.graph.addEdge c.newEnds.1.initial (.text t) c.newEnds.1.final).edges q = _
  rw [newEnds_fst, Graph.edges_addEdge_of_lt c.initial_lt_newEnds c.final_lt_newEnds,
    edges_newEnds]

theorem mem_edges_symbol {e : Edge} : e ∈ (c.symbol t).2.graph.edges q ↔
    e ∈ c.graph.edges q ∨ q = c.graph.size ∧ e = ⟨.text t, c.graph.size + 1⟩ := by
  rw [edges_symbol, List.mem_append, List.mem_ite_nil_right, List.mem_singleton]

theorem accepting_symbol : (c.symbol t).2.graph.accepting q =
    if q = c.graph.size + 1 then true else c.graph.accepting q := by
  simp [symbol, modify]

end symbol

/-! ## One after the other -/

section concat

variable {c} {x y : Nfa} (hx : x.final < c.graph.size) (hy : y.initial < c.graph.size)
  (q : StateId)

@[simp] theorem concat_fst (x y : Nfa) (c : Site) : (c.concat x y).1 = ⟨x.initial, y.final⟩ := rfl

@[simp] theorem size_concat (x y : Nfa) (c : Site) :
    (c.concat x y).2.graph.size = c.graph.size := by
  simp [concat, modify]

include hx hy in
theorem edges_concat : (c.concat x y).2.graph.edges q =
    c.graph.edges q ++ if q = x.final then [⟨.epsilon, y.initial⟩] else [] := by
  show ((c.graph.addEpsilon x.final y.initial).setAccepting x.final false).edges q = _
  rw [Graph.edges_setAccepting, Graph.edges_addEpsilon hx hy]

theorem mem_edges_concat (hx : x.final < c.graph.size) (hy : y.initial < c.graph.size)
    {e : Edge} : e ∈ (c.concat x y).2.graph.edges q ↔
      e ∈ c.graph.edges q ∨ q = x.final ∧ e = ⟨.epsilon, y.initial⟩ := by
  rw [edges_concat hx hy, List.mem_append, List.mem_ite_nil_right, List.mem_singleton]

include hx in
theorem accepting_concat : (c.concat x y).2.graph.accepting q =
    if q = x.final then false else c.graph.accepting q := by
  simp [concat, modify, Graph.accepting_setAccepting, hx]

end concat

/-! ## Either of two -/

section enclose

variable {g : Graph} {ends x : Nfa} (hei : ends.initial < g.size) (hef : ends.final < g.size)
  (hxi : x.initial < g.size) (hxf : x.final < g.size) (q : StateId)

@[simp] theorem size_enclose (ends x : Nfa) (g : Graph) : (enclose ends x g).size = g.size := by
  simp [enclose]

include hei hef hxi hxf in
theorem edges_enclose : (enclose ends x g).edges q =
    g.edges q ++ ((if q = ends.initial then [⟨.epsilon, x.initial⟩] else []) ++
      if q = x.final then [⟨.epsilon, ends.final⟩] else []) := by
  unfold enclose
  rw [Graph.edges_setAccepting, Graph.edges_addEpsilon (by simpa) (by simpa),
    Graph.edges_addEpsilon hei hxi, List.append_assoc]

include hxf in
theorem accepting_enclose : (enclose ends x g).accepting q =
    if q = x.final then false else g.accepting q := by
  simp [enclose, Graph.accepting_setAccepting, hxf]

end enclose

section choice

variable {c} {x y : Nfa} (hxi : x.initial < c.graph.size) (hxf : x.final < c.graph.size)
  (hyi : y.initial < c.graph.size) (hyf : y.final < c.graph.size) (q : StateId)

@[simp] theorem choice_fst (x y : Nfa) (c : Site) :
    (c.choice x y).1 = ⟨c.graph.size, c.graph.size + 1⟩ := c.newEnds_fst

@[simp] theorem size_choice (x y : Nfa) (c : Site) :
    (c.choice x y).2.graph.size = c.graph.size + 2 := by
  simp [choice, modify, enclose]

include hxi hxf hyi hyf in
theorem edges_choice : (c.choice x y).2.graph.edges q =
    c.graph.edges q ++
      ((if q = c.graph.size then [⟨.epsilon, x.initial⟩, ⟨.epsilon, y.initial⟩] else []) ++
        ((if q = x.final then [⟨.epsilon, c.graph.size + 1⟩] else []) ++
          if q = y.final then [⟨.epsilon, c.graph.size + 1⟩] else [])) := by
  show (enclose c.newEnds.1 y (enclose c.newEnds.1 x c.newEnds.2.graph)).edges q = _
  have hs := c.initial_lt_newEnds
  have he := c.final_lt_newEnds
  rw [newEnds_fst, edges_enclose (by simp) (by simp)
      (by simpa using c.lt_newEnds hyi) (by simpa using c.lt_newEnds hyf),
    edges_enclose hs he (c.lt_newEnds hxi) (c.lt_newEnds hxf), edges_newEnds]
  by_cases h : q = c.graph.size
  · subst h
    simp [(Nat.ne_of_lt hxf).symm, (Nat.ne_of_lt hyf).symm]
  · simp [h]

theorem mem_edges_choice (hxi : x.initial < c.graph.size) (hxf : x.final < c.graph.size)
    (hyi : y.initial < c.graph.size) (hyf : y.final < c.graph.size) {e : Edge} :
    e ∈ (c.choice x y).2.graph.edges q ↔
      e ∈ c.graph.edges q ∨
        (q = c.graph.size ∧ (e = ⟨.epsilon, x.initial⟩ ∨ e = ⟨.epsilon, y.initial⟩)) ∨
        ((q = x.final ∨ q = y.final) ∧ e = ⟨.epsilon, c.graph.size + 1⟩) := by
  rw [edges_choice hxi hxf hyi hyf]
  simp only [List.mem_append, List.mem_ite_nil_right, List.mem_cons, List.not_mem_nil, or_false,
    or_and_right]

include hxf hyf in
theorem accepting_choice : (c.choice x y).2.graph.accepting q =
    if q = x.final ∨ q = y.final then false else if q = c.graph.size + 1 then true
    else c.graph.accepting q := by
  show (enclose c.newEnds.1 y (enclose c.newEnds.1 x c.newEnds.2.graph)).accepting q = _
  rw [accepting_enclose (by simpa using c.lt_newEnds hyf), accepting_enclose (c.lt_newEnds hxf),
    accepting_newEnds]
  by_cases hx : q = x.final <;> by_cases hy : q = y.final <;> simp [hx, hy]

end choice

/-! ## Repetition -/

section repetition

variable {c} (r : Repetition) {x : Nfa} (hi : x.initial < c.graph.size)
  (hf : x.final < c.graph.size) (q : StateId)

@[simp] theorem repetition_fst (x : Nfa) (c : Site) :
    (c.repetition r x).1 = ⟨c.graph.size, c.graph.size + 1⟩ := c.newEnds_fst

@[simp] theorem size_repetition (x : Nfa) (c : Site) :
    (c.repetition r x).2.graph.size = c.graph.size + 2 := by
  cases r <;> simp [repetition, modify, Repetition.allowsNone, Repetition.allowsMany]

include hi hf in
theorem edges_repetition : (c.repetition r x).2.graph.edges q =
    c.graph.edges q ++
      ((if q = c.graph.size then
          ⟨.epsilon, x.initial⟩ :: if r.allowsNone then [⟨.epsilon, c.graph.size + 1⟩] else []
        else []) ++
      if q = x.final then
          (if r.allowsMany then [⟨.epsilon, x.initial⟩] else []) ++ [⟨.epsilon, c.graph.size + 1⟩]
        else []) := by
  have hs := c.initial_lt_newEnds
  have he := c.final_lt_newEnds
  have hi' := c.lt_newEnds hi
  have hf' := c.lt_newEnds hf
  cases r <;>
    simp only [repetition, modify, newEnds_fst, Repetition.allowsNone, Repetition.allowsMany,
      if_true, if_false, Bool.false_eq_true, Graph.edges_setAccepting, Graph.edges_addEpsilon,
      Graph.size_addEpsilon, edges_newEnds, hs, he, hi', hf'] <;>
    by_cases h : q = c.graph.size <;> by_cases k : q = x.final <;> simp_all [(Nat.ne_of_lt hf).symm]

include hf in
theorem accepting_repetition : (c.repetition r x).2.graph.accepting q =
    if q = x.final then false else if q = c.graph.size + 1 then true
    else c.graph.accepting q := by
  have hf' : x.final < c.graph.size + 2 := Nat.lt_add_right 2 hf
  cases r <;>
    simp [repetition, modify, Repetition.allowsNone, Repetition.allowsMany,
      Graph.accepting_setAccepting, hf']

/-- The edges that a repetition adds, one by one. -/
theorem mem_edges_repetition (hi : x.initial < c.graph.size) (hf : x.final < c.graph.size)
    {e : Edge} : e ∈ (c.repetition r x).2.graph.edges q ↔
      e ∈ c.graph.edges q ∨
        (q = c.graph.size ∧
          (e = ⟨.epsilon, x.initial⟩ ∨
            r.allowsNone = true ∧ e = ⟨.epsilon, c.graph.size + 1⟩)) ∨
        (q = x.final ∧
          (r.allowsMany = true ∧ e = ⟨.epsilon, x.initial⟩ ∨
            e = ⟨.epsilon, c.graph.size + 1⟩)) := by
  rw [edges_repetition r hi hf]
  simp only [List.mem_append, List.mem_ite_nil_right, List.mem_cons, List.not_mem_nil, or_false]

end repetition

end Site

end FiniteAutomata
