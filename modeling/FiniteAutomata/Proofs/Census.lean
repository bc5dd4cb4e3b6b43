/-
  FiniteAutomata.Proofs.Census

  How many states and edges an assembly makes, and of which kind. The labels of all edges
  added so far are counted as a multiset (`Graph.labelsFrom`): each step adds the labels of
  its token to it, so in the end they are those of all tokens (`Run.labelsFrom`).

  Together with the shape of the automaton this is all there is to say about it
  (`Thompson`): what tokens make in a session has that form, with the next numbers of the
  builder (`assemble_thompson`).
-/
import FiniteAutomata.Proofs.Evaluation
import FiniteAutomata.Proofs.Thompson
import Mathlib.Algebra.BigOperators.Intervals
import Mathlib.Algebra.Order.BigOperators.Group.Finset

namespace FiniteAutomata

namespace Edge

/-- The labels of edges, each as often as it stands there. -/
def labels (es : List Edge) : Multiset Label := (es.map Edge.label : List Label)

@[simp] theorem labels_nil : labels [] = 0 := rfl

@[simp] theorem labels_append (es fs : List Edge) :
    labels (es ++ fs) = labels es + labels fs := by
  simp [labels, ← Multiset.coe_add]

/-- Edges that only one state of a range has. -/
theorem sum_labels_ite {base top a : StateId} (lo : base ≤ a) (hi : a < top) (es : List Edge) :
    ∑ q ∈ Finset.Ico base top, labels (if q = a then es else []) = labels es := by
  rw [Finset.sum_eq_single_of_mem a (Finset.mem_Ico.mpr ⟨lo, hi⟩), if_pos rfl]
  intro q _ hne
  rw [if_neg hne, labels_nil]

end Edge

namespace Graph

variable {g h : Graph} {base : StateId}

/-- The labels on the edges of the states from a place on. -/
def labelsFrom (g : Graph) (base : StateId) : Multiset Label :=
  ∑ q ∈ Finset.Ico base g.size, Edge.labels (g.edges q)

theorem labelsFrom_size (g : Graph) : g.labelsFrom g.size = 0 := by
  rw [labelsFrom, Finset.Ico_self, Finset.sum_empty]

/-- Added edges add their labels. -/
theorem labelsFrom_of_added {added : StateId → List Edge} (size : g.size ≤ h.size)
    (edges : ∀ q, h.edges q = g.edges q ++ added q) :
    h.labelsFrom base = g.labelsFrom base +
      ∑ q ∈ Finset.Ico base h.size, Edge.labels (added q) := by
  -- new states had no edges before
  have old : ∑ q ∈ Finset.Ico base h.size, Edge.labels (g.edges q) = g.labelsFrom base := by
    refine (Finset.sum_subset (Finset.Ico_subset_Ico_right size) fun q hq hne => ?_).symm
    have beyond : g.size ≤ q := by
      simp only [Finset.mem_Ico] at hq hne
      omega
    rw [edges_of_size_le beyond, Edge.labels_nil]
  rw [labelsFrom, ← old, ← Finset.sum_add_distrib]
  exact Finset.sum_congr rfl fun q _ => by rw [edges, Edge.labels_append]

/-- The labels of all states from a place on, when these are listed in any order. -/
theorem labelsFrom_eq_of_perm {l : List StateId} (perm : l.Perm (List.range' base (g.size - base))) :
    g.labelsFrom base = Edge.labels (l.flatMap g.edges) := by
  have same : (Finset.Ico base g.size).val = (l : Multiset StateId) :=
    Multiset.coe_eq_coe.mpr perm.symm
  rw [labelsFrom, Finset.sum, same, Edge.labels, List.map_flatMap]
  exact Multiset.coe_bind l fun q => (g.edges q).map Edge.label

end Graph

/-! ## One step -/

/-- The labels of the edges that the assembly adds for a token. -/
def Token.edgeLabels : Token → List Label
  | .operand x => [.text [x]]
  | .op (.unary r) => List.replicate (2 + r.allowsNone.toNat + r.allowsMany.toNat) .epsilon
  | .op (.binary .union) => List.replicate 4 .epsilon
  | .op (.binary .concat) => [.epsilon]
  | .lparen | .rparen => []

namespace Assembly

variable {base : Nat} {t : Token} {tokens : List Token} {stack out : List Nfa} {c d : Site}

theorem Step.labelsFrom (step : Step t stack c out d) (st : Stock base c.graph stack)
    (le : base ≤ c.graph.size) :
    d.graph.labelsFrom base = c.graph.labelsFrom base + t.edgeLabels := by
  have size := step.grows.le_size
  have final : ∀ n ∈ stack, base ≤ n.final ∧ n.final < d.graph.size := by
    intro n hn
    obtain ⟨lo, hi⟩ := (st.covers n.final).mpr ⟨n, hn, (st.trim n hn).final_reached⟩
    exact ⟨lo, Nat.lt_of_lt_of_le hi size⟩
  cases step with
  | operand x stack c =>
    have new : c.graph.size < (c.symbol [x]).2.graph.size := by simp
    rw [Graph.labelsFrom_of_added size (Site.edges_symbol c [x]), Edge.sum_labels_ite le new]
    rfl
  | unary r x stack c =>
    have hx := (st.trim x (by simp)).clean
    have new : c.graph.size < (c.repetition r x).2.graph.size := by simp
    obtain ⟨lo, hi⟩ := final x (by simp)
    rw [Graph.labelsFrom_of_added size (Site.edges_repetition r hx.initial_lt hx.final_lt)]
    simp only [Edge.labels_append, Finset.sum_add_distrib, Edge.sum_labels_ite le new,
      Edge.sum_labels_ite lo hi]
    cases r <;> rfl
  | binary j x y stack c =>
    have hx := (st.trim x (by simp)).clean
    have hy := (st.trim y (by simp)).clean
    obtain ⟨lox, hix⟩ := final x (by simp)
    obtain ⟨loy, hiy⟩ := final y (by simp)
    cases j with
    | union =>
      have new : c.graph.size < (c.join .union x y).2.graph.size := by simp [Site.join]
      rw [Graph.labelsFrom_of_added size
        (Site.edges_choice hx.initial_lt hx.final_lt hy.initial_lt hy.final_lt)]
      simp only [Edge.labels_append, Finset.sum_add_distrib, Edge.sum_labels_ite le new,
        Edge.sum_labels_ite lox hix, Edge.sum_labels_ite loy hiy]
      rfl
    | concat =>
      rw [Graph.labelsFrom_of_added size (Site.edges_concat hx.final_lt hy.initial_lt),
        Edge.sum_labels_ite lox hix]
      rfl

/-- The labels of the edges that a run adds are those of its tokens. -/
theorem Run.labelsFrom (run : Run tokens stack c out d) (st : Stock base c.graph stack)
    (le : base ≤ c.graph.size) :
    d.graph.labelsFrom base = c.graph.labelsFrom base + (tokens.flatMap Token.edgeLabels) := by
  induction run with
  | nil stack c => simp
  | cons step _ ih =>
    obtain ⟨st', -⟩ := step.stock st le
    rw [ih st' (Nat.le_trans le step.grows.le_size), step.labelsFrom st le, List.flatMap_cons,
      add_assoc, Multiset.coe_add]

/-! ## Kinds of labels -/

theorem countP_symbol_edgeLabels (tokens : List Token) :
    (tokens.flatMap Token.edgeLabels).countP (fun l => !l.isEpsilon) =
      tokens.countP Token.isOperand := by
  induction tokens with
  | nil => rfl
  | cons t rest ih =>
    rw [List.flatMap_cons, List.countP_append, ih, List.countP_cons]
    match t with
    | .operand x => exact Nat.add_comm 1 _
    | .op (.unary .star) | .op (.unary .plus) | .op (.unary .question) | .op (.binary .union)
    | .op (.binary .concat) | .lparen | .rparen => exact Nat.zero_add _

theorem countP_epsilon_edgeLabels (tokens : List Token) :
    (tokens.flatMap Token.edgeLabels).countP Label.isEpsilon =
      tokens.count (.op (.binary .concat)) +
        4 * (tokens.count (.op (.binary .union)) + tokens.count (.op (.unary .star))) +
        3 * (tokens.count (.op (.unary .plus)) + tokens.count (.op (.unary .question))) := by
  induction tokens with
  | nil => rfl
  | cons t rest ih =>
    rw [List.flatMap_cons, List.countP_append, ih]
    match t with
    | .operand _ | .lparen | .rparen => simp [Token.edgeLabels, Label.isEpsilon]
    | .op (.unary .star) | .op (.unary .plus) | .op (.unary .question) | .op (.binary .union)
    | .op (.binary .concat) =>
      simp [Token.edgeLabels, Repetition.allowsNone, Repetition.allowsMany, Label.isEpsilon,
        List.countP_cons]
      omega

end Assembly

/-! ## The whole automaton -/

/-- What the rules of construction make of tokens in postfix order, with numbers from `k` on. -/
structure Thompson (n : Nfa) (g : Graph) (k : Nat) (tokens : List Token) : Prop where
  /-- The states, by number: two for each token that is no mark of concatenation. -/
  numbers : (g.reachable n.initial).map g.num =
    (List.range' k (2 * tokens.countP (fun t => t ≠ .op (.binary .concat)))).map
      fun i : Nat => (i : Int)
  /-- Every state has a way to the final one. -/
  reaches_final : ∀ q, g.Reaches n.initial q → g.Reaches q n.final
  accepting : ∀ q, g.Reaches n.initial q → (g.accepting q = true ↔ q = n.final)
  exit : g.edges n.final = []
  entry : ∀ q, ∀ e ∈ g.edges q, e.dest ≠ n.initial
  /-- Every other state reads one symbol or has one or two empty moves. -/
  sparse : ∀ q, g.Reaches n.initial q → q ≠ n.final → Edge.Sparse (g.edges q)
  /-- One edge reads a symbol for each operand. -/
  symbols : ((g.reachable n.initial).flatMap g.edges).countP (fun e => !e.label.isEpsilon) =
    tokens.countP Token.isOperand
  silents : ((g.reachable n.initial).flatMap g.edges).countP (fun e => e.label.isEpsilon) =
    tokens.count (.op (.binary .concat)) +
      4 * (tokens.count (.op (.binary .union)) + tokens.count (.op (.unary .star))) +
      3 * (tokens.count (.op (.unary .plus)) + tokens.count (.op (.unary .question)))

namespace Assembly

variable {tokens : List Token} {n : Nfa} {c d : Site}

/-- An assembly that goes through is a run that leaves its automaton alone on the stack. -/
theorem run_of_assemble (ok : assemble tokens c = (.ok n, d)) : Run tokens [] c [n] d := by
  obtain ⟨used, out, -, run, all⟩ := comesTo 0 [] c tokens
  have result : assembleFrom 0 [] c tokens = (.ok n, d) := ok
  rw [result] at run all
  obtain ⟨rfl, rfl⟩ := all n rfl
  exact run

/-- The states of the automaton that is built are the states that were added. -/
theorem stock_of_assemble (ok : assemble tokens c = (.ok n, d)) :
    n.Trim d.graph ∧
      (∀ q, d.graph.Reaches n.initial q ↔ c.graph.size ≤ q ∧ q < d.graph.size) ∧
      Graph.SameOn c.graph d.graph (· < c.graph.size) := by
  obtain ⟨st, same⟩ := (run_of_assemble ok).stock (.nil c.graph) (Nat.le_refl _)
  refine ⟨st.trim n (by simp), fun q => ?_, same⟩
  rw [st.covers q]
  simp

theorem reachable_perm (ok : assemble tokens c = (.ok n, d)) :
    (d.graph.reachable n.initial).Perm
      (List.range' c.graph.size (d.graph.size - c.graph.size)) := by
  obtain ⟨-, states, -⟩ := stock_of_assemble ok
  have le := (run_of_assemble ok).grows.le_size
  refine (List.perm_ext_iff_of_nodup (Graph.nodup_reachable _ _) List.nodup_range').mpr fun q => ?_
  rw [Graph.mem_reachable, List.mem_range'_1, Nat.add_sub_cancel' le]
  exact states q

/-- The labels on the edges of the automaton are those of the tokens. -/
theorem labels_of_assemble (ok : assemble tokens c = (.ok n, d)) :
    (((d.graph.reachable n.initial).flatMap d.graph.edges).map Edge.label).Perm
      (tokens.flatMap Token.edgeLabels) := by
  have all := (run_of_assemble ok).labelsFrom (.nil c.graph) (Nat.le_refl _)
  rw [Graph.labelsFrom_size, zero_add, Graph.labelsFrom_eq_of_perm (reachable_perm ok)] at all
  exact Multiset.coe_eq_coe.mp all

theorem numbers_of_assemble (ok : assemble tokens c = (.ok n, d)) :
    (d.graph.reachable n.initial).map d.graph.num =
      (List.range' c.counter (d.graph.size - c.graph.size)).map (fun i : Nat => (i : Int)) := by
  have grows := (run_of_assemble ok).grows
  have fresh : d.graph.size - c.graph.size =
      2 * tokens.countP (fun t => t ≠ .op (.binary .concat)) := by
    rw [grows.size, Nat.add_sub_cancel_left]
  -- By place, the numbers are the next ones; both lists are in ascending order.
  have places : (List.range' c.graph.size (d.graph.size - c.graph.size)).map d.graph.num =
      (List.range' c.counter (d.graph.size - c.graph.size)).map (fun i : Nat => (i : Int)) := by
    rw [List.range'_eq_map_range, List.range'_eq_map_range, List.map_map, List.map_map]
    refine List.map_congr_left fun i hi => grows.num_new i ?_
    rw [← fresh]
    exact List.mem_range.mp hi
  refine List.Perm.eq_of_pairwise (fun a b _ _ => Int.le_antisymm)
    (List.pairwise_map.mpr (Graph.reachable_pairwise _ _)) (List.pairwise_map.mpr ?_)
    (places ▸ (reachable_perm ok).map d.graph.num)
  exact (List.pairwise_lt_range').imp fun lt => Int.ofNat_le.mpr (Nat.le_of_lt lt)

theorem thompson_of_assemble (ok : assemble tokens c = (.ok n, d)) :
    Thompson n d.graph c.counter tokens := by
  have grows := (run_of_assemble ok).grows
  have labels := labels_of_assemble ok
  obtain ⟨trim, states, same⟩ := stock_of_assemble ok
  have fresh : d.graph.size - c.graph.size =
      2 * tokens.countP (fun t => t ≠ .op (.binary .concat)) := by
    rw [grows.size, Nat.add_sub_cancel_left]
  refine ⟨?_, trim.reaches_final, fun q hq => ⟨trim.clean.only_final q hq, ?_⟩, trim.exit,
    fun q e he => ?_, trim.sparse, ?_, ?_⟩
  · rw [numbers_of_assemble ok, fresh]
  · rintro rfl
    exact trim.clean.final_accepting
  · -- an edge of an earlier state leads to an earlier state
    by_cases old : q < c.graph.size
    · rw [(same q old).1] at he
      have first := ((states n.initial).mp (.refl _ _)).1
      exact Nat.ne_of_lt (Nat.lt_of_lt_of_le (Graph.dest_lt he) first)
    · refine trim.entry q ((states q).mpr ⟨Nat.le_of_not_lt old, ?_⟩) e he
      exact (Graph.lt_of_mem_edges he).1
  · rw [← countP_symbol_edgeLabels, ← labels.countP_eq, List.countP_map]
    rfl
  · rw [← countP_epsilon_edgeLabels, ← labels.countP_eq, List.countP_map]
    rfl

end Assembly

/-! ## In a session -/

namespace Session

variable {s : Session} {tokens : Text} {b : Option BuilderId}

/-- After an assembly, the builder in use has the counter of the site. -/
theorem counter_assemble {y : BuilderId} (there : y < s.builders.size) :
    (s.assemble tokens (some y)).2.counter y =
      (Assembly.assemble (Token.ofText tokens) ⟨s.graph, s.counter y⟩).2.counter := by
  have taken : ∀ c : Site, (s.takeOver (some y) c).counter y = c.counter := by
    intro c
    simp [takeOver, leaveSite, counter, there]
  unfold assemble
  rw [Option.map_some, Option.getD_some]
  match Assembly.assemble (Token.ofText tokens) ⟨s.graph, s.counter y⟩ with
  | (.ok n, c) =>
    rw [← taken c]
    exact congrArg (fun builders : Array Nat => builders[y]?.getD 0) (builders_announce _ n tokens)
  | (.error f, c) => exact taken c

/-- What tokens make in a session has the shape of Thompson's construction, with the next
    numbers of the builder. Its states are all that were added, and the counter of the builder
    stands behind their numbers. -/
theorem assemble_thompson (s : Session) (tokens : Text) (b : Option BuilderId) {a : Answer}
    (answered : (s.perform (.assemble tokens b)).1.answer = .ok a) :
    ∃ x, a = .value (.nfa x) ∧
      Thompson ((s.perform (.assemble tokens b)).2.nfa x) (s.perform (.assemble tokens b)).2.graph
        ((b.map s.counter).getD 0) (Token.ofText tokens) ∧
      (∀ q, (s.perform (.assemble tokens b)).2.graph.Reaches
          ((s.perform (.assemble tokens b)).2.nfa x).initial q ↔
        s.graph.size ≤ q ∧ q < (s.perform (.assemble tokens b)).2.graph.size) ∧
      ∀ y, b = some y → (s.perform (.assemble tokens b)).2.counter y =
        s.counter y + 2 * (Token.ofText tokens).countP (fun t => t ≠ .op (.binary .concat)) := by
  obtain ⟨there, performed⟩ := perform_of_ok answered
  have executed : s.perform (.assemble tokens b) = s.assemble tokens b := performed
  rw [executed] at answered ⊢
  obtain ⟨n, c, ok⟩ := exists_of_assemble answered
  obtain ⟨answer, graph, nfa⟩ := assemble_of_ok ok
  refine ⟨_, Except.ok.inj (answered.symm.trans answer), ?_⟩
  rw [graph, nfa]
  refine ⟨Assembly.thompson_of_assemble ok, (Assembly.stock_of_assemble ok).2.1, ?_⟩
  rintro y rfl
  have known : y < s.builders.size := by simpa [Command.mentions, has] using there
  have result : Assembly.assemble (Token.ofText tokens) ⟨s.graph, s.counter y⟩ = (.ok n, c) := ok
  rw [counter_assemble known, result, (Assembly.run_of_assemble result).grows.counter]

theorem assemble_thompson_nested :
    let s : Session := { fresh false with builders := #[7] }
    let t := (s.perform (.assemble "ab·c|*".toList (some 0))).2
    (s.perform (.assemble "ab·c|*".toList (some 0))).1.answer = .ok (.value (.nfa 0)) ∧
      Thompson (t.nfa 0) t.graph 7 (Token.ofText "ab·c|*".toList) ∧ t.counter 0 = 17 := by
  intro s t
  have answered : (s.perform (.assemble "ab·c|*".toList (some 0))).1.answer =
      .ok (.value (.nfa 0)) := by rfl
  obtain ⟨x, same, thompson, -, counter⟩ :=
    assemble_thompson s "ab·c|*".toList (some 0) answered
  cases same
  exact ⟨answered, thompson, counter 0 rfl⟩

end Session

end FiniteAutomata
