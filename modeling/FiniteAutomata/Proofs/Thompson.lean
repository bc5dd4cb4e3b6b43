/-
  FiniteAutomata.Proofs.Thompson

  The shape of automata that the rules of construction have made from nothing. Such an
  automaton is trim: from each of its states there is a way to the final one, nothing leads
  out of the final state or back to the initial one, and every other state has one symbol to
  read or one or two empty moves (`Nfa.Trim`).

  Each rule makes a trim automaton of trim ones and takes over all their states, together
  with the states that it adds (`Builds`). So during an assembly, the states added so far are
  exactly those of the waiting automata (`Stock`): none is lost, and none is shared.
-/
import FiniteAutomata.Proofs.Assembled
import FiniteAutomata.Proofs.Growth

namespace FiniteAutomata

/-- The edges of a state that reads one symbol, or has one or two empty moves. -/
def Edge.Sparse (es : List Edge) : Prop :=
  (∃ t d, es = [⟨.text t, d⟩]) ∨ ((es.length = 1 ∨ es.length = 2) ∧ ∀ e ∈ es, e.label = .epsilon)

namespace Nfa

/-- A clean automaton without detours: every state has a way to the final one, and few edges.
    Nothing leads out of the final state, and nothing back to the initial one. -/
structure Trim (n : Nfa) (g : Graph) : Prop where
  clean : n.Clean g
  reaches_final : ∀ q, g.Reaches n.initial q → g.Reaches q n.final
  exit : g.edges n.final = []
  entry : ∀ q, g.Reaches n.initial q → ∀ e ∈ g.edges q, e.dest ≠ n.initial
  sparse : ∀ q, g.Reaches n.initial q → q ≠ n.final → Edge.Sparse (g.edges q)

namespace Trim

variable {n : Nfa} {g h : Graph} {used : List Nfa}

theorem final_reached (hn : n.Trim g) : g.Reaches n.initial n.final :=
  hn.reaches_final n.initial (.refl g n.initial)

/-- All states of a trim automaton are reached. -/
theorem holds_iff (hn : n.Trim g) {q : StateId} : n.Holds g q ↔ g.Reaches n.initial q := by
  constructor
  · rintro (hq | rfl)
    · exact hq
    · exact hn.final_reached
  · exact Or.inl

/-- A trim automaton whose states are left alone stays trim. -/
theorem of_sameOn (hn : n.Trim g) (size : g.size ≤ h.size)
    (same : Graph.SameOn g h (n.Holds g)) : n.Trim h := by
  have reached : ∀ {q}, h.Reaches n.initial q → g.Reaches n.initial q := fun hq =>
    (Graph.reaches_iff_of_sameOn fun p hp => same p (Or.inl hp)).mp hq
  refine ⟨hn.clean.of_sameOn size same, fun q hq => ?_, ?_, fun q hq => ?_, fun q hq => ?_⟩
  · refine (hn.reaches_final q (reached hq)).of_sameOn fun p hp => ?_
    exact same p (Or.inl ((reached hq).trans hp))
  · rw [(same n.final (Or.inr rfl)).1]
    exact hn.exit
  · rw [(same q (Or.inl (reached hq))).1]
    exact hn.entry q (reached hq)
  · rw [(same q (Or.inl (reached hq))).1]
    exact hn.sparse q (reached hq)

end Trim

end Nfa

/-! ## What every rule makes -/

/-- A rule has put the trim automata `used` together to the trim automaton `n`, which has
    taken over their states and all new ones. -/
structure Builds (g : Graph) (used : List Nfa) (n : Nfa) (h : Graph) : Prop where
  yields : Yields g used n h
  trim : n.Trim h
  reaches : ∀ q, (g.size ≤ q ∧ q < h.size) ∨ (∃ x ∈ used, g.Reaches x.initial q) →
    h.Reaches n.initial q

namespace Builds

variable {g h : Graph} {used : List Nfa} {n : Nfa}

/-- A rule keeps its operands trim inside the new automaton if it leads into each of them and
    out again, and from the new states to the end. -/
theorem of_yields (y : Yields g used n h) (trim : ∀ x ∈ used, x.Trim g)
    (mono : ∀ q, ∀ e ∈ g.edges q, e ∈ h.edges q)
    (enter : ∀ x ∈ used, h.Reaches n.initial x.initial)
    (leave : ∀ x ∈ used, h.Reaches x.final n.final)
    (fresh : ∀ q, g.size ≤ q → q < h.size → h.Reaches n.initial q ∧ h.Reaches q n.final)
    (exit : h.edges n.final = [])
    (entry : ∀ q, n.Holds h q → ∀ e ∈ h.edges q, e.dest ≠ n.initial)
    (sparse : ∀ q, (g.size ≤ q ∧ q < h.size) ∨ (∃ x ∈ used, q = x.final) → q ≠ n.final →
      Edge.Sparse (h.edges q)) : Builds g used n h := by
  -- A state of the new automaton is a new one or one of an operand.
  have origin : ∀ q, h.Reaches n.initial q →
      (g.size ≤ q ∧ q < h.size) ∨ ∃ x ∈ used, g.Reaches x.initial q := by
    intro q hq
    rcases y.holds q (Or.inl hq) with new | ⟨x, hx, hxq⟩
    · exact Or.inl ⟨new, y.clean.lt_size (Or.inl hq)⟩
    · exact Or.inr ⟨x, hx, (trim x hx).holds_iff.mp hxq⟩
  refine ⟨y, ⟨y.clean, fun q hq => ?_, exit, fun q hq => entry q (Or.inl hq),
    fun q hq hne => ?_⟩, ?_⟩
  · rcases origin q hq with ⟨new, lt⟩ | ⟨x, hx, hxq⟩
    · exact (fresh q new lt).2
    · exact (((trim x hx).reaches_final q hxq).mono mono).trans (leave x hx)
  · rcases origin q hq with new | ⟨x, hx, hxq⟩
    · exact sparse q (Or.inl new) hne
    · by_cases hend : ∃ z ∈ used, q = z.final
      · exact sparse q (Or.inr hend) hne
      · -- an inner state of an operand has the edges that it had
        have lt : q < g.size := (trim x hx).clean.lt_size (Or.inl hxq)
        have inner : ∀ z ∈ used, q ≠ z.final := fun z hz same => hend ⟨z, hz, same⟩
        rw [(y.same q lt inner).1]
        exact (trim x hx).sparse q hxq (inner x hx)
  · rintro q (⟨new, lt⟩ | ⟨x, hx, hxq⟩)
    · exact (fresh q new lt).1
    · exact (enter x hx).trans (hxq.mono mono)

/-- The three rules that make two new states, the ends of the new automaton. -/
theorem of_ends (y : Yields g used ⟨g.size, g.size + 1⟩ h) (size : h.size = g.size + 2)
    (trim : ∀ x ∈ used, x.Trim g) (added : StateId → List Edge)
    (edges : ∀ q, h.edges q = g.edges q ++ added q)
    (dest : ∀ q, ∀ e ∈ added q, e.dest = g.size + 1 ∨ ∃ x ∈ used, e.dest = x.initial)
    (enter : ∀ x ∈ used, ⟨.epsilon, x.initial⟩ ∈ added g.size)
    (leave : ∀ x ∈ used, ⟨.epsilon, g.size + 1⟩ ∈ added x.final)
    (through : h.Reaches g.size (g.size + 1)) (exit : added (g.size + 1) = [])
    (sparse : ∀ q, q = g.size ∨ (∃ x ∈ used, q = x.final) → Edge.Sparse (added q)) :
    Builds g used ⟨g.size, g.size + 1⟩ h := by
  have new : ∀ q, ∀ e ∈ added q, e ∈ h.edges q := by
    intro q e he
    rw [edges]
    exact List.mem_append_right _ he
  -- The edges of a new state, and of the final state of an operand, are all added.
  have only : ∀ q, g.edges q = [] → h.edges q = added q := by
    intro q none
    rw [edges, none, List.nil_append]
  refine of_yields y trim (fun q e he => ?_) (fun x hx => ?_) (fun x hx => ?_)
    (fun q hq lt => ?_) ?_ (fun q _ e he => ?_) (fun q hq hne => ?_)
  · rw [edges]
    exact List.mem_append_left _ he
  · exact (Graph.Reaches.refl h _).step (new _ _ (enter x hx))
  · exact (Graph.Reaches.refl h _).step (new _ _ (leave x hx))
  · have which : q = g.size ∨ q = g.size + 1 := by omega
    rcases which with rfl | rfl
    · exact ⟨.refl h _, through⟩
    · exact ⟨through, .refl h _⟩
  · rw [only _ (Graph.edges_of_size_le (Nat.le_succ _)), exit]
  · rw [edges] at he
    rcases List.mem_append.mp he with old | he
    · exact Nat.ne_of_lt (Graph.dest_lt old)
    · rcases dest q e he with hd | ⟨x, hx, hd⟩
      · rw [hd]
        exact Nat.succ_ne_self _
      · rw [hd]
        exact Nat.ne_of_lt (trim x hx).clean.initial_lt
  · rcases hq with ⟨hq, lt⟩ | ⟨x, hx, rfl⟩
    · have first : q = g.size := by
        have hne' : q ≠ g.size + 1 := hne
        omega
      rw [only q (Graph.edges_of_size_le hq)]
      exact sparse q (Or.inl first)
    · rw [only _ (trim x hx).exit]
      exact sparse _ (Or.inr ⟨x, hx, rfl⟩)

end Builds

/-! ## The five rules -/

namespace Site

variable {c : Site} {x y : Nfa}

theorem builds_symbol (t : Text) (c : Site) :
    Builds c.graph [] (c.symbol t).1 (c.symbol t).2.graph := by
  have yields := yields_symbol t c
  rw [symbol_fst] at yields ⊢
  have read : ⟨.text t, c.graph.size + 1⟩ ∈ (c.symbol t).2.graph.edges c.graph.size :=
    (mem_edges_symbol c t _).mpr (Or.inr ⟨rfl, rfl⟩)
  refine Builds.of_ends yields (size_symbol c t) (by simp) _ (edges_symbol c t) (by simp)
    (by simp) (by simp) ((Graph.Reaches.refl _ _).step read) (by simp) ?_
  rintro q (rfl | ⟨x, hx, -⟩)
  · exact Or.inl ⟨t, _, if_pos rfl⟩
  · cases hx

theorem builds_concat (hx : x.Trim c.graph) (hy : y.Trim c.graph)
    (apart : Nfa.Apart c.graph x y) :
    Builds c.graph [x, y] (c.concat x y).1 (c.concat x y).2.graph := by
  have yields := yields_concat hx.clean hy.clean apart
  rw [concat_fst] at yields ⊢
  have edges := edges_concat (c := c) hx.clean.final_lt hy.clean.initial_lt
  have mono : ∀ q, ∀ e ∈ c.graph.edges q, e ∈ (c.concat x y).2.graph.edges q := by
    intro q e he
    rw [edges]
    exact List.mem_append_left _ he
  have link : ⟨.epsilon, y.initial⟩ ∈ (c.concat x y).2.graph.edges x.final :=
    (mem_edges_concat _ hx.clean.final_lt hy.clean.initial_lt).mpr (Or.inr ⟨rfl, rfl⟩)
  have across : (c.concat x y).2.graph.Reaches x.final y.initial := (Graph.Reaches.refl _ _).step link
  have first := hx.final_reached.mono mono
  have second := hy.final_reached.mono mono
  have hne : y.final ≠ x.final := fun same => apart x.final (Or.inr rfl) (Or.inr same.symm)
  refine Builds.of_yields yields (by simp [hx, hy]) mono (fun z hz => ?_) (fun z hz => ?_)
    (fun q hq lt => ?_) ?_ (fun q hq e he => ?_) (fun q hq hne => ?_)
  · rcases List.mem_pair.mp hz with rfl | rfl
    · exact .refl _ _
    · exact first.trans across
  · rcases List.mem_pair.mp hz with rfl | rfl
    · exact across.trans second
    · exact .refl _ _
  · rw [size_concat] at lt
    exact absurd lt (Nat.not_lt.mpr hq)
  · rw [edges, if_neg hne, hy.exit, List.append_nil]
  · -- nothing leads back to the start of `x`, neither from `x` nor from `y`
    rcases (mem_edges_concat q hx.clean.final_lt hy.clean.initial_lt).mp he with old | ⟨-, rfl⟩
    · rcases yields.holds q hq with new | ⟨z, hz, hzq⟩
      · rw [Graph.edges_of_size_le new] at old
        cases old
      · rcases List.mem_pair.mp hz with rfl | rfl
        · exact hx.entry q (hx.holds_iff.mp hzq) e old
        · intro back
          have reached := (hy.holds_iff.mp hzq).step (l := e.label) old
          rw [back] at reached
          exact apart x.initial (Or.inl (.refl _ _)) (Or.inl reached)
    · intro same
      exact apart x.initial (Or.inl (.refl _ _)) (Or.inl (same ▸ .refl _ _))
  · rcases hq with ⟨hq, lt⟩ | ⟨z, hz, rfl⟩
    · rw [size_concat] at lt
      exact absurd lt (Nat.not_lt.mpr hq)
    · rcases List.mem_pair.mp hz with rfl | rfl
      · rw [edges, if_pos rfl, hx.exit]
        exact Or.inr ⟨Or.inl rfl, by simp⟩
      · exact absurd rfl hne

theorem builds_choice (hx : x.Trim c.graph) (hy : y.Trim c.graph)
    (apart : Nfa.Apart c.graph x y) :
    Builds c.graph [x, y] (c.choice x y).1 (c.choice x y).2.graph := by
  have yields := yields_choice hx.clean hy.clean
  have hxi := hx.clean.initial_lt
  have hxf := hx.clean.final_lt
  have hyi := hy.clean.initial_lt
  have hyf := hy.clean.final_lt
  have hne : x.final ≠ y.final := fun same => apart x.final (Or.inr rfl) (Or.inr same)
  have mono : ∀ q, ∀ e ∈ c.graph.edges q, e ∈ (c.choice x y).2.graph.edges q := fun q e he =>
    (mem_edges_choice q hxi hxf hyi hyf).mpr (Or.inl he)
  have enter : ⟨.epsilon, x.initial⟩ ∈ (c.choice x y).2.graph.edges c.graph.size :=
    (mem_edges_choice _ hxi hxf hyi hyf).mpr (Or.inr (Or.inl ⟨rfl, Or.inl rfl⟩))
  have leave : ⟨.epsilon, c.graph.size + 1⟩ ∈ (c.choice x y).2.graph.edges x.final :=
    (mem_edges_choice _ hxi hxf hyi hyf).mpr (Or.inr (Or.inr ⟨Or.inl rfl, rfl⟩))
  have through : (c.choice x y).2.graph.Reaches c.graph.size (c.graph.size + 1) :=
    (((Graph.Reaches.refl _ _).step enter).trans (hx.final_reached.mono mono)).step leave
  rw [choice_fst] at yields ⊢
  refine Builds.of_ends yields (size_choice x y c) (by simp [hx, hy]) _
    (edges_choice hxi hxf hyi hyf) (fun q e he => ?_) (by simp) (by simp) through ?_ ?_
  · simp only [List.mem_append, List.mem_ite_nil_right, List.mem_cons, List.not_mem_nil,
      or_false] at he
    rcases he with ⟨-, rfl | rfl⟩ | ⟨-, rfl⟩ | ⟨-, rfl⟩
    · exact Or.inr ⟨x, by simp, rfl⟩
    · exact Or.inr ⟨y, by simp, rfl⟩
    · exact Or.inl rfl
    · exact Or.inl rfl
  · have hxe := (Nat.ne_of_lt (Nat.lt_succ_of_lt hxf)).symm
    have hye := (Nat.ne_of_lt (Nat.lt_succ_of_lt hyf)).symm
    rw [if_neg (Nat.succ_ne_self _), if_neg hxe, if_neg hye]
    rfl
  · rintro q (rfl | ⟨z, hz, rfl⟩)
    · rw [if_pos rfl, if_neg (Nat.ne_of_gt hxf), if_neg (Nat.ne_of_gt hyf)]
      exact Or.inr ⟨Or.inr rfl, by simp⟩
    · rcases List.mem_pair.mp hz with rfl | rfl
      · rw [if_neg (Nat.ne_of_lt hxf), if_pos rfl, if_neg hne]
        exact Or.inr ⟨Or.inl rfl, by simp⟩
      · rw [if_neg (Nat.ne_of_lt hyf), if_neg hne.symm, if_pos rfl]
        exact Or.inr ⟨Or.inl rfl, by simp⟩

theorem builds_repetition (r : Repetition) (hx : x.Trim c.graph) :
    Builds c.graph [x] (c.repetition r x).1 (c.repetition r x).2.graph := by
  have yields := yields_repetition r hx.clean
  have hi := hx.clean.initial_lt
  have hf := hx.clean.final_lt
  have mono : ∀ q, ∀ e ∈ c.graph.edges q, e ∈ (c.repetition r x).2.graph.edges q := fun q e he =>
    (mem_edges_repetition r q hi hf).mpr (Or.inl he)
  have enter : ⟨.epsilon, x.initial⟩ ∈ (c.repetition r x).2.graph.edges c.graph.size :=
    (mem_edges_repetition r _ hi hf).mpr (Or.inr (Or.inl ⟨rfl, Or.inl rfl⟩))
  have leave : ⟨.epsilon, c.graph.size + 1⟩ ∈ (c.repetition r x).2.graph.edges x.final :=
    (mem_edges_repetition r _ hi hf).mpr (Or.inr (Or.inr ⟨rfl, Or.inr rfl⟩))
  have through : (c.repetition r x).2.graph.Reaches c.graph.size (c.graph.size + 1) :=
    (((Graph.Reaches.refl _ _).step enter).trans (hx.final_reached.mono mono)).step leave
  rw [repetition_fst] at yields ⊢
  refine Builds.of_ends yields (size_repetition r x c) (by simp [hx]) _
    (edges_repetition r hi hf) (fun q e he => ?_) (by simp) (by simp) through ?_ ?_
  · simp only [List.mem_append, List.mem_ite_nil_right, List.mem_cons, List.not_mem_nil,
      or_false] at he
    rcases he with ⟨-, rfl | ⟨-, rfl⟩⟩ | ⟨-, ⟨-, rfl⟩ | rfl⟩
    · exact Or.inr ⟨x, by simp, rfl⟩
    · exact Or.inl rfl
    · exact Or.inr ⟨x, by simp, rfl⟩
    · exact Or.inl rfl
  · have hxe := (Nat.ne_of_lt (Nat.lt_succ_of_lt hf)).symm
    rw [if_neg (Nat.succ_ne_self _), if_neg hxe]
    rfl
  · rintro q (rfl | ⟨z, hz, rfl⟩)
    · rw [if_pos rfl, if_neg (Nat.ne_of_gt hf)]
      cases r <;> exact Or.inr (by simp [Repetition.allowsNone])
    · obtain rfl := List.mem_singleton.mp hz
      rw [if_neg (Nat.ne_of_lt hf), if_pos rfl]
      cases r <;> exact Or.inr (by simp [Repetition.allowsMany])

theorem builds_join (j : Connective) (hx : x.Trim c.graph) (hy : y.Trim c.graph)
    (apart : Nfa.Apart c.graph x y) :
    Builds c.graph [x, y] (c.join j x y).1 (c.join j x y).2.graph := by
  cases j with
  | union => exact builds_choice hx hy apart
  | concat => exact builds_concat hx hy apart

end Site

/-! ## The waiting automata of an assembly -/

/-- The states from a place on are those of the waiting automata, each of one of them. -/
structure Stock (base : Nat) (g : Graph) (stack : List Nfa) : Prop where
  trim : ∀ n ∈ stack, n.Trim g
  apart : stack.Pairwise (Nfa.Apart g)
  covers : ∀ q, (base ≤ q ∧ q < g.size) ↔ ∃ n ∈ stack, g.Reaches n.initial q

namespace Stock

variable {base : Nat} {g h : Graph} {used taken rest stack : List Nfa} {n : Nfa}

theorem nil (g : Graph) : Stock g.size g [] where
  trim n hn := absurd hn List.not_mem_nil
  apart := .nil
  covers q := by simp

/-- A rule with operands from the stack leaves everything before them alone. -/
theorem sameOn_before (st : Stock base g stack) (taken : ∀ x ∈ used, x ∈ stack)
    (b : Builds g used n h) (le : base ≤ g.size) : Graph.SameOn g h (· < base) := by
  intro q hq
  refine b.yields.same q (Nat.lt_of_lt_of_le hq le) ?_
  rintro x hx rfl
  have inside := (st.covers x.final).mpr ⟨x, taken x hx, (st.trim x (taken x hx)).final_reached⟩
  exact absurd inside.1 (Nat.not_le.mpr hq)

/-- A rule puts its result on the stack in place of its operands. -/
theorem push (st : Stock base g (taken ++ rest)) (mem : ∀ x, x ∈ used ↔ x ∈ taken)
    (b : Builds g used n h) (le : base ≤ g.size) : Stock base h (n :: rest) := by
  obtain ⟨-, apartRest, across⟩ := List.pairwise_append.mp st.apart
  have clean : ∀ m ∈ rest, m.Clean g := fun m hm => (st.trim m (List.mem_append_right _ hm)).clean
  have apart : ∀ m ∈ rest, ∀ x ∈ used, Nfa.Apart g x m := fun m hm x hx =>
    across x ((mem x).mp hx) m hm
  have same : ∀ m ∈ rest, Graph.SameOn g h (m.Holds g) := fun m hm =>
    Stands.sameOn_of_yields b.yields (clean m hm) (apart m hm)
  have kept : ∀ m ∈ rest, m.Trim h := fun m hm =>
    (st.trim m (List.mem_append_right _ hm)).of_sameOn b.yields.size_le (same m hm)
  have reached : ∀ m ∈ rest, ∀ q, h.Reaches m.initial q ↔ g.Reaches m.initial q := fun m hm q =>
    Graph.reaches_iff_of_sameOn fun p hp => same m hm p (Or.inl hp)
  have operand : ∀ x ∈ used, ∀ q, x.Holds g q → g.Reaches x.initial q := fun x hx q hq =>
    (st.trim x (List.mem_append_left _ ((mem x).mp hx))).holds_iff.mp hq
  refine ⟨?_, ?_, fun q => ⟨?_, ?_⟩⟩
  · simpa using ⟨b.trim, kept⟩
  · refine List.pairwise_cons.mpr ⟨fun m hm q hq hmq => ?_, ?_⟩
    · -- what the new automaton holds is new or was held by an operand
      rw [Nfa.holds_iff_of_sameOn (same m hm)] at hmq
      rcases b.yields.holds q hq with new | ⟨x, hx, hxq⟩
      · exact absurd ((clean m hm).lt_size hmq) (Nat.not_lt.mpr new)
      · exact apart m hm x hx q hxq hmq
    · refine apartRest.imp_of_mem fun {m m'} hm hm' separate q hq hq' => ?_
      rw [Nfa.holds_iff_of_sameOn (same m hm)] at hq
      rw [Nfa.holds_iff_of_sameOn (same m' hm')] at hq'
      exact separate q hq hq'
  · rintro ⟨hq, lt⟩
    by_cases old : q < g.size
    · obtain ⟨m, hm, hmq⟩ := (st.covers q).mp ⟨hq, old⟩
      rcases List.mem_append.mp hm with hm | hm
      · exact ⟨n, List.mem_cons_self, b.reaches q (Or.inr ⟨m, (mem m).mpr hm, hmq⟩)⟩
      · exact ⟨m, List.mem_cons_of_mem n hm, (reached m hm q).mpr hmq⟩
    · exact ⟨n, List.mem_cons_self, b.reaches q (Or.inl ⟨Nat.le_of_not_lt old, lt⟩)⟩
  · rintro ⟨m, hm, hmq⟩
    have inside : ∀ m ∈ taken ++ rest, g.Reaches m.initial q → base ≤ q := fun m hm hmq =>
      ((st.covers q).mpr ⟨m, hm, hmq⟩).1
    rcases List.mem_cons.mp hm with rfl | hm
    · refine ⟨?_, b.trim.clean.lt_size (Or.inl hmq)⟩
      rcases b.yields.holds q (Or.inl hmq) with new | ⟨x, hx, hxq⟩
      · exact Nat.le_trans le new
      · exact inside x (List.mem_append_left _ ((mem x).mp hx)) (operand x hx q hxq)
    · exact ⟨inside m (List.mem_append_right _ hm) ((reached m hm q).mp hmq),
        (kept m hm).clean.lt_size (Or.inl hmq)⟩

end Stock

namespace Assembly

variable {base : Nat} {t : Token} {tokens : List Token} {stack out : List Nfa} {c d : Site}

/-- A step uses a rule on automata that it takes off the stack, and puts its result there. -/
theorem Step.builds (step : Step t stack c out d) (st : Stock base c.graph stack) :
    ∃ used taken rest n, stack = taken ++ rest ∧ out = n :: rest ∧ (∀ x, x ∈ used ↔ x ∈ taken) ∧
      Builds c.graph used n d.graph := by
  cases step with
  | operand x stack c => exact ⟨[], [], stack, _, rfl, rfl, by simp, Site.builds_symbol [x] c⟩
  | unary r x stack c =>
    exact ⟨[x], [x], stack, _, rfl, rfl, by simp, Site.builds_repetition r (st.trim x (by simp))⟩
  | binary j x y stack c =>
    have apart : Nfa.Apart c.graph x y :=
      ((List.pairwise_cons.mp st.apart).1 x List.mem_cons_self).symm
    exact ⟨[x, y], [y, x], stack, _, rfl, rfl, by simp [or_comm],
      Site.builds_join j (st.trim x (by simp)) (st.trim y (by simp)) apart⟩

/-- What one step keeps. -/
theorem Step.stock (step : Step t stack c out d) (st : Stock base c.graph stack)
    (le : base ≤ c.graph.size) :
    Stock base d.graph out ∧ Graph.SameOn c.graph d.graph (· < base) := by
  obtain ⟨used, taken, rest, n, rfl, rfl, mem, builds⟩ := step.builds st
  exact ⟨st.push mem builds le,
    st.sameOn_before (fun x hx => List.mem_append_left _ ((mem x).mp hx)) builds le⟩

/-- What a whole run keeps: the states added are those of the waiting automata, and the others
    are left alone. -/
theorem Run.stock (run : Run tokens stack c out d) (st : Stock base c.graph stack)
    (le : base ≤ c.graph.size) :
    Stock base d.graph out ∧ Graph.SameOn c.graph d.graph (· < base) := by
  induction run with
  | nil stack c => exact ⟨st, fun q _ => ⟨rfl, rfl⟩⟩
  | cons step _ ih =>
    obtain ⟨st', same⟩ := step.stock st le
    obtain ⟨st'', same'⟩ := ih st' (Nat.le_trans le step.grows.le_size)
    refine ⟨st'', fun q hq => ?_⟩
    rw [(same' q hq).1, (same' q hq).2]
    exact same q hq

end Assembly

end FiniteAutomata
