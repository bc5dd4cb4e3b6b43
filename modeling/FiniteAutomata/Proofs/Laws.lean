/-
  FiniteAutomata.Proofs.Laws

  What the automata that the rules of construction build accept. The operands may be any
  clean automata: edges may lead into their initial states and out of their final ones, and
  a final state need not be reached.

  `Yields` is what every rule keeps: the new automaton is clean, it holds only new states
  and states of its operands, and outside the final states of the operands nothing that was
  there before has changed. The languages are found by labelling every state with the words
  that should lead from it to the new final state (`Graph.between_le`) and, the other way
  round, by walking through the operands.
-/
import FiniteAutomata.Proofs.Meaning
import FiniteAutomata.Proofs.Rules
import FiniteAutomata.Proofs.Fragment

namespace FiniteAutomata

open Computability

/-! ## What every rule keeps -/

/-- A rule has put the automata `used` together to `n` and turned the graph `g` into `h`. -/
structure Yields (g : Graph) (used : List Nfa) (n : Nfa) (h : Graph) : Prop where
  size_le : g.size ≤ h.size
  clean : n.Clean h
  holds : ∀ q, n.Holds h q → g.size ≤ q ∨ ∃ x ∈ used, x.Holds g q
  same : ∀ q < g.size, (∀ x ∈ used, q ≠ x.final) →
    h.edges q = g.edges q ∧ h.accepting q = g.accepting q

namespace Yields

variable {g h : Graph} {used : List Nfa}

/-- New edges lead to new states and to initial states of operands only, so nothing else
    comes into reach. -/
theorem reaches {s q : StateId} (base : g.size ≤ s ∨ ∃ x ∈ used, s = x.initial)
    (edges : ∀ p, ∀ e ∈ h.edges p,
      e ∈ g.edges p ∨ g.size ≤ e.dest ∨ ∃ x ∈ used, e.dest = x.initial)
    (hq : h.Reaches s q) : g.size ≤ q ∨ ∃ x ∈ used, g.Reaches x.initial q := by
  have entry : ∀ d, (g.size ≤ d ∨ ∃ x ∈ used, d = x.initial) →
      g.size ≤ d ∨ ∃ x ∈ used, g.Reaches x.initial d := by
    rintro d (hd | ⟨x, hx, rfl⟩)
    · exact Or.inl hd
    · exact Or.inr ⟨x, hx, .refl g _⟩
  refine hq.induct (M := fun d => g.size ≤ d ∨ ∃ x ∈ used, g.Reaches x.initial d)
    (entry s base) fun {p d l} _ ih he => ?_
  rcases edges p _ he with old | new
  · rcases ih with hp | ⟨x, hx, hp⟩
    · rw [Graph.edges_of_size_le hp] at old
      cases old
    · exact Or.inr ⟨x, hx, hp.step old⟩
  · exact entry d new

/-- The three rules that make two new states, of which the second is the new final state. -/
theorem of_ends (size : h.size = g.size + 2) (clean : ∀ x ∈ used, x.Clean g)
    (edges : ∀ p, ∀ e ∈ h.edges p,
      e ∈ g.edges p ∨ g.size ≤ e.dest ∨ ∃ x ∈ used, e.dest = x.initial)
    (accepting : ∀ q, h.accepting q = true ↔
      q = g.size + 1 ∨ g.accepting q = true ∧ ∀ x ∈ used, q ≠ x.final)
    (same : ∀ q < g.size, (∀ x ∈ used, q ≠ x.final) → h.edges q = g.edges q) :
    Yields g used ⟨g.size, g.size + 1⟩ h where
  size_le := by rw [size]; exact Nat.le_add_right _ 2
  clean :=
    { initial_lt := by rw [size]; exact Nat.lt_add_of_pos_right (by decide)
      final_accepting := (accepting _).mpr (Or.inl rfl)
      only_final := by
        intro q hq ha
        rcases (accepting q).mp ha with hf | ⟨ha, hne⟩
        · exact hf
        · rcases reaches (Or.inl (Nat.le_refl _)) edges hq with hq | ⟨x, hx, hq⟩
          · rw [Graph.accepting_of_size_le hq] at ha
            cases ha
          · exact absurd ((clean x hx).only_final q hq ha) (hne x hx) }
  holds := by
    rintro q (hq | rfl)
    · rcases reaches (Or.inl (Nat.le_refl _)) edges hq with hq | ⟨x, hx, hq⟩
      · exact Or.inl hq
      · exact Or.inr ⟨x, hx, Or.inl hq⟩
    · exact Or.inl (Nat.le_succ _)
  same q hq hne := by
    refine ⟨same q hq hne, ?_⟩
    rw [Bool.eq_iff_iff, accepting q]
    have hend : q ≠ g.size + 1 := Nat.ne_of_lt (Nat.lt_succ_of_lt hq)
    simp [hend]
    exact fun _ => hne

end Yields

namespace Site

variable {c : Site}

/-! ## Two new ends -/

/-- A labelling of the old states, with labels of their own for the two new states of a
    rule. -/
def labelled (g : Graph) (L : Language Text) (inner : StateId → Language Text) (q : StateId) :
    Language Text :=
  if q = g.size then L else if q = g.size + 1 then 1 else inner q

section labelled

variable {g h : Graph} {L : Language Text} {inner : StateId → Language Text}

theorem labelled_initial : labelled g L inner g.size = L := if_pos rfl

theorem labelled_final : labelled g L inner (g.size + 1) = 1 := by
  rw [labelled, if_neg (Nat.succ_ne_self _), if_pos rfl]

theorem labelled_old {q : StateId} (hq : q < g.size) : labelled g L inner q = inner q := by
  rw [labelled, if_neg (Nat.ne_of_lt hq), if_neg (Nat.ne_of_lt (Nat.lt_succ_of_lt hq))]

/-- The words between the new ends are bounded by the label of the first one, if the old
    edges respect the labels of the old states and the new ones all labels. -/
theorem between_ends_le (inner : StateId → Language Text)
    (silent : ∀ q d, ⟨.epsilon, d⟩ ∈ g.edges q → inner d ≤ inner q)
    (read : ∀ q d t, ⟨.text t, d⟩ ∈ g.edges q → {[t]} * inner d ≤ inner q)
    (newSilent : ∀ q d, ⟨.epsilon, d⟩ ∈ h.edges q →
      ⟨.epsilon, d⟩ ∈ g.edges q ∨ labelled g L inner d ≤ labelled g L inner q)
    (newRead : ∀ q d t, ⟨.text t, d⟩ ∈ h.edges q →
      ⟨.text t, d⟩ ∈ g.edges q ∨ {[t]} * labelled g L inner d ≤ labelled g L inner q) :
    h.between g.size (g.size + 1) ≤ L := by
  have bound : h.between g.size (g.size + 1) ≤ labelled g L inner g.size := by
    refine Graph.between_le (le_of_eq labelled_final.symm) (fun q d hd => ?_)
      (fun q d t hd => ?_) g.size
    · rcases newSilent q d hd with old | new
      · obtain ⟨hq, hdlt⟩ := Graph.lt_of_mem_edges old
        rw [labelled_old hq, labelled_old hdlt]
        exact silent q d old
      · exact new
    · rcases newRead q d t hd with old | new
      · obtain ⟨hq, hdlt⟩ := Graph.lt_of_mem_edges old
        rw [labelled_old hq, labelled_old hdlt]
        exact read q d t old
      · exact new
  rwa [labelled_initial] at bound

/-- A walk through an operand, from the new initial state to the new final one. -/
theorem between_le_enclosed {s i f e : StateId}
    (mono : ∀ q, ∀ d ∈ g.edges q, d ∈ h.edges q) (hs : ⟨.epsilon, i⟩ ∈ h.edges s)
    (he : ⟨.epsilon, e⟩ ∈ h.edges f) : g.between i f ≤ h.between s e :=
  calc g.between i f ≤ h.between i f := Graph.between_mono mono i f
    _ ≤ h.between s f := Graph.between_le_of_silent hs
    _ ≤ h.between s e := Graph.between_le_silent he

end labelled

/-! ## One symbol -/

theorem yields_symbol (t : Text) (c : Site) :
    Yields c.graph [] (c.symbol t).1 (c.symbol t).2.graph := by
  rw [symbol_fst]
  refine Yields.of_ends (size_symbol c t) (by simp) (fun p e he => ?_) (fun q => ?_) ?_
  · rcases (mem_edges_symbol c t p).mp he with old | ⟨_, rfl⟩
    · exact Or.inl old
    · exact Or.inr (Or.inl (Nat.le_succ _))
  · rw [accepting_symbol]
    by_cases h : q = c.graph.size + 1 <;> simp [h]
  · intro q hq _
    rw [edges_symbol, if_neg (Nat.ne_of_lt hq), List.append_nil]

theorem language_symbol (t : Text) (c : Site) :
    (c.symbol t).1.language (c.symbol t).2.graph = {[t]} := by
  have hclean := (yields_symbol t c).clean
  rw [symbol_fst] at hclean ⊢
  rw [hclean.language_eq]
  apply le_antisymm
  · -- from the old states no word leads to the new final one
    refine between_ends_le (fun _ => 0) (fun _ _ _ => le_rfl)
      (fun _ _ _ _ => by rw [mul_zero]) (fun q d hd => ?_) (fun q d u hd => ?_)
    · rcases (mem_edges_symbol c t q).mp hd with old | ⟨_, hnew⟩
      · exact Or.inl old
      · cases hnew
    · rcases (mem_edges_symbol c t q).mp hd with old | ⟨rfl, hnew⟩
      · exact Or.inl old
      · cases hnew
        rw [labelled_initial, labelled_final, mul_one]
        exact Or.inr le_rfl
  · rintro w rfl
    exact .read ((mem_edges_symbol c t _).mpr (Or.inr ⟨rfl, rfl⟩)) (.nil _)

/-! ## One after the other -/

/-- No word leads from one of two automata without a common state to the end of the other. -/
theorem between_of_apart {g : Graph} {x y : Nfa} (apart : Nfa.Apart g x y) :
    g.between x.initial y.final = 0 :=
  Graph.between_eq_zero fun reached => apart y.final (Or.inl reached) (Or.inr rfl)

section concat

variable {x y : Nfa} (hx : x.Clean c.graph) (hy : y.Clean c.graph)
  (apart : Nfa.Apart c.graph x y)

include hx hy apart

theorem yields_concat : Yields c.graph [x, y] (c.concat x y).1 (c.concat x y).2.graph := by
  have edges : ∀ p, ∀ e ∈ (c.concat x y).2.graph.edges p, e ∈ c.graph.edges p ∨
      c.graph.size ≤ e.dest ∨ ∃ z ∈ [x, y], e.dest = z.initial := by
    intro p e he
    rcases (mem_edges_concat p hx.final_lt hy.initial_lt).mp he with old | ⟨_, rfl⟩
    · exact Or.inl old
    · exact Or.inr (Or.inr ⟨y, by simp, rfl⟩)
  have base : c.graph.size ≤ x.initial ∨ ∃ z ∈ [x, y], x.initial = z.initial :=
    Or.inr ⟨x, by simp, rfl⟩
  have hne : y.final ≠ x.final := fun h => apart x.final (Or.inr rfl) (Or.inr h.symm)
  rw [concat_fst]
  refine ⟨by rw [size_concat], ⟨?_, ?_, ?_⟩, ?_, ?_⟩
  · rw [size_concat]
    exact hx.initial_lt
  · rw [accepting_concat hx.final_lt, if_neg hne]
    exact hy.final_accepting
  · intro q hq ha
    rw [accepting_concat hx.final_lt] at ha
    split at ha
    · cases ha
    · rename_i hqx
      rcases Yields.reaches base edges hq with hnew | ⟨z, hz, hzq⟩
      · rw [Graph.accepting_of_size_le hnew] at ha
        cases ha
      · rcases List.mem_pair.mp hz with rfl | rfl
        · exact absurd (hx.only_final q hzq ha) hqx
        · exact hy.only_final q hzq ha
  · rintro q (hq | rfl)
    · rcases Yields.reaches base edges hq with hq | ⟨z, hz, hq⟩
      · exact Or.inl hq
      · exact Or.inr ⟨z, hz, Or.inl hq⟩
    · exact Or.inr ⟨y, by simp, Or.inr rfl⟩
  · intro q _ hq
    have hqx : q ≠ x.final := hq x (by simp)
    rw [edges_concat hx.final_lt hy.initial_lt, accepting_concat hx.final_lt, if_neg hqx,
      if_neg hqx, List.append_nil]
    exact ⟨rfl, rfl⟩

theorem between_concat_le : (c.concat x y).2.graph.between x.initial y.final ≤
    c.graph.between x.initial x.final * c.graph.between y.initial y.final := by
  have edge := fun q => @mem_edges_concat c x y q
  -- A walk ends in `y` at once, or goes on to the end of `x` and then through `y`.
  let L := c.graph.between y.initial y.final
  let M : StateId → Language Text := fun q =>
    c.graph.between q y.final + c.graph.between q x.final * L
  have hMx : M x.initial = c.graph.between x.initial x.final * L := by
    simp only [M, between_of_apart apart, zero_add]
  have hMy : M y.initial = L := by
    simp only [M, between_of_apart apart.symm, zero_mul, add_zero, L]
  rw [← hMx]
  refine Graph.between_le (M := M) ?_ (fun q d hd => ?_) (fun q d t hd => ?_) x.initial
  · exact le_add_right (Graph.one_le_between_self y.final)
  · rcases (edge q hx.final_lt hy.initial_lt).mp hd with old | ⟨rfl, hnew⟩
    · exact add_le_add (Graph.between_le_of_silent old) (Graph.between_mul_le_of_silent old L)
    · cases hnew
      calc M y.initial = 1 * L := by rw [hMy, one_mul]
        _ ≤ c.graph.between x.final x.final * L :=
          mul_le_mul_left (Graph.one_le_between_self x.final) L
        _ ≤ M x.final := le_add_left le_rfl
  · rcases (edge q hx.final_lt hy.initial_lt).mp hd with old | ⟨_, hnew⟩
    · rw [mul_add]
      exact add_le_add (Graph.read_mul_between_le old) (Graph.read_mul_between_mul_le old L)
    · cases hnew

omit apart in
theorem le_between_concat : c.graph.between x.initial x.final * c.graph.between y.initial y.final ≤
    (c.concat x y).2.graph.between x.initial y.final := by
  have edge := fun q => @mem_edges_concat c x y q
  have mono : ∀ q, ∀ e ∈ c.graph.edges q, e ∈ (c.concat x y).2.graph.edges q := by
    intro q e he
    exact (edge q hx.final_lt hy.initial_lt).mpr (Or.inl he)
  have link : ⟨.epsilon, y.initial⟩ ∈ (c.concat x y).2.graph.edges x.final :=
    (edge x.final hx.final_lt hy.initial_lt).mpr (Or.inr ⟨rfl, rfl⟩)
  have first := Graph.between_mono mono x.initial x.final
  have second := Graph.between_mono mono y.initial y.final
  calc c.graph.between x.initial x.final * c.graph.between y.initial y.final
      ≤ (c.concat x y).2.graph.between x.initial x.final *
          (c.concat x y).2.graph.between y.initial y.final := mul_le_mul' first second
    _ ≤ (c.concat x y).2.graph.between x.initial y.initial *
          (c.concat x y).2.graph.between y.initial y.final :=
        mul_le_mul_left (Graph.between_le_silent link) _
    _ ≤ (c.concat x y).2.graph.between x.initial y.final := Graph.between_mul_le

theorem language_concat : (c.concat x y).1.language (c.concat x y).2.graph =
    x.language c.graph * y.language c.graph := by
  have hclean := (yields_concat hx hy apart).clean
  rw [concat_fst] at hclean ⊢
  rw [hclean.language_eq, hx.language_eq, hy.language_eq]
  exact le_antisymm (between_concat_le hx hy apart) (le_between_concat hx hy)

end concat

/-! ## Either of two -/

section choice

variable {x y : Nfa} (hx : x.Clean c.graph) (hy : y.Clean c.graph)

include hx hy

theorem yields_choice : Yields c.graph [x, y] (c.choice x y).1 (c.choice x y).2.graph := by
  rw [choice_fst]
  refine Yields.of_ends (size_choice x y c) (by simp [hx, hy]) (fun p e he => ?_)
    (fun q => ?_) ?_
  · rcases (mem_edges_choice p hx.initial_lt hx.final_lt hy.initial_lt hy.final_lt).mp he with
      old | ⟨_, rfl | rfl⟩ | ⟨_, rfl⟩
    · exact Or.inl old
    · exact Or.inr (Or.inr ⟨x, by simp, rfl⟩)
    · exact Or.inr (Or.inr ⟨y, by simp, rfl⟩)
    · exact Or.inr (Or.inl (Nat.le_succ _))
  · have hxe := (Nat.ne_of_lt (Nat.lt_succ_of_lt hx.final_lt)).symm
    have hye := (Nat.ne_of_lt (Nat.lt_succ_of_lt hy.final_lt)).symm
    rw [accepting_choice hx.final_lt hy.final_lt]
    by_cases h : q = c.graph.size + 1
    · subst h
      simp [hxe, hye]
    · simp [h, and_comm]
  · intro q hq hne
    rw [edges_choice hx.initial_lt hx.final_lt hy.initial_lt hy.final_lt,
      if_neg (Nat.ne_of_lt hq), if_neg (hne x (by simp)), if_neg (hne y (by simp))]
    simp

theorem between_choice_le (apart : Nfa.Apart c.graph x y) :
    (c.choice x y).2.graph.between c.graph.size (c.graph.size + 1) ≤
      c.graph.between x.initial x.final + c.graph.between y.initial y.final := by
  have edge : ∀ {q e}, e ∈ (c.choice x y).2.graph.edges q ↔ _ := fun {q e} =>
    mem_edges_choice q hx.initial_lt hx.final_lt hy.initial_lt hy.final_lt
  -- An old state is labelled with what leads from it to the end of either operand.
  refine between_ends_le (fun q => c.graph.between q x.final + c.graph.between q y.final)
    (fun q d hd => add_le_add (Graph.between_le_of_silent hd) (Graph.between_le_of_silent hd))
    (fun q d t hd => ?_) (fun q d hd => ?_) (fun q d t hd => ?_)
  · rw [mul_add]
    exact add_le_add (Graph.read_mul_between_le hd) (Graph.read_mul_between_le hd)
  · rcases edge.mp hd with old | ⟨rfl, hnew | hnew⟩ | ⟨rfl | rfl, hnew⟩
    · exact Or.inl old
    all_goals cases hnew; refine Or.inr ?_
    · rw [labelled_initial, labelled_old hx.initial_lt, between_of_apart apart, add_zero]
      exact le_add_right le_rfl
    · rw [labelled_initial, labelled_old hy.initial_lt, between_of_apart apart.symm, zero_add]
      exact le_add_left le_rfl
    · rw [labelled_final, labelled_old hx.final_lt]
      exact le_add_right (Graph.one_le_between_self _)
    · rw [labelled_final, labelled_old hy.final_lt]
      exact le_add_left (Graph.one_le_between_self _)
  · rcases edge.mp hd with old | ⟨_, hnew | hnew⟩ | ⟨_, hnew⟩
    · exact Or.inl old
    all_goals cases hnew

theorem le_between_choice : c.graph.between x.initial x.final + c.graph.between y.initial y.final ≤
    (c.choice x y).2.graph.between c.graph.size (c.graph.size + 1) := by
  have edge : ∀ {q e}, e ∈ (c.choice x y).2.graph.edges q ↔ _ := fun {q e} =>
    mem_edges_choice q hx.initial_lt hx.final_lt hy.initial_lt hy.final_lt
  have mono : ∀ q, ∀ e ∈ c.graph.edges q, e ∈ (c.choice x y).2.graph.edges q := by
    intro q e he
    exact edge.mpr (Or.inl he)
  apply add_le
  · exact between_le_enclosed mono (edge.mpr (Or.inr (Or.inl ⟨rfl, Or.inl rfl⟩)))
      (edge.mpr (Or.inr (Or.inr ⟨Or.inl rfl, rfl⟩)))
  · exact between_le_enclosed mono (edge.mpr (Or.inr (Or.inl ⟨rfl, Or.inr rfl⟩)))
      (edge.mpr (Or.inr (Or.inr ⟨Or.inr rfl, rfl⟩)))

theorem language_choice (apart : Nfa.Apart c.graph x y) :
    (c.choice x y).1.language (c.choice x y).2.graph =
      x.language c.graph + y.language c.graph := by
  have hclean := (yields_choice hx hy).clean
  rw [choice_fst] at hclean ⊢
  rw [hclean.language_eq, hx.language_eq, hy.language_eq]
  exact le_antisymm (between_choice_le hx hy apart) (le_between_choice hx hy)

end choice

/-! ## Repetition -/

section repetition

variable (r : Repetition) {x : Nfa} (hx : x.Clean c.graph)

include hx

theorem yields_repetition :
    Yields c.graph [x] (c.repetition r x).1 (c.repetition r x).2.graph := by
  rw [repetition_fst]
  refine Yields.of_ends (size_repetition r x c) (by simp [hx]) (fun p e he => ?_)
    (fun q => ?_) ?_
  · rcases (mem_edges_repetition r p hx.initial_lt hx.final_lt).mp he with
      old | ⟨_, rfl | ⟨_, rfl⟩⟩ | ⟨_, ⟨_, rfl⟩ | rfl⟩
    · exact Or.inl old
    · exact Or.inr (Or.inr ⟨x, by simp, rfl⟩)
    · exact Or.inr (Or.inl (Nat.le_succ _))
    · exact Or.inr (Or.inr ⟨x, by simp, rfl⟩)
    · exact Or.inr (Or.inl (Nat.le_succ _))
  · have hxe := (Nat.ne_of_lt (Nat.lt_succ_of_lt hx.final_lt)).symm
    rw [accepting_repetition r hx.final_lt]
    by_cases h : q = c.graph.size + 1
    · subst h
      simp [hxe]
    · simp [h, and_comm]
  · intro q hq hne
    rw [edges_repetition r hx.initial_lt hx.final_lt, if_neg (Nat.ne_of_lt hq),
      if_neg (hne x (by simp))]
    simp

theorem between_repetition_le :
    (c.repetition r x).2.graph.between c.graph.size (c.graph.size + 1) ≤
      r.apply (c.graph.between x.initial x.final) := by
  have edge : ∀ {q e}, e ∈ (c.repetition r x).2.graph.edges q ↔ _ := fun {q e} =>
    mem_edges_repetition r q hx.initial_lt hx.final_lt
  -- An old state is labelled with what leads to the end of the operand, and then once more
  -- through it as often as the repetition allows.
  let K : Language Text := if r.allowsMany then (c.graph.between x.initial x.final)∗ else 1
  have hK : 1 ≤ K := by
    simp only [K]
    split
    · exact one_le_kstar
    · exact le_rfl
  have hend : K ≤ c.graph.between x.final x.final * K := by
    calc K = 1 * K := (one_mul K).symm
      _ ≤ c.graph.between x.final x.final * K :=
        mul_le_mul_left (Graph.one_le_between_self _) K
  rw [Repetition.apply_eq]
  refine between_ends_le (fun q => c.graph.between q x.final * K)
    (fun q d hd => Graph.between_mul_le_of_silent hd K)
    (fun q d t hd => Graph.read_mul_between_mul_le hd K) (fun q d hd => ?_) (fun q d t hd => ?_)
  · rcases edge.mp hd with old | ⟨rfl, hnew | ⟨hnone, hnew⟩⟩ | ⟨rfl, ⟨hmany, hnew⟩ | hnew⟩
    · exact Or.inl old
    all_goals cases hnew; refine Or.inr ?_
    · rw [labelled_initial, labelled_old hx.initial_lt]
      exact le_add_left le_rfl
    · rw [labelled_initial, labelled_final, if_pos hnone]
      exact le_add_right le_rfl
    · -- back to the start: once more through the operand
      rw [labelled_old hx.initial_lt, labelled_old hx.final_lt]
      refine le_trans ?_ hend
      simp only [K, if_pos hmany]
      exact mul_kstar_le_kstar
    · rw [labelled_final, labelled_old hx.final_lt]
      exact le_trans hK hend
  · rcases edge.mp hd with old | ⟨_, hnew | ⟨_, hnew⟩⟩ | ⟨_, ⟨_, hnew⟩ | hnew⟩
    · exact Or.inl old
    all_goals cases hnew

theorem le_between_repetition : r.apply (c.graph.between x.initial x.final) ≤
    (c.repetition r x).2.graph.between c.graph.size (c.graph.size + 1) := by
  have edge : ∀ {q e}, e ∈ (c.repetition r x).2.graph.edges q ↔ _ := fun {q e} =>
    mem_edges_repetition r q hx.initial_lt hx.final_lt
  have mono : ∀ q, ∀ e ∈ c.graph.edges q, e ∈ (c.repetition r x).2.graph.edges q := by
    intro q e he
    exact edge.mpr (Or.inl he)
  have enter : ⟨.epsilon, x.initial⟩ ∈ (c.repetition r x).2.graph.edges c.graph.size :=
    edge.mpr (Or.inr (Or.inl ⟨rfl, Or.inl rfl⟩))
  have leave : ⟨.epsilon, c.graph.size + 1⟩ ∈ (c.repetition r x).2.graph.edges x.final :=
    edge.mpr (Or.inr (Or.inr ⟨rfl, Or.inr rfl⟩))
  have through := Graph.between_mono mono x.initial x.final
  have once := le_trans through (Graph.between_le_of_silent enter)
  rw [Repetition.apply_eq]
  refine add_le ?_ (le_trans ?_ (Graph.between_le_silent leave))
  · by_cases hnone : r.allowsNone = true
    · rw [if_pos hnone]
      exact Graph.one_le_between (edge.mpr (Or.inr (Or.inl ⟨rfl, Or.inr ⟨hnone, rfl⟩⟩)))
    · rw [if_neg hnone]
      exact zero_le
  · by_cases hmany : r.allowsMany = true
    · have back : ⟨.epsilon, x.initial⟩ ∈ (c.repetition r x).2.graph.edges x.final :=
        edge.mpr (Or.inr (Or.inr ⟨rfl, Or.inl ⟨hmany, rfl⟩⟩))
      have again := le_trans through (Graph.between_le_of_silent back)
      rw [if_pos hmany]
      -- Going round once more from the end of the operand leads there again.
      exact mul_kstar_le once (le_trans (mul_le_mul_right again _) Graph.between_mul_le)
    · rw [if_neg hmany, mul_one]
      exact once

theorem language_repetition : (c.repetition r x).1.language (c.repetition r x).2.graph =
    r.apply (x.language c.graph) := by
  have hclean := (yields_repetition r hx).clean
  rw [repetition_fst] at hclean ⊢
  rw [hclean.language_eq, hx.language_eq]
  exact le_antisymm (between_repetition_le r hx) (le_between_repetition r hx)

end repetition

/-! ## Both connectives -/

section join

variable (j : Connective) {x y : Nfa} (hx : x.Clean c.graph) (hy : y.Clean c.graph)
  (apart : Nfa.Apart c.graph x y)

include hx hy apart

theorem yields_join : Yields c.graph [x, y] (c.join j x y).1 (c.join j x y).2.graph := by
  cases j with
  | union => exact yields_choice hx hy
  | concat => exact yields_concat hx hy apart

theorem language_join : (c.join j x y).1.language (c.join j x y).2.graph =
    j.apply (x.language c.graph) (y.language c.graph) := by
  cases j with
  | union => exact language_choice hx hy apart
  | concat => exact language_concat hx hy apart

end join

end Site

end FiniteAutomata
