/-
  FiniteAutomata.Proofs.Determinism

  Making an automaton deterministic that is deterministic already. Where no state that it
  reaches has an empty move, or two edges of one symbol that lead apart, a live set never has
  more than one member: a symbol takes the set of a state to the set of the next one, or to
  the empty set if the state is stuck (`Deterministic.mem_liveSets`).

  So the live cells are a copy of the states that symbols of the alphabet reach
  (`Subset.Copies`), and there is a dead cell besides just if one of these states is stuck
  (`determinize_deterministic`).
-/
import FiniteAutomata.Proofs.Continuation
import FiniteAutomata.Proofs.Isomorphism
import Mathlib.Data.List.Dedup

namespace FiniteAutomata

namespace SortedSet

/-- The set of one member. -/
def single {α : Type} [Ordered α] (a : α) : SortedSet α := .ofList [a]

variable {α : Type} [Ordered α] {a b : α}

@[simp] theorem mem_single : b ∈ single a ↔ b = a := by
  simp [single]

theorem isEmpty_single (a : α) : (single a).isEmpty = false :=
  isEmpty_eq_false_iff.mpr ⟨a, mem_single.mpr rfl⟩

theorem single_inj (h : single a = single b) : a = b := by
  have member : a ∈ single b := h ▸ mem_single.mpr rfl
  exact mem_single.mp member

theorem eq_empty_of_isEmpty {s : SortedSet α} (h : s.isEmpty = true) : s = empty :=
  ext_mem fun x => iff_of_false (isEmpty_iff.mp h x) (not_mem_empty x)

end SortedSet

namespace Graph

variable {g : Graph} {alphabet : SortedSet Text} {s q d : StateId} {t : Text} {live : StateSet}

/-- A state is reached by edges that read symbols of an alphabet. -/
inductive ReachesOver (g : Graph) (alphabet : SortedSet Text) (s : StateId) : StateId → Prop
  | refl : ReachesOver g alphabet s s
  | step {q d : StateId} {t : Text} : ReachesOver g alphabet s q → t ∈ alphabet →
      ⟨.text t, d⟩ ∈ g.edges q → ReachesOver g alphabet s d

theorem ReachesOver.reaches (h : g.ReachesOver alphabet s q) : g.Reaches s q := by
  induction h with
  | refl => exact .refl g s
  | step _ _ he ih => exact ih.step he

/-- No edge of a state reads a symbol. -/
def Stuck (g : Graph) (q : StateId) (t : Text) : Prop := ∀ d, ⟨.text t, d⟩ ∉ g.edges q

theorem stuck_or_exists (g : Graph) (q : StateId) (t : Text) :
    g.Stuck q t ∨ ∃ d, ⟨.text t, d⟩ ∈ g.edges q := by
  by_cases h : ∃ d, ⟨.text t, d⟩ ∈ g.edges q
  · exact Or.inr h
  · exact Or.inl (not_exists.mp h)

/-- Where no state has an empty move, the closure adds nothing. -/
theorem closure_of_no_epsilon (h : ∀ q ∈ live, ∀ d, ⟨.epsilon, d⟩ ∉ g.edges q) :
    g.closure live = live := by
  refine SortedSet.ext_mem fun q => ?_
  rw [mem_closure_iff_path]
  constructor
  · rintro ⟨p, hp, path⟩
    cases path with
    | nil => exact hp
    | silent he _ => exact absurd he (h p hp _)
  · exact fun hq => ⟨q, hq, .nil q⟩

theorem step_single_of_stuck (stuck : g.Stuck q t) :
    g.step (.single q) (.text t) = .empty := by
  refine SortedSet.eq_empty_of_isEmpty (SortedSet.isEmpty_iff.mpr fun r hr => ?_)
  obtain ⟨p, hp, d, he, -⟩ := exists_of_mem_step hr
  exact stuck d (SortedSet.mem_single.mp hp ▸ he)

end Graph

namespace Nfa

variable {n : Nfa} {g : Graph} {alphabet : SortedSet Text}

/-- The states of an automaton have no empty moves, and all edges of a state that read one
    symbol of the alphabet lead to one state. -/
structure Deterministic (n : Nfa) (g : Graph) (alphabet : SortedSet Text) : Prop where
  no_epsilon : ∀ q, g.Reaches n.initial q → ∀ d, ⟨.epsilon, d⟩ ∉ g.edges q
  functional : ∀ q, g.Reaches n.initial q → ∀ t ∈ alphabet, ∀ d e,
    ⟨.text t, d⟩ ∈ g.edges q → ⟨.text t, e⟩ ∈ g.edges q → d = e

namespace Deterministic

/-- It is enough that no two edges of a state clash in a closed part of the graph. -/
theorem of_part {part : List StateId} (initial : n.initial ∈ part) (closed : g.Closed part)
    (edges : ∀ q ∈ part, ∀ e ∈ g.edges q, e.label ≠ .epsilon ∧
      ∀ e' ∈ g.edges q, e.label = e'.label → e.dest = e'.dest) : n.Deterministic g alphabet where
  no_epsilon q hq _ he := (edges q (hq.mem_of_closed closed initial) _ he).1 rfl
  functional q hq _ _ _ _ hd he := (edges q (hq.mem_of_closed closed initial) _ hd).2 _ he rfl

variable (det : n.Deterministic g alphabet) {q d : StateId} {t : Text} {live : StateSet}

include det

theorem closure_single (hq : g.Reaches n.initial q) : g.closure (.single q) = .single q := by
  refine Graph.closure_of_no_epsilon fun p hp => ?_
  rw [SortedSet.mem_single.mp hp]
  exact det.no_epsilon q hq

theorem start_eq : n.start g = .single n.initial := det.closure_single (.refl g n.initial)

/-- A symbol takes the set of a state to the set of the next one. -/
theorem step_single (hq : g.Reaches n.initial q) (ht : t ∈ alphabet)
    (he : ⟨.text t, d⟩ ∈ g.edges q) : g.step (.single q) (.text t) = .single d := by
  have moved : g.move (.single q) (.text t) = .single d := by
    refine SortedSet.ext_mem fun r => ?_
    rw [Graph.mem_move, SortedSet.mem_single]
    constructor
    · rintro ⟨p, hp, hr⟩
      rw [SortedSet.mem_single.mp hp] at hr
      exact det.functional q hq t ht r d hr he
    · rintro rfl
      exact ⟨q, SortedSet.mem_single.mpr rfl, he⟩
  rw [Graph.step, moved, det.closure_single (hq.step he)]

/-- The set of every state that symbols reach is found. -/
theorem single_mem_liveSets (hq : g.ReachesOver alphabet n.initial q) :
    .single q ∈ Subset.liveSets g alphabet (n.start g) := by
  induction hq with
  | refl =>
    have start := Subset.start_mem_liveSets n g alphabet
    rwa [det.start_eq] at start ⊢
  | step hp ht he ih =>
    rw [← det.step_single hp.reaches ht he]
    exact Subset.step_mem_liveSets ih ht

/-- The live sets that are found are those of single states, and the empty one if a state is
    stuck on a symbol of the alphabet. -/
theorem mem_liveSets : live ∈ Subset.liveSets g alphabet (n.start g) ↔
    (∃ q, g.ReachesOver alphabet n.initial q ∧ live = .single q) ∨
      live = .empty ∧ ∃ q, g.ReachesOver alphabet n.initial q ∧ ∃ t ∈ alphabet, g.Stuck q t := by
  constructor
  · intro hl
    induction Worklist.mem_explore.mp hl with
    | start first =>
      exact Or.inl ⟨n.initial, .refl, (List.mem_singleton.mp first).trans det.start_eq⟩
    | step ha hb ih =>
      obtain ⟨t, ht, rfl⟩ := List.mem_map.mp hb
      rcases ih (Worklist.mem_explore.mpr ha) with ⟨q, hq, rfl⟩ | ⟨rfl, stuck⟩
      · rcases g.stuck_or_exists q t with stuck | ⟨d, he⟩
        · exact Or.inr ⟨Graph.step_single_of_stuck stuck, q, hq, t, ht, stuck⟩
        · exact Or.inl ⟨d, hq.step ht he, det.step_single hq.reaches ht he⟩
      · -- the empty set stays empty
        exact Or.inr ⟨SortedSet.eq_empty_of_isEmpty (Graph.step_of_isEmpty rfl _), stuck⟩
  · rintro (⟨q, hq, rfl⟩ | ⟨rfl, q, hq, t, ht, stuck⟩)
    · exact det.single_mem_liveSets hq
    · rw [← Graph.step_single_of_stuck stuck]
      exact Subset.step_mem_liveSets (det.single_mem_liveSets hq) ht

theorem empty_mem_liveSets : .empty ∈ Subset.liveSets g alphabet (n.start g) ↔
    ∃ q, g.ReachesOver alphabet n.initial q ∧ ∃ t ∈ alphabet, g.Stuck q t := by
  rw [det.mem_liveSets]
  constructor
  · rintro (⟨q, -, same⟩ | ⟨-, stuck⟩)
    · exact absurd (same ▸ SortedSet.isEmpty_single q) Bool.noConfusion
    · exact stuck
  · exact fun stuck => Or.inr ⟨rfl, stuck⟩

/-- There are as many live sets as states that symbols reach, and the empty one if it is found. -/
theorem length_liveSets {states : List StateId} (nodup : states.Nodup)
    (listed : ∀ q, q ∈ states ↔ g.ReachesOver alphabet n.initial q) :
    (Subset.liveSets g alphabet (n.start g)).length = states.length +
      (decide (.empty ∈ Subset.liveSets g alphabet (n.start g))).toNat := by
  have found : (Subset.liveSets g alphabet (n.start g)).Nodup := Worklist.nodup_explore _
  have alive : ∀ live, live ∈ states.map SortedSet.single ↔
      ∃ q, g.ReachesOver alphabet n.initial q ∧ live = .single q := by
    intro live
    simp only [List.mem_map, listed, eq_comm]
  have singles : (states.map SortedSet.single).Nodup := nodup.map fun _ _ => SortedSet.single_inj
  by_cases dead : .empty ∈ Subset.liveSets g alphabet (n.start g)
  · have perm : (Subset.liveSets g alphabet (n.start g)).Perm
        (.empty :: states.map SortedSet.single) := by
      refine (List.perm_ext_iff_of_nodup found (List.nodup_cons.mpr ⟨?_, singles⟩)).mpr
        fun live => ?_
      · intro h
        obtain ⟨q, -, same⟩ := (alive _).mp h
        exact absurd (same ▸ SortedSet.isEmpty_single q) Bool.noConfusion
      · rw [List.mem_cons, alive, det.mem_liveSets, ← det.empty_mem_liveSets, and_iff_left dead,
          or_comm]
    rw [perm.length_eq, List.length_cons, List.length_map, decide_eq_true dead]
    rfl
  · have perm : (Subset.liveSets g alphabet (n.start g)).Perm (states.map SortedSet.single) := by
      refine (List.perm_ext_iff_of_nodup found singles).mpr fun live => ?_
      rw [alive, det.mem_liveSets, ← det.empty_mem_liveSets]
      exact or_iff_left fun h => dead h.2
    rw [perm.length_eq, List.length_map, decide_eq_false dead]
    rfl

/-- The states that symbols reach can be listed. -/
theorem exists_list : ∃ states : List StateId, states.Nodup ∧
    ∀ q, q ∈ states ↔ g.ReachesOver alphabet n.initial q := by
  refine ⟨_, List.nodup_dedup
    ((Subset.liveSets g alphabet (n.start g)).flatMap SortedSet.toList), fun q => ?_⟩
  rw [List.mem_dedup, List.mem_flatMap]
  constructor
  · rintro ⟨live, hl, hq⟩
    rcases det.mem_liveSets.mp hl with ⟨p, hp, rfl⟩ | ⟨rfl, -⟩
    · rwa [SortedSet.mem_single.mp hq]
    · exact absurd hq (SortedSet.not_mem_empty q)
  · exact fun hq => ⟨_, det.single_mem_liveSets hq, SortedSet.mem_single.mpr rfl⟩

end Deterministic

end Nfa

/-! ## The copy -/

namespace Subset

/-- The live cells of a deterministic automaton are a copy of the states that symbols of its
    alphabet reach: `f` says which cell is that of which state. -/
structure Copies (n : Nfa) (g : Graph) (d : Dfa) (cells : Cells) (f : StateId → CellId) :
    Prop where
  bijOn : Set.BijOn f {q | g.ReachesOver d.alphabet n.initial q}
    {c | c ∈ d.states ∧ (cells.get c).isDead = false}
  members : ∀ q, g.ReachesOver d.alphabet n.initial q → (cells.get (f q)).members = .single q
  initial : f n.initial = d.initial
  accepting : ∀ q, g.ReachesOver d.alphabet n.initial q →
    (cells.get (f q)).accepting = g.accepting q
  /-- The transitions from live cell to live cell are the edges. -/
  edges : ∀ q r, g.ReachesOver d.alphabet n.initial q → g.ReachesOver d.alphabet n.initial r →
    ∀ t ∈ d.alphabet, (cells.get (f q)).next (.text t) = some (f r) ↔ ⟨.text t, r⟩ ∈ g.edges q
  /-- Where there is no edge, the transition is to a dead cell. -/
  stuck : ∀ q, g.ReachesOver d.alphabet n.initial q → ∀ t ∈ d.alphabet,
    (∃ c ∈ d.states, (cells.get c).isDead = true ∧
      (cells.get (f q)).next (.text t) = some c) ↔ g.Stuck q t

variable {n : Nfa} {g : Graph} {alphabet : SortedSet Text} {cells : Cells}

theorem isDead_determinize_iff : (∃ c ∈ (determinize n g alphabet cells).1.states,
    ((determinize n g alphabet cells).2.get c).isDead = true) ↔
      .empty ∈ liveSets g alphabet (n.start g) := by
  constructor
  · rintro ⟨c, hc, dead⟩
    obtain ⟨live, hl, rfl, -⟩ := exists_of_mem_states hc
    rw [isDead_placeOf cells hl] at dead
    exact SortedSet.eq_empty_of_isEmpty dead ▸ hl
  · exact fun hl => ⟨_, placeOf_mem_states hl, isDead_placeOf cells hl⟩

/-- The cells of different live sets lie at different places. -/
theorem placeOf_inj {live other : StateSet} (hl : live ∈ liveSets g alphabet (n.start g))
    (ho : other ∈ liveSets g alphabet (n.start g))
    (same : placeOf n g alphabet cells live = placeOf n g alphabet cells other) : live = other :=
  calc live
    _ = ((determinize n g alphabet cells).2.get (placeOf n g alphabet cells live)).members := by
      rw [get_placeOf hl]; rfl
    _ = other := by rw [same, get_placeOf ho]; rfl

theorem copies_determinize (det : n.Deterministic g alphabet) (cells : Cells) :
    Copies n g (determinize n g alphabet cells).1 (determinize n g alphabet cells).2
      fun q => placeOf n g alphabet cells (.single q) where
  bijOn := by
    refine ⟨fun q hq => ?_, fun p hp q hq same => ?_, fun c hc => ?_⟩
    · have found := det.single_mem_liveSets hq
      exact ⟨placeOf_mem_states found,
        (isDead_placeOf cells found).trans (SortedSet.isEmpty_single q)⟩
    · exact SortedSet.single_inj
        (placeOf_inj (det.single_mem_liveSets hp) (det.single_mem_liveSets hq) same)
    · obtain ⟨hc, alive⟩ := hc
      obtain ⟨live, hl, rfl, -⟩ := exists_of_mem_states hc
      rw [isDead_placeOf cells hl] at alive
      rcases det.mem_liveSets.mp hl with ⟨q, hq, rfl⟩ | ⟨rfl, -⟩
      · exact ⟨q, hq, rfl⟩
      · cases alive
  members q hq := by
    rw [get_placeOf (det.single_mem_liveSets hq)]
    rfl
  initial := by rw [initial_eq_placeOf, det.start_eq]
  accepting q hq := by
    rw [accepting_placeOf cells (det.single_mem_liveSets hq), Bool.eq_iff_iff, Graph.isFinal_iff]
    simp
  edges q r hq hr t ht := by
    have next := step_mem_liveSets (det.single_mem_liveSets hq) ht
    rw [next_placeOf (det.single_mem_liveSets hq) ht, Option.some_inj]
    constructor
    · intro same
      have led := placeOf_inj next (det.single_mem_liveSets hr) same
      rcases g.stuck_or_exists q t with stuck | ⟨d, he⟩
      · rw [Graph.step_single_of_stuck stuck] at led
        exact absurd (led ▸ SortedSet.isEmpty_single r) Bool.noConfusion
      · rw [det.step_single hq.reaches ht he] at led
        exact SortedSet.single_inj led ▸ he
    · intro he
      rw [det.step_single hq.reaches ht he]
  stuck q hq t ht := by
    have next := step_mem_liveSets (det.single_mem_liveSets hq) ht
    simp only [next_placeOf (det.single_mem_liveSets hq) ht, Option.some_inj]
    constructor
    · rintro ⟨c, -, dead, rfl⟩
      rw [isDead_placeOf cells next] at dead
      rcases g.stuck_or_exists q t with stuck | ⟨d, he⟩
      · exact stuck
      · rw [det.step_single hq.reaches ht he, SortedSet.isEmpty_single] at dead
        cases dead
    · intro stuck
      refine ⟨_, placeOf_mem_states next, ?_, rfl⟩
      rw [isDead_placeOf cells next, Graph.step_single_of_stuck stuck]
      rfl

end Subset

/-! ## In a session -/

namespace Session

/-- Made deterministic, an automaton that is deterministic already stays what it was. Every cell
    stands for at most one state; the live cells are a copy of the states that symbols of the
    alphabet reach. A dead cell comes on top just if one of these states has no edge for some
    symbol, and otherwise there are as many cells as states. -/
theorem determinize_deterministic (s : Session) (x : NfaId) (alphabet : Option (List Label))
    (det : (s.nfa x).Deterministic s.graph (s.alphabetFor x alphabet).1) :
    ∃ y d table, (s.determinize x alphabet).1.answer = .ok (.value (.dfa y)) ∧
      d = (s.determinize x alphabet).2.dfa y ∧ table = (s.determinize x alphabet).2.cells ∧
      d.alphabet = (s.alphabetFor x alphabet).1 ∧
      (∀ given ∈ alphabet, ∀ t, t ∈ d.alphabet ↔ .text t ∈ given) ∧
      (∀ c ∈ d.states, (table.get c).members.size ≤ 1) ∧
      (∃ f, Subset.Copies (s.nfa x) s.graph d table f) ∧
      ((d.deadState? table).isSome = true ↔
        ∃ q, s.graph.ReachesOver d.alphabet (s.nfa x).initial q ∧
          ∃ t ∈ d.alphabet, s.graph.Stuck q t) ∧
      ∃ states : List StateId, states.Nodup ∧
        (∀ q, q ∈ states ↔ s.graph.ReachesOver d.alphabet (s.nfa x).initial q) ∧
        d.states.length = states.length + (d.deadState? table).isSome.toNat := by
  obtain ⟨answer, cells, dfa, -, -⟩ := determinize_over s x alphabet
  generalize symbols : (s.alphabetFor x alphabet).1 = A at det cells dfa
  have dead : (((s.determinize x alphabet).2.dfa s.dfas.size).deadState?
      (s.determinize x alphabet).2.cells).isSome = true ↔
        .empty ∈ Subset.liveSets s.graph A ((s.nfa x).start s.graph) := by
    rw [dfa, cells, Dfa.deadState?, List.find?_isSome, ← Subset.isDead_determinize_iff]
  obtain ⟨states, nodup, listed⟩ := det.exists_list
  refine ⟨s.dfas.size, _, _, answer, rfl, rfl, ?_, ?_, ?_, ?_, ?_, states, nodup, ?_, ?_⟩
  · rw [dfa]
    rfl
  · rintro given rfl t
    rw [dfa, ← Subset.mem_symbols, ← symbols]
    rfl
  · intro c hc
    rw [dfa] at hc
    obtain ⟨live, hl, -, cell⟩ := Subset.exists_of_mem_states hc
    rw [cells, cell]
    show live.size ≤ 1
    rcases det.mem_liveSets.mp hl with ⟨q, -, rfl⟩ | ⟨rfl, -⟩
    · exact Nat.le_refl 1
    · exact Nat.zero_le 1
  · rw [dfa, cells]
    exact ⟨_, Subset.copies_determinize det _⟩
  · rw [dead, dfa]
    exact det.empty_mem_liveSets
  · rw [dfa]
    exact listed
  · rw [← Bool.decide_coe (Option.isSome _), decide_eq_decide.mpr dead, dfa,
      ← det.length_liveSets nodup listed, Subset.states_determinize, List.length_map]

/-- State 0 has two edges for one symbol, which lead to the same state, and none for the other;
    only a symbol outside of the alphabet leads to state 2. -/
theorem determinize_deterministic_partial :
    let s : Session :=
      { fresh false with
        graph := ((((((Graph.empty.addState 0 false).addState 1 true).addState 2 true).addEdge
          0 (.text ['a']) 1).addEdge 0 (.text ['a']) 1).addEdge 1 (.text ['b']) 0).addEdge
            1 (.text ['c']) 2
        nfas := #[⟨⟨0, 2⟩, none, none⟩] }
    let given : List Label := [.text ['b'], .epsilon, .text ['a'], .text ['b']]
    (s.nfa 0).Deterministic s.graph (s.alphabetFor 0 (some given)).1 ∧
      ∃ y d table, (s.determinize 0 (some given)).1.answer = .ok (.value (.dfa y)) ∧
        d = (s.determinize 0 (some given)).2.dfa y ∧
        table = (s.determinize 0 (some given)).2.cells ∧ (d.deadState? table).isSome = true ∧
        (∃ f, Subset.Copies (s.nfa 0) s.graph d table f) ∧ d.states.length = 3 := by
  intro s given
  have closed : s.graph.Closed [0, 1, 2] := by decide
  have det : (s.nfa 0).Deterministic s.graph (s.alphabetFor 0 (some given)).1 :=
    .of_part (by decide) closed (by decide)
  obtain ⟨y, d, table, answer, hd, htable, -, offered, -, copies, dead, states, nodup, listed,
    length⟩ := determinize_deterministic s 0 (some given) det
  have symbol : ∀ t, t ∈ d.alphabet ↔ t = ['a'] ∨ t = ['b'] := fun t => by
    have members : Label.text t ∈ given ↔ t = ['b'] ∨ t = ['a'] ∨ t = ['b'] := by simp [given]
    rw [offered given rfl, members]
    tauto
  have stuck : s.graph.Stuck 0 ['b'] := fun d h => by
    have none : ∀ e ∈ s.graph.edges 0, e.label ≠ .text ['b'] := by decide
    exact none _ h rfl
  have found : (d.deadState? table).isSome = true :=
    dead.mpr ⟨0, .refl, ['b'], (symbol _).mpr (Or.inr rfl), stuck⟩
  -- the symbols of the alphabet lead back and forth between two states
  have reached : ∀ q, s.graph.ReachesOver d.alphabet 0 q ↔ q ∈ [0, 1] := by
    have inside : ∀ q ∈ [0, 1], ∀ e ∈ s.graph.edges q,
        e.label = .text ['a'] ∨ e.label = .text ['b'] → e.dest ∈ [0, 1] := by decide
    refine fun q => ⟨fun h => ?_, fun h => ?_⟩
    · induction h with
      | refl => exact List.mem_cons_self
      | step _ ht he ih =>
        exact inside _ ih _ he (((symbol _).mp ht).imp (congrArg Label.text) (congrArg Label.text))
    · have edge : ⟨.text ['a'], 1⟩ ∈ s.graph.edges 0 := by decide
      rcases List.mem_pair.mp h with rfl | rfl
      · exact .refl
      · exact .step .refl ((symbol _).mpr (Or.inl rfl)) edge
  have two : states.Perm [0, 1] := by
    refine (List.perm_ext_iff_of_nodup nodup (by decide)).mpr fun q => ?_
    rw [listed]
    exact reached q
  refine ⟨det, y, d, table, answer, hd, htable, found, copies, ?_⟩
  rw [length, two.length_eq, found]
  rfl

end Session

end FiniteAutomata
