/-
  FiniteAutomata.Proofs.Trace

  Walking with live sets and the paths that can be seen in the graph. A trace is a path edge
  by edge, given by the labels of all its edges, the empty moves included; a word is padded
  when empty moves are put in anywhere.

  `path_iff_trace` says that a path reads a word just if its trace is the word, padded.
  `walk_iff_trace` draws the consequence for walks: the live set after a word holds exactly
  the ends of the traces that pad the word.
-/
import FiniteAutomata.Proofs.Path

namespace FiniteAutomata

namespace Word

/-- The second word is the first one with empty moves put in anywhere, or nowhere. -/
inductive Padded : Word → Word → Prop
  | nil : Padded [] []
  | pad {w v : Word} : Padded w v → Padded w (.epsilon :: v)
  | keep (l : Label) {w v : Word} : Padded w v → Padded (l :: w) (l :: v)

end Word

namespace Graph

open Word

variable {g : Graph}

/-- A path from state to state, by the labels of its edges. -/
inductive Trace (g : Graph) : StateId → Word → StateId → Prop
  | nil (q : StateId) : Trace g q [] q
  | edge {q d r : StateId} {l : Label} {v : Word} :
      ⟨l, d⟩ ∈ g.edges q → Trace g d v r → Trace g q (l :: v) r

/-- The path that reads a word, followed edge by edge, reads the word padded. -/
theorem Path.exists_trace {p r : StateId} {w : Word} (h : g.Path p w r) :
    ∃ v, Padded w v ∧ g.Trace p v r := by
  induction h with
  | nil q => exact ⟨[], .nil, .nil q⟩
  | silent he _ ih =>
    obtain ⟨v, hv, ht⟩ := ih
    exact ⟨.epsilon :: v, hv.pad, .edge he ht⟩
  | @read q d r l w he _ ih =>
    obtain ⟨v, hv, ht⟩ := ih
    exact ⟨l :: v, hv.keep l, .edge he ht⟩

/-- A trace reads every word that its labels pad. -/
theorem Trace.path {p r : StateId} {w v : Word} (h : g.Trace p v r) (hv : Padded w v) :
    g.Path p w r := by
  -- The padding says of each edge whether it is read or taken silently.
  induction hv generalizing p with
  | nil =>
    cases h
    exact .nil _
  | pad _ ih =>
    cases h with
    | edge he ht => exact .silent he (ih ht)
  | keep l _ ih =>
    cases h with
    | edge he ht => exact .read he (ih ht)

theorem path_iff_trace {p r : StateId} {w : Word} :
    g.Path p w r ↔ ∃ v, Padded w v ∧ g.Trace p v r := by
  constructor
  · exact Path.exists_trace
  · rintro ⟨v, hv, ht⟩
    exact ht.path hv

/-- A path reads every label of its word on some edge. -/
theorem path_append_cons_iff {p r : StateId} {l : Label} {u w : Word} :
    g.Path p (u ++ l :: w) r ↔ ∃ q d, g.Path p u q ∧ ⟨l, d⟩ ∈ g.edges q ∧ g.Path d w r := by
  rw [path_append_iff]
  constructor
  · rintro ⟨m, hu, hr⟩
    obtain ⟨q, d, hq, he, hw⟩ := path_cons_iff.mp hr
    have hpq := hu.append hq
    rw [List.append_nil] at hpq
    exact ⟨q, d, hpq, he, hw⟩
  · rintro ⟨q, d, hu, he, hw⟩
    exact ⟨q, hu, .read he hw⟩

/-- A label of a word is read on an edge of its own, also when it is the empty move. -/
theorem mem_run_append_cons {live : StateSet} {u w : Word} {l : Label} {r : StateId} :
    r ∈ g.run (g.closure live) (u ++ l :: w) ↔
      ∃ q ∈ g.run (g.closure live) u, ∃ d, ⟨l, d⟩ ∈ g.edges q ∧
        r ∈ g.run (g.closure (.ofList [d])) w := by
  simp only [mem_run, path_append_cons_iff, SortedSet.mem_ofList, List.mem_singleton,
    exists_eq_left]
  constructor
  · rintro ⟨s, hs, q, d, hu, he, hw⟩
    exact ⟨q, ⟨s, hs, hu⟩, d, he, hw⟩
  · rintro ⟨q, ⟨s, hs, hu⟩, d, he, hw⟩
    exact ⟨s, hs, q, d, hu, he, hw⟩

/-- Walking with live sets finds the ends of the traces that pad the word. So an automaton
    accepts a word just if such a trace leads to an accepting state, whether or not the walk
    stops at an empty live set; and an empty move in the word takes an edge of its own. -/
theorem walk_iff_trace (g : Graph) :
    (∀ (live : StateSet) (w : Word) (q : StateId),
      q ∈ w.foldl g.step (g.closure live) ↔ ∃ s ∈ live, ∃ v, Padded w v ∧ g.Trace s v q) ∧
    (∀ (n : Nfa) (w : Word), n.accepts g w = true ↔
      ∃ q v, Padded w v ∧ g.Trace n.initial v q ∧ g.accepting q = true) ∧
    (∀ (n : Nfa) (w : Word), n.accepts g w = g.isFinal (w.foldl g.step (n.start g))) ∧
    ∀ (live : StateSet) (u w : Word) (r : StateId),
      r ∈ (u ++ .epsilon :: w).foldl g.step (g.closure live) ↔
        ∃ q ∈ u.foldl g.step (g.closure live), ∃ d, ⟨.epsilon, d⟩ ∈ g.edges q ∧
          r ∈ w.foldl g.step (g.closure (.ofList [d])) := by
  refine ⟨fun live w q => ?_, fun n w => ?_, fun n w => Nfa.accepts_eq_isFinal n g w,
    fun live u w r => mem_run_append_cons⟩
  · show q ∈ g.run (g.closure live) w ↔ _
    simp only [mem_run, path_iff_trace]
  · rw [Nfa.accepts_iff_path]
    constructor
    · rintro ⟨q, hp, ha⟩
      obtain ⟨v, hv, ht⟩ := hp.exists_trace
      exact ⟨q, v, hv, ht, ha⟩
    · rintro ⟨q, v, hv, ht, ha⟩
      exact ⟨q, ht.path hv, ha⟩

end Graph

end FiniteAutomata
