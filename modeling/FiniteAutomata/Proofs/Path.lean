/-
  FiniteAutomata.Proofs.Path

  What walking with live sets means in terms of single paths. A path reads a word label by
  label and may take empty moves anywhere in between; an empty move that stands in the word
  itself must be taken, too.

  `mem_run` says that the live set after a word holds exactly the ends of the paths that
  read the word, and `accepts_iff_path` that an automaton accepts a word when one of these
  ends accepts. The walk of an automaton stops at an empty live set; `accepts_eq_isFinal`
  says that going on would change nothing.
-/
import FiniteAutomata.Nfa.Basic

namespace FiniteAutomata

namespace Graph

variable {g : Graph}

/-! ## Paths -/

/-- A path through a graph that reads a word, with empty moves anywhere in between. -/
inductive Path (g : Graph) : StateId → Word → StateId → Prop
  | nil (q : StateId) : Path g q [] q
  | silent {q d r : StateId} {w : Word} :
      ⟨.epsilon, d⟩ ∈ g.edges q → Path g d w r → Path g q w r
  | read {q d r : StateId} {l : Label} {w : Word} :
      ⟨l, d⟩ ∈ g.edges q → Path g d w r → Path g q (l :: w) r

theorem Path.append {p q r : StateId} {u v : Word} (h : g.Path p u q) (k : g.Path q v r) :
    g.Path p (u ++ v) r := by
  induction h with
  | nil => exact k
  | silent he _ ih => exact .silent he (ih k)
  | read he _ ih => exact .read he (ih k)

/-- A path that reads a label stands, just before it does, where the label leaves. -/
theorem path_cons_iff {p r : StateId} {l : Label} {w : Word} :
    g.Path p (l :: w) r ↔
      ∃ q d, g.Path p [] q ∧ ⟨l, d⟩ ∈ g.edges q ∧ g.Path d w r := by
  constructor
  · intro h
    generalize hw : l :: w = lw at h
    induction h with
    | nil => cases hw
    | silent he _ ih =>
      obtain ⟨q, d, hq, hd, hr⟩ := ih hw
      exact ⟨q, d, .silent he hq, hd, hr⟩
    | read he hp _ =>
      cases hw
      exact ⟨_, _, .nil _, he, hp⟩
  · rintro ⟨q, d, hq, hd, hr⟩
    exact hq.append (.read hd hr)

/-- A path that reads two words, one after the other, stands somewhere in between. -/
theorem path_append_iff {p r : StateId} {u v : Word} :
    g.Path p (u ++ v) r ↔ ∃ q, g.Path p u q ∧ g.Path q v r := by
  constructor
  · intro h
    induction u generalizing p with
    | nil => exact ⟨p, .nil p, h⟩
    | cons l u ih =>
      obtain ⟨q, d, hq, hd, hr⟩ := path_cons_iff.mp h
      obtain ⟨m, hm, hv⟩ := ih hr
      exact ⟨m, path_cons_iff.mpr ⟨q, d, hq, hd, hm⟩, hv⟩
  · rintro ⟨q, hu, hv⟩
    exact hu.append hv

/-- The states of an automaton, as those that paths lead to. -/
def Reaches (g : Graph) (s q : StateId) : Prop := Worklist.Reaches g.successors [s] q

theorem Reaches.refl (g : Graph) (s : StateId) : g.Reaches s s := .start (by simp)

theorem Reaches.step {s q d : StateId} {l : Label} (h : g.Reaches s q)
    (he : ⟨l, d⟩ ∈ g.edges q) : g.Reaches s d :=
  Worklist.Reaches.step h (mem_successors.mpr ⟨l, he⟩)

theorem Reaches.path {s q r : StateId} {w : Word} (h : g.Reaches s q) (k : g.Path q w r) :
    g.Reaches s r := by
  induction k with
  | nil => exact h
  | silent he _ ih => exact ih (h.step he)
  | read he _ ih => exact ih (h.step he)

theorem Reaches.trans {p q r : StateId} (h : g.Reaches p q) (k : g.Reaches q r) :
    g.Reaches p r := by
  induction k with
  | start ha => rwa [List.mem_singleton.mp ha]
  | step _ hb ih => exact Worklist.Reaches.step ih hb

theorem Reaches.lt_size {s q : StateId} (hs : s < g.size) (h : g.Reaches s q) :
    q < g.size := by
  induction h with
  | start ha => rw [List.mem_singleton.mp ha]; exact hs
  | step _ hb _ =>
    obtain ⟨l, he⟩ := mem_successors.mp hb
    exact dest_lt he

/-- What holds of the start and passes along edges holds of all that is reached. -/
theorem Reaches.induct {s q : StateId} {M : StateId → Prop} (h : g.Reaches s q)
    (base : M s) (step : ∀ {p d l}, g.Reaches s p → M p → ⟨l, d⟩ ∈ g.edges p → M d) : M q := by
  induction h with
  | start ha => rw [List.mem_singleton.mp ha]; exact base
  | step ha hb ih =>
    obtain ⟨l, he⟩ := mem_successors.mp hb
    exact step ha ih he

/-! ## Live sets -/

/-- The closure of a set holds the ends of the paths out of it that read nothing. -/
theorem mem_closure_iff_path {live : StateSet} {q : StateId} :
    q ∈ g.closure live ↔ ∃ s ∈ live, g.Path s [] q := by
  rw [mem_closure]
  constructor
  · intro h
    induction h with
    | start hs => exact ⟨_, SortedSet.mem_toList.mp hs, .nil _⟩
    | step _ hb ih =>
      obtain ⟨s, hs, hp⟩ := ih
      have he := mem_destinations.mp hb
      exact ⟨s, hs, hp.append (.silent he (.nil _))⟩
  · rintro ⟨s, hs, hp⟩
    have start : Worklist.Reaches g.epsilonTargets live.toList s := .start hs
    clear hs
    -- The word of a path is an index; it has to be a variable for the induction.
    generalize hw : ([] : Word) = w at hp
    induction hp with
    | nil => exact start
    | silent he _ ih => exact ih (start.step (mem_destinations.mpr he)) hw
    | read => cases hw

/-- The live set after a word holds the ends of the paths that read the word. -/
theorem mem_run {live : StateSet} {w : Word} {q : StateId} :
    q ∈ g.run (g.closure live) w ↔ ∃ s ∈ live, g.Path s w q := by
  induction w generalizing live with
  | nil => exact mem_closure_iff_path
  | cons l w ih =>
    -- The set after the first label is a closure again.
    show q ∈ g.run (g.closure (g.move (g.closure live) l)) w ↔ _
    rw [ih]
    constructor
    · rintro ⟨d, hd, hw⟩
      obtain ⟨p, hp, he⟩ := mem_move.mp hd
      obtain ⟨s, hs, hsp⟩ := mem_closure_iff_path.mp hp
      exact ⟨s, hs, path_cons_iff.mpr ⟨p, d, hsp, he, hw⟩⟩
    · rintro ⟨s, hs, h⟩
      obtain ⟨p, d, hsp, he, hw⟩ := path_cons_iff.mp h
      have hp : p ∈ g.closure live := mem_closure_iff_path.mpr ⟨s, hs, hsp⟩
      exact ⟨d, mem_move.mpr ⟨p, hp, he⟩, hw⟩

theorem run_cons (live : StateSet) (l : Label) (w : Word) :
    g.run live (l :: w) = g.run (g.step live l) w := rfl

/-- Nothing leads out of an empty live set. -/
theorem step_of_isEmpty {live : StateSet} (h : live.isEmpty = true) (l : Label) :
    (g.step live l).isEmpty = true := by
  rw [SortedSet.isEmpty_iff] at h ⊢
  intro q hq
  obtain ⟨d, hd, _⟩ := mem_closure_iff_path.mp hq
  obtain ⟨s, hs, _⟩ := mem_move.mp hd
  exact h s hs

theorem isFinal_run_of_isEmpty {live : StateSet} (h : live.isEmpty = true) (w : Word) :
    g.isFinal (g.run live w) = false := by
  induction w generalizing live with
  | nil =>
    rw [Bool.eq_false_iff]
    intro hf
    obtain ⟨s, hs, _⟩ := isFinal_iff.mp hf
    exact SortedSet.isEmpty_iff.mp h s hs
  | cons l w ih => exact ih (step_of_isEmpty h l)

/-- Stopping at an empty live set does not change what is accepted. -/
theorem machine_run_isFinal (start live : StateSet) (w : Word) :
    ((g.machine start).run live w).any g.isFinal = g.isFinal (g.run live w) := by
  induction w generalizing live with
  | nil => rfl
  | cons l w ih =>
    rw [run_cons]
    by_cases h : (g.step live l).isEmpty = true
    · -- the machine is stuck, the live set stays empty
      rw [isFinal_run_of_isEmpty h]
      simp [Machine.run, machine, h]
    · rw [← ih]
      simp [Machine.run, machine, h]

end Graph

/-- A word is accepted where its walk ends, if it ends anywhere. -/
theorem Machine.accepts_eq_any {σ : Type} (m : Machine σ) (w : Word) :
    m.accepts w = (m.run m.start w).any m.isFinal := by
  unfold Machine.accepts
  cases m.run m.start w <;> rfl

namespace Nfa

variable {n : Nfa} {g : Graph}

/-- Acceptance is a question about the live set after the whole word. -/
theorem accepts_eq_isFinal (n : Nfa) (g : Graph) (w : Word) :
    n.accepts g w = g.isFinal (g.run (n.start g) w) := by
  rw [← Graph.machine_run_isFinal (n.start g)]
  exact Machine.accepts_eq_any (n.machine g) w

/-- A word is accepted when a path from the initial state reads it and ends in an accepting
    state. -/
theorem accepts_iff_path {w : Word} :
    n.accepts g w = true ↔ ∃ q, g.Path n.initial w q ∧ g.accepting q = true := by
  rw [accepts_eq_isFinal, Graph.isFinal_iff]
  constructor
  · rintro ⟨q, hq, ha⟩
    obtain ⟨s, hs, hp⟩ := Graph.mem_run.mp hq
    rw [SortedSet.mem_ofList, List.mem_singleton] at hs
    exact ⟨q, hs ▸ hp, ha⟩
  · rintro ⟨q, hp, ha⟩
    exact ⟨q, Graph.mem_run.mpr ⟨n.initial, by simp, hp⟩, ha⟩

end Nfa

end FiniteAutomata
