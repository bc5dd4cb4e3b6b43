/-
  FiniteAutomata.Proofs.FirstReading

  Kept views over whole runs. What the first command that reads the states of an automaton
  finds is what every later one is told (`keptStates_of_first`). As the graph only grows, it
  may miss states that are reached later, but never names one that is not reached
  (`reached_of_kept`).

  Questions and steps of a walk do not look at what is kept: with all of it dropped they are
  answered in the same way, and they leave the session as it is (`perform_walks`).
-/
import FiniteAutomata.Proofs.Keeping

namespace FiniteAutomata

namespace Session

/-! ## Commands that do not look at what is kept -/

/-- A session in which nothing is kept of any automaton. -/
def unkept (s : Session) : Session :=
  { s with nfas := s.nfas.map fun o => { o with states := none, finals := none } }

theorem unkept_unkept (s : Session) : s.unkept.unkept = s.unkept := by
  rw [unkept, unkept, Array.map_map]
  rfl

theorem nfa_unkept (s : Session) (x : NfaId) : s.unkept.nfa x = s.nfa x := by
  rw [nfa_eq, nfa_eq]
  show (((s.nfas.map _)[x]?).map _).getD _ = _
  rw [Array.getElem?_map, Option.map_map]
  rfl

theorem has_unkept (s : Session) : s.unkept.has = s.has := by
  funext v
  cases v with
  | nfa x =>
    show decide (x < (s.nfas.map _).size) = decide (x < s.nfas.size)
    rw [Array.size_map]
  | state _ | dfa _ | cell _ | set _ | builder _ | nothing => rfl

theorem startOf_unkept (s : Session) (a : Automaton) : s.unkept.startOf a = s.startOf a := by
  cases a with
  | nfa x => rw [startOf, nfa_unkept]; rfl
  | dfa x => rfl

theorem accepts_unkept (s : Session) (a : Automaton) (w : Word) :
    s.unkept.accepts a w = s.accepts a w := by
  cases a with
  | nfa x => rw [accepts, nfa_unkept]; rfl
  | dfa x => rfl

theorem brief_unkept (s : Session) (v : Value) : s.unkept.brief v = s.brief v := by
  cases v with
  | nfa x => rw [brief, nfa_unkept]; rfl
  | state _ | dfa _ | cell _ | set _ | builder _ | nothing => rfl

/-- No question is answered from what is kept. -/
theorem answer_unkept (s : Session) (q : Question) : q.answer s.unkept = q.answer s := by
  cases q with
  | display v => exact congrArg Answer.brief (brief_unkept s v)
  | accepts a w => exact congrArg Answer.flag (accepts_unkept s a w)
  | texts a maxlen sofar limit start =>
    rw [Question.answer, startOf_unkept]
    rfl
  | walk x y w =>
    rw [Question.answer, nfa_unkept]
    rfl
  | _ => rfl

end Session

/-- Whether a command asks about an automaton without its views, or walks it. -/
def Command.walks : Command → Bool
  | .ask _ | .make (.start _) | .make (.next _ _) => true
  | _ => false

namespace Session

variable {s : Session}

theorem perform_walks (s : Session) {c : Command} (h : c.walks = true) :
    (s.perform c).2 = s ∧ (s.unkept.perform c).1 = (s.perform c).1 := by
  unfold perform
  rw [has_unkept]
  by_cases there : c.mentions.all s.has = true
  · rw [if_pos there, if_pos there]
    match c with
    | .ask q => exact ⟨rfl, congrArg Outcome.ok (answer_unkept s q)⟩
    | .make (.start a) =>
      refine ⟨rfl, ?_⟩
      show Outcome.ok (.value (s.unkept.startOf a).toValue) = _
      rw [startOf_unkept]
      rfl
    | .make (.next (.live live) l) => exact ⟨rfl, rfl⟩
    | .make (.next (.cell c) l) =>
      have cells : s.unkept.cells = s.cells := rfl
      simp only [execute, Maker.make, cells]
      cases (s.cells.get c).next l <;> exact ⟨rfl, rfl⟩
  · rw [if_neg there, if_neg there]
    exact ⟨rfl, rfl⟩

/-! ## The whole story -/

theorem viewStates_of_kept {x : NfaId} {states : List StateId}
    (kept : s.keptStates x = some states) : s.viewStates x = (states, s) := by
  unfold viewStates
  rw [kept]

theorem viewFinals_of_kept {x : NfaId} {finals : StateSet}
    (kept : s.keptFinals x = some finals) : s.viewFinals x = (finals, s) := by
  unfold viewFinals
  rw [kept]

/-- What the first reading of the states of an automaton finds is kept from then on. -/
theorem keptStates_of_first {c : Command} {x : NfaId} (h : s.Coherent)
    (unkept : s.keptStates x = none) (reads : c.ReadsStates x s) (later : List Command) :
    (s.perform c).2.keptStates x =
        some ((s.perform c).2.graph.reachable ((s.perform c).2.nfa x).initial) ∧
      ((s.perform c).2.performAll later).keptStates x =
        some ((s.perform c).2.graph.reachable ((s.perform c).2.nfa x).initial) := by
  have step := keeps_perform h c
  have found := step.read x unkept reads
  exact ⟨found, (extendsTo_performAll (step.coherent h) later).states x _ found⟩

/-- The states of an automaton that are kept were reached when they were kept; they are still
    reached, and still in the order of their numbers. -/
theorem reached_of_kept {r t : Session} {x : NfaId} (h : r.Coherent) (ext : r.ExtendsTo t)
    (kept : r.keptStates x = some (r.graph.reachable (r.nfa x).initial)) :
    (r.graph.reachable (r.nfa x).initial).Pairwise (fun p q => t.graph.num p ≤ t.graph.num q) ∧
      (t.nfa x).initial ∈ r.graph.reachable (r.nfa x).initial ∧
      ∀ q ∈ r.graph.reachable (r.nfa x).initial, t.graph.Reaches (t.nfa x).initial q := by
  have hx := lt_of_keptStates kept
  have lt : ∀ q ∈ r.graph.reachable (r.nfa x).initial, q < r.graph.size := fun q hq =>
    Graph.lt_size_of_mem_reachable (h.ends x hx).1 hq
  rw [ext.nfa x hx]
  refine ⟨(Graph.reachable_pairwise _ _).imp_of_mem fun hp hq le => ?_,
    Graph.mem_reachable.mpr (Graph.Reaches.refl _ _), fun q hq =>
      ext.graph.reaches (Graph.mem_reachable.mp hq)⟩
  rw [ext.graph.num _ (lt _ hp), ext.graph.num _ (lt _ hq)]
  exact le

/-- The views of an automaton over a whole run. Before the first command that reads its states,
    none are kept; from then on, whatever commands follow, its states are the very list that this
    command kept: those that it reached then, each once and by ascending number, and all of them
    are still reached. Its accepting states are from their first reading on those of its states
    that accepted then. Questions and steps of a walk neither depend on what is kept nor keep
    anything. -/
theorem views_of_run (logging : Bool) (before later : List Command) (c : Command) (x : NfaId) :
    let s := (fresh logging).performAll before
    let r := (s.perform c).2
    let t := r.performAll later
    (Never (Command.ReadsStates x) (fresh logging) before → s.keptStates x = none ∧
      (c.ReadsStates x s → ∃ states, r.keptStates x = some states ∧
        t.keptStates x = some states ∧ t.viewStates x = (states, t) ∧
        (∀ q, q ∈ states ↔ r.graph.Reaches (r.nfa x).initial q) ∧ states.Nodup ∧
        states.Pairwise (fun p q => t.graph.num p ≤ t.graph.num q) ∧
        (t.nfa x).initial ∈ states ∧ ∀ q ∈ states, t.graph.Reaches (t.nfa x).initial q)) ∧
    (Never (Command.ReadsFinals x) (fresh logging) before → s.keptFinals x = none ∧
      (c.ReadsFinals x s → ∃ states finals, r.keptStates x = some states ∧
        t.keptStates x = some states ∧ t.keptFinals x = some finals ∧
        t.viewFinals x = (finals, t) ∧
        ∀ q, q ∈ finals ↔ q ∈ states ∧ r.graph.accepting q = true)) ∧
    ∀ (u v : Session) (d : Command), d.walks = true → u.unkept = v.unkept →
      (u.perform d).2 = u ∧ (u.perform d).1 = (v.perform d).1 := by
  intro s r t
  have start := coherent_fresh logging
  have coherent : s.Coherent := coherent_performAll start before
  have step := keeps_perform coherent c
  have later_ext : r.ExtendsTo t := extendsTo_performAll (step.coherent coherent) later
  refine ⟨fun never => ?_, fun never => ?_, fun u v d walks same => ?_⟩
  · have unkept : s.keptStates x = none := keptStates_of_never start rfl never
    refine ⟨unkept, fun reads => ?_⟩
    obtain ⟨found, kept⟩ := keptStates_of_first coherent unkept reads later
    exact ⟨_, found, kept, viewStates_of_kept kept, fun q => Graph.mem_reachable,
      Graph.nodup_reachable _ _, reached_of_kept (step.coherent coherent) later_ext found⟩
  · have unkept : s.keptFinals x = none := keptFinals_of_never start rfl never
    refine ⟨unkept, fun reads => ?_⟩
    obtain ⟨states, kept, finals⟩ := step.readFinals x unkept reads
    have finals_now := later_ext.finals x _ finals
    refine ⟨states, _, kept, later_ext.states x _ kept, finals_now, viewFinals_of_kept finals_now,
      fun q => ?_⟩
    rw [SortedSet.mem_ofList, List.mem_filter]
  · obtain ⟨stays, answer⟩ := perform_walks u walks
    obtain ⟨-, answer'⟩ := perform_walks v walks
    exact ⟨stays, by rw [← answer, same, answer']⟩

/-- A state that is reached only later is not among those kept at first. -/
theorem views_of_run_stale :
    let s := (fresh false).performAll
      [.make (.state 3 true), .make (.state 1 true), .make (.nfa 0 0)]
    let r := (s.perform (.view (.finals 0))).2
    let t := r.performAll [.change (.edge 0 .epsilon 1), .change (.stateAccepting 0 false)]
    (∃ states, r.keptStates 0 = some states ∧ t.keptStates 0 = some states ∧
        0 ∈ states ∧ 1 ∉ states) ∧
      t.graph.Reaches (t.nfa 0).initial 1 ∧
      (∃ finals, t.keptFinals 0 = some finals ∧ 0 ∈ finals ∧ t.graph.accepting 0 = false) ∧
      (t.perform (.ask (.accepts (.nfa 0) []))).1 =
        (t.unkept.perform (.ask (.accepts (.nfa 0) []))).1 := by
  intro s r t
  obtain ⟨first, second, walks⟩ := views_of_run false
    [.make (.state 3 true), .make (.state 1 true), .make (.nfa 0 0)]
    [.change (.edge 0 .epsilon 1), .change (.stateAccepting 0 false)] (.view (.finals 0)) 0
  obtain ⟨states, found, kept, -, reached, -, -, initial, -⟩ :=
    (first ⟨id, id, id, trivial⟩).2 ⟨rfl, Nat.zero_lt_one⟩
  obtain ⟨states', finals, -, kept', keptFinals, -, members⟩ :=
    (second ⟨id, id, id, trivial⟩).2 ⟨rfl, Nat.zero_lt_one⟩
  obtain rfl : states' = states := Option.some.inj (kept'.symm.trans kept)
  -- the state had no edges when its automaton was read
  have alone : ∀ q, r.graph.Reaches 0 q → q = 0 := by
    intro q hq
    refine hq.induct (M := fun q => q = 0) rfl fun _ hp he => ?_
    rw [hp] at he
    cases he
  have edge : ⟨.epsilon, 1⟩ ∈ t.graph.edges 0 := List.mem_singleton_self _
  exact ⟨⟨states', found, kept, initial, fun h => Nat.one_ne_zero (alone 1 ((reached 1).mp h))⟩,
    (Graph.Reaches.refl t.graph 0).step edge,
    ⟨finals, keptFinals, (members 0).mpr ⟨initial, rfl⟩, rfl⟩,
    (walks t t.unkept _ rfl t.unkept_unkept.symm).2⟩

end Session

end FiniteAutomata
