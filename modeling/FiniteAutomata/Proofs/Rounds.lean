/-
  FiniteAutomata.Proofs.Rounds

  How long the search for live sets takes. `Worklist.Ends` describes the loop over the queue
  round by round, with no bound of any kind: it holds of a list of rounds only if the queue is
  empty after the last of them. The search that is carried out is a loop that ends, and there
  is no other way for it to end (`ends_iff`); what it takes off the queue is what was put on
  it, in the same order (`Ends.taken_eq`).

  Every live set that comes up holds states of the automaton only, and of `n` states there are
  `2 ^ n` sets (`length_le_two_pow`). So the number of rounds, which is that of the cells, is
  at most that (`determinize_rounds`).
-/
import FiniteAutomata.Proofs.Isomorphism
import Mathlib.Data.List.Sublists

namespace FiniteAutomata

namespace Worklist

variable {α : Type} [DecidableEq α] {succ : α → List α} {seen queue : List α}
  {rounds : List (Visit α)}

/-- The loop over a queue ends after some rounds. In each of them a value is taken off the
    queue, and those of its successors that were not seen yet are put on it. -/
inductive Ends (succ : α → List α) : List α → List α → List (Visit α) → Prop
  | done {seen : List α} : Ends succ seen [] []
  | round {seen rest : List α} {a : α} {rounds : List (Visit α)} :
      Ends succ (seen ++ fresh seen (succ a)) (rest ++ fresh seen (succ a)) rounds →
      Ends succ seen (a :: rest) (⟨a, fresh seen (succ a)⟩ :: rounds)

/-- The loop ends with the visits of the search, and in no other way. -/
theorem ends_iff (h : Bounded succ) :
    Ends succ seen queue rounds ↔ rounds = visits succ h seen queue := by
  constructor
  · intro ends
    induction ends with
    | done => rw [visits]
    | round _ ih => rw [visits_cons, ← ih]
  · rintro rfl
    fun_induction visits succ h seen queue with
    | case1 => exact .done
    | case2 seen a rest ih => exact .round ih

/-- What is taken off the queue is what was on it and what was put on it, in this order. -/
theorem Ends.taken_eq (ends : Ends succ seen queue rounds) :
    rounds.map Visit.taken = queue ++ rounds.flatMap Visit.added := by
  induction ends with
  | done => rfl
  | round _ ih => rw [List.map_cons, ih, List.flatMap_cons, List.append_assoc, List.cons_append]

end Worklist

namespace Subset

/-! ## How many sets there are -/

/-- A set whose members all stand in a list is a part of the list. -/
theorem mem_map_sublists {states : List StateId} {live : StateSet}
    (within : ∀ q ∈ live, q ∈ states) : live ∈ states.sublists'.map .ofList := by
  let members : List StateId := states.filter fun q => decide (q ∈ live)
  have sub : members.Sublist states := List.filter_sublist
  refine List.mem_map.mpr ⟨members, List.mem_sublists'.mpr sub, ?_⟩
  refine SortedSet.ext_mem fun q => ?_
  simpa [members] using within q

/-- Of `n` states there are at most `2 ^ n` different sets. -/
theorem length_le_two_pow {states : List StateId} {sets : List StateSet} (nodup : sets.Nodup)
    (within : ∀ live ∈ sets, ∀ q ∈ live, q ∈ states) : sets.length ≤ 2 ^ states.length := by
  have sub : sets ⊆ states.sublists'.map .ofList := fun live hl => mem_map_sublists (within live hl)
  have le := (List.subperm_of_subset nodup sub).length_le
  rwa [List.length_map, List.length_sublists'] at le

/-- The live sets are found in the order in which the loop takes them off its queue. -/
theorem taken_of_ends {g : Graph} {alphabet : SortedSet Text} {start : StateSet}
    {rounds : List (Worklist.Visit StateSet)}
    (ends : Worklist.Ends (successors g alphabet) [start] [start] rounds) :
    rounds.map Worklist.Visit.taken = liveSets g alphabet start := by
  have first : Worklist.fresh [] [start] = [start] :=
    Worklist.fresh_singleton_of_not_mem List.not_mem_nil
  rw [liveSets, Worklist.explore, first, ← (Worklist.ends_iff _).mp ends]

end Subset

/-! ## In a session -/

namespace Session

/-- Making an automaton deterministic ends, whatever edges its states have. The loop over the
    live sets starts with the first one on the queue. It takes off exactly what is put on, and
    no set comes up twice; all that comes up are sets of states of the automaton. There is one
    round for each cell, and of the cells there are at most `2 ^ n`, if the automaton has `n`
    states. -/
theorem determinize_rounds (s : Session) (x : NfaId) (alphabet : Option (List Label)) :
    let succ := Subset.successors s.graph (s.alphabetFor x alphabet).1
    let start := (s.nfa x).start s.graph
    let states := s.graph.reachable (s.nfa x).initial
    ∃ y d table rounds, (s.determinize x alphabet).1.answer = .ok (.value (.dfa y)) ∧
      d = (s.determinize x alphabet).2.dfa y ∧ table = (s.determinize x alphabet).2.cells ∧
      (∀ other, Worklist.Ends succ [start] [start] other ↔ other = rounds) ∧
      rounds.map Worklist.Visit.taken = d.states.map (fun c => (table.get c).members) ∧
      rounds.map Worklist.Visit.taken = start :: rounds.flatMap Worklist.Visit.added ∧
      (rounds.map Worklist.Visit.taken).Nodup ∧
      (∀ live ∈ start :: rounds.flatMap Worklist.Visit.added, ∀ q ∈ live, q ∈ states) ∧
      rounds.length = d.states.length ∧ d.states.length ≤ 2 ^ states.length := by
  intro succ start states
  obtain ⟨answer, cells, dfa, -, -⟩ := determinize_over s x alphabet
  obtain ⟨rounds, only⟩ : ∃ rounds, ∀ other,
      Worklist.Ends succ [start] [start] other ↔ other = rounds :=
    ⟨_, fun _ => Worklist.ends_iff (Subset.bounded_successors s.graph _)⟩
  have ends : Worklist.Ends succ [start] [start] rounds := (only rounds).mpr rfl
  have found : rounds.map Worklist.Visit.taken = Subset.liveSets s.graph _ start :=
    Subset.taken_of_ends ends
  have members : ((s.determinize x alphabet).2.dfa s.dfas.size).states.map
      (fun c => ((s.determinize x alphabet).2.cells.get c).members) =
        Subset.liveSets s.graph (s.alphabetFor x alphabet).1 start := by
    rw [dfa, cells]
    exact Subset.members_determinize
  have within : ∀ live ∈ rounds.map Worklist.Visit.taken, ∀ q ∈ live, q ∈ states :=
    fun live hl q hq =>
      Graph.mem_reachable.mpr (Subset.within_of_mem_liveSets (found ▸ hl) q hq)
  have nodup : (rounds.map Worklist.Visit.taken).Nodup := found ▸ Worklist.nodup_explore _
  have same := found.trans members.symm
  have length : rounds.length = ((s.determinize x alphabet).2.dfa s.dfas.size).states.length := by
    simpa using congrArg List.length same
  have few : rounds.length ≤ 2 ^ states.length := by
    simpa using Subset.length_le_two_pow nodup within
  have put : rounds.map Worklist.Visit.taken = start :: rounds.flatMap Worklist.Visit.added :=
    ends.taken_eq
  exact ⟨_, _, _, rounds, answer, rfl, rfl, only, same, put, nodup, put ▸ within, length,
    length ▸ few⟩

end Session

end FiniteAutomata
