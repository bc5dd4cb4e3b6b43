/-
  FiniteAutomata.Proofs.Frontier

  The closure under empty moves, and the loop over a frontier that finds it. A round of the
  loop takes one value off the frontier and puts those of its successors on it that are new
  (`Worklist.Round`). Nothing is said of which value is taken, or where the new ones go: the
  loop over a queue is one of these, and the loop over a stack another.

  A round leaves fewer values unseen, or as many and a shorter frontier, so the loop ends in
  any order (`wellFounded_round`). Between rounds, what was seen was either taken off, once,
  and then all its successors were seen too, or it is still on the frontier (`Partway`). At
  the end the frontier is empty, and what was seen is what can be reached.

  `closure_any_order` puts this together for empty moves: in any order the loop ends with the
  closure, which is the least set that holds what is given and that no empty move leaves.
-/
import FiniteAutomata.Proofs.Trace
import Mathlib.Order.Bounds.Defs

namespace FiniteAutomata

namespace SortedSet

variable {α : Type} [Ordered α]

/-- The members of both sets. -/
instance : Union (SortedSet α) := ⟨fun s t => .ofList (s.toList ++ t.toList)⟩

@[simp] theorem mem_union {a : α} {s t : SortedSet α} : a ∈ s ∪ t ↔ a ∈ s ∨ a ∈ t := by
  show a ∈ ofList (s.toList ++ t.toList) ↔ _
  simp

end SortedSet

namespace Worklist

/-! ## Stages of the loop -/

section Stages

variable {α : Type} {succ : α → List α} {given taken : List α}

/-- Where the loop over a frontier stands: the values that were seen, and those of them that
    are still to be taken off. -/
structure Stage (α : Type) where
  seen : List α
  frontier : List α

/-- The loop starts with all values that it is given on the frontier, each of them once. -/
structure Stage.Initial (s : Stage α) (given : List α) : Prop where
  nodup : s.frontier.Nodup
  mem_frontier : ∀ a, a ∈ s.frontier ↔ a ∈ given
  mem_seen : ∀ a, a ∈ s.seen ↔ a ∈ given

/-- It matters which values are given, not how often or in which order. -/
theorem Stage.Initial.congr {s : Stage α} {other : List α} (h : s.Initial given)
    (same : ∀ a, a ∈ other ↔ a ∈ given) : s.Initial other where
  nodup := h.nodup
  mem_frontier a := (h.mem_frontier a).trans (same a).symm
  mem_seen a := (h.mem_seen a).trans (same a).symm

/-- What holds when the loop has taken some values off. None of them was taken off twice or is
    on the frontier again, and nothing was seen but these and the frontier. What was seen can
    be reached, and the successors of what was taken off were seen. -/
structure Partway (succ : α → List α) (given taken : List α) (s : Stage α) : Prop where
  once : (taken ++ s.frontier).Nodup
  mem_seen : ∀ a, a ∈ s.seen ↔ a ∈ taken ∨ a ∈ s.frontier
  given_seen : ∀ a ∈ given, a ∈ s.seen
  reached : ∀ a ∈ s.seen, Reaches succ given a
  expanded : ∀ a ∈ taken, ∀ b ∈ succ a, b ∈ s.seen

namespace Partway

variable {s : Stage α} {a : α}

theorem start (h : s.Initial given) : Partway succ given [] s where
  once := h.nodup
  mem_seen a := by simp [h.mem_seen, h.mem_frontier]
  given_seen a ha := (h.mem_seen a).mpr ha
  reached a ha := .start ((h.mem_seen a).mp ha)
  expanded a ha := absurd ha List.not_mem_nil

/-- No value is taken off twice. -/
theorem nodup (p : Partway succ given taken s) : taken.Nodup := (List.nodup_append.mp p.once).1

theorem mem_seen_iff_taken (p : Partway succ given taken s) (empty : s.frontier = []) :
    a ∈ s.seen ↔ a ∈ taken := by
  simp [p.mem_seen, empty]

/-- At the end, what can be reached was taken off. -/
theorem mem_taken_iff (p : Partway succ given taken s) (empty : s.frontier = []) :
    a ∈ taken ↔ Reaches succ given a := by
  constructor
  · exact fun ha => p.reached a ((p.mem_seen_iff_taken empty).mpr ha)
  · intro h
    induction h with
    | start ha => exact (p.mem_seen_iff_taken empty).mp (p.given_seen _ ha)
    | step _ hb ih => exact (p.mem_seen_iff_taken empty).mp (p.expanded _ ih _ hb)

end Partway

end Stages

/-! ## Rounds of the loop, in any order -/

variable {α : Type} [DecidableEq α]

/-- One round of the loop takes a value off the frontier, wherever it is. Those of its
    successors that were not seen yet are put on the frontier, wherever that may be. -/
structure Round (succ : α → List α) (s : Stage α) (a : α) (t : Stage α) : Prop where
  taken : a ∈ s.frontier
  seen : t.seen = s.seen ++ fresh s.seen (succ a)
  frontier : t.frontier.Perm (s.frontier.erase a ++ fresh s.seen (succ a))

/-- Some rounds of the loop, by the values that they take off. -/
inductive Run (succ : α → List α) : Stage α → List α → Stage α → Prop
  | nil (s : Stage α) : Run succ s [] s
  | cons {s t u : Stage α} {a : α} {more : List α} :
      Round succ s a t → Run succ t more u → Run succ s (a :: more) u

variable {succ : α → List α} {s t : Stage α} {a : α} {given taken more : List α}

theorem initial_fresh (given : List α) :
    (⟨fresh [] given, fresh [] given⟩ : Stage α).Initial given where
  nodup := nodup_fresh [] given
  mem_frontier a := by simp [mem_fresh]
  mem_seen a := by simp [mem_fresh]

/-- Any value on the frontier may be the next one. -/
theorem exists_round (succ : α → List α) (ha : a ∈ s.frontier) : ∃ t, Round succ s a t :=
  ⟨⟨_, _⟩, ha, rfl, .refl _⟩

/-- A queue gives its first value, and new ones go to its end. -/
theorem Round.first (succ : α → List α) (seen rest : List α) (a : α) :
    Round succ ⟨seen, a :: rest⟩ a ⟨seen ++ fresh seen (succ a), rest ++ fresh seen (succ a)⟩ where
  taken := List.mem_cons_self
  seen := rfl
  frontier := by rw [List.erase_cons_head]

/-- A stack gives its last value, and new ones go to its end. -/
theorem Round.last (succ : α → List α) (seen rest : List α) (a : α) :
    Round succ ⟨seen, rest ++ [a]⟩ a
      ⟨seen ++ fresh seen (succ a), rest ++ fresh seen (succ a)⟩ where
  taken := List.mem_append_right rest List.mem_cons_self
  seen := rfl
  frontier := by
    have erased : ((rest ++ [a]).erase a).Perm ((a :: rest).erase a) :=
      (List.perm_append_singleton a rest).erase a
    rw [List.erase_cons_head] at erased
    exact erased.symm.append_right _

/-- The search is a run of the loop over a queue. -/
theorem exists_run_visits (h : Bounded succ) (seen queue : List α) :
    ∃ t, Run succ ⟨seen, queue⟩ ((visits succ h seen queue).map Visit.taken) t ∧
      t.frontier = [] := by
  fun_induction visits succ h seen queue with
  | case1 seen => exact ⟨_, .nil _, rfl⟩
  | case2 seen a rest ih =>
    obtain ⟨t, run, empty⟩ := ih
    exact ⟨t, .cons (.first succ seen rest a) run, empty⟩

/-- What is taken off, and what is on the frontier then, is what was on it and what is new. -/
theorem Round.perm (h : Round succ s a t) :
    (a :: t.frontier).Perm (s.frontier ++ fresh s.seen (succ a)) :=
  calc (a :: t.frontier).Perm (a :: s.frontier.erase a ++ fresh s.seen (succ a)) :=
        h.frontier.cons a
    List.Perm _ (s.frontier ++ fresh s.seen (succ a)) :=
        (List.perm_cons_erase h.taken).symm.append_right _

theorem Round.mem_seen (h : Round succ s a t) {b : α} :
    b ∈ t.seen ↔ b ∈ s.seen ∨ b ∈ succ a := by
  rw [h.seen, List.mem_append, mem_fresh]
  by_cases old : b ∈ s.seen <;> simp [old]

theorem Partway.round (p : Partway succ given taken s) (h : Round succ s a t) :
    Partway succ given (taken ++ [a]) t where
  once := by
    have moved : (taken ++ [a] ++ t.frontier).Perm
        (taken ++ s.frontier ++ fresh s.seen (succ a)) := by
      rw [List.append_assoc, List.append_assoc]
      exact h.perm.append_left taken
    refine moved.nodup_iff.mpr (List.nodup_append.mpr ⟨p.once, nodup_fresh _ _, ?_⟩)
    -- what is new was not seen, so it was neither taken off nor is it on the frontier
    rintro b old _ new rfl
    exact (mem_fresh.mp new).2 ((p.mem_seen b).mpr (List.mem_append.mp old))
  mem_seen b := by
    have moved : b ∈ a :: t.frontier ↔ b ∈ s.frontier ++ fresh s.seen (succ a) := h.perm.mem_iff
    rw [h.seen, List.mem_append, p.mem_seen, or_assoc, ← List.mem_append, ← moved]
    simp [or_assoc]
  given_seen b hb := h.mem_seen.mpr (.inl (p.given_seen b hb))
  reached b hb := by
    rcases h.mem_seen.mp hb with old | successor
    · exact p.reached b old
    · exact (p.reached a ((p.mem_seen a).mpr (.inr h.taken))).step successor
  expanded b hb c hc := by
    rcases List.mem_append.mp hb with old | new
    · exact h.mem_seen.mpr (.inl (p.expanded b old c hc))
    · rw [List.mem_singleton.mp new] at hc
      exact h.mem_seen.mpr (.inr hc)

theorem Partway.run (p : Partway succ given taken s) (h : Run succ s more t) :
    Partway succ given (taken ++ more) t := by
  -- The rounds still to come are the induction; what was taken off before them grows with each.
  induction h generalizing taken with
  | nil => rwa [List.append_nil]
  | cons round _ ih =>
    rw [List.append_cons]
    exact ih (p.round round)

/-! ## The loop ends -/

/-- A round leaves fewer values unseen, or as many and a shorter frontier. -/
theorem Round.decreases {domain : List α} (within : ∀ a, ∀ b ∈ succ a, b ∈ domain)
    (h : Round succ s a t) :
    Prod.Lex (· < ·) (· < ·) (unseen domain t.seen, t.frontier.length)
      (unseen domain s.seen, s.frontier.length) := by
  cases new : fresh s.seen (succ a) with
  | nil =>
    -- nothing is put on the frontier for what is taken off
    have seen : t.seen = s.seen := by rw [h.seen, new, List.append_nil]
    have shorter : t.frontier.length < s.frontier.length := by
      rw [h.frontier.length_eq, new, List.append_nil, List.length_erase_of_mem h.taken]
      exact Nat.pred_lt_self (List.length_pos_of_mem h.taken)
    rw [seen]
    exact .right _ shorter
  | cons b rest =>
    have hb : b ∈ fresh s.seen (succ a) := by simp [new]
    obtain ⟨successor, unknown⟩ := mem_fresh.mp hb
    rw [h.seen]
    exact .left _ _ (unseen_lt (within a b successor) unknown hb)

/-- There are no endless runs of the loop. -/
theorem wellFounded_round (h : Bounded succ) : WellFounded fun t s => ∃ a, Round succ s a t := by
  obtain ⟨domain, within⟩ := h
  let size (s : Stage α) : Nat × Nat := (unseen domain s.seen, s.frontier.length)
  refine Subrelation.wf ?_ (InvImage.wf size (Prod.lex Nat.lt_wfRel Nat.lt_wfRel).wf)
  rintro t s ⟨a, round⟩
  exact round.decreases within

/-- From every stage the loop can be run to its end. -/
theorem exists_run_to_end (h : Bounded succ) (s : Stage α) :
    ∃ taken t, Run succ s taken t ∧ t.frontier = [] := by
  induction s using (wellFounded_round h).induction with
  | _ s ih =>
    cases waiting : s.frontier with
    | nil => exact ⟨[], s, .nil s, waiting⟩
    | cons a rest =>
      have next : a ∈ s.frontier := waiting ▸ List.mem_cons_self
      obtain ⟨t, round⟩ := exists_round succ next
      obtain ⟨more, u, run, empty⟩ := ih t ⟨a, round⟩
      exact ⟨a :: more, u, .cons round run, empty⟩

end Worklist

/-! ## Empty moves -/

namespace Word

theorem padded_nil_iff {v : Word} : Padded [] v ↔ ∃ n, v = List.replicate n .epsilon := by
  constructor
  · intro h
    -- The word is an index of the relation; it has to be a variable for the induction.
    generalize none : ([] : Word) = w at h
    induction h with
    | nil => exact ⟨0, rfl⟩
    | pad _ ih =>
      obtain ⟨n, rfl⟩ := ih none
      exact ⟨n + 1, rfl⟩
    | keep => cases none
  · rintro ⟨n, rfl⟩
    induction n with
    | zero => exact .nil
    | succ n ih => exact ih.pad

end Word

namespace Graph

variable {g : Graph} {live : StateSet} {q : StateId}

/-- No empty move leads out of the states. -/
def EpsilonClosed (g : Graph) (states : Set StateId) : Prop :=
  ∀ q ∈ states, ∀ d, ⟨.epsilon, d⟩ ∈ g.edges q → d ∈ states

/-- The closure holds what zero or more empty moves reach. -/
theorem mem_closure_iff_trace :
    q ∈ g.closure live ↔ ∃ s ∈ live, ∃ n, g.Trace s (List.replicate n .epsilon) q := by
  simp only [mem_closure_iff_path, path_iff_trace, Word.padded_nil_iff]
  constructor
  · rintro ⟨s, hs, v, ⟨n, rfl⟩, trace⟩
    exact ⟨s, hs, n, trace⟩
  · rintro ⟨s, hs, n, trace⟩
    exact ⟨s, hs, _, ⟨n, rfl⟩, trace⟩

/-- The closure is the least set that holds the given one and that no empty move leaves. -/
theorem isLeast_closure (g : Graph) (live : StateSet) :
    IsLeast {states : Set StateId | (∀ q ∈ live, q ∈ states) ∧ g.EpsilonClosed states}
      {q | q ∈ g.closure live} := by
  refine ⟨⟨fun q hq => ?_, fun q hq d he => ?_⟩, ?_⟩
  · exact mem_closure.mpr (.start hq)
  · exact mem_closure.mpr ((mem_closure.mp hq).step (mem_destinations.mpr he))
  · rintro states ⟨holds, closed⟩ q hq
    induction mem_closure.mp hq with
    | start hs => exact holds _ hs
    | step reached hb ih =>
      exact closed _ (ih (mem_closure.mpr reached)) _ (mem_destinations.mp hb)

theorem closure_union (g : Graph) (live other : StateSet) :
    g.closure (live ∪ other) = g.closure live ∪ g.closure other :=
  SortedSet.ext_mem fun q => by
    simp only [SortedSet.mem_union, mem_closure_iff_path, or_and_right, exists_or]

theorem closure_closure (g : Graph) (live : StateSet) :
    g.closure (g.closure live) = g.closure live := by
  -- No empty move leaves a closure, so it is among the sets of which its own closure is least.
  obtain ⟨⟨-, closed⟩, -⟩ := isLeast_closure g live
  obtain ⟨⟨holds, -⟩, least⟩ := isLeast_closure g (g.closure live)
  exact SortedSet.ext_mem fun q => ⟨fun hq => least ⟨fun _ h => h, closed⟩ hq, holds q⟩

/-- When the loop over empty moves has come to its end, what was seen is the closure, and each
    state of it was taken off. -/
theorem eq_closure_of_run {taken : List StateId} {s t : Worklist.Stage StateId}
    (start : s.Initial live.toList) (run : Worklist.Run g.epsilonTargets s taken t)
    (empty : t.frontier = []) :
    .ofList t.seen = g.closure live ∧ taken.Perm (g.closure live).toList := by
  have partway : Worklist.Partway g.epsilonTargets live.toList taken t :=
    (Worklist.Partway.start start).run run
  have found : ∀ q, q ∈ taken ↔ q ∈ g.closure live := fun q => by
    rw [partway.mem_taken_iff empty, mem_closure]
  constructor
  · refine SortedSet.ext_mem fun q => ?_
    rw [SortedSet.mem_ofList, partway.mem_seen_iff_taken empty, found]
  · exact (List.perm_ext_iff_of_nodup partway.nodup (SortedSet.nodup_toList _)).mpr found

/-- The loop over empty moves ends, whatever states it is given and in whatever order it takes
    them off its frontier. It takes none off twice, and it always ends with the closure; the
    search for the closure is such a loop. The closure holds what zero or more empty moves reach,
    so it is the least set that holds what is given and that no empty move leaves. The closure of
    a union is the union of the closures, and a closure is its own closure. -/
theorem closure_any_order (g : Graph) (given : List StateId) :
    let succ := g.epsilonTargets
    let result := g.closure (.ofList given)
    (WellFounded fun t s => ∃ q, Worklist.Round succ s q t) ∧
      (∀ (s t : Worklist.Stage StateId) (taken : List StateId),
        s.Initial given → Worklist.Run succ s taken t →
          taken.Nodup ∧ (∀ q ∈ t.frontier, ∃ u, Worklist.Round succ t q u) ∧
          (∃ more u, Worklist.Run succ t more u ∧ u.frontier = []) ∧
          (t.frontier = [] → .ofList t.seen = result ∧ taken.Perm result.toList)) ∧
      (∃ s t : Worklist.Stage StateId, s.Initial given ∧ t.frontier = [] ∧
        Worklist.Run succ s (Worklist.explore succ g.bounded_epsilonTargets
          (SortedSet.ofList given).toList) t) ∧
      (∀ q, q ∈ result ↔ ∃ s ∈ given, ∃ n, g.Trace s (List.replicate n .epsilon) q) ∧
      IsLeast {states : Set StateId | (∀ q ∈ given, q ∈ states) ∧ g.EpsilonClosed states}
        {q | q ∈ result} ∧
      (∀ other : List StateId,
        g.closure (.ofList given ∪ .ofList other) = result ∪ g.closure (.ofList other)) ∧
      g.closure result = result := by
  intro succ result
  have members : ∀ q, q ∈ (SortedSet.ofList given).toList ↔ q ∈ given := fun q =>
    SortedSet.mem_ofList
  refine ⟨Worklist.wellFounded_round g.bounded_epsilonTargets, fun s t taken start run => ?_,
    ?_, fun q => ?_, ?_, fun other => closure_union g _ _, closure_closure g _⟩
  · have partway : Worklist.Partway succ given taken t :=
      (Worklist.Partway.start start).run run
    refine ⟨partway.nodup, fun q hq => Worklist.exists_round succ hq,
      Worklist.exists_run_to_end g.bounded_epsilonTargets t, fun empty => ?_⟩
    exact eq_closure_of_run (start.congr members) run empty
  · obtain ⟨t, run, empty⟩ := Worklist.exists_run_visits g.bounded_epsilonTargets
      (Worklist.fresh [] (SortedSet.ofList given).toList) _
    exact ⟨_, t, (Worklist.initial_fresh _).congr fun q => (members q).symm, empty, run⟩
  · simp only [result, mem_closure_iff_trace, SortedSet.mem_ofList]
  · have least := isLeast_closure g (.ofList given)
    simp only [SortedSet.mem_ofList] at least
    exact least

/-- State 0 has two empty moves to state 1, which leads back, and one to state 2, which has one to
    itself; only a symbol leads to state 3. Given twice, state 0 is taken off once. A stack then
    gives state 2 before state 1. -/
theorem closure_any_order_stack :
    let g := ((((((((((Graph.empty.addState 0 false).addState 1 false).addState 2 false).addState
      3 true).addEdge 0 .epsilon 1).addEdge 0 .epsilon 2).addEdge 0 .epsilon 1).addEdge
        1 .epsilon 0).addEdge 2 .epsilon 2).addEdge 2 (.text ['a']) 3)
    let s : Worklist.Stage StateId := ⟨[0], [0]⟩
    let t : Worklist.Stage StateId := ⟨[0, 1, 2], []⟩
    s.Initial [0, 0] ∧ Worklist.Run g.epsilonTargets s [0, 2, 1] t ∧ t.frontier = [] ∧
      .ofList t.seen = g.closure (.ofList [0, 0]) ∧
      [0, 2, 1].Perm (g.closure (.ofList [0, 0])).toList ∧ 3 ∉ g.closure (.ofList [0, 0]) := by
  intro g s t
  have start : s.Initial [0, 0] := ⟨by decide, by simp [s], by simp [s]⟩
  have run : Worklist.Run g.epsilonTargets s [0, 2, 1] t := by
    have at0 : g.epsilonTargets 0 = [1, 2, 1] := by decide
    have at2 : g.epsilonTargets 2 = [2] := by decide
    have at1 : g.epsilonTargets 1 = [0] := by decide
    -- in each round the last value of the frontier is taken off
    have first := Worklist.Round.last g.epsilonTargets [0] [] 0
    have second := Worklist.Round.last g.epsilonTargets [0, 1, 2] [1] 2
    have third := Worklist.Round.last g.epsilonTargets [0, 1, 2] [] 1
    rw [at0] at first
    rw [at2] at second
    rw [at1] at third
    exact .cons first (.cons second (.cons third (.nil t)))
  have closed : g.EpsilonClosed {q | q ∈ [0, 1, 2]} := by
    have inside : ∀ q ∈ [0, 1, 2], ∀ e ∈ g.edges q, e.label = .epsilon → e.dest ∈ [0, 1, 2] := by
      decide
    exact fun q hq d he => inside q hq _ he rfl
  obtain ⟨-, loop, -, -, least, -⟩ := closure_any_order g [0, 0]
  obtain ⟨-, -, -, ended⟩ := loop s t [0, 2, 1] start run
  obtain ⟨seen, taken⟩ := ended rfl
  have holds : ∀ q ∈ [0, 0], q ∈ [0, 1, 2] := by decide
  have within : {q | q ∈ g.closure (.ofList [0, 0])} ⊆ {q | q ∈ [0, 1, 2]} :=
    least.2 ⟨holds, closed⟩
  have outside : 3 ∉ [0, 1, 2] := by decide
  exact ⟨start, run, rfl, seen, taken, fun h => outside (within h)⟩

end Graph

end FiniteAutomata
