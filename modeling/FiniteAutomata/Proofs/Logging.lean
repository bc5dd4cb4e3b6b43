/-
  FiniteAutomata.Proofs.Logging

  Writing a log changes no answer (`logging_invisible`). Two runs of the same commands, between
  which a log is switched on and off at different times, do not keep the same views: where a
  log is written, the states of an automaton are counted, and so kept, as soon as it is built.
  But if no state of such an automaton is given an edge afterwards, then what was kept early
  is what will be found late. So the two runs agree step by step (`Agree`): of every automaton
  they keep the same states, or those that it reaches now, and from here on always will.
-/
import FiniteAutomata.Proofs.SameObjects

namespace FiniteAutomata

namespace Command

/-- Whether a command only switches the log on or off. -/
def switches : Command → Bool
  | .change (.logging _) => true
  | _ => false

/-- Whether a command, carried out in a session, adds an edge to a state that an automaton
    reaches. -/
def AddsEdge (x : NfaId) (s : Session) (c : Command) : Prop :=
  ∃ q, s.graph.Reaches (s.nfa x).initial q ∧ (s.perform c).2.graph.edges q ≠ s.graph.edges q

end Command

namespace Session

/-- The answers to the commands of a run, those that only switch the log left out. -/
def answersTo (s : Session) : List Command → List (Except Fault Answer)
  | [] => []
  | c :: rest =>
    if c.switches then (s.perform c).2.answersTo rest
    else (s.perform c).1.answer :: (s.perform c).2.answersTo rest

/-- Once a command of a run has built an automaton, none of the later ones adds an edge to a
    state that the automaton reaches. -/
def BuildsSpared (s : Session) : List Command → Prop
  | [] => True
  | c :: rest =>
    (∀ x, c.isBuild = true → (s.perform c).1.answer = .ok (.value (.nfa x)) →
      Never (Command.AddsEdge x) (s.perform c).2 rest) ∧ (s.perform c).2.BuildsSpared rest

variable {s t : Session} {c : Command} {rest : List Command} {x : NfaId}

/-! ## What a command reads -/

theorem SameObjects.addsEdge_iff (h : s.SameObjects t)
    (after : (s.perform c).2.SameObjects (t.perform c).2) : c.AddsEdge x t ↔ c.AddsEdge x s := by
  rw [Command.AddsEdge, h.graph, h.nfa, after.graph, Command.AddsEdge]

/-- Only for a build it matters whether a log is written. -/
theorem SameObjects.readsStates_iff (h : s.SameObjects t)
    (other : ¬ (c.isBuild = true ∧ (s.perform c).1.answer = .ok (.value (.nfa x))))
    (answer : (t.perform c).1.answer = (s.perform c).1.answer) :
    c.ReadsStates x t ↔ c.ReadsStates x s := by
  cases c with
  | view v => rw [Command.ReadsStates, h.nfas_size, Command.ReadsStates]
  | determinize y _ => rw [Command.ReadsStates, h.nfas_size, Command.ReadsStates]
  | assemble _ _ | compile _ =>
    exact iff_of_false (fun reads => other ⟨rfl, answer.symm.trans reads.2⟩)
      fun reads => other ⟨rfl, reads.2⟩
  | make _ | change _ | ask _ | arrange _ => exact Iff.rfl

theorem SameObjects.readsFinals_iff (h : s.SameObjects t) :
    c.ReadsFinals x t ↔ c.ReadsFinals x s := by
  unfold Command.ReadsFinals
  rw [h.nfas_size]

/-- Whatever states are kept of an automaton after a command, they are up to date if none were
    kept before. -/
theorem upToDate_perform_of_unkept (h : s.Coherent) (unkept : s.keptStates x = none)
    (c : Command) : (s.perform c).2.UpToDate x := by
  have step := keeps_perform h c
  by_cases reads : c.ReadsStates x s
  · intro states kept
    exact (Option.some.inj ((step.read x unkept reads).symm.trans kept)).symm
  · exact upToDate_of_unkept (step.unread x unkept reads)

/-- What is kept stays up to date as long as the automaton is spared. -/
theorem UpToDate.perform (up : s.UpToDate x) (h : s.Coherent) (spared : ¬ c.AddsEdge x s) :
    (s.perform c).2.UpToDate x := by
  cases kept : s.keptStates x with
  | none => exact upToDate_perform_of_unkept h kept c
  | some states =>
    have ext := (keeps_perform h c).extendsTo
    have hx := lt_of_keptStates kept
    have edges : ∀ q, s.graph.Reaches (s.nfa x).initial q →
        (s.perform c).2.graph.edges q = s.graph.edges q := fun q hq => by
      by_contra added
      exact spared ⟨q, hq, added⟩
    intro now kept'
    rw [ext.states x _ kept] at kept'
    rw [← Option.some.inj kept', up states kept, ext.nfa x hx]
    exact (Graph.reachable_of_edges edges fun q hq =>
      ext.graph.num q (hq.lt_size (h.ends x hx).1)).symm

/-! ## Runs that agree -/

/-- Two sessions have the same objects and have kept the same of them, up to states that are
    kept in one of the two only: these are up to date, and `rest` will not change that. -/
structure Agree (s t : Session) (rest : List Command) : Prop extends SameObjects s t where
  left : s.Coherent
  right : t.Coherent
  finals : ∀ x, t.keptFinals x = s.keptFinals x
  states : ∀ x, t.keptStates x = s.keptStates x ∨
    s.UpToDate x ∧ t.UpToDate x ∧ Never (Command.AddsEdge x) s rest

namespace Agree

theorem alike (h : s.Agree t rest) : s.Alike t where
  toSameObjects := h.toSameObjects
  states x := by
    rcases h.states x with same | ⟨up, up', -⟩
    · rw [viewStates_fst_eq_getD, viewStates_fst_eq_getD, same, h.graph, h.nfa]
    · rw [viewStates_fst up, viewStates_fst up', h.graph, h.nfa]
  keptFinals := h.finals

/-- Switching the log in one of the two sessions is not noticed. -/
theorem switch_right (h : s.Agree t rest) (on : Bool) :
    s.Agree { t with logging := on } rest where
  toSameObjects := ⟨h.graph, h.cells, h.handles, h.dfas, h.builders⟩
  left := h.left
  right := ⟨h.right.ends, h.right.finals⟩
  finals := h.finals
  states := h.states

theorem switch_left {on : Bool} (h : s.Agree t (.change (.logging on) :: rest)) :
    Agree { s with logging := on } t rest where
  toSameObjects := ⟨h.graph, h.cells, h.handles, h.dfas, h.builders⟩
  left := ⟨h.left.ends, h.left.finals⟩
  right := h.right
  finals := h.finals
  states x := (h.states x).imp_right fun ⟨up, up', never⟩ => ⟨up, up', never.2⟩

section step

variable (h : s.Agree t (c :: rest))
  (spared : ∀ x, c.isBuild = true → (s.perform c).1.answer = .ok (.value (.nfa x)) →
    Never (Command.AddsEdge x) (s.perform c).2 rest)

include h spared

theorem keptStates_perform (x : NfaId) :
    (t.perform c).2.keptStates x = (s.perform c).2.keptStates x ∨
      (s.perform c).2.UpToDate x ∧ (t.perform c).2.UpToDate x ∧
        Never (Command.AddsEdge x) (s.perform c).2 rest := by
  obtain ⟨answer, objects⟩ := h.alike.perform c
  have step := keeps_perform h.left c
  have step' := keeps_perform h.right c
  rcases h.states x with same | ⟨up, up', never⟩
  · -- so far the same is kept; only a build may read in one session and not in the other
    cases kept : s.keptStates x with
    | some states =>
      rw [step.extendsTo.states x _ kept, step'.extendsTo.states x _ (same.trans kept)]
      exact Or.inl rfl
    | none =>
      by_cases build : c.isBuild = true ∧ (s.perform c).1.answer = .ok (.value (.nfa x))
      · -- the automaton is new; with a log its states are kept, else they are not
        exact Or.inr ⟨upToDate_perform_of_unkept h.left kept c,
          upToDate_perform_of_unkept h.right (same.trans kept) c, spared x build.1 build.2⟩
      · have reads_iff := h.readsStates_iff build answer
        by_cases reads : c.ReadsStates x s
        · rw [step.read x kept reads, step'.read x (same.trans kept) (reads_iff.mpr reads),
            objects.graph, objects.nfa]
          exact Or.inl rfl
        · rw [step.unread x kept reads,
            step'.unread x (same.trans kept) fun reads' => reads (reads_iff.mp reads')]
          exact Or.inl rfl
  · refine Or.inr ⟨up.perform h.left never.1, up'.perform h.right ?_, never.2⟩
    rw [h.addsEdge_iff objects]
    exact never.1

theorem keptFinals_perform (x : NfaId) :
    (t.perform c).2.keptFinals x = (s.perform c).2.keptFinals x := by
  obtain ⟨-, objects⟩ := h.alike.perform c
  have step := keeps_perform h.left c
  have step' := keeps_perform h.right c
  cases kept : s.keptFinals x with
  | some finals =>
    rw [step.extendsTo.finals x _ kept, step'.extendsTo.finals x _ ((h.finals x).trans kept)]
  | none =>
    have reads_iff := h.readsFinals_iff (c := c) (x := x)
    by_cases reads : c.ReadsFinals x s
    · obtain ⟨states, found, finals⟩ := step.readFinals x kept reads
      obtain ⟨states', found', finals'⟩ :=
        step'.readFinals x ((h.finals x).trans kept) (reads_iff.mpr reads)
      -- both were found among the states, and of these the same are kept, or the right ones
      have same : states' = states := by
        rcases h.keptStates_perform spared x with same | ⟨up, up', -⟩
        · exact Option.some.inj (found'.symm.trans (same.trans found))
        · rw [up states found, up' states' found', objects.graph, objects.nfa]
      rw [finals, finals', same, objects.graph]
    · rw [step.unreadFinals x kept reads, step'.unreadFinals x ((h.finals x).trans kept)
        fun reads' => reads (reads_iff.mp reads')]

/-- A command is answered in the same way in both sessions, and they agree again. -/
theorem perform : (t.perform c).1.answer = (s.perform c).1.answer ∧
    (s.perform c).2.Agree (t.perform c).2 rest := by
  obtain ⟨answer, objects⟩ := h.alike.perform c
  exact ⟨answer, objects, (keeps_perform h.left c).coherent h.left,
    (keeps_perform h.right c).coherent h.right, h.keptFinals_perform spared,
    h.keptStates_perform spared⟩

end step

end Agree

/-! ## Switching the log -/

theorem exists_of_switches (h : c.switches = true) : ∃ on, c = .change (.logging on) := by
  match c with
  | .change (.logging on) => exact ⟨on, rfl⟩

/-- Commands that only switch the log have no answer that counts. -/
theorem answersTo_append_of_switches {w : List Command} (h : ∀ c ∈ w, ¬ (!c.switches) = true)
    (t : Session) (v : List Command) : ∃ on, t.performAll w = { t with logging := on } ∧
      t.answersTo (w ++ v) = answersTo { t with logging := on } v := by
  induction w generalizing t with
  | nil => exact ⟨t.logging, rfl, rfl⟩
  | cons c w ih =>
    have switches : c.switches = true := by simpa using h c List.mem_cons_self
    obtain ⟨on, rfl⟩ := exists_of_switches switches
    exact ih (fun c hc => h c (List.mem_cons_of_mem _ hc)) { t with logging := on }

/-- Runs that agree at first go on to agree. -/
theorem Agree.run {u v : List Command} (h : s.Agree t u) (spared : s.BuildsSpared u)
    (same : u.filter (fun c => !c.switches) = v.filter fun c => !c.switches) :
    s.answersTo u = t.answersTo v ∧ (s.performAll u).SameObjects (t.performAll v) := by
  -- by induction on the first run; before each of its commands, the second may switch the log
  -- any number of times
  induction u generalizing s t v with
  | nil =>
    have quiet := List.filter_eq_nil_iff.mp same.symm
    obtain ⟨on, performed, answers⟩ := answersTo_append_of_switches quiet t []
    rw [List.append_nil] at answers
    rw [answers, performed]
    exact ⟨rfl, (h.switch_right on).toSameObjects⟩
  | cons c u ih =>
    by_cases switches : c.switches = true
    · obtain ⟨on, rfl⟩ := exists_of_switches switches
      exact ih h.switch_left spared.2 same
    · rw [List.filter_cons_of_pos (by simpa using switches)] at same
      obtain ⟨w, v', rfl, quiet, same⟩ := List.filter_eq_cons_iff.mp same.symm
      obtain ⟨on, performed, answers⟩ := answersTo_append_of_switches quiet t (c :: v')
      obtain ⟨answer, agree⟩ := (h.switch_right on).perform spared.1
      obtain ⟨answers', objects⟩ := ih agree spared.2 same.2.symm
      rw [performAll_append, performed, answers, answersTo, answersTo, if_neg switches,
        if_neg switches, answer, answers']
      exact ⟨rfl, objects⟩

/-- A log changes no answer. Take two runs from the start that have the same commands, except
    that the log is switched on and off at different times. If in the first of them no edge is
    ever added to a state reached by an automaton that was built before, then every command
    has the same answer in both, or is refused for the same reason, and at the end both have
    the same objects. -/
theorem logging_invisible (logging logging' : Bool) (u v : List Command)
    (same : u.filter (fun c => !c.switches) = v.filter fun c => !c.switches)
    (spared : (fresh logging).BuildsSpared u) :
    (fresh logging).answersTo u = (fresh logging').answersTo v ∧
      ((fresh logging).performAll u).SameObjects ((fresh logging').performAll v) := by
  have start : (fresh logging).Agree (fresh logging') u :=
    { toSameObjects := ⟨rfl, rfl, rfl, rfl, rfl⟩
      left := coherent_fresh logging
      right := coherent_fresh logging'
      finals := fun _ => rfl
      states := fun _ => Or.inl rfl }
  exact start.run spared same

/-- With a log from the second command on, the states of the automaton are kept before an edge
    is added elsewhere in the graph, without a log only afterwards. -/
theorem logging_invisible_elsewhere :
    ∃ u v : List Command,
      u = [.make (.state 7 false), .change (.logging true), .compile "a".toList,
        .change (.edge 0 .epsilon 1), .view (.nfaSize 0)] ∧
      v = [.make (.state 7 false), .compile "a".toList, .change (.edge 0 .epsilon 1),
        .view (.nfaSize 0)] ∧
      u.filter (fun c => !c.switches) = v.filter (fun c => !c.switches) ∧
      (fresh false).BuildsSpared u ∧ (fresh false).answersTo u = (fresh false).answersTo v := by
  have spared : (fresh false).BuildsSpared [.make (.state 7 false), .change (.logging true),
      .compile "a".toList, .change (.edge 0 .epsilon 1), .view (.nfaSize 0)] := by
    refine ⟨nofun, nofun, fun x _ answer => ?_, nofun, nofun, trivial⟩
    -- the state that gets the edge was there before the automaton
    obtain ⟨y, same, built⟩ := built_perform rfl answer
    cases same
    refine ⟨fun ⟨q, hq, added⟩ => added ?_, fun ⟨q, hq, added⟩ => added ?_, trivial⟩
    · have later : 1 ≤ q := ((built.states q).mp hq).1
      have other : q ≠ 0 := Nat.ne_of_gt later
      exact (Graph.edges_addEdge ..).trans (if_neg fun h => other h.1)
    · rfl
  refine ⟨_, _, rfl, rfl, rfl, spared, (logging_invisible false false _ _ ?_ spared).1⟩
  rfl

end Session

end FiniteAutomata
