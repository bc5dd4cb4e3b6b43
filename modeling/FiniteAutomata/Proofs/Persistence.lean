/-
  FiniteAutomata.Proofs.Persistence

  What later commands leave alone. All commands but a few only read, or make something new
  beside what is there (`Command.spares`). After such a command, whether it is answered or
  refused, the states and the automata of the session are there as before, and the counters
  have not gone back (`PersistsIn`, `persistsIn_perform`); so after any number of them
  (`persistsIn_performAll`).

  The exceptions are the commands that add an edge to a state, that set its accepting mark,
  and that put two automata together or repeat one, for their operands lose the accepting
  mark and gain edges. An assembly does the same, but only to states that it has made itself
  (`Assembly.Run.stock`), even where it breaks off.
-/
import FiniteAutomata.Proofs.Thompson
import FiniteAutomata.Proofs.Views

namespace FiniteAutomata

theorem Graph.lt_size_of_mem_reachable {g : Graph} {i q : StateId} (hi : i < g.size)
    (hq : q ∈ g.reachable i) : q < g.size :=
  Reaches.lt_size hi (mem_reachable.mp hq)

/-- Graphs that agree on the edges of what one of them reaches, and on its numbers, list it
    alike. -/
theorem Graph.reachable_of_edges {g h : Graph} {i : StateId}
    (edges : ∀ q, g.Reaches i q → h.edges q = g.edges q)
    (num : ∀ q, g.Reaches i q → h.num q = g.num q) : h.reachable i = g.reachable i := by
  have found : Worklist.explore h.successors h.bounded_successors [i] =
      Worklist.explore g.successors g.bounded_successors [i] := by
    refine Worklist.explore_congr _ fun q hq => ?_
    rw [successors, edges q hq, successors]
  have order := List.map_mergeSort (r := fun a b => decide (h.num a ≤ h.num b))
    (s := fun a b => decide (g.num a ≤ g.num b)) (f := id)
    (l := Worklist.explore g.successors g.bounded_successors [i]) fun a ha b hb => by
      rw [num a (Worklist.mem_explore.mp ha), num b (Worklist.mem_explore.mp hb), id, id]
  rw [List.map_id, List.map_id] at order
  rw [reachable, found, order, reachable]

theorem Graph.reachable_of_sameOn {g h : Graph} {i : StateId} (same : SameOn g h (g.Reaches i))
    (num : ∀ q, g.Reaches i q → h.num q = g.num q) : h.reachable i = g.reachable i :=
  reachable_of_edges (fun q hq => (same q hq).1) num

namespace Session

/-! ## What persists -/

/-- What a session has is still there in another one, and as it was: the states, the
    automata, and what is kept of them if it was right. Counters may have gone on. -/
structure PersistsIn (s t : Session) : Prop where
  size_le : s.graph.size ≤ t.graph.size
  same : Graph.SameOn s.graph t.graph (· < s.graph.size)
  num : ∀ q < s.graph.size, t.graph.num q = s.graph.num q
  counter_le : ∀ b, s.counter b ≤ t.counter b
  nfas_le : s.nfas.size ≤ t.nfas.size
  nfa : ∀ x < s.nfas.size, t.nfa x = s.nfa x
  faithful : ∀ x < s.nfas.size, (s.nfa x).initial < s.graph.size → s.Faithful x → t.Faithful x

namespace PersistsIn

variable {s t u : Session} {x : NfaId}

theorem refl (s : Session) : s.PersistsIn s where
  size_le := Nat.le_refl _
  same _ _ := ⟨rfl, rfl⟩
  num _ _ := rfl
  counter_le _ := Nat.le_refl _
  nfas_le := Nat.le_refl _
  nfa _ _ := rfl
  faithful _ _ _ h := h

theorem trans (h : s.PersistsIn t) (k : t.PersistsIn u) : s.PersistsIn u where
  size_le := Nat.le_trans h.size_le k.size_le
  same q hq := by
    have ht : q < t.graph.size := Nat.lt_of_lt_of_le hq h.size_le
    rw [(k.same q ht).1, (k.same q ht).2]
    exact h.same q hq
  num q hq := (k.num q (Nat.lt_of_lt_of_le hq h.size_le)).trans (h.num q hq)
  counter_le b := Nat.le_trans (h.counter_le b) (k.counter_le b)
  nfas_le := Nat.le_trans h.nfas_le k.nfas_le
  nfa x hx := (k.nfa x (Nat.lt_of_lt_of_le hx h.nfas_le)).trans (h.nfa x hx)
  faithful x hx hi hs := by
    have hi' : (t.nfa x).initial < t.graph.size := by
      rw [h.nfa x hx]
      exact Nat.lt_of_lt_of_le hi h.size_le
    exact k.faithful x (Nat.lt_of_lt_of_le hx h.nfas_le) hi' (h.faithful x hx hi hs)

/-- The states of an automaton are those that they were. -/
theorem reaches_iff (h : s.PersistsIn t) {i q : StateId} (hi : i < s.graph.size) :
    t.graph.Reaches i q ↔ s.graph.Reaches i q :=
  Graph.reaches_iff_of_sameOn fun p hp => h.same p (hp.lt_size hi)

theorem reachable (h : s.PersistsIn t) {i : StateId} (hi : i < s.graph.size) :
    t.graph.reachable i = s.graph.reachable i :=
  Graph.reachable_of_sameOn (fun p hp => h.same p (hp.lt_size hi)) fun p hp =>
    h.num p (hp.lt_size hi)

theorem numbers (h : s.PersistsIn t) {i : StateId} (hi : i < s.graph.size) :
    (t.graph.reachable i).map t.graph.num = (s.graph.reachable i).map s.graph.num := by
  rw [h.reachable hi]
  exact List.map_congr_left fun q hq =>
    h.num q (Graph.lt_size_of_mem_reachable hi hq)

theorem accepts (h : s.PersistsIn t) (hx : x < s.nfas.size) (hi : (s.nfa x).initial < s.graph.size)
    (hf : (s.nfa x).final < s.graph.size) (w : Word) :
    t.accepts (.nfa x) w = s.accepts (.nfa x) w := by
  show (t.nfa x).accepts t.graph w = _
  rw [h.nfa x hx]
  refine Nfa.accepts_of_sameOn (fun q hq => h.same q ?_) w
  rcases hq with hq | rfl
  · exact hq.lt_size hi
  · exact hf

/-- Changes that leave the records of the automata alone. -/
theorem of_records (size_le : s.graph.size ≤ t.graph.size)
    (same : Graph.SameOn s.graph t.graph (· < s.graph.size))
    (num : ∀ q < s.graph.size, t.graph.num q = s.graph.num q)
    (counter_le : ∀ b, s.counter b ≤ t.counter b) (nfas_le : s.nfas.size ≤ t.nfas.size)
    (records : ∀ x < s.nfas.size, t.nfas[x]? = s.nfas[x]?) : s.PersistsIn t := by
  have nfa : ∀ x < s.nfas.size, t.nfa x = s.nfa x := fun x hx => by
    rw [nfa_eq, nfa_eq, records x hx]
  refine ⟨size_le, same, num, counter_le, nfas_le, nfa, fun x hx hi faithful => ?_⟩
  have states : t.keptStates x = s.keptStates x := by
    rw [keptStates_eq, keptStates_eq, records x hx]
  have finals : t.keptFinals x = s.keptFinals x := by
    rw [keptFinals_eq, keptFinals_eq, records x hx]
  have reached : t.graph.reachable (s.nfa x).initial = s.graph.reachable (s.nfa x).initial :=
    Graph.reachable_of_sameOn (fun p hp => same p (hp.lt_size hi)) fun p hp =>
      num p (hp.lt_size hi)
  refine ⟨fun found kept => ?_, fun found kept => ?_⟩
  · rw [nfa x hx, reached]
    exact faithful.states found (states ▸ kept)
  · rw [finalsNow, nfa x hx, reached, List.filter_congr fun q hq =>
      (same q (Graph.lt_size_of_mem_reachable hi hq)).2]
    exact faithful.finals found (finals ▸ kept)

/-- Changes that leave graph, records and counters alone. -/
theorem of_eq (graph : t.graph = s.graph) (nfas : t.nfas = s.nfas)
    (builders : t.builders = s.builders) : s.PersistsIn t := by
  refine of_records (by rw [graph]) (fun q _ => by rw [graph]; exact ⟨rfl, rfl⟩)
    (fun q _ => by rw [graph]) (fun b => ?_) (by rw [nfas]) fun x _ => by rw [nfas]
  rw [counter, counter, builders]

end PersistsIn

end Session

/-! ## Answers that persist -/

namespace View

/-- The answer to a question about an automaton, given its states and the accepting ones. -/
def answerFrom (g : Graph) (n : Nfa) (states : List StateId) (finals : StateSet) : View → Answer
  | .states _ => .texts (NfaReport.displayStates g states)
  | .finals _ => .numbers (g.numbers finals)
  | .nfaSize _ => .count states.length
  | .triples _ => .triples (NfaReport.triplesOf g states)
  | .symbols _ => .texts (Nfa.symbolsOf g states).toList
  | .nfaReport _ => .nfaReport (.of g n states finals)
  | .finalSets _ | .dfaReport _ => .done

/-- Where what is kept is right, answers are as if nothing were kept. -/
theorem look_fst {s : Session} {x : NfaId} (h : s.Faithful x) {v : View}
    (about : v.mentions = [.nfa x]) :
    (v.look s).1 = v.answerFrom s.graph (s.nfa x) (s.graph.reachable (s.nfa x).initial)
      (s.finalsNow x) := by
  have states := Session.viewStates_fst h.states
  have graph := Session.graph_viewStates s x
  cases v with
  | states y | nfaSize y | triples y | symbols y =>
    cases about
    simp only [look, answerFrom, states, graph]
  | finals y =>
    cases about
    simp only [look, answerFrom, Session.viewFinals_fst h, Session.graph_viewFinals]
  | nfaReport y =>
    cases about
    have finals := Session.viewFinals_fst (Session.faithful_viewStates h x)
    have nfa := Session.nfa_viewStates s x x
    simp only [look, answerFrom, states, finals, Session.graph_viewFinals, graph,
      Session.nfa_viewFinals, nfa, Session.finalsNow_eq graph nfa]
  | finalSets y | dfaReport y => cases about

section congr

variable {g h : Graph} (same : Graph.SameOn g h (· < g.size))
  (num : ∀ q < g.size, h.num q = g.num q) {states : List StateId} (lt : ∀ q ∈ states, q < g.size)

include same num lt

theorem displayStates_congr : NfaReport.displayStates h states = NfaReport.displayStates g states := by
  have shown : states.map (fun q => (h.num q, h.accepting q)) =
      states.map fun q => (g.num q, g.accepting q) :=
    List.map_congr_left fun q hq => by rw [num q (lt q hq), (same q (lt q hq)).2]
  rw [NfaReport.displayStates, shown, NfaReport.displayStates]

theorem triplesOf_congr : NfaReport.triplesOf h states = NfaReport.triplesOf g states := by
  have edges : NfaReport.edgesOf h states = NfaReport.edgesOf g states := by
    refine List.flatMap_congr fun q hq => ?_
    rw [(same q (lt q hq)).1, num q (lt q hq)]
    exact List.map_congr_left fun e he => by rw [num _ (Graph.dest_lt he)]
  have nums : states.map h.num = states.map g.num :=
    List.map_congr_left fun q hq => num q (lt q hq)
  rw [NfaReport.triplesOf, edges, nums, NfaReport.triplesOf]

omit num in
theorem symbolsOf_congr : Nfa.symbolsOf h states = Nfa.symbolsOf g states := by
  refine congrArg SortedSet.ofList (List.flatMap_congr fun q hq => ?_)
  rw [Graph.labels, (same q (lt q hq)).1, Graph.labels]

theorem answerFrom_congr {n : Nfa} {finals : StateSet} (hi : n.initial < g.size)
    (hf : n.final < g.size) (sub : ∀ q ∈ finals, q ∈ states) (v : View) :
    v.answerFrom h n states finals = v.answerFrom g n states finals := by
  have shown := displayStates_congr same num lt
  have triples := triplesOf_congr same num lt
  have symbols := symbolsOf_congr same lt
  have numbers : h.numbers finals = g.numbers finals :=
    congrArg Ordered.sort (List.map_congr_left fun q hq => num q (lt q (sub q hq)))
  have display : Display.nfa h n = Display.nfa g n := by
    unfold Display.nfa
    rw [num _ hi, num _ hf]
  cases v <;> simp only [answerFrom, NfaReport.of, shown, triples, symbols, numbers, display]

end congr

end View

namespace Session

/-- Questions about an automaton go on being answered as they were. -/
theorem PersistsIn.look {s t : Session} {x : NfaId} (h : s.PersistsIn t) (hx : x < s.nfas.size)
    (hi : (s.nfa x).initial < s.graph.size) (hf : (s.nfa x).final < s.graph.size)
    (faithful : s.Faithful x) {v : View} (about : v.mentions = [.nfa x]) :
    (v.look t).1 = (v.look s).1 := by
  have states := h.reachable hi
  have lt : ∀ q ∈ s.graph.reachable (s.nfa x).initial, q < s.graph.size := fun q hq =>
    Graph.lt_size_of_mem_reachable hi hq
  have finals : t.finalsNow x = s.finalsNow x := by
    rw [finalsNow, h.nfa x hx, states, List.filter_congr fun q hq => (h.same q (lt q hq)).2,
      finalsNow]
  rw [View.look_fst (h.faithful x hx hi faithful) about, View.look_fst faithful about,
    h.nfa x hx, states, finals]
  refine View.answerFrom_congr h.same h.num lt hi hf (fun q hq => ?_) v
  exact (List.mem_filter.mp (SortedSet.mem_ofList.mp hq)).1

/-! ## Single steps -/

variable {s : Session}

theorem persistsIn_viewStates (s : Session) (x : NfaId) : s.PersistsIn (s.viewStates x).2 where
  size_le := by rw [graph_viewStates]
  same q _ := by rw [graph_viewStates]; exact ⟨rfl, rfl⟩
  num q _ := by rw [graph_viewStates]
  counter_le b := by rw [counter, counter, builders_viewStates]
  nfas_le := by rw [size_nfas_viewStates]
  nfa y _ := nfa_viewStates s x y
  faithful y _ _ h := faithful_viewStates h x

theorem persistsIn_viewFinals (s : Session) (x : NfaId) : s.PersistsIn (s.viewFinals x).2 where
  size_le := by rw [graph_viewFinals]
  same q _ := by rw [graph_viewFinals]; exact ⟨rfl, rfl⟩
  num q _ := by rw [graph_viewFinals]
  counter_le b := by rw [counter, counter, builders_viewFinals]
  nfas_le := by rw [size_nfas_viewFinals]
  nfa y _ := nfa_viewFinals s x y
  faithful y _ _ h := faithful_viewFinals h x

theorem persistsIn_viewFinalSets (s : Session) (x : DfaId) :
    s.PersistsIn (s.viewFinalSets x).2 := by
  unfold viewFinalSets
  split
  · exact .refl s
  · exact .of_eq rfl rfl rfl

theorem persistsIn_addNfa (s : Session) (n : Nfa) : s.PersistsIn (s.addNfa n).2 := by
  refine .of_records (Nat.le_refl _) (fun _ _ => ⟨rfl, rfl⟩) (fun _ _ => rfl)
    (fun _ => Nat.le_refl _) ?_ fun x hx => ?_
  · rw [size_nfas_addNfa]
    exact Nat.le_succ _
  · show (s.nfas.push _)[x]? = _
    rw [Array.getElem?_push, if_neg (Nat.ne_of_lt hx)]

theorem persistsIn_announce (s : Session) (n : Nfa) (tokens : Text) :
    s.PersistsIn (s.announce n tokens).2 := by
  have added := persistsIn_addNfa s n
  obtain ⟨graph, cells, nfas, dfas, builders, logging⟩ := s
  cases logging with
  | false => exact added
  | true => exact added.trans (persistsIn_viewStates _ _)

/-- A builder that comes back with a higher counter moves no counter back. -/
theorem counter_le_leaveSite {b : BuilderId} {c : Site} (ahead : s.counter b ≤ c.counter)
    (y : BuilderId) : s.counter y ≤ (s.leaveSite b c).counter y := by
  show (s.builders[y]?).getD 0 ≤ ((s.builders.setIfInBounds b c.counter)[y]?).getD 0
  rw [Array.getElem?_setIfInBounds]
  by_cases hby : b = y
  · subst hby
    rw [if_pos rfl]
    by_cases there : b < s.builders.size
    · rw [if_pos there]
      exact ahead
    · rw [if_neg there, Array.getElem?_eq_none (Nat.le_of_not_lt there)]
  · rw [if_neg hby]

/-- A site that only adds states may be taken over. -/
theorem persistsIn_takeOver {b : Option BuilderId} {c : Site} {fresh : Nat}
    (grows : Site.Grows ⟨s.graph, (b.map s.counter).getD 0⟩ c fresh)
    (same : Graph.SameOn s.graph c.graph (· < s.graph.size)) : s.PersistsIn (s.takeOver b c) := by
  have graph : (s.takeOver b c).graph = c.graph := by cases b <;> rfl
  have nfas : (s.takeOver b c).nfas = s.nfas := by cases b <;> rfl
  refine .of_records ?_ ?_ ?_ (fun y => ?_) (by rw [nfas]) fun x _ => by rw [nfas]
  · rw [graph]
    exact grows.le_size
  · rw [graph]
    exact same
  · rw [graph]
    exact grows.num_old
  · cases b with
    | none => exact Nat.le_refl _
    | some b =>
      refine counter_le_leaveSite ?_ y
      rw [grows.counter]
      exact Nat.le_add_right _ _

theorem persistsIn_assemble (s : Session) (tokens : Text) (b : Option BuilderId) :
    s.PersistsIn (s.assemble tokens b).2 := by
  -- also an assembly that breaks off is a run of steps, each of which leaves old states alone
  obtain ⟨used, out, -, run, -⟩ := Assembly.comesTo 0 []
    ⟨s.graph, (b.map s.counter).getD 0⟩ (Token.ofText tokens)
  obtain ⟨-, same⟩ := run.stock (.nil s.graph) (Nat.le_refl _)
  have taken : s.PersistsIn (s.takeOver b (Assembly.assemble (Token.ofText tokens)
      ⟨s.graph, (b.map s.counter).getD 0⟩).2) := persistsIn_takeOver run.grows same
  unfold assemble
  match Assembly.assemble (Token.ofText tokens) ⟨s.graph, (b.map s.counter).getD 0⟩, taken with
  | (.ok n, c), taken => exact taken.trans (persistsIn_announce _ n tokens)
  | (.error f, c), taken => exact taken

theorem persistsIn_compile (s : Session) (pattern : Text) :
    s.PersistsIn (s.compile pattern).2 := by
  unfold compile
  split
  · exact persistsIn_assemble s _ none
  · exact .refl s

theorem persistsIn_determinize (s : Session) (x : NfaId) (alphabet : Option (List Label)) :
    s.PersistsIn (s.determinize x alphabet).2 := by
  have found : s.PersistsIn (s.alphabetFor x alphabet).2 := by
    cases alphabet with
    | none => exact persistsIn_viewStates s x
    | some given => exact .refl s
  exact (found.trans (persistsIn_viewStates _ x)).trans (.of_eq rfl rfl rfl)

end Session

/-! ## Commands -/

namespace Command

/-- Whether a command leaves the states alone that are there: it adds no edge to them and
    sets no accepting mark. -/
def spares : Command → Bool
  | .make (.join ..) | .make (.repetition ..) | .change (.edge ..)
  | .change (.stateAccepting ..) => false
  | _ => true

end Command

namespace Session

theorem persistsIn_builder (s : Session) :
    s.PersistsIn { s with builders := s.builders.push 0 } := by
  refine .of_records (Nat.le_refl _) (fun _ _ => ⟨rfl, rfl⟩) (fun _ _ => rfl) (fun b => ?_)
    (Nat.le_refl _) fun _ _ => rfl
  show (s.builders[b]?).getD 0 ≤ ((s.builders.push 0)[b]?).getD 0
  rw [Array.getElem?_push]
  split
  · next new => rw [new, Array.getElem?_eq_none (Nat.le_refl _)]; exact Nat.le_refl _
  · exact Nat.le_refl _

theorem persistsIn_addState (s : Session) (num : Int) (accepting : Bool) :
    s.PersistsIn { s with graph := s.graph.addState num accepting } := by
  refine .of_records ?_ (fun q hq => ?_) (fun q hq => ?_) (fun _ => Nat.le_refl _)
    (Nat.le_refl _) fun _ _ => rfl
  · exact Nat.le_of_lt (Nat.lt_of_lt_of_eq (Nat.lt_succ_self _) (Graph.size_addState _ _ _).symm)
  · exact ⟨Graph.edges_addState .., by rw [Graph.accepting_addState, if_neg (Nat.ne_of_lt hq)]⟩
  · rw [Graph.num_addState, if_neg (Nat.ne_of_lt hq)]

theorem persistsIn_symbol (s : Session) (b : BuilderId) (label : Text) :
    s.PersistsIn (Maker.build s b fun c => c.symbol label).2 := by
  have taken : s.PersistsIn (s.takeOver (some b) ((s.siteOf b).symbol label).2) :=
    persistsIn_takeOver (Site.grows_symbol label _) fun q hq =>
      (Site.builds_symbol label (s.siteOf b)).yields.same q hq fun x hx => by cases hx
  exact taken.trans (persistsIn_addNfa _ _)

theorem persistsIn_newState (s : Session) (b : BuilderId) (accepting : Bool) :
    s.PersistsIn (s.leaveSite b ((s.siteOf b).newState accepting).2) := by
  refine @persistsIn_takeOver s (some b) _ 1 (Site.grows_newState _ accepting) fun q hq => ?_
  show (s.graph.addState _ _).edges q = _ ∧ (s.graph.addState _ _).accepting q = _
  rw [Graph.edges_addState, Graph.accepting_addState, if_neg (Nat.ne_of_lt hq)]
  exact ⟨rfl, rfl⟩

theorem persistsIn_make (s : Session) {m : Maker} (h : (Command.make m).spares = true) :
    s.PersistsIn (m.make s).2 := by
  cases m with
  | builder => exact persistsIn_builder s
  | builderState b accepting => exact persistsIn_newState s b accepting
  | state num accepting => exact persistsIn_addState s num accepting
  | symbol b label => exact persistsIn_symbol s b label
  | join b c x y => cases h
  | repetition b r x => cases h
  | nfa i f => exact persistsIn_addNfa s ⟨i, f⟩
  | next p l =>
    cases p with
    | live live => exact .refl s
    | cell c =>
      rw [Maker.make]
      split <;> exact .refl s
  | initialState _ | finalState _ | closure _ | move _ _ | start _ => exact .refl s
  | cell _ | dfa _ _ _ => exact .of_eq rfl rfl rfl

theorem persistsIn_apply (s : Session) {c : Change} (h : (Command.change c).spares = true) :
    s.PersistsIn (c.apply s) := by
  cases c with
  | edge _ _ _ | stateAccepting _ _ => cases h
  | cellAccepting _ _ | transition _ _ _ | logging _ => exact .of_eq rfl rfl rfl

theorem persistsIn_look (s : Session) (v : View) : s.PersistsIn (v.look s).2 := by
  cases v with
  | states x | nfaSize x | triples x | symbols x => exact persistsIn_viewStates s x
  | finals x => exact persistsIn_viewFinals s x
  | nfaReport x => exact (persistsIn_viewStates s x).trans (persistsIn_viewFinals _ x)
  | finalSets x | dfaReport x => exact persistsIn_viewFinalSets s x

/-- A sparing command, answered or refused, leaves everything as it was. -/
theorem persistsIn_perform (s : Session) {c : Command} (h : c.spares = true) :
    s.PersistsIn (s.perform c).2 := by
  unfold perform
  split
  · cases c with
    | make m => exact persistsIn_make s h
    | change c => exact persistsIn_apply s h
    | ask q => exact .refl s
    | view v => exact persistsIn_look s v
    | arrange pattern => exact .refl s
    | assemble tokens b => exact persistsIn_assemble s tokens b
    | compile pattern => exact persistsIn_compile s pattern
    | determinize x alphabet => exact persistsIn_determinize s x alphabet
  · exact .refl s

/-- The session after several commands. -/
def performAll (s : Session) (commands : List Command) : Session :=
  commands.foldl (fun s c => (s.perform c).2) s

theorem performAll_append (s : Session) (u v : List Command) :
    s.performAll (u ++ v) = (s.performAll u).performAll v := List.foldl_append

theorem persistsIn_performAll (s : Session) {commands : List Command}
    (h : ∀ c ∈ commands, c.spares = true) : s.PersistsIn (s.performAll commands) := by
  induction commands generalizing s with
  | nil => exact .refl s
  | cons c rest ih =>
    obtain ⟨hc, hrest⟩ := List.forall_mem_cons.mp h
    exact (persistsIn_perform s hc).trans (ih _ hrest)

end Session

end FiniteAutomata
