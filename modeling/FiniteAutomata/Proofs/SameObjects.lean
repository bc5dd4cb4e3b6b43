/-
  FiniteAutomata.Proofs.SameObjects

  What a command depends on. Two sessions may have the same objects (`SameObjects`), while
  different views of their automata are kept, and while a log is written in one of them and
  not in the other. If they nevertheless look the same, that is, if asking for a view gives the
  same in both, kept or not (`Alike`), then every command is answered in the same way in both,
  and they have the same objects afterwards (`Alike.perform`). They need not look the same any
  more: which views have been kept may depend on the log.
-/
import FiniteAutomata.Proofs.FirstReading
import FiniteAutomata.Proofs.Independence

namespace FiniteAutomata

namespace Session

/-- Two sessions have the same objects, if perhaps different views of them. -/
structure SameObjects (s t : Session) : Prop where
  graph : t.graph = s.graph
  cells : t.cells = s.cells
  handles : t.nfas.map NfaObject.handle = s.nfas.map NfaObject.handle
  dfas : t.dfas = s.dfas
  builders : t.builders = s.builders

namespace SameObjects

variable {s t u : Session}

theorem refl (s : Session) : s.SameObjects s := ⟨rfl, rfl, rfl, rfl, rfl⟩

theorem symm (h : s.SameObjects t) : t.SameObjects s :=
  ⟨h.graph.symm, h.cells.symm, h.handles.symm, h.dfas.symm, h.builders.symm⟩

theorem trans (h : s.SameObjects t) (k : t.SameObjects u) : s.SameObjects u :=
  ⟨k.graph.trans h.graph, k.cells.trans h.cells, k.handles.trans h.handles,
    k.dfas.trans h.dfas, k.builders.trans h.builders⟩

/-! ## What can be read off the objects -/

section

variable (h : s.SameObjects t)

include h

theorem nfas_size : t.nfas.size = s.nfas.size := by
  simpa using congrArg Array.size h.handles

theorem nfa (x : NfaId) : t.nfa x = s.nfa x := by
  rw [nfa_eq, nfa_eq, ← Array.getElem?_map, ← Array.getElem?_map, h.handles]

theorem dfa (x : DfaId) : t.dfa x = s.dfa x := by
  rw [Session.dfa, h.dfas, Session.dfa]

theorem counter (b : BuilderId) : t.counter b = s.counter b := by
  rw [Session.counter, h.builders, Session.counter]

theorem siteOf (b : BuilderId) : t.siteOf b = s.siteOf b := by
  rw [Session.siteOf, h.graph, h.counter, Session.siteOf]

theorem unkept_eq : t.unkept = { s.unkept with logging := t.logging } := by
  have nfas : t.unkept.nfas = s.unkept.nfas := by
    have same := congrArg (Array.map fun n => (⟨n, none, none⟩ : NfaObject)) h.handles
    rwa [Array.map_map, Array.map_map] at same
  obtain ⟨graph, cells, -, dfas, builders⟩ := h
  obtain ⟨_, _, _, _, _, _⟩ := s
  obtain ⟨_, _, _, _, _, _⟩ := t
  cases graph
  cases cells
  cases dfas
  cases builders
  exact congrArg (fun nfas => Session.mk _ _ nfas _ _ _) nfas

theorem has_eq : t.has = s.has := by
  rw [← has_unkept t, h.unkept_eq, ← has_unkept s]
  rfl

theorem answer (q : Question) : q.answer t = q.answer s := by
  rw [← answer_unkept t, h.unkept_eq, ← answer_unkept s]
  cases q <;> rfl

theorem startOf (a : Automaton) : t.startOf a = s.startOf a := by
  rw [← startOf_unkept t, h.unkept_eq, ← startOf_unkept s]
  cases a <;> rfl

end

/-! ## Single changes -/

theorem alter (s : Session) (x : NfaId) {f : NfaObject → NfaObject}
    (handle : ∀ o, (f o).handle = o.handle) : s.SameObjects (s.alter x f) where
  graph := rfl
  cells := rfl
  handles := by
    refine Array.ext_getElem? fun y => ?_
    rw [Array.getElem?_map, Array.getElem?_map]
    exact map_getElem?_modify handle
  dfas := rfl
  builders := rfl

theorem viewStates (s : Session) (x : NfaId) : s.SameObjects (s.viewStates x).2 := by
  unfold Session.viewStates
  split
  · exact .refl s
  · exact .alter s x fun _ => rfl

theorem viewFinals (s : Session) (x : NfaId) : s.SameObjects (s.viewFinals x).2 := by
  rcases viewFinals_snd s x with same | ⟨finals, same⟩ <;> rw [same]
  · exact .refl s
  · exact (viewStates s x).trans (.alter _ x fun _ => rfl)

theorem alphabetFor (s : Session) (x : NfaId) (alphabet : Option (List Label)) :
    s.SameObjects (s.alphabetFor x alphabet).2 := by
  cases alphabet with
  | none => exact viewStates s x
  | some given => exact .refl s

/-- A new automaton may be read at once. -/
theorem announce (s : Session) (n : Nfa) (tokens : Text) :
    (s.addNfa n).2.SameObjects (s.announce n tokens).2 := by
  obtain ⟨graph, cells, nfas, dfas, builders, logging⟩ := s
  cases logging with
  | false => exact .refl _
  | true => exact viewStates _ _

section

variable (h : s.SameObjects t)

include h

theorem with_graph (g : Graph) : SameObjects { s with graph := g } { t with graph := g } :=
  ⟨rfl, h.cells, h.handles, h.dfas, h.builders⟩

theorem with_cells (cells : Cells) :
    SameObjects { s with cells := cells } { t with cells := cells } :=
  ⟨h.graph, rfl, h.handles, h.dfas, h.builders⟩

theorem leaveSite (b : BuilderId) (c : Site) : (s.leaveSite b c).SameObjects (t.leaveSite b c) where
  graph := rfl
  cells := h.cells
  handles := h.handles
  dfas := h.dfas
  builders := congrArg (fun a => a.setIfInBounds b c.counter) h.builders

theorem takeOver (b : Option BuilderId) (c : Site) :
    (s.takeOver b c).SameObjects (t.takeOver b c) := by
  cases b with
  | none => exact h.with_graph c.graph
  | some b => exact h.leaveSite b c

theorem addNfa (n : Nfa) : (t.addNfa n).1 = (s.addNfa n).1 ∧
    (s.addNfa n).2.SameObjects (t.addNfa n).2 := by
  refine ⟨h.nfas_size, h.graph, h.cells, ?_, h.dfas, h.builders⟩
  show (t.nfas.push _).map _ = (s.nfas.push _).map _
  rw [Array.map_push, Array.map_push, h.handles]

theorem addDfa (d : Dfa) : (t.addDfa d).1 = (s.addDfa d).1 ∧
    (s.addDfa d).2.SameObjects (t.addDfa d).2 :=
  ⟨congrArg Array.size h.dfas, h.graph, h.cells, h.handles,
    congrArg (fun dfas => dfas.push ⟨d, none⟩) h.dfas, h.builders⟩

/-- What is kept of the final sets of deterministic automata goes with the objects. -/
theorem viewFinalSets (x : DfaId) : (t.viewFinalSets x).1 = (s.viewFinalSets x).1 ∧
    (s.viewFinalSets x).2.SameObjects (t.viewFinalSets x).2 := by
  have kept : t.keptFinalSets x = s.keptFinalSets x := by
    rw [keptFinalSets, h.dfas, keptFinalSets]
  unfold Session.viewFinalSets
  rw [kept, h.dfa, h.cells]
  split
  · exact ⟨rfl, h⟩
  · refine ⟨rfl, h.graph, rfl, h.handles, ?_, h.builders⟩
    dsimp only
    rw [h.dfas]

/-! ## Commands that look at no view -/

theorem build (b : BuilderId) (rule : Site → Nfa × Site) :
    (Maker.build t b rule).1 = (Maker.build s b rule).1 ∧
      (Maker.build s b rule).2.SameObjects (Maker.build t b rule).2 := by
  obtain ⟨name, objects⟩ := (h.leaveSite b (rule (s.siteOf b)).2).addNfa (rule (s.siteOf b)).1
  unfold Maker.build
  rw [h.siteOf]
  exact ⟨congrArg Value.nfa name, objects⟩

theorem make (m : Maker) :
    (m.make t).1 = (m.make s).1 ∧ (m.make s).2.SameObjects (m.make t).2 := by
  cases m with
  | builder =>
    exact ⟨congrArg (fun a : Array Nat => Value.builder a.size) h.builders, h.graph, h.cells,
      h.handles, h.dfas, congrArg (fun a : Array Nat => a.push 0) h.builders⟩
  | builderState b accepting =>
    simp only [Maker.make, h.siteOf]
    exact ⟨trivial, h.leaveSite b _⟩
  | state num accepting =>
    simp only [Maker.make, h.graph]
    exact ⟨trivial, h.with_graph _⟩
  | symbol b label => exact h.build b _
  | join b j x y =>
    simp only [Maker.make, h.nfa]
    exact h.build b _
  | repetition b r x =>
    simp only [Maker.make, h.nfa]
    exact h.build b _
  | nfa i f =>
    obtain ⟨name, objects⟩ := h.addNfa ⟨i, f⟩
    exact ⟨congrArg Value.nfa name, objects⟩
  | initialState x => exact ⟨congrArg (fun n : Nfa => Value.state n.initial) (h.nfa x), h⟩
  | finalState x => exact ⟨congrArg (fun n : Nfa => Value.state n.final) (h.nfa x), h⟩
  | closure live => exact ⟨congrArg (fun g : Graph => Value.set (g.closure live)) h.graph, h⟩
  | move live l => exact ⟨congrArg (fun g : Graph => Value.set (g.move live l)) h.graph, h⟩
  | start a => exact ⟨congrArg Position.toValue (h.startOf a), h⟩
  | next p l =>
    cases p with
    | live live => exact ⟨congrArg (fun g : Graph => Value.set (g.step live l)) h.graph, h⟩
    | cell c =>
      simp only [Maker.make, h.cells]
      cases (s.cells.get c).next l <;> exact ⟨rfl, h⟩
  | cell members =>
    simp only [Maker.make, h.cells]
    exact ⟨trivial, h.with_cells _⟩
  | dfa i states alphabet =>
    obtain ⟨name, objects⟩ := h.addDfa ⟨i, states, .ofList alphabet⟩
    exact ⟨congrArg Value.dfa name, objects⟩

theorem apply (c : Change) :
    c.answer (c.apply t) = c.answer (c.apply s) ∧ (c.apply s).SameObjects (c.apply t) := by
  cases c with
  | edge src l dest =>
    simp only [Change.apply, h.graph]
    exact ⟨rfl, h.with_graph _⟩
  | stateAccepting q value =>
    simp only [Change.apply, h.graph]
    exact ⟨rfl, h.with_graph _⟩
  | cellAccepting c value =>
    simp only [Change.apply, h.cells]
    exact ⟨rfl, h.with_cells _⟩
  | transition src l dest =>
    simp only [Change.apply, h.cells]
    exact ⟨rfl, h.with_cells _⟩
  | logging on => exact ⟨rfl, h.graph, h.cells, h.handles, h.dfas, h.builders⟩

theorem assemble (tokens : Text) (b : Option BuilderId) :
    (t.assemble tokens b).1.answer = (s.assemble tokens b).1.answer ∧
      (s.assemble tokens b).2.SameObjects (t.assemble tokens b).2 := by
  have counter : b.map t.counter = b.map s.counter := by
    cases b with
    | none => rfl
    | some b => exact congrArg some (h.counter b)
  unfold Session.assemble
  rw [h.graph, counter]
  match Assembly.assemble (Token.ofText tokens) ⟨s.graph, (b.map s.counter).getD 0⟩ with
  | (.error f, c) => exact ⟨rfl, h.takeOver b c⟩
  | (.ok n, c) =>
    obtain ⟨name, objects⟩ := (h.takeOver b c).addNfa n
    have told := (announce_eq (s.takeOver b c) n tokens).1
    have told' := (announce_eq (t.takeOver b c) n tokens).1
    have same : (t.takeOver b c).nfas.size = (s.takeOver b c).nfas.size := name
    rw [same] at told'
    exact ⟨told'.trans told.symm,
      (announce _ n tokens).symm.trans (objects.trans (announce _ n tokens))⟩

theorem compile (pattern : Text) :
    (t.compile pattern).1.answer = (s.compile pattern).1.answer ∧
      (s.compile pattern).2.SameObjects (t.compile pattern).2 := by
  cases arranged : Pattern.toPostfix (Token.ofText pattern) with
  | error i =>
    refine ⟨(compile_of_imbalance arranged).trans (compile_of_imbalance arranged).symm, ?_⟩
    unfold Session.compile arrange
    rw [arranged]
    exact h
  | ok out =>
    obtain ⟨answer, performed⟩ := compile_eq_assemble (s := s) arranged
    obtain ⟨answer', performed'⟩ := compile_eq_assemble (s := t) arranged
    rw [answer, performed, answer', performed']
    exact h.assemble _ none

end

end SameObjects

/-! ## Sessions that look the same -/

theorem viewStates_fst_eq_getD (s : Session) (x : NfaId) :
    (s.viewStates x).1 = (s.keptStates x).getD (s.graph.reachable (s.nfa x).initial) := by
  unfold viewStates
  split <;> next kept => rw [kept]; rfl

/-- Asking for the states of one automaton does not change what is found for any. -/
theorem viewStates_viewStates_fst (s : Session) (x y : NfaId) :
    ((s.viewStates x).2.viewStates y).1 = (s.viewStates y).1 := by
  rw [viewStates_fst_eq_getD, viewStates_fst_eq_getD, graph_viewStates, nfa_viewStates]
  rcases keptStates_viewStates s x y with same | ⟨-, unkept, now⟩
  · rw [same]
  · rw [unkept, now]
    rfl

/-- Two sessions with the same objects give the same to one who asks for a view. -/
structure Alike (s t : Session) : Prop extends SameObjects s t where
  states : ∀ x, (t.viewStates x).1 = (s.viewStates x).1
  keptFinals : ∀ x, t.keptFinals x = s.keptFinals x

namespace Alike

variable {s t : Session} (h : s.Alike t)

include h

theorem afterViewStates (x : NfaId) : (s.viewStates x).2.Alike (t.viewStates x).2 where
  toSameObjects :=
    (SameObjects.viewStates s x).symm.trans (h.toSameObjects.trans (SameObjects.viewStates t x))
  states y := by rw [viewStates_viewStates_fst, viewStates_viewStates_fst, h.states]
  keptFinals y := by rw [keptFinals_viewStates, keptFinals_viewStates, h.keptFinals]

theorem viewFinals (x : NfaId) : (t.viewFinals x).1 = (s.viewFinals x).1 := by
  cases kept : s.keptFinals x with
  | some finals =>
    rw [viewFinals_of_kept kept, viewFinals_of_kept ((h.keptFinals x).trans kept)]
  | none =>
    rw [viewFinals_of_unkept kept, viewFinals_of_unkept ((h.keptFinals x).trans kept), h.graph,
      h.states]

theorem look (v : View) :
    (v.look t).1 = (v.look s).1 ∧ (v.look s).2.SameObjects (v.look t).2 := by
  have viewed := fun x => (h.afterViewStates x).toSameObjects
  have marked := fun x => (SameObjects.viewFinals s x).symm.trans
    (h.toSameObjects.trans (SameObjects.viewFinals t x))
  cases v with
  | states x | nfaSize x | triples x | symbols x =>
    refine ⟨?_, viewed x⟩
    simp only [View.look, h.states, (viewed x).graph]
  | finals x =>
    refine ⟨?_, marked x⟩
    simp only [View.look, h.viewFinals, (marked x).graph]
  | nfaReport x =>
    have after := h.afterViewStates x
    have objects := (SameObjects.viewFinals _ x).symm.trans
      (after.toSameObjects.trans (SameObjects.viewFinals _ x))
    refine ⟨?_, objects⟩
    simp only [View.look, h.states, after.viewFinals, objects.graph, objects.nfa]
  | finalSets x | dfaReport x =>
    obtain ⟨found, objects⟩ := h.toSameObjects.viewFinalSets x
    refine ⟨?_, objects⟩
    simp only [View.look, found, objects.graph, objects.cells, objects.dfa]

theorem alphabetFor (x : NfaId) (alphabet : Option (List Label)) :
    (t.alphabetFor x alphabet).1 = (s.alphabetFor x alphabet).1 ∧
      (s.alphabetFor x alphabet).2.SameObjects (t.alphabetFor x alphabet).2 := by
  cases alphabet with
  | none =>
    have objects := (h.afterViewStates x).toSameObjects
    refine ⟨?_, objects⟩
    simp only [Session.alphabetFor, h.states, objects.graph]
  | some given => exact ⟨rfl, h.toSameObjects⟩

theorem determinize (x : NfaId) (alphabet : Option (List Label)) :
    (t.determinize x alphabet).1.answer = (s.determinize x alphabet).1.answer ∧
      (s.determinize x alphabet).2.SameObjects (t.determinize x alphabet).2 := by
  obtain ⟨symbols, objects⟩ := h.alphabetFor x alphabet
  have viewed := (SameObjects.viewStates _ x).symm.trans
    (objects.trans (SameObjects.viewStates _ x))
  unfold Session.determinize
  simp only [symbols, objects.nfa, objects.graph, objects.cells]
  obtain ⟨name, added⟩ := (viewed.with_cells _).addDfa _
  exact ⟨congrArg (fun y : DfaId => Except.ok (Answer.value (.dfa y))) name, added⟩

/-- A command is answered in the same way in sessions that look the same, and leaves them with
    the same objects. -/
theorem perform (c : Command) : (t.perform c).1.answer = (s.perform c).1.answer ∧
    (s.perform c).2.SameObjects (t.perform c).2 := by
  unfold Session.perform
  rw [h.has_eq]
  split
  · cases c with
    | make m =>
      obtain ⟨value, objects⟩ := h.make m
      exact ⟨congrArg (fun v : Value => Except.ok (Answer.value v)) value, objects⟩
    | change c =>
      obtain ⟨answer, objects⟩ := h.apply c
      exact ⟨congrArg Except.ok answer, objects⟩
    | ask q => exact ⟨congrArg Except.ok (h.answer q), h.toSameObjects⟩
    | view v =>
      obtain ⟨answer, objects⟩ := h.look v
      exact ⟨congrArg Except.ok answer, objects⟩
    | arrange pattern =>
      refine ⟨?_, h.toSameObjects⟩
      simp only [execute, arrange]
      split <;> rfl
    | assemble tokens b => exact h.assemble tokens b
    | compile pattern => exact h.compile pattern
    | determinize x alphabet => exact h.determinize x alphabet
  · exact ⟨rfl, h.toSameObjects⟩

end Alike

end Session

end FiniteAutomata
