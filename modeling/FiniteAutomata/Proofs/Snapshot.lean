/-
  FiniteAutomata.Proofs.Snapshot

  A deterministic automaton is a snapshot (`determinize_snapshot`). The conversion changes no
  object that is there and gives the automaton cells of its own. All that is asked of the
  automaton later is answered from these cells and the numbers of the states they stand for
  (`Stays.answer`); numbers never change, and cells are changed only by commands that name
  them (`Stays.run`). So the answers stay what they were, whatever becomes of the graph.
-/
import FiniteAutomata.Proofs.CellTable
import FiniteAutomata.Proofs.Isomorphism
import Mathlib.Data.List.Find

namespace FiniteAutomata

/-! ## Machines that are the same in part -/

namespace Machine

variable {σ : Type} {m m' : Machine σ} {P : σ → Prop}

/-- Two machines are the same at some positions, which a walk does not leave. -/
structure SameOn (m m' : Machine σ) (P : σ → Prop) : Prop where
  closed : ∀ a, P a → ∀ l, ∀ b ∈ m.next a l, P b
  next : ∀ a, P a → m'.next a = m.next a
  isFinal : ∀ a, P a → m'.isFinal a = m.isFinal a
  labels : ∀ a, P a → m'.labels a = m.labels a

namespace SameOn

variable (h : m.SameOn m' P)

include h

theorem run {a : σ} (ha : P a) (w : Word) :
    m'.run a w = m.run a w ∧ ∀ b ∈ m.run a w, P b := by
  induction w generalizing a with
  | nil =>
    refine ⟨rfl, fun b hb => ?_⟩
    rwa [← Option.some.inj hb]
  | cons l w ih =>
    rw [Machine.run, Machine.run, h.next a ha]
    cases next : m.next a l with
    | none => exact ⟨rfl, fun b hb => by cases hb⟩
    | some b => exact ih (h.closed a ha l b next)

theorem accepts (start : m'.start = m.start) (hs : P m.start) (w : Word) :
    m'.accepts w = m.accepts w := by
  obtain ⟨same, stays⟩ := h.run hs w
  rw [Machine.accepts, start, same, Machine.accepts]
  cases reached : m.run m.start w with
  | none => rfl
  | some b => exact h.isFinal b (stays b reached)

theorem textsFrom (maxlen : Int) (depth : Nat) {a : σ} (ha : P a) (sofar : Text) :
    m'.textsFrom maxlen depth a sofar = m.textsFrom maxlen depth a sofar := by
  induction depth generalizing a sofar with
  | zero =>
    rw [Machine.textsFrom, Machine.textsFrom, textHere, h.isFinal a ha, textHere]
  | succ depth ih =>
    rw [Machine.textsFrom, Machine.textsFrom, textHere, h.isFinal a ha, textHere, h.labels a ha,
      h.next a ha]
    refine congrArg (_ ++ ite _ [] ·) (List.flatMap_congr fun l _ => ?_)
    cases next : m.next a (.text l) with
    | none => rfl
    | some b => exact ih (h.closed a ha _ b next) (sofar ++ l)

theorem takeTexts (maxlen : Int) (silent limit : Nat) {a : σ} (ha : P a) (sofar : Text) :
    m'.takeTexts maxlen silent limit a sofar = m.takeTexts maxlen silent limit a sofar := by
  rw [takeTexts_eq_take, takeTexts_eq_take, texts, h.textsFrom maxlen _ ha, texts]

end SameOn

end Machine

/-! ## Cells that are the same -/

theorem Cells.mem_successors_of_next {cells : Cells} {c d : CellId} {l : Label}
    (h : (cells.get c).next l = some d) : d ∈ cells.successors c := by
  cases l with
  | epsilon => cases h
  | text t =>
    obtain ⟨before, after, found, -⟩ := List.lookup_eq_some_iff.mp h
    rw [successors, found, List.map_append, List.map_cons]
    exact List.mem_append_right _ List.mem_cons_self

/-- An automaton starts in one of its cells, and its cells lead to cells of it. -/
structure Dfa.Closed (d : Dfa) (cells : Cells) : Prop where
  initial : d.initial ∈ d.states
  targets : ∀ c ∈ d.states, ∀ e ∈ cells.successors c, e ∈ d.states

theorem Subset.closed_determinize (n : Nfa) (g : Graph) (alphabet : SortedSet Text)
    (cells : Cells) :
    (determinize n g alphabet cells).1.Closed (determinize n g alphabet cells).2 where
  initial := List.mem_of_getElem? (shape_determinize n g alphabet cells).initial
  targets c hc e he := by
    obtain ⟨p, hp, rfl⟩ := List.mem_map.mp he
    exact ((shape_determinize n g alphabet cells).targets c hc p hp).1

section

variable {d : Dfa} {cells cells' : Cells} (closed : d.Closed cells)
  (same : ∀ c ∈ d.states, cells'.get c = cells.get c)

include same

theorem Dfa.isTotal_congr : d.isTotal cells' = d.isTotal cells := by
  rw [Bool.eq_iff_iff, isTotal, isTotal, List.all_eq_true, List.all_eq_true]
  exact forall₂_congr fun c hc => by rw [same c hc]

theorem Dfa.deadState?_congr : d.deadState? cells' = d.deadState? cells :=
  List.find?_congr fun c hc => by rw [same c hc]

theorem Dfa.finalSets_congr : d.finalSets cells' = d.finalSets cells := by
  rw [finalSets, List.filter_congr fun c hc => by rw [same c hc], finalSets]
  refine congrArg List.eraseDups (List.map_congr_left fun c hc => ?_)
  rw [same c (List.mem_of_mem_filter hc)]

include closed

theorem Cells.machine_sameOn (i : CellId) :
    (cells.machine i).SameOn (cells'.machine i) (· ∈ d.states) where
  closed c hc _ e he := closed.targets c hc e (mem_successors_of_next he)
  next c hc := congrArg Cell.next (same c hc)
  isFinal c hc := congrArg Cell.accepting (same c hc)
  labels c hc := congrArg (fun cell : Cell => SortedSet.ofList cell.labels) (same c hc)

theorem Cells.reachable_congr {c : CellId} (hc : c ∈ d.states) :
    cells'.reachable c = cells.reachable c := by
  have stays : ∀ e, Worklist.Reaches cells.successors [c] e → e ∈ d.states := by
    intro e he
    induction he with
    | start h => rwa [List.mem_singleton.mp h]
    | step _ h ih => exact closed.targets _ ih _ h
  exact Worklist.explore_congr _ fun e he => by
    rw [successors, same e (stays e he), successors]

theorem Dfa.accepts_congr (w : Word) : d.accepts cells' w = d.accepts cells w :=
  (Cells.machine_sameOn closed same d.initial).accepts rfl closed.initial w

end

/-! ## Numbers that are the same -/

section

variable {g h : Graph}

theorem Graph.numbers_congr {live : StateSet} (num : ∀ q ∈ live, h.num q = g.num q) :
    h.numbers live = g.numbers live := by
  rw [numbers, List.map_congr_left fun q hq => num q (SortedSet.mem_toList.mp hq), numbers]

theorem Display.cell_congr {c : Cell} (num : ∀ q ∈ c.members, h.num q = g.num q) :
    Display.cell h c = Display.cell g c := by
  unfold Display.cell
  rw [Graph.numbers_congr num]

end

/-! ## Asking about an automaton -/

/-- A value is an automaton or one of its cells. -/
def Value.PartOf (y : DfaId) (states : List CellId) (v : Value) : Prop :=
  v = .dfa y ∨ ∃ c ∈ states, v = .cell c

/-- Whether a command only asks about an automaton or some of its cells. -/
def Command.Inspects (y : DfaId) (states : List CellId) (d : Command) : Prop :=
  (d.walks = true ∨ ∃ v, d = .view v) ∧ ∀ m ∈ d.mentions, m.PartOf y states

namespace Value.PartOf

variable {y : DfaId} {states : List CellId}

theorem eq_of_dfa {x : DfaId} (h : (Value.dfa x).PartOf y states) : x = y := by
  rcases h with h | ⟨_, _, h⟩ <;> cases h
  rfl

theorem mem_of_cell {c : CellId} (h : (Value.cell c).PartOf y states) : c ∈ states := by
  rcases h with h | ⟨_, hc, h⟩ <;> cases h
  exact hc

theorem automaton {a : Automaton} (h : a.toValue.PartOf y states) : a = .dfa y := by
  cases a with
  | nfa x => rcases h with h | ⟨_, _, h⟩ <;> cases h
  | dfa x => rw [eq_of_dfa h]

theorem position {p : Position} (h : p.toValue.PartOf y states) : ∃ c ∈ states, p = .cell c := by
  cases p with
  | live live => rcases h with h | ⟨_, _, h⟩ <;> cases h
  | cell c => exact ⟨c, mem_of_cell h, rfl⟩

end Value.PartOf

namespace Session

/-! ## Answers from a snapshot -/

/-- From one session to another, an automaton, its cells, and the numbers of the states that
    they stand for have stayed as they are. -/
structure Stays (s t : Session) (y : DfaId) : Prop where
  there : y < t.dfas.size
  dfa : t.dfa y = s.dfa y
  cell_lt : ∀ c ∈ (s.dfa y).states, c < t.cells.size
  cell : ∀ c ∈ (s.dfa y).states, t.cells.get c = s.cells.get c
  finalSets : ∀ sets ∈ t.keptFinalSets y, sets = (s.dfa y).finalSets s.cells
  num : ∀ c ∈ (s.dfa y).states, ∀ q ∈ (s.cells.get c).members,
    q < t.graph.size ∧ t.graph.num q = s.graph.num q

theorem dfa_viewFinalSets (s : Session) (y : DfaId) : (s.viewFinalSets y).2.dfa y = s.dfa y := by
  unfold viewFinalSets
  split
  · rfl
  · rw [dfa_eq, dfa_eq]
    exact congrArg (fun o => Option.getD o _) (map_getElem?_modify fun _ => rfl)

namespace Stays

variable {s t : Session} {y : DfaId} {d : Command}

section

variable (k : s.Stays t y)

include k

theorem viewFinalSets_fst : (t.viewFinalSets y).1 = (s.dfa y).finalSets s.cells := by
  unfold viewFinalSets
  split
  · next sets kept => exact k.finalSets sets kept
  · show (t.dfa y).finalSets t.cells = _
    rw [k.dfa, Dfa.finalSets_congr k.cell]

theorem display_cell {c : CellId} (hc : c ∈ (s.dfa y).states) :
    Display.cell t.graph (t.cells.get c) = Display.cell s.graph (s.cells.get c) := by
  rw [k.cell c hc]
  exact Display.cell_congr fun q hq => (k.num c hc q hq).2

/-- The final sets have the numbers that they had. -/
theorem numberSets : DfaReport.numberSets t.graph ((s.dfa y).finalSets s.cells) =
    DfaReport.numberSets s.graph ((s.dfa y).finalSets s.cells) := by
  rw [DfaReport.numberSets, DfaReport.numberSets]
  refine congrArg Ordered.sort (List.map_congr_left fun live hl => ?_)
  obtain ⟨c, hc, rfl⟩ := List.mem_map.mp (List.mem_eraseDups.mp hl)
  exact Graph.numbers_congr fun q hq => (k.num c (List.mem_of_mem_filter hc) q hq).2

theorem report (sets : List StateSet) (same : DfaReport.numberSets t.graph sets =
    DfaReport.numberSets s.graph sets) :
    DfaReport.of t.graph t.cells (t.dfa y) sets = DfaReport.of s.graph s.cells (s.dfa y) sets := by
  have cells : (s.dfa y).states.map (DfaReport.cellReport t.graph t.cells (s.dfa y)) =
      (s.dfa y).states.map (DfaReport.cellReport s.graph s.cells (s.dfa y)) :=
    List.map_congr_left fun c hc => by
      rw [DfaReport.cellReport, k.display_cell hc, k.cell c hc, DfaReport.cellReport]
  rw [DfaReport.of, k.dfa, Dfa.isTotal_congr k.cell, Dfa.deadState?_congr k.cell, same, cells,
    DfaReport.of]

theorem textsAt (closed : (s.dfa y).Closed s.cells) {c : CellId} (hc : c ∈ (s.dfa y).states)
    (maxlen : Int) (sofar : Text) (limit : Nat) :
    t.textsAt maxlen sofar limit (.cell c) = s.textsAt maxlen sofar limit (.cell c) := by
  rw [Session.textsAt, Session.textsAt, Cells.reachable_congr closed k.cell hc]
  exact (Cells.machine_sameOn closed k.cell c).takeTexts maxlen _ limit hc sofar

theorem startOf : t.startOf (.dfa y) = s.startOf (.dfa y) := by
  rw [Session.startOf, k.dfa, Session.startOf]

theorem same {v w : Value} (hv : v.PartOf y (s.dfa y).states) (hw : w.PartOf y (s.dfa y).states) :
    t.same v w = s.same v w := by
  rcases hv with rfl | ⟨c, hc, rfl⟩
  · rfl
  · rcases hw with rfl | ⟨e, he, rfl⟩
    · rfl
    · rw [Session.same, sameMembers, k.cell c hc, k.cell e he, Session.same, sameMembers]

theorem question (closed : (s.dfa y).Closed s.cells) {q : Question}
    (about : ∀ m ∈ q.mentions, m.PartOf y (s.dfa y).states) : q.answer t = q.answer s := by
  have first : ∀ {v vs}, q.mentions = v :: vs → v.PartOf y (s.dfa y).states := fun {v vs} h =>
    about v (h ▸ List.mem_cons_self)
  cases q with
  | counter _ | edges _ | destinations _ _ | symbols _ | walk _ _ _ =>
    -- these name a builder, a state or a nondeterministic automaton
    rcases first rfl with h | ⟨_, _, h⟩ <;> cases h
  | display v =>
    rcases first rfl with rfl | ⟨c, hc, rfl⟩
    · rw [Question.answer, brief, k.dfa, Question.answer, brief]
    · rw [Question.answer, brief, k.display_cell hc, Question.answer, brief]
  | dfaSize x =>
    cases (first rfl).eq_of_dfa
    rw [Question.answer, k.dfa, Question.answer]
  | isFinal p =>
    obtain ⟨c, hc, rfl⟩ := (first rfl).position
    rw [Question.answer, isFinal, k.cell c hc, Question.answer, isFinal]
  | labels p =>
    obtain ⟨c, hc, rfl⟩ := (first rfl).position
    rw [Question.answer, labels, k.cell c hc, Question.answer, labels]
  | accepts a w =>
    cases (first rfl).automaton
    rw [Question.answer, accepts, k.dfa, Dfa.accepts_congr closed k.cell, Question.answer, accepts]
  | texts a maxlen sofar limit start =>
    cases (first rfl).automaton
    cases start with
    | none =>
      have initial := k.textsAt closed closed.initial maxlen sofar limit
      rw [Question.answer, k.startOf]
      exact congrArg Answer.texts initial
    | some p =>
      obtain ⟨c, hc, rfl⟩ :=
        (about p.toValue (List.mem_cons_of_mem _ List.mem_cons_self)).position
      exact congrArg Answer.texts (k.textsAt closed hc maxlen sofar limit)
  | isDead c =>
    rw [Question.answer, k.cell c (first rfl).mem_of_cell, Question.answer]
  | isTotal x =>
    cases (first rfl).eq_of_dfa
    rw [Question.answer, k.dfa, Dfa.isTotal_congr k.cell, Question.answer]
  | deadState x =>
    cases (first rfl).eq_of_dfa
    rw [Question.answer, k.dfa, Dfa.deadState?_congr k.cell, Question.answer]
    cases dead : (s.dfa y).deadState? s.cells with
    | none => rfl
    | some c => exact congrArg Answer.text (k.display_cell (List.mem_of_find?_eq_some dead))
  | same v w =>
    have second := about w (List.mem_cons_of_mem v List.mem_cons_self)
    exact congrArg Answer.flag (k.same (first rfl) second)

theorem view {v : View} (base : s.Stays s y)
    (about : ∀ m ∈ v.mentions, m.PartOf y (s.dfa y).states) : (v.look t).1 = (v.look s).1 := by
  have found := k.viewFinalSets_fst.trans base.viewFinalSets_fst.symm
  have numbers : DfaReport.numberSets t.graph (s.viewFinalSets y).1 =
      DfaReport.numberSets s.graph (s.viewFinalSets y).1 := by
    rw [base.viewFinalSets_fst]
    exact k.numberSets
  cases v with
  | states _ | finals _ | nfaSize _ | triples _ | symbols _ | nfaReport _ =>
    rcases about _ List.mem_cons_self with h | ⟨_, _, h⟩ <;> cases h
  | finalSets x =>
    cases (about _ List.mem_cons_self).eq_of_dfa
    simp only [View.look, found, graph_viewFinalSets, numbers]
  | dfaReport x =>
    cases (about _ List.mem_cons_self).eq_of_dfa
    simp only [View.look, found, graph_viewFinalSets, cells_viewFinalSets, dfa_viewFinalSets,
      k.report _ numbers]

theorem has {m : Value} (hm : m.PartOf y (s.dfa y).states) : t.has m = true := by
  rcases hm with rfl | ⟨c, hc, rfl⟩
  · exact decide_eq_true k.there
  · exact decide_eq_true (k.cell_lt c hc)

end

/-- Whatever is asked of the automaton has an answer, and it is the one that it had. -/
theorem answer (closed : (s.dfa y).Closed s.cells) (base : s.Stays s y) (k : s.Stays t y)
    (inspects : d.Inspects y (s.dfa y).states) :
    ∃ a, (s.perform d).1.answer = .ok a ∧ (t.perform d).1.answer = .ok a := by
  obtain ⟨kind, about⟩ := inspects
  rw [Session.perform, if_pos (List.all_eq_true.mpr fun m hm => base.has (about m hm)),
    Session.perform, if_pos (List.all_eq_true.mpr fun m hm => k.has (about m hm))]
  rcases kind with walks | ⟨v, rfl⟩
  · -- a question, or a step of a walk from cell to cell
    cases d with
    | ask q => exact ⟨_, rfl, congrArg Except.ok (k.question closed about)⟩
    | make m =>
      cases m with
      | start a =>
        cases (about _ List.mem_cons_self).automaton
        exact ⟨_, rfl, congrArg (fun p : Position => Except.ok (Answer.value p.toValue)) k.startOf⟩
      | next p l =>
        obtain ⟨c, hc, rfl⟩ := (about _ List.mem_cons_self).position
        simp only [execute, Maker.make, k.cell c hc]
        cases (s.cells.get c).next l <;> exact ⟨_, rfl, rfl⟩
      | _ => cases walks
    | _ => cases walks
  · exact ⟨_, rfl, congrArg Except.ok (k.view base about)⟩

/-! ## Snapshots stay -/

theorem perform (k : s.Stays t y) (h : t.Coherent)
    (spared : ∀ c ∈ (s.dfa y).states, ¬ d.ChangesCell c) : s.Stays (t.perform d).2 y where
  there := Nat.lt_of_lt_of_le k.there (frames_perform t d).dfas_le
  dfa := ((frames_perform t d).dfa y k.there).trans k.dfa
  cell_lt c hc := Nat.lt_of_lt_of_le (k.cell_lt c hc) (frames_perform t d).cells_le
  cell c hc := ((frames_perform t d).cell c (k.cell_lt c hc) (spared c hc)).trans (k.cell c hc)
  finalSets sets kept := by
    -- final sets that are kept only now were read off cells that have not changed
    rcases (frames_perform t d).finalSets y k.there with same | ⟨-, now⟩
    · exact k.finalSets sets (same.symm.trans kept)
    · rw [← Option.some.inj (now.symm.trans kept), k.dfa, Dfa.finalSets_congr k.cell]
  num c hc q hq := by
    obtain ⟨lt, num⟩ := k.num c hc q hq
    have ext := (keeps_perform h d).extendsTo.graph
    exact ⟨Nat.lt_of_lt_of_le lt ext.size_le, (ext.num q lt).trans num⟩

/-- An automaton stays as it is through any run that does not change its cells. -/
theorem run {commands : List Command} (k : s.Stays t y) (h : t.Coherent)
    (spared : ∀ d ∈ commands, ∀ c ∈ (s.dfa y).states, ¬ d.ChangesCell c) :
    s.Stays (t.performAll commands) y := by
  induction commands generalizing t with
  | nil => exact k
  | cons d rest ih =>
    exact ih (k.perform h (spared d List.mem_cons_self)) ((keeps_perform h d).coherent h)
      fun e he => spared e (List.mem_cons_of_mem d he)

end Stays

/-! ## The conversion -/

/-- From one session to another, no object has changed. Objects may have been added, and the
    states of one automaton may be kept that were not. -/
structure OnlyReads (s t : Session) (x : NfaId) : Prop where
  graph : t.graph = s.graph
  builders : t.builders = s.builders
  handles : t.nfas.map NfaObject.handle = s.nfas.map NfaObject.handle
  finals : ∀ z, t.keptFinals z = s.keptFinals z
  states : ∀ z, t.keptStates z = s.keptStates z ∨ z = x ∧ s.keptStates z = none ∧
    t.keptStates z = some (s.graph.reachable (s.nfa z).initial)
  cells : ∀ c < s.cells.size, t.cells[c]? = s.cells[c]?
  dfas : ∀ z < s.dfas.size, t.dfas[z]? = s.dfas[z]?

section determinize

variable {s : Session} {x : NfaId} (h : s.Coherent) (hx : x < s.nfas.size)
  (alphabet : Option (List Label))

include hx

theorem onlyReads_determinize : s.OnlyReads (s.determinize x alphabet).2 x := by
  have keeps := keeps_determinize hx alphabet
  obtain ⟨r, objects, performed⟩ := exists_of_determinize s x alphabet
  have graph : (s.determinize x alphabet).2.graph = s.graph := by
    rw [performed]
    exact objects.graph
  exact
    { graph
      builders := by
        rw [performed]
        exact objects.builders
      handles := by
        rw [performed]
        exact objects.handles
      finals := fun z => by
        cases kept : s.keptFinals z with
        | some finals => exact keeps.extendsTo.finals z finals kept
        | none => exact keeps.unreadFinals z kept id
      states := fun z => by
        cases kept : s.keptStates z with
        | some states => exact Or.inl (keeps.extendsTo.states z states kept)
        | none =>
          by_cases same : x = z
          · have read := keeps.read z kept same
            rw [graph, keeps.extendsTo.nfa z (same ▸ hx)] at read
            exact Or.inr ⟨same.symm, rfl, read⟩
          · exact Or.inl (keeps.unread z kept same)
      cells := fun c hc => by
        rw [performed]
        exact Array.getElem?_append_left hc
      dfas := fun z hz => by
        rw [performed]
        show (r.dfas.push _)[z]? = _
        rw [objects.dfas, Array.getElem?_push, if_neg (Nat.ne_of_lt hz)] }

include h

/-- The automaton that is made is closed, and stays as it is at first. -/
theorem stays_determinize :
    let t := (s.determinize x alphabet).2
    (t.dfa s.dfas.size).Closed t.cells ∧ t.Stays t s.dfas.size ∧
      ∀ c ∈ (t.dfa s.dfas.size).states, s.cells.size ≤ c := by
  intro t
  obtain ⟨-, cells, dfa, graph, -⟩ := determinize_over s x alphabet
  obtain ⟨r, objects, performed⟩ := exists_of_determinize s x alphabet
  have dfas : t.dfas = s.dfas.push ⟨_, none⟩ :=
    (congrArg Session.dfas performed).trans (congrArg (Array.push · _) objects.dfas)
  refine ⟨?_, ?_, fun c hc => ?_⟩
  · rw [dfa, cells]
    exact Subset.closed_determinize _ _ _ _
  · exact
      { there := by
          rw [dfas, Array.size_push]
          exact Nat.lt_succ_self _
        dfa := rfl
        cell_lt := fun c hc => by
          rw [dfa] at hc
          rw [cells]
          exact (Subset.mem_states_determinize.mp hc).2
        cell := fun _ _ => rfl
        -- nothing is kept yet of an automaton that was just added
        finalSets := fun sets kept => by
          rw [keptFinalSets, dfas, Array.getElem?_push_size] at kept
          cases kept
        -- a cell stands for states that the automaton reaches, and these are in the graph
        num := fun c hc q hq => by
          rw [dfa] at hc
          rw [cells] at hq
          obtain ⟨live, hl, -, cell⟩ := Subset.exists_of_mem_states hc
          rw [cell] at hq
          rw [graph]
          exact ⟨(Subset.within_of_mem_liveSets hl q hq).lt_size (h.ends x hx).1, rfl⟩ }
  · rw [dfa] at hc
    exact (Subset.mem_states_determinize.mp hc).1

end determinize

/-- A deterministic automaton is a snapshot. Making it changes no object; at most the states of
    the automaton that it is made of are kept now. All its cells are new: no cell that was there
    leads to them, and no automaton that was there has them. Whatever commands follow, as long
    as none of them changes one of its cells, the automaton and its cells stay as they are, and
    whatever is asked of them has an answer, the one that it had at first. -/
theorem determinize_snapshot (logging : Bool) (before later : List Command) (x : NfaId)
    (alphabet : Option (List Label)) :
    let s := (fresh logging).performAll before
    let t := (s.perform (.determinize x alphabet)).2
    let u := t.performAll later
    x < s.nfas.size →
      ∃ y, (s.perform (.determinize x alphabet)).1.answer = .ok (.value (.dfa y)) ∧
        s.OnlyReads t x ∧
        (∀ c ∈ (t.dfa y).states, s.cells.size ≤ c ∧ (∀ e, c ∉ s.cells.successors e) ∧
          ∀ z < s.dfas.size, c ∉ (s.dfa z).states ∧ c ≠ (s.dfa z).initial) ∧
        ((∀ d ∈ later, ∀ c ∈ (t.dfa y).states, ¬ d.ChangesCell c) →
          u.dfa y = t.dfa y ∧ (∀ c ∈ (t.dfa y).states, u.cells.get c = t.cells.get c) ∧
            ∀ d : Command, d.Inspects y (t.dfa y).states →
              ∃ a, (t.perform d).1.answer = .ok a ∧ (u.perform d).1.answer = .ok a) := by
  intro s t u hx
  have coherent : s.Coherent := coherent_performAll (coherent_fresh logging) before
  have place : s.InPlace := inPlace_performAll (inPlace_fresh logging) before
  have made : s.perform (.determinize x alphabet) = s.determinize x alphabet :=
    perform_determinize hx alphabet
  obtain ⟨closed, stays, new⟩ := stays_determinize coherent hx alphabet
  rw [← made] at closed stays new
  refine ⟨s.dfas.size, ?_, ?_, fun c hc => ?_, fun spared => ?_⟩
  · rw [made]
    exact (determinize_over s x alphabet).1
  · have reads := onlyReads_determinize hx alphabet
    rwa [← made] at reads
  · have beyond := Nat.not_lt.mpr (new c hc)
    exact ⟨new c hc, fun e he => beyond (place.targets e c he), fun z hz =>
      ⟨fun mem => beyond ((place.dfas z hz).states c mem),
        fun same => beyond (same ▸ (place.dfas z hz).initial)⟩⟩
  · have after := stays.run ((keeps_perform coherent _).coherent coherent) spared
    exact ⟨after.dfa, after.cell, fun d inspects => Stays.answer closed stays after inspects⟩

/-- When its only state stops accepting, an automaton accepts nothing any more, but the
    deterministic one that was made of it accepts what it did. -/
theorem determinize_snapshot_flip :
    let s := (fresh false).performAll [.make (.state 7 true), .make (.nfa 0 0)]
    let t := (s.perform (.determinize 0 none)).2
    let u := t.performAll [.change (.edge 0 .epsilon 0), .change (.stateAccepting 0 false)]
    0 < s.nfas.size ∧ t.accepts (.nfa 0) [] = true ∧ u.accepts (.nfa 0) [] = false ∧
      ∃ y, (s.perform (.determinize 0 none)).1.answer = .ok (.value (.dfa y)) ∧
        ∃ a, (t.perform (.ask (.accepts (.dfa y) []))).1.answer = .ok a ∧
          (u.perform (.ask (.accepts (.dfa y) []))).1.answer = .ok a := by
  intro s t u
  obtain ⟨y, answer, -, -, snapshot⟩ := determinize_snapshot false
    [.make (.state 7 true), .make (.nfa 0 0)]
    [.change (.edge 0 .epsilon 0), .change (.stateAccepting 0 false)] 0 none Nat.zero_lt_one
  obtain ⟨-, -, answers⟩ := snapshot fun d hd c _ changes => by
    rcases List.mem_cons.mp hd with rfl | hd
    · exact changes
    · rw [List.mem_singleton.mp hd] at changes
      exact changes
  refine ⟨Nat.zero_lt_one, ?_, ?_, y, answer, answers _ ⟨Or.inl rfl, fun m hm => ?_⟩⟩
  · exact Nfa.accepts_iff_path.mpr ⟨_, .nil _, rfl⟩
  · refine Bool.eq_false_iff.mpr fun accepted => ?_
    obtain ⟨q, -, accepting⟩ := Nfa.accepts_iff_path.mp accepted
    cases q with
    | zero => cases accepting
    | succ q =>
      rw [Graph.accepting_of_size_le (g := u.graph) (Nat.le_add_left 1 q)] at accepting
      cases accepting
  · exact Or.inl (List.mem_singleton.mp hm)

end Session

end FiniteAutomata
