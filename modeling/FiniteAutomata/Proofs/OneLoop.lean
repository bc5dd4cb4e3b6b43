/-
  FiniteAutomata.Proofs.OneLoop

  The subset construction in one loop. `Subset.determinize` finds all live sets first and
  makes their cells then. Here the cells are made while the sets are found. A cell is taken
  off a queue, and one symbol after the other is entered in it: the symbol leads to the cell
  that is known for the set, or to a new one, which goes on the queue. Which cells accept is
  marked when the queue is empty.

  Between two rounds the table holds cells with all symbols entered and, behind them, the
  cells of the queue, which have none (`between`). Within a round there is one cell in the
  middle, with the symbols entered that have had their turn (`within`). One symbol takes a
  stage of this kind to the next one (`enter_within`), and a round is that for all symbols
  (`round_between`).

  `determinize_one_loop` draws the consequence: the loop ends, in one way only, after each of
  its cells was taken off once, and gives the automaton that `Subset.determinize` gives.
-/
import FiniteAutomata.Proofs.Rounds

namespace FiniteAutomata

/-! ## Lists and tables -/

namespace Cell

/-- A symbol that has no transition yet gets the last one. -/
theorem setTarget_of_not_mem {t : Text} {l : List (Text × CellId)} (new : t ∉ l.map Prod.fst)
    (d : CellId) : setTarget t d l = l ++ [(t, d)] := by
  induction l with
  | nil => rfl
  | cons p l ih =>
    obtain ⟨u, old⟩ := p
    rw [List.map_cons, List.mem_cons, not_or] at new
    obtain ⟨other, new⟩ := new
    rw [setTarget, if_neg (Ne.symm other), ih new]
    rfl

end Cell

namespace Cells

variable {rows more : List Cell} {c : CellId}

/-- The cell behind some rows of a table. -/
theorem get_toArray (length : rows.length = c) (cell : Cell) :
    Cells.get (rows ++ cell :: more).toArray c = cell := by
  subst length
  rw [Cells.get, List.getElem?_toArray, List.getElem?_append_right (Nat.le_refl _), Nat.sub_self]
  rfl

theorem modify_toArray (length : rows.length = c) (cell : Cell) (f : Cell → Cell) :
    (rows ++ cell :: more).toArray.modify c f = (rows ++ f cell :: more).toArray := by
  subst length
  rw [List.modify_toArray]
  refine congrArg List.toArray ?_
  induction rows with
  | nil => rfl
  | cons row rows ih => exact congrArg (row :: ·) ih

end Cells

/-- Where the values of a list are numbered from a place on, a value is found by its number. -/
theorem lookup_zipIdx (sets : List StateSet) (base : Nat) (live : StateSet) :
    (sets.zipIdx base).lookup live =
      if live ∈ sets then some (base + sets.idxOf live) else none := by
  induction sets generalizing base with
  | nil => rfl
  | cons other sets ih =>
    rw [List.zipIdx_cons, List.lookup_cons, ih]
    by_cases same : live = other
    · simp [same]
    · have apart : (live == other) = false := by simpa using same
      have apart' : (other == live) = false := by simpa using Ne.symm same
      rw [apart, List.idxOf_cons, apart']
      simp only [List.mem_cons, same, false_or, cond_false]
      split
      · exact congrArg some (by omega)
      · rfl

namespace OneLoop

/-! ## The loop -/

/-- Where the loop stands. -/
structure Stage where
  cells : Cells
  /-- The cell that is known for a set, in the order in which the sets were found. -/
  known : List (StateSet × CellId)
  /-- The cells in which no symbol was entered yet. -/
  queue : List CellId

/-- Makes a cell for a set and puts it on the queue. -/
def Stage.discover (s : Stage) (live : StateSet) : Stage where
  cells := s.cells.push (.ofSet live)
  known := s.known ++ [(live, s.cells.size)]
  queue := s.queue ++ [s.cells.size]

/-- Gives a cell its transition for a symbol. -/
def Stage.connect (s : Stage) (c : CellId) (t : Text) (d : CellId) : Stage :=
  { s with cells := s.cells.modify c fun cell => cell.addTransition t d }

/-- The loop starts with a cell for the states that are live at the start. -/
def start (n : Nfa) (g : Graph) (cells : Cells) : Stage :=
  { cells := cells, known := [], queue := [] : Stage }.discover (n.start g)

/-- Enters in a cell where a symbol leads: to the cell that is known for the set, or to a new
    one. -/
def enter (g : Graph) (c : CellId) (s : Stage) (t : Text) : Stage :=
  let target := g.step (s.cells.get c).members (.text t)
  match s.known.lookup target with
  | some d => s.connect c t d
  | none => (s.discover target).connect c t s.cells.size

section Enter

variable {g : Graph} {c : CellId} {s : Stage} {t : Text} {target : StateSet}

theorem enter_known {d : CellId} (leads : g.step (s.cells.get c).members (.text t) = target)
    (known : s.known.lookup target = some d) : enter g c s t = s.connect c t d := by
  unfold enter
  simp only [leads, known]

theorem enter_new (leads : g.step (s.cells.get c).members (.text t) = target)
    (unknown : s.known.lookup target = none) :
    enter g c s t = (s.discover target).connect c t s.cells.size := by
  unfold enter
  simp only [leads, unknown]

end Enter

/-- The loop over the queue ends, after some cells were taken off. In each round all symbols
    are entered in the first cell of the queue. -/
inductive Loop (g : Graph) (alphabet : SortedSet Text) : Stage → List CellId → Stage → Prop
  | done {s : Stage} : s.queue = [] → Loop g alphabet s [] s
  | round {s last : Stage} {c : CellId} {rest taken : List CellId} : s.queue = c :: rest →
      Loop g alphabet (alphabet.toList.foldl (enter g c) { s with queue := rest }) taken last →
      Loop g alphabet s (c :: taken) last

/-- The cell with the mark that says whether it accepts. -/
def marked (g : Graph) (cell : Cell) : Cell := { cell with accepting := g.isFinal cell.members }

/-- The automaton when the loop has ended, and the table with all its cells marked. -/
def finish (g : Graph) (alphabet : SortedSet Text) (first : CellId) (s : Stage) : Dfa × Cells :=
  let states := s.known.map Prod.snd
  (⟨first, states, alphabet⟩, states.foldl (fun table c => table.modify c (marked g)) s.cells)

/-- There is one way only for the loop to end. -/
theorem Loop.unique {g : Graph} {alphabet : SortedSet Text} {s last last' : Stage}
    {taken taken' : List CellId} (h : Loop g alphabet s taken last)
    (h' : Loop g alphabet s taken' last') : taken' = taken ∧ last' = last := by
  induction h generalizing taken' with
  | done empty =>
    cases h' with
    | done _ => exact ⟨rfl, rfl⟩
    | round queue _ => rw [empty] at queue; cases queue
  | round queue _ ih =>
    cases h' with
    | done empty => rw [queue] at empty; cases empty
    | round queue' more =>
      obtain ⟨rfl, rfl⟩ := List.cons.inj (queue.symm.trans queue')
      obtain ⟨rfl, rfl⟩ := ih more
      exact ⟨rfl, rfl⟩

/-! ## The table while the loop runs -/

section Layout

-- `all` is the list of all live sets, in the order in which the loop finds them.
variable (g : Graph) (alphabet : SortedSet Text) (cells : Cells) (all : List StateSet)

/-- The cell of a set, with some symbols entered and not marked yet. -/
def entered (symbols : List Text) (live : StateSet) : Cell where
  members := live
  accepting := false
  transitions := symbols.map fun t => (t, cells.size + all.idxOf (g.step live (.text t)))

/-- The cells that were there before, and those that were taken off the queue. -/
def finished (done : List StateSet) : List Cell :=
  cells.toList ++ done.map (entered g cells all alphabet.toList)

/-- The stage between two rounds, given the sets that had their round and those that wait
    for it. -/
def between (done waiting : List StateSet) : Stage where
  cells := (finished g alphabet cells all done ++ waiting.map Cell.ofSet).toArray
  known := (done ++ waiting).zipIdx cells.size
  queue := List.range' (cells.size + done.length) waiting.length

/-- The stage within the round of a set, given the symbols that had their turn. -/
def within (done : List StateSet) (live : StateSet) (symbols : List Text)
    (waiting : List StateSet) : Stage where
  cells := (finished g alphabet cells all done ++
    entered g cells all symbols live :: waiting.map Cell.ofSet).toArray
  known := (done ++ live :: waiting).zipIdx cells.size
  queue := List.range' (cells.size + done.length + 1) waiting.length

/-- The sets that wait when some symbols were entered for a set. -/
def grown (done : List StateSet) (live : StateSet) (labels : List Text)
    (waiting : List StateSet) : List StateSet :=
  waiting ++ Worklist.fresh (done ++ live :: waiting) (labels.map fun t => g.step live (.text t))

end Layout

variable {n : Nfa} {g : Graph} {alphabet : SortedSet Text} {cells : Cells}
  {all done waiting : List StateSet} {live : StateSet} {symbols : List Text}

theorem length_finished :
    (finished g alphabet cells all done).length = cells.size + done.length := by
  simp [finished]

theorem finished_concat : finished g alphabet cells all (done ++ [live]) =
    finished g alphabet cells all done ++ [entered g cells all alphabet.toList live] := by
  simp [finished]

/-- No set is done and one waits at the start. -/
theorem start_eq_between : start n g cells = between g alphabet cells all [] [n.start g] := by
  have table : cells.push (Cell.ofSet (n.start g)) =
      (cells.toList ++ [Cell.ofSet (n.start g)]).toArray := by
    rw [← List.push_toArray, Array.toArray_toList]
  simp [start, Stage.discover, between, finished, table]

/-- The round of a set starts when it is taken off the queue. -/
theorem taken_between : { between g alphabet cells all done (live :: waiting) with
      queue := List.range' (cells.size + done.length + 1) waiting.length } =
    within g alphabet cells all done live [] waiting := rfl

/-- The round is over when all symbols had their turn. -/
theorem within_toList : within g alphabet cells all done live alphabet.toList waiting =
    between g alphabet cells all (done ++ [live]) waiting := by
  simp [within, between, finished_concat, Nat.add_assoc]

/-! ## What a symbol does, and a round -/

theorem addTransition_entered {t : Text} (new : t ∉ symbols) :
    (entered g cells all symbols live).addTransition t
        (cells.size + all.idxOf (g.step live (.text t))) =
      entered g cells all (symbols ++ [t]) live := by
  have absent : t ∉ (entered g cells all symbols live).transitions.map Prod.fst := by
    simpa [entered] using new
  rw [Cell.addTransition, Cell.setTarget_of_not_mem absent]
  simp [entered]

/-- A symbol that had no turn yet gets the transition that it shall have. -/
theorem connect_within {t : Text} (new : t ∉ symbols) :
    (within g alphabet cells all done live symbols waiting).connect (cells.size + done.length) t
        (cells.size + all.idxOf (g.step live (.text t))) =
      within g alphabet cells all done live (symbols ++ [t]) waiting := by
  simp only [Stage.connect, within, Cells.modify_toArray length_finished,
    addTransition_entered new]

theorem size_within : (within g alphabet cells all done live symbols waiting).cells.size =
    cells.size + (done ++ live :: waiting).length := by
  simp only [within, List.size_toArray, List.length_append, List.length_cons, List.length_map,
    length_finished]
  omega

/-- A new set waits behind the others. -/
theorem discover_within (target : StateSet) :
    (within g alphabet cells all done live symbols waiting).discover target =
      within g alphabet cells all done live symbols (waiting ++ [target]) := by
  have table : (within g alphabet cells all done live symbols waiting).cells.push
      (.ofSet target) =
        (within g alphabet cells all done live symbols (waiting ++ [target])).cells := by
    simp [within]
  have known : (done ++ live :: (waiting ++ [target])).zipIdx cells.size =
      (done ++ live :: waiting).zipIdx cells.size ++
        [(target, cells.size + (done ++ live :: waiting).length)] := by
    rw [← List.cons_append, ← List.append_assoc, List.zipIdx_append]
    rfl
  have queue : List.range' (cells.size + done.length + 1) (waiting ++ [target]).length =
      List.range' (cells.size + done.length + 1) waiting.length ++
        [cells.size + (done ++ live :: waiting).length] := by
    have last : cells.size + done.length + 1 + waiting.length =
        cells.size + (done ++ live :: waiting).length := by
      rw [List.length_append, List.length_cons]
      omega
    rw [List.length_append, List.length_singleton, List.range'_1_concat, last]
  rw [Stage.discover, table, size_within]
  exact congrArg₂ (Stage.mk _) known.symm queue.symm

theorem grown_of_mem {t : Text} (old : g.step live (.text t) ∈ done ++ live :: waiting) :
    grown g done live [t] waiting = waiting := by
  rw [grown, List.map_singleton, Worklist.fresh_singleton_of_mem old, List.append_nil]

theorem grown_of_not_mem {t : Text} (new : g.step live (.text t) ∉ done ++ live :: waiting) :
    grown g done live [t] waiting = waiting ++ [g.step live (.text t)] := by
  rw [grown, List.map_singleton, Worklist.fresh_singleton_of_not_mem new]

theorem grown_cons (t : Text) (labels : List Text) : grown g done live (t :: labels) waiting =
    grown g done live labels (grown g done live [t] waiting) := by
  have seen (next : List StateSet) : done ++ live :: waiting ++ next =
      done ++ live :: (waiting ++ next) := List.append_assoc ..
  rw [grown, List.map_cons, Worklist.fresh_cons, ← List.append_assoc, seen]
  rfl

/-- One symbol is entered in the cell of the set, and a new set is put on the queue. -/
theorem enter_within {t : Text} (new : t ∉ symbols)
    (found : done ++ live :: grown g done live [t] waiting <+: all) :
    enter g (cells.size + done.length) (within g alphabet cells all done live symbols waiting) t =
      within g alphabet cells all done live (symbols ++ [t]) (grown g done live [t] waiting) := by
  let before := within g alphabet cells all done live symbols waiting
  let target := g.step live (.text t)
  have leads : g.step (before.cells.get (cells.size + done.length)).members (.text t) = target :=
    congrArg (fun cell => g.step (Cell.members cell) (.text t))
      (Cells.get_toArray length_finished _)
  have lookup : before.known.lookup target = if target ∈ done ++ live :: waiting then
      some (cells.size + (done ++ live :: waiting).idxOf target) else none := lookup_zipIdx _ _ _
  by_cases old : target ∈ done ++ live :: waiting
  · -- A known set lies where it lies in the whole list.
    rw [grown_of_mem old] at found ⊢
    rw [if_pos old, found.idxOf_eq_of_mem old] at lookup
    rw [enter_known leads lookup, connect_within new]
  · -- A new set is the next one in the whole list, and the end of the table is its place.
    rw [grown_of_not_mem old, ← List.cons_append, ← List.append_assoc] at found
    rw [if_neg old] at lookup
    have place : before.cells.size = cells.size + all.idxOf target := by
      have last : target ∈ done ++ live :: waiting ++ [target] :=
        List.mem_append_right _ List.mem_cons_self
      rw [size_within, ← found.idxOf_eq_of_mem last, List.idxOf_append_of_notMem old,
        List.idxOf_cons_self, Nat.add_zero]
    rw [enter_new leads lookup, place, discover_within, connect_within new, grown_of_not_mem old]

/-- All symbols are entered one after the other. -/
theorem foldl_enter_within {labels : List Text} (nodup : (symbols ++ labels).Nodup)
    (found : done ++ live :: grown g done live labels waiting <+: all) :
    labels.foldl (enter g (cells.size + done.length))
        (within g alphabet cells all done live symbols waiting) =
      within g alphabet cells all done live (symbols ++ labels)
        (grown g done live labels waiting) := by
  induction labels generalizing symbols waiting with
  | nil =>
    have same : grown g done live [] waiting = waiting := List.append_nil _
    rw [List.append_nil, same, List.foldl_nil]
  | cons t labels ih =>
    have new : t ∉ symbols := fun old => List.disjoint_of_nodup_append nodup old List.mem_cons_self
    have rest : (symbols ++ [t] ++ labels).Nodup := by simpa using nodup
    rw [grown_cons] at found ⊢
    have first : done ++ live :: grown g done live [t] waiting <+: all :=
      List.IsPrefix.trans ⟨_, List.append_assoc ..⟩ found
    rw [List.foldl_cons, enter_within new first, ih rest found, List.append_assoc,
      List.singleton_append]

/-- After a round, one set more is done, and the new sets wait behind the others. -/
theorem round_between (found : done ++ live :: grown g done live alphabet.toList waiting <+: all) :
    alphabet.toList.foldl (enter g (cells.size + done.length))
        { between g alphabet cells all done (live :: waiting) with
          queue := List.range' (cells.size + done.length + 1) waiting.length } =
      between g alphabet cells all (done ++ [live])
        (grown g done live alphabet.toList waiting) := by
  have nodup : ([] ++ alphabet.toList).Nodup := alphabet.nodup_toList
  rw [taken_between, foldl_enter_within nodup found, List.nil_append, within_toList]

/-! ## The whole run -/

/-- From a stage between two rounds, the loop ends with the round of the last set. -/
theorem loop_between {seen queue : List StateSet} {rounds : List (Worklist.Visit StateSet)}
    (ends : Worklist.Ends (Subset.successors g alphabet) seen queue rounds)
    (before : seen = done ++ queue) (found : done ++ rounds.map Worklist.Visit.taken = all) :
    Loop g alphabet (between g alphabet cells all done queue)
      (List.range' (cells.size + done.length) rounds.length)
      (between g alphabet cells all all []) := by
  -- The sets that had their round move from the queue to `done`, one in each round.
  induction ends generalizing done with
  | done =>
    rw [List.map_nil, List.append_nil] at found
    subst found
    exact .done rfl
  | @round seen waiting live rounds ends ih =>
    subst before
    have part : done ++ live :: grown g done live alphabet.toList waiting <+: all := by
      rw [← found, List.map_cons, ends.taken_eq]
      exact (List.prefix_append_right_inj done).mpr (List.prefix_append _ _)
    have rest := ih (by simp) ((List.append_assoc done [live] _).trans found)
    refine .round rfl ?_
    rw [round_between part]
    rwa [List.length_append, ← Nat.add_assoc] at rest

/-- The marks are set cell by cell. -/
theorem foldl_marked (g : Graph) (rows more : List Cell) :
    (List.range' rows.length more.length).foldl (fun table c => table.modify c (marked g))
        (rows ++ more).toArray = (rows ++ more.map (marked g)).toArray := by
  induction more generalizing rows with
  | nil => rfl
  | cons cell more ih =>
    have rest := ih (rows ++ [marked g cell])
    rw [List.length_append, List.append_assoc, List.append_assoc] at rest
    rw [List.length_cons, List.range'_succ, List.foldl_cons, Cells.modify_toArray rfl]
    exact rest

/-- When all sets are done, what is left to do is to set the marks. -/
theorem finish_between (found : Subset.liveSets g alphabet (n.start g) = all) :
    finish g alphabet cells.size (between g alphabet cells all all []) =
      Subset.determinize n g alphabet cells := by
  have states : (between g alphabet cells all all []).known.map Prod.snd =
      (List.range all.length).map (cells.size + ·) := by
    rw [between, List.append_nil, List.zipIdx_map_snd, List.range'_eq_map_range]
  have table : (between g alphabet cells all all []).cells =
      (cells.toList ++ all.map (entered g cells all alphabet.toList)).toArray := by
    rw [between, finished, List.map_nil, List.append_nil]
  have marks := foldl_marked g cells.toList (all.map (entered g cells all alphabet.toList))
  rw [Array.length_toList, List.length_map, List.map_map, ← List.append_toArray cells.toList
    (all.map (_ ∘ _)), Array.toArray_toList] at marks
  rw [finish, states, Subset.determinize, found, ← List.range'_eq_map_range, table, marks]
  rfl

end OneLoop

/-! ## In a session -/

namespace Session

/-- Making an automaton deterministic is one loop. It starts with the cell of the first live
    set, which lies behind all cells that there were. The loop ends, in one way only, after
    each cell of the automaton was taken off the queue once, in the order of the automaton;
    and with the cells marked, what it leaves is the automaton and the table that the
    conversion gives. -/
theorem determinize_one_loop (s : Session) (x : NfaId) (alphabet : Option (List Label)) :
    let t := (s.determinize x alphabet).2
    let symbols := (s.alphabetFor x alphabet).1
    ∃ y last, (s.determinize x alphabet).1.answer = .ok (.value (.dfa y)) ∧
      (∀ taken stage, OneLoop.Loop s.graph symbols (OneLoop.start (s.nfa x) s.graph s.cells)
          taken stage ↔ taken = (t.dfa y).states ∧ stage = last) ∧
      OneLoop.finish s.graph symbols s.cells.size last = (t.dfa y, t.cells) := by
  intro t symbols
  obtain ⟨answer, table, dfa, -, -⟩ := determinize_over s x alphabet
  let first := (s.nfa x).start s.graph
  let sets := Subset.liveSets s.graph symbols first
  obtain ⟨rounds, ends⟩ : ∃ rounds, Worklist.Ends (Subset.successors s.graph symbols)
      [first] [first] rounds :=
    ⟨_, (Worklist.ends_iff (Subset.bounded_successors s.graph symbols)).mpr rfl⟩
  have found : rounds.map Worklist.Visit.taken = sets := Subset.taken_of_ends ends
  have run : OneLoop.Loop s.graph symbols
      (OneLoop.between s.graph symbols s.cells sets [] [first]) _ _ :=
    OneLoop.loop_between ends rfl found
  rw [← OneLoop.start_eq_between] at run
  have states : (t.dfa s.dfas.size).states = List.range' s.cells.size rounds.length := by
    have length : rounds.length = sets.length := by
      rw [← found, List.length_map]
    rw [length, List.range'_eq_map_range]
    exact congrArg Dfa.states dfa
  refine ⟨_, OneLoop.between s.graph symbols s.cells sets sets [], answer,
    fun taken stage => ⟨fun other => ?_, ?_⟩, ?_⟩
  · rw [states]
    exact run.unique other
  · rintro ⟨rfl, rfl⟩
    rw [states]
    exact run
  · rw [OneLoop.finish_between rfl]
    exact Prod.ext dfa.symm table.symm

end Session

end FiniteAutomata
