/-
  FiniteAutomata.Proofs.CellTable

  What commands do to the table of cells and to the deterministic automata. There are few
  ways (`CellStep`): a cell is added or changed, an automaton is listed, its final sets are
  kept, or an automaton is made deterministic; every other command leaves both alone
  (`cellStep_perform`).

  So the table only grows, a cell is changed only by a command that names it (`Frames`), and
  whatever points into the table points to a cell that is there (`InPlace`).
-/
import FiniteAutomata.Proofs.SameObjects
import FiniteAutomata.Proofs.Shape

namespace FiniteAutomata

/-- Whether a command changes a cell: whether it accepts, or where it leads. -/
def Command.ChangesCell (c : CellId) : Command → Prop
  | .change (.cellAccepting d _) | .change (.transition d _ _) => d = c
  | _ => False

/-- All cells of an automaton are among the first `n`. -/
structure Dfa.Within (d : Dfa) (n : Nat) : Prop where
  initial : d.initial < n
  states : ∀ c ∈ d.states, c < n

theorem Dfa.Within.mono {d : Dfa} {m n : Nat} (h : d.Within m) (le : m ≤ n) : d.Within n where
  initial := Nat.lt_of_lt_of_le h.initial le
  states c hc := Nat.lt_of_lt_of_le (h.states c hc) le

/-! ## Cells of a changed table -/

namespace Cells

variable {cells : Cells} {c d : CellId}

theorem get_of_size_le (h : cells.size ≤ c) : cells.get c = .ofSet .empty := by
  rw [get, Array.getElem?_eq_none h]
  rfl

theorem get_push (cells : Cells) (cell : Cell) (c : CellId) :
    Cells.get (cells.push cell) c = if c = cells.size then cell else cells.get c := by
  rw [get, Array.getElem?_push]
  split <;> rfl

theorem get_modify_of_ne (f : Cell → Cell) (h : c ≠ d) :
    Cells.get (cells.modify c f) d = cells.get d := by
  rw [get, Array.getElem?_modify, if_neg h, get]

theorem get_modify_self (f : Cell → Cell) (h : c < cells.size) :
    Cells.get (cells.modify c f) c = f (cells.get c) := by
  rw [get, Array.getElem?_modify, if_pos rfl, get, Array.getElem?_eq_getElem h]
  rfl

theorem get_append_of_lt {more : Cells} (h : c < cells.size) :
    Cells.get (cells ++ more) c = cells.get c := by
  rw [get, Array.getElem?_append_left h, get]

end Cells

namespace Cell

variable {t : Text} {dest : CellId} {p : Text × CellId}

theorem mem_setTarget {l : List (Text × CellId)} (hp : p ∈ setTarget t dest l) :
    p ∈ l ∨ p.2 = dest := by
  induction l with
  | nil =>
    rw [List.mem_singleton.mp hp]
    exact Or.inr rfl
  | cons q rest ih =>
    obtain ⟨u, old⟩ := q
    rw [setTarget] at hp
    split at hp
    · rcases List.mem_cons.mp hp with rfl | hp
      · exact Or.inr rfl
      · exact Or.inl (List.mem_cons_of_mem _ hp)
    · rcases List.mem_cons.mp hp with rfl | hp
      · exact Or.inl List.mem_cons_self
      · exact (ih hp).imp_left (List.mem_cons_of_mem _)

/-- A cell that is given a transition leads where it led, or to the new target. -/
theorem mem_addTransition {cell : Cell} (hp : p ∈ (cell.addTransition t dest).transitions) :
    p ∈ cell.transitions ∨ p.2 = dest := mem_setTarget hp

end Cell

namespace Subset

variable {n : Nfa} {g : Graph} {alphabet : SortedSet Text} {cells : Cells} {c : CellId}

theorem size_determinize : (determinize n g alphabet cells).2.size =
    cells.size + (liveSets g alphabet (n.start g)).length := by
  rw [cells_determinize]
  simp

/-- The automaton has the cells that are added, and no others. -/
theorem mem_states_determinize : c ∈ (determinize n g alphabet cells).1.states ↔
    cells.size ≤ c ∧ c < (determinize n g alphabet cells).2.size := by
  rw [size_determinize]
  show c ∈ (List.range _).map (cells.size + ·) ↔ _
  rw [List.mem_map]
  constructor
  · rintro ⟨i, hi, rfl⟩
    exact ⟨Nat.le_add_right _ _, Nat.add_lt_add_left (List.mem_range.mp hi) _⟩
  · rintro ⟨le, lt⟩
    obtain ⟨i, rfl⟩ := Nat.exists_eq_add_of_le le
    exact ⟨i, List.mem_range.mpr (Nat.lt_of_add_lt_add_left lt), rfl⟩

theorem get_determinize_of_lt (h : c < cells.size) :
    (determinize n g alphabet cells).2.get c = cells.get c := by
  rw [cells_determinize, Cells.get_append_of_lt h]

theorem within_determinize (n : Nfa) (g : Graph) (alphabet : SortedSet Text) (cells : Cells) :
    (determinize n g alphabet cells).1.Within (determinize n g alphabet cells).2.size where
  initial := by
    have first : placeOf n g alphabet cells (n.start g) ∈
        (determinize n g alphabet cells).1.states :=
      placeOf_mem_states (start_mem_liveSets n g alphabet)
    rw [initial_eq_placeOf]
    exact (mem_states_determinize.mp first).2
  states _ hc := (mem_states_determinize.mp hc).2

end Subset

namespace Session

/-! ## What a command can do -/

/-- What a command does to the cells and the deterministic automata of a session. -/
inductive CellStep (s : Session) (d : Command) : Cells → Array DfaObject → Prop
  | idle : CellStep s d s.cells s.dfas
  | cell (members : StateSet) : CellStep s d (s.cells.push (.ofSet members)) s.dfas
  | change (c : CellId) (f : Cell → Cell) (changes : d.ChangesCell c)
      (targets : ∀ cell, ∀ p ∈ (f cell).transitions, p ∈ cell.transitions ∨ p.2 < s.cells.size) :
      CellStep s d (s.cells.modify c f) s.dfas
  | list (a : Dfa) (initial : a.initial < s.cells.size)
      (states : ∀ c ∈ a.states, c < s.cells.size) : CellStep s d s.cells (s.dfas.push ⟨a, none⟩)
  | keep (y : DfaId) (unkept : s.keptFinalSets y = none) :
      CellStep s d s.cells
        (s.dfas.modify y fun o => { o with finals := some ((s.dfa y).finalSets s.cells) })
  | determinize (n : Nfa) (g : Graph) (alphabet : SortedSet Text) :
      CellStep s d (Subset.determinize n g alphabet s.cells).2
        (s.dfas.push ⟨(Subset.determinize n g alphabet s.cells).1, none⟩)

variable {s t : Session} {d : Command}

theorem dfa_eq (s : Session) (y : DfaId) :
    s.dfa y = (s.dfas[y]?.map DfaObject.handle).getD ⟨0, [], .empty⟩ := by
  unfold dfa
  cases s.dfas[y]? <;> rfl

theorem CellStep.of_sameObjects (h : s.SameObjects t) : CellStep s d t.cells t.dfas := by
  rw [h.cells, h.dfas]
  exact .idle

theorem cellStep_make {m : Maker} (there : m.mentions.all s.has = true) :
    CellStep s d (m.make s).2.cells (m.make s).2.dfas := by
  cases m with
  | builder | builderState _ _ | state _ _ | symbol _ _ | join _ _ _ _ | repetition _ _ _ | nfa _ _
  | initialState _ | finalState _ | closure _ | move _ _ | start _ => exact .idle
  | next p l =>
    cases p with
    | live live => exact .idle
    | cell c =>
      rw [Maker.make]
      split <;> exact .idle
  | cell members => exact .cell members
  | dfa i states alphabet =>
    obtain ⟨initial, rest⟩ : i < s.cells.size ∧ ∀ c ∈ states, c < s.cells.size := by
      simpa [Maker.mentions, has] using there
    exact .list _ initial rest

theorem cellStep_apply {c : Change} (there : c.mentions.all s.has = true) :
    CellStep s (.change c) (c.apply s).cells (c.apply s).dfas := by
  cases c with
  | edge _ _ _ | stateAccepting _ _ | logging _ => exact .idle
  | cellAccepting c value =>
    refine .change c (fun cell => { cell with accepting := value }) ?_ fun _ _ hp => Or.inl hp
    rfl
  | transition src t dest =>
    have lt : src < s.cells.size ∧ dest < s.cells.size := by
      simpa [Change.mentions, has] using there
    refine .change src _ ?_ fun _ _ hp => (Cell.mem_addTransition hp).imp_right fun same =>
      same ▸ lt.2
    rfl

theorem cellStep_viewFinalSets (y : DfaId) :
    CellStep s d (s.viewFinalSets y).2.cells (s.viewFinalSets y).2.dfas := by
  unfold viewFinalSets
  split
  · exact .idle
  · next unkept => exact .keep y unkept

theorem cellStep_look (v : View) : CellStep s d (v.look s).2.cells (v.look s).2.dfas := by
  cases v with
  | states x | nfaSize x | triples x | symbols x => exact .of_sameObjects (.viewStates s x)
  | finals x => exact .of_sameObjects (.viewFinals s x)
  | nfaReport x => exact .of_sameObjects ((SameObjects.viewStates s x).trans (.viewFinals _ x))
  | finalSets x | dfaReport x => exact cellStep_viewFinalSets x

theorem cells_assemble (s : Session) (tokens : Text) (b : Option BuilderId) :
    (s.assemble tokens b).2.cells = s.cells ∧ (s.assemble tokens b).2.dfas = s.dfas := by
  have taken : ∀ c, (s.takeOver b c).cells = s.cells ∧ (s.takeOver b c).dfas = s.dfas := fun c => by
    cases b <;> exact ⟨rfl, rfl⟩
  unfold assemble
  match Assembly.assemble (Token.ofText tokens) ⟨s.graph, (b.map s.counter).getD 0⟩ with
  | (.error f, c) => exact taken c
  | (.ok n, c) =>
    have announced := SameObjects.announce (s.takeOver b c) n tokens
    exact ⟨announced.cells.trans (taken c).1, announced.dfas.trans (taken c).2⟩

theorem cells_compile (s : Session) (pattern : Text) :
    (s.compile pattern).2.cells = s.cells ∧ (s.compile pattern).2.dfas = s.dfas := by
  unfold compile
  split
  · exact cells_assemble s _ none
  · exact ⟨rfl, rfl⟩

/-- To make an automaton deterministic, its states are read; then the result is added. -/
theorem exists_of_determinize (s : Session) (x : NfaId) (alphabet : Option (List Label)) :
    ∃ r, s.SameObjects r ∧ (s.determinize x alphabet).2 =
      ({ r with cells := (Subset.determinize (s.nfa x) s.graph (s.alphabetFor x alphabet).1
          s.cells).2 }.addDfa
        (Subset.determinize (s.nfa x) s.graph (s.alphabetFor x alphabet).1 s.cells).1).2 := by
  have found := SameObjects.alphabetFor s x alphabet
  refine ⟨_, found.trans (.viewStates _ x), ?_⟩
  unfold determinize
  rw [← found.nfa, ← found.graph, ← found.cells]

theorem cellStep_determinize (x : NfaId) (alphabet : Option (List Label)) :
    CellStep s d (s.determinize x alphabet).2.cells (s.determinize x alphabet).2.dfas := by
  obtain ⟨r, objects, performed⟩ := exists_of_determinize s x alphabet
  rw [performed]
  show CellStep s d _ (r.dfas.push _)
  rw [objects.dfas]
  exact .determinize _ _ _

/-- Every command, answered or refused, does one of these things. -/
theorem cellStep_perform (s : Session) (d : Command) :
    CellStep s d (s.perform d).2.cells (s.perform d).2.dfas := by
  unfold perform
  split
  · next there =>
    cases d with
    | make m => exact cellStep_make there
    | change c => exact cellStep_apply there
    | ask _ | arrange _ => exact .idle
    | view v => exact cellStep_look v
    | assemble tokens b =>
      obtain ⟨cells, dfas⟩ := cells_assemble s tokens b
      show CellStep s _ (s.assemble tokens b).2.cells (s.assemble tokens b).2.dfas
      rw [cells, dfas]
      exact .idle
    | compile pattern =>
      obtain ⟨cells, dfas⟩ := cells_compile s pattern
      show CellStep s _ (s.compile pattern).2.cells (s.compile pattern).2.dfas
      rw [cells, dfas]
      exact .idle
    | determinize x alphabet => exact cellStep_determinize x alphabet
  · exact .idle

namespace CellStep

variable {cells : Cells} {dfas : Array DfaObject}

theorem get (step : CellStep s d cells dfas) : s.cells.size ≤ cells.size ∧
    ∀ c < s.cells.size, ¬ d.ChangesCell c → cells.get c = s.cells.get c := by
  cases step with
  | idle | list | keep => exact ⟨Nat.le_refl _, fun _ _ _ => rfl⟩
  | cell members =>
    refine ⟨?_, fun c hc _ => (Cells.get_push ..).trans (if_neg (Nat.ne_of_lt hc))⟩
    rw [Array.size_push]
    exact Nat.le_succ _
  | change c f changes =>
    refine ⟨Nat.le_of_eq Array.size_modify.symm, fun e _ spared => ?_⟩
    exact Cells.get_modify_of_ne f fun same => spared (same ▸ changes)
  | determinize n g alphabet =>
    refine ⟨?_, fun c hc _ => Subset.get_determinize_of_lt hc⟩
    rw [Subset.size_determinize]
    exact Nat.le_add_right _ _

/-- The record of an automaton stays, unless the final sets are kept now that were not. -/
theorem record (step : CellStep s d cells dfas) {y : DfaId} (hy : y < s.dfas.size) :
    dfas[y]? = s.dfas[y]? ∨ s.keptFinalSets y = none ∧
      dfas[y]? = some ⟨s.dfa y, some ((s.dfa y).finalSets s.cells)⟩ := by
  cases step with
  | idle | cell | change => exact Or.inl rfl
  | list | determinize =>
    rw [Array.getElem?_push, if_neg (Nat.ne_of_lt hy)]
    exact Or.inl rfl
  | keep z unkept =>
    rw [Array.getElem?_modify]
    by_cases same : z = y
    · subst same
      rw [if_pos rfl, Array.getElem?_eq_getElem hy, dfa_eq, Array.getElem?_eq_getElem hy]
      exact Or.inr ⟨unkept, rfl⟩
    · rw [if_neg same]
      exact Or.inl rfl

theorem dfas_le (step : CellStep s d cells dfas) : s.dfas.size ≤ dfas.size := by
  cases step with
  | idle | cell | change => exact Nat.le_refl _
  | list | determinize =>
    rw [Array.size_push]
    exact Nat.le_succ _
  | keep => exact Nat.le_of_eq Array.size_modify.symm

/-- The cells of a new automaton lie in the table. -/
theorem within (step : CellStep s d cells dfas) {y : DfaId} (new : s.dfas.size ≤ y) {o : DfaObject}
    (there : dfas[y]? = some o) : o.handle.Within cells.size := by
  have pushed : ∀ a : Dfa, (s.dfas.push ⟨a, none⟩)[y]? = some o → o.handle = a := by
    intro a h
    rw [Array.getElem?_push] at h
    split at h
    · rw [← Option.some.inj h]
    · rw [Array.getElem?_eq_none new] at h
      cases h
  cases step with
  | idle | cell | change =>
    rw [Array.getElem?_eq_none new] at there
    cases there
  | list a initial states =>
    rw [pushed a there]
    exact ⟨initial, states⟩
  | determinize n g alphabet =>
    rw [pushed _ there]
    exact Subset.within_determinize n g alphabet s.cells
  | keep z =>
    rw [Array.getElem?_eq_none (Array.size_modify.trans_le new)] at there
    cases there

/-- If no cell leads beyond the table, then none does afterwards. -/
theorem targets (step : CellStep s d cells dfas)
    (h : ∀ c, ∀ e ∈ s.cells.successors c, e < s.cells.size) :
    ∀ c, ∀ e ∈ cells.successors c, e < cells.size := by
  intro c e he
  -- a cell that has stayed as it was leads where it led, into a table that has not shrunk
  have old : s.cells.get c = cells.get c → e < cells.size := fun same =>
    Nat.lt_of_lt_of_le (h c e (by rwa [Cells.successors, same])) step.get.1
  cases step with
  | idle | list | keep => exact old rfl
  | cell members =>
    by_cases new : c = s.cells.size
    · rw [Cells.successors, Cells.get_push, if_pos new] at he
      cases he
    · exact old ((Cells.get_push ..).trans (if_neg new)).symm
  | change b f changes targets =>
    by_cases same : b = c
    · subst same
      by_cases there : b < s.cells.size
      · rw [Cells.successors, Cells.get_modify_self f there] at he
        obtain ⟨p, hp, rfl⟩ := List.mem_map.mp he
        rw [Array.size_modify]
        exact (targets _ p hp).elim (fun hp => h b _ (List.mem_map_of_mem hp)) id
      · have beyond := Nat.le_of_not_lt there
        rw [Cells.successors, Cells.get_of_size_le (Array.size_modify.trans_le beyond)] at he
        cases he
    · exact old (Cells.get_modify_of_ne f same).symm
  | determinize n g alphabet =>
    by_cases there : c < s.cells.size
    · exact old (Subset.get_determinize_of_lt there).symm
    · by_cases mem : c < (Subset.determinize n g alphabet s.cells).2.size
      · -- from the cells of the automaton, all transitions lead to one of them
        have states := Subset.mem_states_determinize.mpr ⟨Nat.le_of_not_lt there, mem⟩
        obtain ⟨p, hp, rfl⟩ := List.mem_map.mp he
        have target := ((Subset.shape_determinize n g alphabet s.cells).targets c states p hp).1
        exact (Subset.mem_states_determinize.mp target).2
      · rw [Cells.successors, Cells.get_of_size_le (Nat.le_of_not_lt mem)] at he
        cases he

end CellStep

/-! ## What stays as it is -/

/-- From one session to another, cells and deterministic automata are at most added, and cells
    changed only by `d`. Of the automata that were there, at most the final sets are kept. -/
structure Frames (s t : Session) (d : Command) : Prop where
  cells_le : s.cells.size ≤ t.cells.size
  cell : ∀ c < s.cells.size, ¬ d.ChangesCell c → t.cells.get c = s.cells.get c
  dfas_le : s.dfas.size ≤ t.dfas.size
  dfa : ∀ y < s.dfas.size, t.dfa y = s.dfa y
  finalSets : ∀ y < s.dfas.size, t.keptFinalSets y = s.keptFinalSets y ∨
    s.keptFinalSets y = none ∧ t.keptFinalSets y = some ((s.dfa y).finalSets s.cells)

theorem frames_perform (s : Session) (d : Command) : s.Frames (s.perform d).2 d := by
  have step := cellStep_perform s d
  exact
    { cells_le := step.get.1
      cell := step.get.2
      dfas_le := step.dfas_le
      dfa := fun y hy => by
        rw [dfa_eq]
        rcases step.record hy with same | ⟨-, now⟩
        · rw [same, dfa_eq]
        · rw [now]
          rfl
      finalSets := fun y hy => by
        rw [keptFinalSets, keptFinalSets]
        rcases step.record hy with same | ⟨unkept, now⟩
        · rw [same]
          exact Or.inl rfl
        · rw [now]
          exact Or.inr ⟨unkept, rfl⟩ }

/-! ## Nothing points beyond the table -/

/-- The cells of all automata, and all targets of cells, lie in the table. -/
structure InPlace (s : Session) : Prop where
  dfas : ∀ y < s.dfas.size, (s.dfa y).Within s.cells.size
  targets : ∀ c, ∀ e ∈ s.cells.successors c, e < s.cells.size

theorem inPlace_fresh (logging : Bool) : (fresh logging).InPlace where
  dfas y hy := absurd hy (Nat.not_lt_zero y)
  targets c e he := by cases he

theorem InPlace.perform (h : s.InPlace) (d : Command) : (s.perform d).2.InPlace where
  dfas y hy := by
    have frames := frames_perform s d
    by_cases old : y < s.dfas.size
    · rw [frames.dfa y old]
      exact (h.dfas y old).mono frames.cells_le
    · have there := Array.getElem?_eq_getElem hy
      rw [dfa_eq, there]
      exact (cellStep_perform s d).within (Nat.le_of_not_lt old) there
  targets := (cellStep_perform s d).targets h.targets

theorem inPlace_performAll (h : s.InPlace) (commands : List Command) :
    (s.performAll commands).InPlace := by
  induction commands generalizing s with
  | nil => exact h
  | cons d rest ih => exact ih (h.perform d)

end Session

end FiniteAutomata
