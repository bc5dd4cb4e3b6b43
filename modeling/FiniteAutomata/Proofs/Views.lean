/-
  FiniteAutomata.Proofs.Views

  What stays as it is when an automaton is added to a session or when views of it are kept,
  and what an answer says about the command: its objects were there.

  A kept view may be out of date. `Faithful` says of an automaton that what is kept of it, if
  anything, is what would be found now; keeping more of it, or of another one, does not
  change that.
-/
import FiniteAutomata.Session.Command

namespace FiniteAutomata

namespace Session

/-! ## The record of an automaton -/

theorem nfa_eq (s : Session) (x : NfaId) :
    s.nfa x = (s.nfas[x]?.map NfaObject.handle).getD ⟨0, 0⟩ := by
  unfold nfa
  cases s.nfas[x]? <;> rfl

theorem keptStates_eq (s : Session) (x : NfaId) :
    s.keptStates x = (s.nfas[x]?.map NfaObject.states).join := by
  unfold keptStates
  cases s.nfas[x]? <;> rfl

theorem keptFinals_eq (s : Session) (x : NfaId) :
    s.keptFinals x = (s.nfas[x]?.map NfaObject.finals).join := by
  unfold keptFinals
  cases s.nfas[x]? <;> rfl

/-- What a change of one record keeps is the same of all records. -/
theorem map_getElem?_modify {α β : Type} {a : Array α} {i j : Nat} {f : α → α} {p : α → β}
    (h : ∀ o, p (f o) = p o) : (a.modify i f)[j]?.map p = a[j]?.map p := by
  rw [Array.getElem?_modify]
  by_cases hij : i = j
  · rw [if_pos hij, Option.map_map]
    exact congrArg (fun q => a[j]?.map q) (funext h)
  · rw [if_neg hij]

/-- A session in which the record of an automaton is changed. -/
def alter (s : Session) (x : NfaId) (f : NfaObject → NfaObject) : Session :=
  { s with nfas := s.nfas.modify x f }

section alter

variable {f : NfaObject → NfaObject} (s : Session) (x y : NfaId)

theorem nfa_alter (h : ∀ o, (f o).handle = o.handle) : (s.alter x f).nfa y = s.nfa y := by
  rw [nfa_eq, nfa_eq]
  exact congrArg (fun o => Option.getD o _) (map_getElem?_modify h)

theorem keptStates_alter (h : ∀ o, (f o).states = o.states) :
    (s.alter x f).keptStates y = s.keptStates y := by
  rw [keptStates_eq, keptStates_eq]
  exact congrArg Option.join (map_getElem?_modify h)

theorem keptFinals_alter (h : ∀ o, (f o).finals = o.finals) :
    (s.alter x f).keptFinals y = s.keptFinals y := by
  rw [keptFinals_eq, keptFinals_eq]
  exact congrArg Option.join (map_getElem?_modify h)

end alter

theorem nfa_addNfa (s : Session) (n : Nfa) : (s.addNfa n).2.nfa s.nfas.size = n := by
  simp [addNfa, nfa]

theorem size_nfas_addNfa (s : Session) (n : Nfa) : (s.addNfa n).2.nfas.size = s.nfas.size + 1 :=
  Array.size_push _

theorem dfa_addDfa (s : Session) (d : Dfa) : (s.addDfa d).2.dfa s.dfas.size = d := by
  simp [addDfa, dfa]

/-! ## Keeping states -/

/-- Keeping the states of an automaton does not change the automaton. -/
theorem nfa_viewStates (s : Session) (x y : NfaId) : (s.viewStates x).2.nfa y = s.nfa y := by
  unfold viewStates
  split
  · rfl
  · exact nfa_alter s x y fun _ => rfl

theorem keptFinals_viewStates (s : Session) (x y : NfaId) :
    (s.viewStates x).2.keptFinals y = s.keptFinals y := by
  unfold viewStates
  split
  · rfl
  · exact keptFinals_alter s x y fun _ => rfl

theorem size_nfas_viewStates (s : Session) (x : NfaId) :
    (s.viewStates x).2.nfas.size = s.nfas.size := by
  unfold viewStates
  split
  · rfl
  · exact Array.size_modify

theorem graph_viewStates (s : Session) (x : NfaId) : (s.viewStates x).2.graph = s.graph := by
  unfold viewStates
  split <;> rfl

theorem cells_viewStates (s : Session) (x : NfaId) : (s.viewStates x).2.cells = s.cells := by
  unfold viewStates
  split <;> rfl

theorem dfas_viewStates (s : Session) (x : NfaId) : (s.viewStates x).2.dfas = s.dfas := by
  unfold viewStates
  split <;> rfl

theorem builders_viewStates (s : Session) (x : NfaId) :
    (s.viewStates x).2.builders = s.builders := by
  unfold viewStates
  split <;> rfl

/-- The states that are kept of an automaton, if any, are those that it reaches now. -/
def UpToDate (s : Session) (x : NfaId) : Prop :=
  ∀ states ∈ s.keptStates x, states = s.graph.reachable (s.nfa x).initial

theorem upToDate_of_unkept {s : Session} {x : NfaId} (h : s.keptStates x = none) :
    s.UpToDate x := by
  intro states kept
  rw [h] at kept
  cases kept

theorem viewStates_fst {s : Session} {x : NfaId} (h : s.UpToDate x) :
    (s.viewStates x).1 = s.graph.reachable (s.nfa x).initial := by
  unfold viewStates
  split
  · next states kept => exact h states kept
  · rfl

/-- Asking for the states of an automaton keeps those, and no others. -/
theorem keptStates_viewStates (s : Session) (x y : NfaId) :
    (s.viewStates x).2.keptStates y = s.keptStates y ∨
      x = y ∧ s.keptStates y = none ∧
        (s.viewStates x).2.keptStates y = some (s.graph.reachable (s.nfa y).initial) := by
  unfold viewStates
  split
  · exact Or.inl rfl
  · next unkept =>
    unfold keptStates at unkept ⊢
    simp only [Array.getElem?_modify]
    by_cases hxy : x = y
    · subst hxy
      rw [if_pos rfl]
      cases there : s.nfas[x]? with
      | none => exact Or.inl rfl
      | some o => exact Or.inr ⟨rfl, by rw [there] at unkept; exact unkept, rfl⟩
    · rw [if_neg hxy]
      exact Or.inl rfl

theorem upToDate_viewStates {s : Session} {y : NfaId} (h : s.UpToDate y) (x : NfaId) :
    (s.viewStates x).2.UpToDate y := by
  intro states kept
  rw [graph_viewStates, nfa_viewStates]
  rcases keptStates_viewStates s x y with same | ⟨-, -, now⟩
  · exact h states (same ▸ kept)
  · exact (Option.some.inj (now.symm.trans kept)).symm

/-! ## Keeping accepting states -/

/-- A session in which the accepting states of an automaton are kept. -/
def keepFinals (s : Session) (x : NfaId) (finals : StateSet) : Session :=
  s.alter x fun o => { o with finals := some finals }

theorem nfa_keepFinals (s : Session) (x y : NfaId) (finals : StateSet) :
    (s.keepFinals x finals).nfa y = s.nfa y := nfa_alter s x y fun _ => rfl

theorem keptFinals_keepFinals (s : Session) (x y : NfaId) (finals : StateSet) :
    (s.keepFinals x finals).keptFinals y = s.keptFinals y ∨
      x = y ∧ (s.keepFinals x finals).keptFinals y = some finals := by
  simp only [keptFinals, keepFinals, alter, Array.getElem?_modify]
  by_cases hxy : x = y
  · subst hxy
    rw [if_pos rfl]
    cases s.nfas[x]? with
    | none => exact Or.inl rfl
    | some o => exact Or.inr ⟨rfl, rfl⟩
  · rw [if_neg hxy]
    exact Or.inl rfl

/-- The accepting ones among the states that an automaton reaches. -/
def finalsNow (s : Session) (x : NfaId) : StateSet :=
  .ofList ((s.graph.reachable (s.nfa x).initial).filter s.graph.accepting)

/-- What is kept of an automaton, if anything, is what would be found now. -/
structure Faithful (s : Session) (x : NfaId) : Prop where
  states : s.UpToDate x
  finals : ∀ finals ∈ s.keptFinals x, finals = s.finalsNow x

theorem finalsNow_eq {s t : Session} {x : NfaId} (graph : t.graph = s.graph)
    (nfa : t.nfa x = s.nfa x) : t.finalsNow x = s.finalsNow x := by
  rw [finalsNow, graph, nfa, finalsNow]

/-- The accepting states of an automaton are found among its states, which are kept first. -/
theorem viewFinals_of_unkept {s : Session} {x : NfaId} (h : s.keptFinals x = none) :
    s.viewFinals x = (.ofList ((s.viewStates x).1.filter s.graph.accepting),
      (s.viewStates x).2.keepFinals x (.ofList ((s.viewStates x).1.filter s.graph.accepting))) := by
  unfold viewFinals
  rw [h, ← graph_viewStates s x]
  rfl

/-- Asking for the accepting states changes nothing, or keeps these after the states. -/
theorem viewFinals_snd (s : Session) (x : NfaId) : (s.viewFinals x).2 = s ∨
    ∃ finals, (s.viewFinals x).2 = (s.viewStates x).2.keepFinals x finals := by
  cases unkept : s.keptFinals x with
  | some finals =>
    unfold viewFinals
    rw [unkept]
    exact Or.inl rfl
  | none =>
    rw [viewFinals_of_unkept unkept]
    exact Or.inr ⟨_, rfl⟩

theorem nfa_viewFinals (s : Session) (x y : NfaId) : (s.viewFinals x).2.nfa y = s.nfa y := by
  rcases viewFinals_snd s x with same | ⟨finals, same⟩
  · rw [same]
  · rw [same, nfa_keepFinals, nfa_viewStates]

theorem graph_viewFinals (s : Session) (x : NfaId) : (s.viewFinals x).2.graph = s.graph := by
  rcases viewFinals_snd s x with same | ⟨finals, same⟩ <;> rw [same]
  exact graph_viewStates s x

theorem builders_viewFinals (s : Session) (x : NfaId) :
    (s.viewFinals x).2.builders = s.builders := by
  rcases viewFinals_snd s x with same | ⟨finals, same⟩ <;> rw [same]
  exact builders_viewStates s x

theorem size_nfas_viewFinals (s : Session) (x : NfaId) :
    (s.viewFinals x).2.nfas.size = s.nfas.size := by
  rcases viewFinals_snd s x with same | ⟨finals, same⟩ <;> rw [same]
  exact Array.size_modify.trans (size_nfas_viewStates s x)

theorem viewFinals_fst {s : Session} {x : NfaId} (h : s.Faithful x) :
    (s.viewFinals x).1 = s.finalsNow x := by
  cases kept : s.keptFinals x with
  | some finals =>
    unfold viewFinals
    rw [kept]
    exact h.finals finals kept
  | none =>
    rw [viewFinals_of_unkept kept, viewStates_fst h.states]
    rfl

theorem faithful_viewStates {s : Session} {y : NfaId} (h : s.Faithful y) (x : NfaId) :
    (s.viewStates x).2.Faithful y where
  states := upToDate_viewStates h.states x
  finals finals kept := by
    rw [keptFinals_viewStates] at kept
    rw [finalsNow_eq (graph_viewStates s x) (nfa_viewStates s x y)]
    exact h.finals finals kept

/-- What is kept must be what would be found, if it is kept of the automaton in question. -/
theorem faithful_keepFinals {s : Session} {x y : NfaId} {finals : StateSet} (h : s.Faithful y)
    (now : x = y → finals = s.finalsNow y) : (s.keepFinals x finals).Faithful y := by
  have graph : (s.keepFinals x finals).graph = s.graph := rfl
  have nfa := nfa_keepFinals s x y finals
  have states : (s.keepFinals x finals).keptStates y = s.keptStates y :=
    keptStates_alter s x y fun _ => rfl
  refine ⟨fun found kept => ?_, fun found kept => ?_⟩
  · rw [nfa]
    exact h.states found (states ▸ kept)
  · rw [finalsNow_eq graph nfa]
    rcases keptFinals_keepFinals s x y finals with same | ⟨hxy, new⟩
    · exact h.finals found (same ▸ kept)
    · rw [← now hxy]
      exact (Option.some.inj (new.symm.trans kept)).symm

theorem faithful_viewFinals {s : Session} {y : NfaId} (h : s.Faithful y) (x : NfaId) :
    (s.viewFinals x).2.Faithful y := by
  cases unkept : s.keptFinals x with
  | some finals =>
    unfold viewFinals
    rw [unkept]
    exact h
  | none =>
    rw [viewFinals_of_unkept unkept]
    refine faithful_keepFinals (faithful_viewStates h x) ?_
    rintro rfl
    rw [finalsNow_eq (graph_viewStates s x) (nfa_viewStates s x x), viewStates_fst h.states]
    rfl

/-! ## Keeping final sets -/

theorem graph_viewFinalSets (s : Session) (x : DfaId) :
    (s.viewFinalSets x).2.graph = s.graph := by
  unfold viewFinalSets
  split <;> rfl

theorem cells_viewFinalSets (s : Session) (x : DfaId) :
    (s.viewFinalSets x).2.cells = s.cells := by
  unfold viewFinalSets
  split <;> rfl

theorem nfas_viewFinalSets (s : Session) (x : DfaId) : (s.viewFinalSets x).2.nfas = s.nfas := by
  unfold viewFinalSets
  split <;> rfl

/-! ## New automata -/

/-- A new automaton is announced under the next name; the graph is not touched. -/
theorem announce_eq (s : Session) (n : Nfa) (tokens : Text) :
    (s.announce n tokens).1.answer = .ok (.value (.nfa s.nfas.size)) ∧
      (s.announce n tokens).2.graph = s.graph ∧
      (s.announce n tokens).2.nfa s.nfas.size = n := by
  obtain ⟨graph, cells, nfas, dfas, builders, logging⟩ := s
  have added := nfa_addNfa ⟨graph, cells, nfas, dfas, builders, logging⟩ n
  cases logging with
  | false => exact ⟨rfl, rfl, added⟩
  | true => exact ⟨rfl, graph_viewStates _ _, (nfa_viewStates _ _ _).trans added⟩

theorem builders_announce (s : Session) (n : Nfa) (tokens : Text) :
    (s.announce n tokens).2.builders = s.builders := by
  obtain ⟨graph, cells, nfas, dfas, builders, logging⟩ := s
  cases logging with
  | false => rfl
  | true => exact builders_viewStates _ _

/-- Nothing is kept yet of a new automaton. -/
theorem faithful_addNfa (s : Session) (n : Nfa) : (s.addNfa n).2.Faithful s.nfas.size := by
  refine ⟨fun states kept => ?_, fun finals kept => ?_⟩
  · simp [keptStates, addNfa] at kept
  · simp [keptFinals, addNfa] at kept

theorem faithful_announce (s : Session) (n : Nfa) (tokens : Text) :
    (s.announce n tokens).2.Faithful s.nfas.size := by
  have new := faithful_addNfa s n
  obtain ⟨graph, cells, nfas, dfas, builders, logging⟩ := s
  cases logging with
  | false => exact new
  | true => exact faithful_viewStates new _

theorem size_nfas_announce (s : Session) (n : Nfa) (tokens : Text) :
    (s.announce n tokens).2.nfas.size = s.nfas.size + 1 := by
  have added := size_nfas_addNfa s n
  obtain ⟨graph, cells, nfas, dfas, builders, logging⟩ := s
  cases logging with
  | false => exact added
  | true => exact (size_nfas_viewStates _ _).trans added

/-- Only a command whose objects are there is answered. -/
theorem perform_of_ok {s : Session} {c : Command} {a : Answer}
    (answered : (s.perform c).1.answer = .ok a) :
    c.mentions.all s.has = true ∧ s.perform c = s.execute c := by
  unfold perform at answered ⊢
  split at answered
  · next there => exact ⟨there, if_pos there⟩
  · cases answered

/-- A question about an automaton of the session is answered. -/
theorem perform_view {s : Session} {x : NfaId} {v : View} (about : v.mentions = [.nfa x])
    (hx : x < s.nfas.size) : (s.perform (.view v)).1.answer = .ok (v.look s).1 := by
  have there : (Command.view v).mentions.all s.has = true := by
    show v.mentions.all s.has = true
    rw [about]
    simpa [has] using hx
  unfold perform
  rw [if_pos there]
  rfl

theorem perform_determinize {s : Session} {x : NfaId} (hx : x < s.nfas.size)
    (alphabet : Option (List Label)) :
    s.perform (.determinize x alphabet) = s.determinize x alphabet :=
  if_pos (by simpa [Command.mentions, has] using hx)

end Session

end FiniteAutomata
