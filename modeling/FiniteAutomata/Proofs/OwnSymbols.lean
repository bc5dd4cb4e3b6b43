/-
  FiniteAutomata.Proofs.OwnSymbols

  Conversion over the symbols that an automaton has of its own. A path reads only labels of
  edges whose source it passes, so every symbol of an accepted word stands on an edge of a
  reached state (`Path.exists_edge`); over all these symbols nothing is lost
  (`Subset.accepts_determinize_own`), also where the two automata turn away a foreign symbol
  in ways of their own.

  The symbols are looked for among the states that are kept. These are the reached ones as
  long as no edge was added to a state that was reached at the first reading
  (`upToDate_of_undisturbed`); afterwards symbols may be missing, and the deterministic
  automaton accepts less.
-/
import FiniteAutomata.Proofs.FirstReading
import FiniteAutomata.Proofs.Simulation

namespace FiniteAutomata

/-- Each label of a word that is read stands on an edge of a state that is reached. -/
theorem Graph.Path.exists_edge {g : Graph} {p r : StateId} {w : Word} (path : g.Path p w r)
    {l : Label} (hl : l ∈ w) : ∃ q d, g.Reaches p q ∧ ⟨l, d⟩ ∈ g.edges q := by
  induction path with
  | nil => cases hl
  | silent he _ ih =>
    obtain ⟨q, d, hq, hd⟩ := ih hl
    exact ⟨q, d, ((Reaches.refl g _).step he).trans hq, hd⟩
  | read he _ ih =>
    rcases List.mem_cons.mp hl with rfl | hl
    · exact ⟨_, _, .refl g _, he⟩
    · obtain ⟨q, d, hq, hd⟩ := ih hl
      exact ⟨q, d, ((Reaches.refl g _).step he).trans hq, hd⟩

namespace Nfa

variable {n : Nfa} {g : Graph}

/-- An automaton accepts no symbol but its own. -/
theorem offered_of_accepts {w : List Text} (accepted : n.accepts g (Word.ofTexts w) = true) :
    ∀ l ∈ Word.ofTexts w, Subset.Offered (symbolsOf g (g.reachable n.initial)) l := by
  intro l hl
  obtain ⟨t, -, rfl⟩ := List.mem_map.mp hl
  obtain ⟨_, path, -⟩ := accepts_iff_path.mp accepted
  exact ⟨t, mem_symbolsOf_reachable.mpr (path.exists_edge hl), rfl⟩

end Nfa

/-- Over all its own symbols, an automaton made deterministic accepts what it accepted. -/
theorem Subset.accepts_determinize_own (n : Nfa) (g : Graph) (cells : Cells) (w : List Text) :
    (determinize n g (Nfa.symbolsOf g (g.reachable n.initial)) cells).1.accepts
        (determinize n g (Nfa.symbolsOf g (g.reachable n.initial)) cells).2 (Word.ofTexts w) =
      n.accepts g (Word.ofTexts w) := by
  rw [Bool.eq_iff_iff, accepts_determinize]
  exact and_iff_right_of_imp Nfa.offered_of_accepts

namespace Session

variable {s : Session} {x : NfaId}

/-- Whenever in a run the states of an automaton are read for the first time, none of those
    that it reaches then is given a further edge. -/
def Undisturbed (s : Session) (commands : List Command) (x : NfaId) : Prop :=
  ∀ before c later, commands = before ++ c :: later → Never (Command.ReadsStates x) s before →
    c.ReadsStates x (s.performAll before) →
    let r := ((s.performAll before).perform c).2
    ∀ q, r.graph.Reaches (r.nfa x).initial q →
      (s.performAll commands).graph.edges q = r.graph.edges q

section First

variable {reads : Session → Command → Prop} {before later : List Command} {c : Command}

theorem not_reads_of_never (never : Never reads s (before ++ c :: later)) :
    ¬ reads (s.performAll before) c := by
  induction before generalizing s with
  | nil => exact never.1
  | cons d before ih => exact ih never.2

/-- A part of a run without commands of a kind does not go beyond the first of them. -/
theorem prefix_of_never {before' rest' : List Command}
    (same : before ++ c :: later = before' ++ rest') (found : reads (s.performAll before) c)
    (never : Never reads s before') : before' <+: before := by
  obtain ⟨more, rfl, rest⟩ | ⟨more, rfl, -⟩ := List.append_eq_append_iff.mp same
  · cases more with
    | nil => rw [List.append_nil]
    | cons d more =>
      obtain ⟨rfl, -⟩ := List.cons.inj rest
      exact absurd found (not_reads_of_never never)
  · exact List.prefix_append before' more

/-- Only one command of a run is the first of its kind. -/
theorem first_unique {before' later' : List Command} {c' : Command}
    (same : before ++ c :: later = before' ++ c' :: later')
    (never : Never reads s before) (found : reads (s.performAll before) c)
    (never' : Never reads s before') (found' : reads (s.performAll before') c') :
    before = before' ∧ c = c' := by
  have beginnings : before = before' :=
    (prefix_of_never same.symm found' never).eq_of_length_le
      (prefix_of_never same found never').length_le
  subst beginnings
  exact ⟨rfl, (List.cons.inj (List.append_cancel_left same)).1⟩

end First

/-- Only what becomes of the edges after the first reading matters. -/
theorem undisturbed_of_first {before later : List Command} {c : Command}
    (never : Never (Command.ReadsStates x) s before)
    (reads : c.ReadsStates x (s.performAll before))
    (same : ∀ q, ((s.performAll before).perform c).2.graph.Reaches
        (((s.performAll before).perform c).2.nfa x).initial q →
      (s.performAll (before ++ c :: later)).graph.edges q =
        ((s.performAll before).perform c).2.graph.edges q) :
    s.Undisturbed (before ++ c :: later) x := by
  intro before' c' later' split never' reads'
  obtain ⟨rfl, rfl⟩ := first_unique split never reads never' reads'
  exact same

/-- The states that are kept of an undisturbed automaton are those that it reaches. -/
theorem upToDate_of_undisturbed (h : s.Coherent) (unkept : s.keptStates x = none)
    {commands : List Command} (undisturbed : s.Undisturbed commands x) :
    (s.performAll commands).UpToDate x := by
  rcases never_or_exists_first (Command.ReadsStates x) s commands with
    never | ⟨before, c, later, rfl, never, reads⟩
  · exact upToDate_of_unkept (keptStates_of_never h unkept never)
  · have same := undisturbed before c later rfl never reads
    have coherent := coherent_performAll h before
    have step := keeps_perform coherent c
    have unread := keptStates_of_never h unkept never
    have kept := step.read x unread reads
    have hx := lt_of_keptStates kept
    have initial := ((step.coherent coherent).ends x hx).1
    have ext := extendsTo_performAll (step.coherent coherent) later
    have whole : s.performAll (before ++ c :: later) =
        ((s.performAll before).perform c).2.performAll later := performAll_append s before _
    rw [whole] at same ⊢
    intro states now
    rw [ext.states x _ kept] at now
    -- the same edges and numbers, so the same listing
    rw [← Option.some.inj now, ext.nfa x hx]
    exact (Graph.reachable_of_edges same fun q hq => ext.graph.num q (hq.lt_size initial)).symm

/-- What an automaton accepts that was made deterministic over its own symbols. -/
theorem accepts_determinize_none (s : Session) (x : NfaId) (w : Word) :
    (s.determinize x none).2.accepts (.dfa s.dfas.size) w =
      (Subset.determinize (s.nfa x) s.graph (s.alphabetFor x none).1 s.cells).1.accepts
        (Subset.determinize (s.nfa x) s.graph (s.alphabetFor x none).1 s.cells).2 w := by
  obtain ⟨-, cells, dfa, -, -⟩ := determinize_over s x none
  rw [accepts, dfa, cells]

/-- After any run, an automaton whose states were given no further edges since their first
    reading names just the symbols on edges of states that it reaches, and made deterministic
    without a given alphabet it accepts the same words of symbols, known to it or not. Whether
    edges were added or not, it then accepts no word that it did not accept before. -/
theorem own_symbols (logging : Bool) (commands : List Command) (x : NfaId) :
    let s := (fresh logging).performAll commands
    x < s.nfas.size →
      ∃ y, (s.perform (.determinize x none)).1.answer = .ok (.value (.dfa y)) ∧
        ((fresh logging).Undisturbed commands x →
          (∃ labels, (s.perform (.view (.symbols x))).1.answer = .ok (.texts labels) ∧
            ∀ l, l ∈ labels ↔
              ∃ q d, s.graph.Reaches (s.nfa x).initial q ∧ ⟨.text l, d⟩ ∈ s.graph.edges q) ∧
          ∀ w : List Text, (s.perform (.determinize x none)).2.accepts (.dfa y) (Word.ofTexts w) =
            s.accepts (.nfa x) (Word.ofTexts w)) ∧
        ∀ w : Word, (s.perform (.determinize x none)).2.accepts (.dfa y) w = true →
          s.accepts (.nfa x) w = true := by
  intro s hx
  rw [perform_determinize hx]
  refine ⟨s.dfas.size, (determinize_over s x none).1, fun undisturbed => ?_, fun w accepted => ?_⟩
  · have upToDate : s.UpToDate x :=
      upToDate_of_undisturbed (coherent_fresh logging) rfl undisturbed
    refine ⟨⟨(Nfa.symbolsOf s.graph (s.graph.reachable (s.nfa x).initial)).toList, ?_, fun l => ?_⟩,
      fun w => ?_⟩
    · rw [perform_view rfl hx, ← viewStates_fst upToDate, ← graph_viewStates s x]
      rfl
    · rw [SortedSet.mem_toList, Nfa.mem_symbolsOf_reachable]
    · rw [accepts_determinize_none, alphabetFor_none upToDate]
      exact Subset.accepts_determinize_own _ _ _ w
  · rw [accepts_determinize_none] at accepted
    exact (Subset.accepts_determinize.mp accepted).2

/-- The states are read when the edge for one symbol is there. Later, state 2 is given an edge to a
    state that was reached, but it is not reached itself. -/
theorem own_symbols_edge :
    let before : List Command := [.make (.state 0 false), .make (.state 1 true),
      .change (.edge 0 (.text ['a', 'b']) 1), .make (.nfa 0 1)]
    let later : List Command := [.make (.state 2 true), .change (.edge 2 (.text ['c']) 1)]
    let commands := before ++ .view (.states 0) :: later
    let s := (fresh true).performAll commands
    (∃ states, s.keptStates 0 = some states) ∧ (fresh true).Undisturbed commands 0 ∧
      ∃ y labels, (s.perform (.view (.symbols 0))).1.answer = .ok (.texts labels) ∧
        ['a', 'b'] ∈ labels ∧ ['c'] ∉ labels ∧
        (s.perform (.determinize 0 none)).2.accepts (.dfa y) [.text ['a', 'b']] = true := by
  intro before later commands s
  let r := (((fresh true).performAll before).perform (.view (.states 0))).2
  have never : Never (Command.ReadsStates 0) (fresh true) before := ⟨id, id, id, id, trivial⟩
  have reads : (Command.view (.states 0)).ReadsStates 0 ((fresh true).performAll before) :=
    ⟨rfl, Nat.zero_lt_one⟩
  obtain ⟨-, kept⟩ := keptStates_of_first (coherent_performAll (coherent_fresh true) before)
    (keptStates_of_never (coherent_fresh true) rfl never) reads later
  have r0 : r.graph.edges 0 = [⟨.text ['a', 'b'], 1⟩] := rfl
  have r1 : r.graph.edges 1 = [] := rfl
  have s0 : s.graph.edges 0 = [⟨.text ['a', 'b'], 1⟩] := rfl
  have s1 : s.graph.edges 1 = [] := rfl
  -- with these edges, states 0 and 1 are all that is reached
  have two : ∀ g : Graph, g.edges 0 = [⟨.text ['a', 'b'], 1⟩] → g.edges 1 = [] →
      ∀ q, g.Reaches 0 q → q = 0 ∨ q = 1 := by
    intro g zero one q reached
    refine reached.induct (M := fun q => q = 0 ∨ q = 1) (Or.inl rfl) ?_
    rintro p d l - (rfl | rfl) he
    · rw [zero, List.mem_singleton] at he
      exact Or.inr (congrArg Edge.dest he)
    · rw [one] at he
      cases he
  have undisturbed : (fresh true).Undisturbed commands 0 := by
    refine undisturbed_of_first never reads fun q reached => ?_
    rcases two r.graph r0 r1 q reached with rfl | rfl
    · exact s0.trans r0.symm
    · exact s1.trans r1.symm
  obtain ⟨y, -, alike, -⟩ := own_symbols true commands 0 Nat.zero_lt_one
  obtain ⟨⟨labels, answer, members⟩, accepts⟩ := alike undisturbed
  have edge : ⟨.text ['a', 'b'], 1⟩ ∈ s.graph.edges 0 := s0 ▸ List.mem_singleton_self _
  refine ⟨⟨_, kept⟩, undisturbed, y, labels, answer, (members _).mpr ⟨0, 1, .refl _ _, edge⟩, ?_, ?_⟩
  · intro foreign
    obtain ⟨q, d, reached, he⟩ := (members _).mp foreign
    rcases two s.graph s0 s1 q reached with rfl | rfl
    · rw [s0, List.mem_singleton] at he
      cases he
    · rw [s1] at he
      cases he
  · exact (accepts [['a', 'b']]).trans (Nfa.accepts_iff_path.mpr ⟨1, .read edge (.nil 1), rfl⟩)

end Session

end FiniteAutomata
