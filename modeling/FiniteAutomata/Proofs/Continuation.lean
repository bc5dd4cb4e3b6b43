/-
  FiniteAutomata.Proofs.Continuation

  What is live can still be accepted. From every state of a compiled automaton there is a
  way to the final state, and all that is read on it are operands of the pattern. So a live
  set is empty just if the text read so far cannot be continued to an accepted one, and the
  same holds of the dead cell of the deterministic automaton when its alphabet has all the
  operands (`compile_continues`).

  The two sides are kept apart: `Subset.Hopeful` says of live sets what is needed for cells,
  and `Nfa.Trim.hopeful` shows it of automata that Thompson's rules have built.
-/
import FiniteAutomata.Proofs.Census
import FiniteAutomata.Proofs.Compiled
import FiniteAutomata.Proofs.Shape

namespace FiniteAutomata

theorem Word.ofTexts_append (u v : List Text) :
    Word.ofTexts (u ++ v) = Word.ofTexts u ++ Word.ofTexts v := List.map_append

namespace Graph

variable {g : Graph} {p q s : StateId} {P : Char → Prop}

/-- All symbols that can be read from a state on are single letters of one kind. -/
def Spells (g : Graph) (s : StateId) (P : Char → Prop) : Prop :=
  ∀ q, g.Reaches s q → ∀ t d, ⟨.text t, d⟩ ∈ g.edges q → ∃ x, P x ∧ t = [x]

/-- Where letters are read, a way through the graph reads a text. -/
theorem Spells.exists_path (spells : g.Spells s P) (hp : g.Reaches s p) (k : g.Reaches p q) :
    ∃ v : Text, (∀ x ∈ v, P x) ∧ g.Path p (Word.ofText v) q := by
  refine k.induct (M := fun q => ∃ v : Text, (∀ x ∈ v, P x) ∧ g.Path p (Word.ofText v) q)
    ⟨[], by simp, .nil p⟩ ?_
  rintro m d l hm ⟨v, letters, path⟩ he
  cases l with
  | epsilon =>
    have silent := path.append (.silent he (.nil d))
    rw [List.append_nil] at silent
    exact ⟨v, letters, silent⟩
  | text t =>
    obtain ⟨x, hx, rfl⟩ := spells m (hp.trans hm) t d he
    have read := path.append (.read he (.nil d))
    refine ⟨v ++ [x], by simpa [or_imp, forall_and] using ⟨letters, hx⟩, ?_⟩
    simpa [Word.ofText] using read

end Graph

/-! ## Live sets -/

namespace Nfa.Trim

variable {n : Nfa} {g : Graph} {P : Char → Prop}

/-- From a live set that is not empty, some text leads to acceptance. -/
theorem exists_isFinal_run (hn : n.Trim g) (spells : g.Spells n.initial P) {u : Word}
    (live : (g.run (n.start g) u).isEmpty = false) :
    ∃ v : Text, (∀ x ∈ v, P x) ∧
      g.isFinal (g.run (n.start g) (u ++ Word.ofText v)) = true := by
  obtain ⟨q, hq⟩ := SortedSet.isEmpty_eq_false_iff.mp live
  obtain ⟨i, hi, path⟩ := Graph.mem_run.mp hq
  obtain rfl : i = n.initial := by simpa using hi
  have reached : g.Reaches n.initial q := (Graph.Reaches.refl g _).path path
  obtain ⟨v, letters, rest⟩ := spells.exists_path reached (hn.reaches_final q reached)
  refine ⟨v, letters, ?_⟩
  rw [← Nfa.accepts_eq_isFinal, Nfa.accepts_iff_path]
  exact ⟨n.final, path.append rest, hn.clean.final_accepting⟩

/-- The live set is not empty just if what was read begins an accepted text. -/
theorem not_isEmpty_iff (hn : n.Trim g) (spells : g.Spells n.initial P) (u : Text) :
    (g.run (n.start g) (Word.ofText u)).isEmpty = false ↔
      ∃ w, u <+: w ∧ n.accepts g (Word.ofText w) = true := by
  have joined : ∀ v, Word.ofText (u ++ v) = Word.ofText u ++ Word.ofText v := fun v =>
    List.map_append
  constructor
  · intro live
    obtain ⟨v, -, final⟩ := hn.exists_isFinal_run spells live
    refine ⟨u ++ v, List.prefix_append u v, ?_⟩
    rw [joined, Nfa.accepts_eq_isFinal]
    exact final
  · rintro ⟨w, ⟨v, rfl⟩, accepted⟩
    -- an empty live set stays empty, and does not accept
    by_contra dead
    rw [Bool.not_eq_false] at dead
    have stuck := Graph.isFinal_run_of_isEmpty dead (g := g) (Word.ofText v)
    rw [joined, Nfa.accepts_eq_isFinal, Graph.run, List.foldl_append] at accepted
    exact absurd (accepted.symm.trans stuck) Bool.noConfusion

end Nfa.Trim

/-! ## Cells -/

theorem Dfa.of_deadState? {d : Dfa} {cells : Cells} {c : CellId}
    (found : d.deadState? cells = some c) : c ∈ d.states ∧ (cells.get c).isDead = true := by
  unfold Dfa.deadState? at found
  have dead := List.find?_some found
  exact ⟨List.mem_of_find?_eq_some found, dead⟩

namespace Subset

variable {n : Nfa} {g : Graph} {alphabet : SortedSet Text} {cells : Cells}

/-- From every live set that is not empty, some word over the alphabet leads to acceptance. -/
def Hopeful (n : Nfa) (g : Graph) (alphabet : SortedSet Text) : Prop :=
  ∀ live ∈ liveSets g alphabet (n.start g), live.isEmpty = false →
    ∃ v : List Text, (∀ t ∈ v, t ∈ alphabet) ∧ g.isFinal (g.run live (Word.ofTexts v)) = true

theorem offered_of_mem {u : List Text} (hu : ∀ t ∈ u, t ∈ alphabet) :
    ∀ l ∈ Word.ofTexts u, Offered alphabet l := by
  intro l hl
  obtain ⟨t, ht, rfl⟩ := List.mem_map.mp hl
  exact ⟨t, hu t ht, rfl⟩

/-- Where nothing is hopeless, the empty set is the only one that does not lead on. -/
theorem Hopeful.isEmpty_iff (hope : Hopeful n g alphabet) {live : StateSet}
    (hl : live ∈ liveSets g alphabet (n.start g)) :
    live.isEmpty = true ↔
      ∀ v : List Text, (∀ t ∈ v, t ∈ alphabet) → g.isFinal (g.run live (Word.ofTexts v)) = false := by
  constructor
  · exact fun dead v _ => Graph.isFinal_run_of_isEmpty dead _
  · intro stuck
    by_contra live'
    rw [Bool.not_eq_true] at live'
    obtain ⟨v, hv, final⟩ := hope live hl live'
    exact absurd (final.symm.trans (stuck v hv)) Bool.noConfusion

/-- A cell of the automaton is the dead one just if it stands for no state. -/
theorem deadState?_eq_some_iff {c : CellId} (hc : c ∈ (determinize n g alphabet cells).1.states) :
    (determinize n g alphabet cells).1.deadState? (determinize n g alphabet cells).2 = some c ↔
      ((determinize n g alphabet cells).2.get c).isDead = true := by
  constructor
  · exact fun found => (Dfa.of_deadState? found).2
  · intro dead
    -- the search finds some dead cell, and there is only one
    have some : (determinize n g alphabet cells).1.deadState? (determinize n g alphabet cells).2 ≠
        none := fun none => List.find?_eq_none.mp none c hc dead
    obtain ⟨e, found⟩ := Option.ne_none_iff_exists'.mp some
    obtain ⟨there, dead'⟩ := Dfa.of_deadState? found
    rw [found, ((shape_determinize n g alphabet cells).dead c hc dead).2.2 e there dead']

/-- A word over the alphabet leads to the dead cell just if no continuation is accepted. -/
theorem Hopeful.run_deadState?_iff (hope : Hopeful n g alphabet) {u : List Text}
    (hu : ∀ t ∈ u, t ∈ alphabet) :
    ∃ c, ((determinize n g alphabet cells).1.machine (determinize n g alphabet cells).2).run
        (determinize n g alphabet cells).1.initial (Word.ofTexts u) = some c ∧
      ((determinize n g alphabet cells).1.deadState? (determinize n g alphabet cells).2 = some c ↔
        ∀ v : List Text, (∀ t ∈ v, t ∈ alphabet) → (determinize n g alphabet cells).1.accepts
          (determinize n g alphabet cells).2 (Word.ofTexts (u ++ v)) = false) := by
  obtain ⟨walk, found⟩ := run_placeOf cells
    (determinize n g alphabet cells).1.initial (start_mem_liveSets n g alphabet) (offered_of_mem hu)
  rw [← initial_eq_placeOf] at walk
  refine ⟨_, walk, ?_⟩
  rw [deadState?_eq_some_iff (placeOf_mem_states found), isDead_placeOf cells found]
  refine (hope.isEmpty_iff found).trans (forall₂_congr fun v hv => ?_)
  have within : ∀ t ∈ u ++ v, t ∈ alphabet := by
    simpa [or_imp, forall_and] using ⟨hu, hv⟩
  have accepts := @accepts_determinize n g alphabet cells (Word.ofTexts (u ++ v))
  rw [and_iff_right (offered_of_mem within), Nfa.accepts_eq_isFinal, Word.ofTexts_append,
    Graph.run, List.foldl_append, ← Bool.eq_iff_iff] at accepts
  rw [Word.ofTexts_append, accepts]
  rfl

/-- There is no dead cell just if every cell leads to an accepting one. -/
theorem Hopeful.deadState?_eq_none_iff (hope : Hopeful n g alphabet) :
    (determinize n g alphabet cells).1.deadState? (determinize n g alphabet cells).2 = none ↔
      ∀ c ∈ (determinize n g alphabet cells).1.states, ∃ v : List Text, (∀ t ∈ v, t ∈ alphabet) ∧
        ∃ e, ((determinize n g alphabet cells).1.machine (determinize n g alphabet cells).2).run c
            (Word.ofTexts v) = some e ∧
          ((determinize n g alphabet cells).2.get e).accepting = true := by
  rw [Dfa.deadState?, List.find?_eq_none]
  refine forall₂_congr fun c hc => ?_
  obtain ⟨live, hl, rfl, -⟩ := exists_of_mem_states hc
  -- the walk from the cell of a live set, and what it says about acceptance
  have walk : ∀ v : List Text, (∀ t ∈ v, t ∈ alphabet) →
      ((determinize n g alphabet cells).1.machine (determinize n g alphabet cells).2).run
          (placeOf n g alphabet cells live) (Word.ofTexts v) =
        some (placeOf n g alphabet cells (g.run live (Word.ofTexts v))) ∧
      ((determinize n g alphabet cells).2.get
        (placeOf n g alphabet cells (g.run live (Word.ofTexts v)))).accepting =
          g.isFinal (g.run live (Word.ofTexts v)) := by
    intro v hv
    obtain ⟨run, found⟩ := run_placeOf cells (determinize n g alphabet cells).1.initial hl
      (offered_of_mem hv)
    exact ⟨run, accepting_placeOf cells found⟩
  rw [isDead_placeOf cells hl, hope.isEmpty_iff hl]
  constructor
  · intro some
    by_contra none
    refine some fun v hv => ?_
    rw [Bool.eq_false_iff]
    intro final
    exact none ⟨v, hv, _, (walk v hv).1, (walk v hv).2.trans final⟩
  · rintro ⟨v, hv, e, run, accepting⟩ stuck
    rw [(walk v hv).1, Option.some_inj] at run
    rw [← run, (walk v hv).2, stuck v hv] at accepting
    cases accepting

end Subset

theorem Nfa.Trim.hopeful {n : Nfa} {g : Graph} {P : Char → Prop} {alphabet : SortedSet Text}
    (hn : n.Trim g) (spells : g.Spells n.initial P) (letters : ∀ x, P x → [x] ∈ alphabet) :
    Subset.Hopeful n g alphabet := by
  intro live hl nonempty
  obtain ⟨u, within, rfl⟩ := Subset.mem_liveSets_iff_access.mp hl
  obtain ⟨v, hv, final⟩ := hn.exists_isFinal_run spells nonempty
  refine ⟨v.map fun x => [x], ?_, ?_⟩
  · simpa using fun x hx => letters x (hv x hx)
  · rw [Graph.run, List.foldl_append, Word.ofText_eq] at final
    exact final

/-! ## Compiled patterns -/

namespace Assembly

variable {tokens : List Token} {n : Nfa} {c d : Site}

/-- The symbols of an automaton are the operands among its tokens. -/
theorem symbol_iff_of_assemble (ok : assemble tokens c = (.ok n, d)) {t : Text} :
    (∃ q dest, d.graph.Reaches n.initial q ∧ ⟨.text t, dest⟩ ∈ d.graph.edges q) ↔
      ∃ x, .operand x ∈ tokens ∧ t = [x] := by
  have labels := (labels_of_assemble ok).mem_iff (a := .text t)
  have edge : .text t ∈ ((d.graph.reachable n.initial).flatMap d.graph.edges).map Edge.label ↔
      ∃ q dest, d.graph.Reaches n.initial q ∧ ⟨.text t, dest⟩ ∈ d.graph.edges q := by
    simp only [List.mem_map, List.mem_flatMap, Graph.mem_reachable]
    constructor
    · rintro ⟨⟨l, dest⟩, ⟨q, hq, he⟩, rfl⟩
      exact ⟨q, dest, hq, he⟩
    · rintro ⟨q, dest, hq, he⟩
      exact ⟨_, ⟨q, hq, he⟩, rfl⟩
  rw [← edge, labels, List.mem_flatMap]
  constructor
  · rintro ⟨u, hu, ht⟩
    match u with
    | .operand x => exact ⟨x, hu, by simpa [Token.edgeLabels] using ht⟩
    | .op (.unary _) | .op (.binary .union) => simp [Token.edgeLabels] at ht
    | .op (.binary .concat) | .lparen | .rparen => simp [Token.edgeLabels] at ht
  · rintro ⟨x, hx, rfl⟩
    exact ⟨_, hx, by simp [Token.edgeLabels]⟩

end Assembly

namespace Session

variable {s : Session} {pattern : Text}

/-- Only a pattern whose postfix form makes an automaton is answered. -/
theorem exists_of_compile {a : Answer} (answered : (s.compile pattern).1.answer = .ok a) :
    ∃ out n c, Pattern.toPostfix (Token.ofText pattern) = .ok out ∧
      Assembly.assemble out ⟨s.graph, 0⟩ = (.ok n, c) := by
  match arranged : Pattern.toPostfix (Token.ofText pattern) with
  | .error i =>
    rw [compile_of_imbalance arranged] at answered
    cases answered
  | .ok out =>
    match built : Assembly.assemble out ⟨s.graph, 0⟩ with
    | (.ok n, c) => exact ⟨out, n, c, rfl, built⟩
    | (.error f, c) =>
      rw [compile_of_error arranged (by rw [built])] at answered
      cases answered

theorem upToDate_compile {out : List Token} {n : Nfa} {c : Site}
    (h : Pattern.toPostfix (Token.ofText pattern) = .ok out)
    (ok : Assembly.assemble out ⟨s.graph, 0⟩ = (.ok n, c)) :
    (s.compile pattern).2.UpToDate s.nfas.size := by
  have read := Pattern.ofText_toText_of_toPostfix h
  unfold compile arrange assemble
  simp only [h, read, Option.map_none, Option.getD_none, ok]
  exact (faithful_announce (s.takeOver none c) n (Token.toText out)).states

/-- A compiled automaton is made deterministic over all operands, be it that the alphabet that
    is given has them or that none is given. -/
theorem mem_alphabetFor_of_compile {out : List Token} {n : Nfa} {c : Site} {x : Char}
    {alphabet : Option (List Label)} (arranged : Pattern.toPostfix (Token.ofText pattern) = .ok out)
    (built : Assembly.assemble out ⟨s.graph, 0⟩ = (.ok n, c))
    (operands : ∀ given ∈ alphabet, ∀ c ∈ pattern, (Token.ofChar c).isOperand = true →
      .text [c] ∈ given) (hx : .operand x ∈ out) :
    [x] ∈ ((s.compile pattern).2.alphabetFor s.nfas.size alphabet).1 := by
  cases alphabet with
  | some given =>
    obtain ⟨there, operand⟩ := (Pattern.operand_mem_toPostfix arranged x).mp hx
    exact Subset.mem_symbols.mpr (operands given rfl x there operand)
  | none =>
    obtain ⟨-, graph, nfa⟩ := compile_of_ok arranged built
    obtain ⟨q, dest, hq, he⟩ := (Assembly.symbol_iff_of_assemble built).mpr ⟨x, hx, rfl⟩
    rw [alphabetFor_none (upToDate_compile arranged built), graph, nfa]
    exact Nfa.mem_symbolsOf_reachable.mpr ⟨q, dest, hq, he⟩

/-- What is live in a compiled automaton can be continued. The live set after a text is empty
    just if no accepted text begins with it. Made deterministic over an alphabet with all the
    operands of the pattern, or over the symbols of the automaton itself, the automaton is at
    its dead cell just if no continuation over the alphabet is accepted; so it has no dead cell
    just if every cell leads to an accepting one. -/
theorem compile_continues (s : Session) (pattern : Text) {a : Answer}
    (answered : (s.compile pattern).1.answer = .ok a) :
    ∃ x t, a = .value (.nfa x) ∧ t = (s.compile pattern).2 ∧
      (∀ u : Text, (t.graph.run ((t.nfa x).start t.graph) (Word.ofText u)).isEmpty = false ↔
        ∃ w, u <+: w ∧ t.accepts (.nfa x) (Word.ofText w) = true) ∧
      ∀ alphabet : Option (List Label),
        (∀ given ∈ alphabet, ∀ c ∈ pattern, (Token.ofChar c).isOperand = true →
          .text [c] ∈ given) →
        ∃ y r d, (t.determinize x alphabet).1.answer = .ok (.value (.dfa y)) ∧
          r = (t.determinize x alphabet).2 ∧ d = r.dfa y ∧
          (∀ given ∈ alphabet, ∀ l, l ∈ d.alphabet ↔ .text l ∈ given) ∧
          (∀ u : List Text, (∀ l ∈ u, l ∈ d.alphabet) →
            ∃ c, (d.machine r.cells).run d.initial (Word.ofTexts u) = some c ∧
              (d.deadState? r.cells = some c ↔
                ∀ v : List Text, (∀ l ∈ v, l ∈ d.alphabet) →
                  r.accepts (.dfa y) (Word.ofTexts (u ++ v)) = false)) ∧
          (d.deadState? r.cells = none ↔
            ∀ c ∈ d.states, ∃ v : List Text, (∀ l ∈ v, l ∈ d.alphabet) ∧
              ∃ e, (d.machine r.cells).run c (Word.ofTexts v) = some e ∧
                (r.cells.get e).accepting = true) := by
  obtain ⟨out, n, c, arranged, built⟩ := exists_of_compile answered
  obtain ⟨answer, graph, nfa⟩ := compile_of_ok arranged built
  obtain ⟨trim, -, -⟩ := Assembly.stock_of_assemble built
  have symbols := @Assembly.symbol_iff_of_assemble out n _ c built
  have spells : c.graph.Spells n.initial fun x => .operand x ∈ out := fun q hq t dest he =>
    symbols.mp ⟨q, dest, hq, he⟩
  refine ⟨s.nfas.size, _, Except.ok.inj (answered.symm.trans answer), rfl, fun u => ?_,
    fun alphabet operands => ?_⟩
  · show _ ↔ ∃ w, u <+: w ∧ Nfa.accepts _ _ _ = true
    rw [graph, nfa]
    exact trim.not_isEmpty_iff spells u
  · obtain ⟨done, cells, dfa, -, -⟩ :=
      determinize_over (s.compile pattern).2 s.nfas.size alphabet
    have letters := fun x hx => mem_alphabetFor_of_compile arranged built operands (x := x) hx
    have hope := trim.hopeful spells letters
    rw [← graph, ← nfa] at hope
    refine ⟨_, _, _, done, rfl, rfl, ?_, ?_, ?_⟩
    · rintro given rfl l
      rw [dfa]
      exact Subset.mem_symbols
    · intro u hu
      rw [dfa] at hu
      show ∃ c, _ ∧ (_ ↔ ∀ v : List Text, _ → Dfa.accepts _ _ _ = false)
      rw [dfa, cells]
      exact hope.run_deadState?_iff hu
    · rw [dfa, cells]
      exact hope.deadState?_eq_none_iff

theorem compile_continues_choice :
    let t := ((fresh false).compile "a|bc".toList).2
    let r := (t.determinize 0 (some [.text ['a'], .text ['b'], .text ['c']])).2
    (∀ u : Text, (t.graph.run ((t.nfa 0).start t.graph) (Word.ofText u)).isEmpty = false ↔
      ∃ w, u <+: w ∧ t.accepts (.nfa 0) (Word.ofText w) = true) ∧
    ∃ y c, ((r.dfa y).machine r.cells).run (r.dfa y).initial (Word.ofTexts [['b']]) = some c ∧
      ((r.dfa y).deadState? r.cells = some c ↔ ∀ v : List Text, (∀ l ∈ v, l ∈ (r.dfa y).alphabet) →
        r.accepts (.dfa y) (Word.ofTexts ([['b']] ++ v)) = false) := by
  intro t r
  have answered : ((fresh false).compile "a|bc".toList).1.answer = .ok (.value (.nfa 0)) := by rfl
  have operands : ∀ c ∈ ['a', '|', 'b', 'c'], (Token.ofChar c).isOperand = true →
      .text [c] ∈ [Label.text ['a'], .text ['b'], .text ['c']] := by
    simp [Token.ofChar, Token.isOperand]
  obtain ⟨x, t', same, rfl, live, dead⟩ := compile_continues (fresh false) "a|bc".toList answered
  cases same
  obtain ⟨y, r', d, -, rfl, rfl, alphabet, cells, -⟩ :=
    dead (some [.text ['a'], .text ['b'], .text ['c']]) fun given same =>
      Option.some.inj same ▸ operands
  refine ⟨live, y, cells [['b']] fun l hl => ?_⟩
  exact (alphabet _ rfl l).mpr (by simp [List.mem_singleton.mp hl])

end Session

end FiniteAutomata
