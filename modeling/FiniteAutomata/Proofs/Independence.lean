/-
  FiniteAutomata.Proofs.Independence

  Builds do not interfere with one another. An automaton that is built, from tokens or from a
  pattern, has exactly the states that were added for it (`Built`), and these come behind all
  that were there, those of builds that broke off included. What comes later leaves them
  alone, as long as it is sparing (`PersistsIn`); so no two automata that are built share a
  state, and each stays what it was (`builds_independent`).

  A builder that is used again numbers the new states from its counter on, and the counter
  has not gone back.
-/
import FiniteAutomata.Proofs.Census
import FiniteAutomata.Proofs.Compiled
import FiniteAutomata.Proofs.Persistence

namespace FiniteAutomata

/-- Whether a command builds an automaton, from tokens in postfix order or from a pattern. -/
def Command.isBuild : Command → Bool
  | .assemble .. | .compile _ => true
  | _ => false

namespace Session

/-- Between two sessions, an automaton was built of new states. -/
structure Built (s t : Session) (x : NfaId) : Prop where
  there : x < t.nfas.size
  faithful : t.Faithful x
  states : ∀ q, t.graph.Reaches (t.nfa x).initial q ↔ s.graph.size ≤ q ∧ q < t.graph.size
  final : t.graph.Reaches (t.nfa x).initial (t.nfa x).final

variable {s t u : Session} {x y : NfaId}

namespace Built

theorem initial_lt (h : Built s t x) : (t.nfa x).initial < t.graph.size :=
  ((h.states _).mp (.refl _ _)).2

theorem final_lt (h : Built s t x) : (t.nfa x).final < t.graph.size :=
  ((h.states _).mp h.final).2

/-- What was built later has other states. -/
theorem apart {s' t' : Session} (h : Built s t x) (between : t.PersistsIn s')
    (h' : Built s' t' y) (k : t.PersistsIn u) (k' : t'.PersistsIn u) (q : StateId) :
    ¬ (u.graph.Reaches (u.nfa x).initial q ∧ u.graph.Reaches (u.nfa y).initial q) := by
  rintro ⟨hx, hy⟩
  rw [k.nfa x h.there, k.reaches_iff h.initial_lt, h.states] at hx
  rw [k'.nfa y h'.there, k'.reaches_iff h'.initial_lt, h'.states] at hy
  exact absurd (Nat.lt_of_lt_of_le hx.2 between.size_le) (Nat.not_lt.mpr hy.1)

end Built

/-! ## What a build makes -/

theorem built_assemble {tokens : Text} {b : Option BuilderId} {a : Answer}
    (answered : (s.assemble tokens b).1.answer = .ok a) :
    ∃ x, a = .value (.nfa x) ∧ Built s (s.assemble tokens b).2 x := by
  obtain ⟨n, c, ok⟩ := exists_of_assemble answered
  obtain ⟨answer, graph, nfa⟩ := assemble_of_ok ok
  obtain ⟨trim, states, -⟩ := Assembly.stock_of_assemble ok
  have announced : s.assemble tokens b = (s.takeOver b c).announce n tokens := by
    unfold assemble
    simp only [ok]
  refine ⟨_, Except.ok.inj (answered.symm.trans answer), ?_, ?_, ?_, ?_⟩
  · rw [announced, size_nfas_announce]
    exact Nat.lt_succ_self _
  · rw [announced]
    exact faithful_announce _ n tokens
  · rw [graph, nfa]
    exact states
  · rw [graph, nfa]
    exact trim.final_reached

/-- A pattern in postfix order is built as its tokens are, with a new builder. -/
theorem compile_eq_assemble {pattern : Text} {out : List Token}
    (h : Pattern.toPostfix (Token.ofText pattern) = .ok out) :
    (s.compile pattern).1.answer = (s.assemble (Token.toText out) none).1.answer ∧
      (s.compile pattern).2 = (s.assemble (Token.toText out) none).2 := by
  unfold compile arrange
  rw [h]
  exact ⟨rfl, rfl⟩

theorem built_perform {c : Command} (build : c.isBuild = true) {a : Answer}
    (answered : (s.perform c).1.answer = .ok a) :
    ∃ x, a = .value (.nfa x) ∧ Built s (s.perform c).2 x := by
  obtain ⟨-, performed⟩ := perform_of_ok answered
  rw [performed] at answered ⊢
  cases c with
  | assemble tokens b => exact built_assemble answered
  | compile pattern =>
    match arranged : Pattern.toPostfix (Token.ofText pattern) with
    | .error i =>
      have refused := (compile_of_imbalance (s := s) arranged).symm.trans answered
      cases refused
    | .ok out =>
      obtain ⟨answer, same⟩ := @compile_eq_assemble s pattern out arranged
      show ∃ x, _ ∧ Built s (s.compile pattern).2 x
      rw [same]
      exact built_assemble (answer.symm.trans answered)
  | make _ | change _ | ask _ | view _ | arrange _ | determinize _ _ => cases build

/-- A builder numbers the states of an automaton from its counter on, which moves behind them. -/
theorem numbers_perform {tokens : Text} {b : BuilderId}
    (answered : (s.perform (.assemble tokens (some b))).1.answer = .ok (.value (.nfa x))) :
    ∃ m, ((s.perform (.assemble tokens (some b))).2.graph.reachable
        ((s.perform (.assemble tokens (some b))).2.nfa x).initial).map
          (s.perform (.assemble tokens (some b))).2.graph.num =
        (List.range' (s.counter b) m).map (fun i : Nat => (i : Int)) ∧
      (s.perform (.assemble tokens (some b))).2.counter b = s.counter b + m := by
  obtain ⟨there, performed⟩ := perform_of_ok answered
  have executed : s.perform (.assemble tokens (some b)) = s.assemble tokens (some b) := performed
  have known : b < s.builders.size := by simpa [Command.mentions, has] using there
  rw [executed] at answered ⊢
  obtain ⟨n, c, ok⟩ := exists_of_assemble answered
  obtain ⟨answer, graph, nfa⟩ := assemble_of_ok ok
  cases Except.ok.inj (answered.symm.trans answer)
  have result : Assembly.assemble (Token.ofText tokens) ⟨s.graph, s.counter b⟩ = (.ok n, c) := ok
  refine ⟨c.graph.size - s.graph.size, ?_, ?_⟩
  · rw [graph, nfa]
    exact Assembly.numbers_of_assemble ok
  · have grows := (Assembly.run_of_assemble result).grows
    have size := grows.size
    rw [counter_assemble known, result, grows.counter]
    show s.counter b + _ = s.counter b + (c.graph.size - s.graph.size)
    rw [size, Nat.add_sub_cancel_left]

/-! ## All builds of a session -/

/-- What is built stays apart, and stays what it is. Let a session build an automaton and then
    carry out any sparing commands, answered or refused. The automaton has the states that it
    had, with the edges, accepting marks and numbers that they had, accepts the same words,
    and all questions about it have the answers that they had at once. Another build among
    the later commands gives an automaton without common states; and if the two were given
    the same builder, their numbers form two intervals, the later one behind the other. -/
theorem builds_independent (s : Session) {c : Command} (build : c.isBuild = true) {a : Answer}
    (answered : (s.perform c).1.answer = .ok a) {later : List Command}
    (sparing : ∀ d ∈ later, d.spares = true) :
    ∃ x r t, a = .value (.nfa x) ∧ r = (s.perform c).2 ∧ t = r.performAll later ∧
      t.nfa x = r.nfa x ∧
      (∀ q, t.graph.Reaches (t.nfa x).initial q ↔ r.graph.Reaches (r.nfa x).initial q) ∧
      (∀ q, r.graph.Reaches (r.nfa x).initial q → t.graph.edges q = r.graph.edges q ∧
        t.graph.accepting q = r.graph.accepting q ∧ t.graph.num q = r.graph.num q) ∧
      (∀ w, t.accepts (.nfa x) w = r.accepts (.nfa x) w) ∧
      (∀ v : View, v.mentions = [.nfa x] →
        (t.perform (.view v)).1.answer = (r.perform (.view v)).1.answer) ∧
      ∀ mid d rest, later = mid ++ d :: rest → d.isBuild = true → ∀ a',
        ((r.performAll mid).perform d).1.answer = .ok a' → ∃ y, a' = .value (.nfa y) ∧
          (∀ q, ¬ (t.graph.Reaches (t.nfa x).initial q ∧ t.graph.Reaches (t.nfa y).initial q)) ∧
          ∀ b u v, c = .assemble u (some b) → d = .assemble v (some b) →
            ∃ k m k' m' : Nat, k + m ≤ k' ∧
              (t.graph.reachable (t.nfa x).initial).map t.graph.num =
                (List.range' k m).map (fun i : Nat => (i : Int)) ∧
              (t.graph.reachable (t.nfa y).initial).map t.graph.num =
                (List.range' k' m').map (fun i : Nat => (i : Int)) := by
  obtain ⟨x, rfl, built⟩ := built_perform build answered
  have all := persistsIn_performAll (s.perform c).2 sparing
  refine ⟨x, _, _, rfl, rfl, rfl, all.nfa x built.there, fun q => ?_, fun q hq => ?_,
    all.accepts built.there built.initial_lt built.final_lt, fun v about => ?_, ?_⟩
  · rw [all.nfa x built.there]
    exact all.reaches_iff built.initial_lt
  · have lt := hq.lt_size built.initial_lt
    exact ⟨(all.same q lt).1, (all.same q lt).2, all.num q lt⟩
  · rw [perform_view about (Nat.lt_of_lt_of_le built.there all.nfas_le),
      perform_view about built.there,
      all.look built.there built.initial_lt built.final_lt built.faithful about]
  · rintro mid d rest rfl build' a' answered'
    obtain ⟨y, rfl, built'⟩ := built_perform build' answered'
    have between := persistsIn_performAll (s.perform c).2 fun e he =>
      sparing e (List.mem_append_left _ he)
    have after := persistsIn_performAll (((s.perform c).2.performAll mid).perform d).2 fun e he =>
      sparing e (List.mem_append_right mid (List.mem_cons_of_mem d he))
    have last : (s.perform c).2.performAll (mid ++ d :: rest) =
        (((s.perform c).2.performAll mid).perform d).2.performAll rest := performAll_append _ _ _
    rw [last] at all ⊢
    refine ⟨y, rfl, built.apart between built' all after, ?_⟩
    rintro b u v rfl rfl
    obtain ⟨m, numbers, counter⟩ := numbers_perform answered
    obtain ⟨m', numbers', -⟩ := numbers_perform answered'
    refine ⟨s.counter b, m, ((s.perform (.assemble u (some b))).2.performAll mid).counter b, m',
      ?_, ?_, ?_⟩
    · exact counter ▸ between.counter_le b
    · rw [all.nfa x built.there, all.numbers built.initial_lt, numbers]
    · rw [after.nfa y built'.there, after.numbers built'.initial_lt, numbers']

theorem builds_independent_shared :
    ∃ s r t : Session, ∃ mid : List Command, s = { fresh false with builders := #[0] } ∧
      r = (s.perform (.assemble "ab·".toList (some 0))).2 ∧
      mid = [.assemble "a·".toList (some 0), .compile "a|b".toList,
        .ask (.accepts (.nfa 0) [.text ['a']])] ∧
      t = r.performAll (mid ++ .assemble "a*".toList (some 0) :: [.view (.triples 0)]) ∧
      ((r.performAll mid).perform (.assemble "a*".toList (some 0))).1.answer =
        .ok (.value (.nfa 2)) ∧
      (∀ q, ¬ (t.graph.Reaches (t.nfa 0).initial q ∧ t.graph.Reaches (t.nfa 2).initial q)) ∧
      (t.perform (.view (.triples 0))).1.answer = (r.perform (.view (.triples 0))).1.answer := by
  obtain ⟨s, hs⟩ : ∃ s : Session, s = { fresh false with builders := #[0] } := ⟨_, rfl⟩
  obtain ⟨mid, hmid⟩ : ∃ mid : List Command, mid = [.assemble "a·".toList (some 0),
    .compile "a|b".toList, .ask (.accepts (.nfa 0) [.text ['a']])] := ⟨_, rfl⟩
  have first : (s.perform (.assemble "ab·".toList (some 0))).1.answer = .ok (.value (.nfa 0)) := by
    subst hs
    rfl
  have second : (((s.perform (.assemble "ab·".toList (some 0))).2.performAll mid).perform
      (.assemble "a*".toList (some 0))).1.answer = .ok (.value (.nfa 2)) := by
    subst hs hmid
    rfl
  have sparing : ∀ d ∈ mid ++ .assemble "a*".toList (some 0) :: [.view (.triples 0)],
      d.spares = true := by
    subst hmid
    simp [Command.spares]
  obtain ⟨x, r, t, same, hr, ht, -, -, -, -, views, others⟩ :=
    builds_independent s rfl first sparing
  cases same
  obtain ⟨y, same, apart, -⟩ := others mid _ _ rfl rfl _ (hr ▸ second)
  cases same
  exact ⟨s, r, t, mid, hs, hr, hmid, ht, hr ▸ second, apart, views (.triples 0) rfl⟩

end Session

end FiniteAutomata
