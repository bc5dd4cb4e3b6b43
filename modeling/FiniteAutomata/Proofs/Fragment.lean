/-
  FiniteAutomata.Proofs.Fragment

  Automata as parts of a larger graph. The words between two states form a language, and
  `between_le` bounds it by any labelling of the states with languages that every edge
  respects. An automaton is clean when its final state accepts and no other state that it
  reaches does: then it accepts the words between its two ends.

  Two graphs that agree where an automaton lives make the same automaton of it
  (`accepts_of_sameOn`), so automata that hold no state in common do not disturb each other.
-/
import FiniteAutomata.Proofs.Path
import Mathlib.Computability.Language
import Mathlib.Order.CompletePartialOrder

namespace FiniteAutomata

/-- A word of symbols. -/
def Word.ofTexts (w : List Text) : Word := w.map .text

theorem Word.ofText_eq (t : Text) : Word.ofText t = Word.ofTexts (t.map fun c => [c]) := by
  simp [Word.ofText, Word.ofTexts]

namespace Graph

variable {g h : Graph}

/-! ## Words between two states -/

/-- The words of symbols that lead from one state to another. -/
def between (g : Graph) (p q : StateId) : Language Text := {w | g.Path p (Word.ofTexts w) q}

theorem mem_between {p q : StateId} {w : List Text} :
    w ∈ g.between p q ↔ g.Path p (Word.ofTexts w) q := Iff.rfl

/-- Edges join states of the graph. -/
theorem lt_of_mem_edges {q : StateId} {e : Edge} (he : e ∈ g.edges q) :
    q < g.size ∧ e.dest < g.size := by
  refine ⟨?_, dest_lt he⟩
  by_contra hlt
  rw [edges_of_size_le (Nat.le_of_not_lt hlt)] at he
  cases he

theorem one_le_iff {α : Type} {L : Language α} : 1 ≤ L ↔ [] ∈ L := by
  constructor
  · exact fun hL => hL rfl
  · rintro hL w rfl
    exact hL

theorem one_le_between_self (p : StateId) : 1 ≤ g.between p p := one_le_iff.mpr (.nil p)

theorem one_le_between {p q : StateId} (he : ⟨.epsilon, q⟩ ∈ g.edges p) : 1 ≤ g.between p q :=
  one_le_iff.mpr (.silent he (.nil q))

theorem between_mul_le {p q r : StateId} : g.between p q * g.between q r ≤ g.between p r := by
  rintro w ⟨u, hu, v, hv, rfl⟩
  have huv := Path.append hu hv
  rwa [Word.ofTexts, Word.ofTexts, ← List.map_append] at huv

/-- An empty move in front of a walk. -/
theorem between_le_of_silent {p d r : StateId} (he : ⟨.epsilon, d⟩ ∈ g.edges p) :
    g.between d r ≤ g.between p r :=
  fun _ hw => .silent he hw

/-- An empty move behind a walk. -/
theorem between_le_silent {p q d : StateId} (he : ⟨.epsilon, d⟩ ∈ g.edges q) :
    g.between p q ≤ g.between p d := by
  intro w hw
  have hwd := Path.append hw (.silent he (.nil d))
  rwa [List.append_nil] at hwd

/-- A symbol in front of a walk. -/
theorem read_mul_between_le {p d r : StateId} {t : Text} (he : ⟨.text t, d⟩ ∈ g.edges p) :
    {[t]} * g.between d r ≤ g.between p r := by
  rintro w ⟨u, hu, v, hv, rfl⟩
  rw [Set.mem_singleton_iff.mp hu]
  exact .read he hv

theorem Path.mono (sub : ∀ q, ∀ e ∈ g.edges q, e ∈ h.edges q) {p r : StateId} {w : Word}
    (k : g.Path p w r) : h.Path p w r := by
  induction k with
  | nil q => exact .nil q
  | silent he _ ih => exact .silent (sub _ _ he) ih
  | read he _ ih => exact .read (sub _ _ he) ih

theorem Reaches.mono (sub : ∀ q, ∀ e ∈ g.edges q, e ∈ h.edges q) {p r : StateId}
    (k : g.Reaches p r) : h.Reaches p r :=
  k.induct (.refl h p) fun _ ih he => ih.step (sub _ _ he)

/-- A walk that goes nowhere is no walk. -/
theorem between_eq_zero {p q : StateId} (k : ¬ g.Reaches p q) : g.between p q = 0 := by
  ext w
  rw [mem_between]
  exact iff_of_false (fun hp => k ((Reaches.refl g p).path hp)) (Language.notMem_zero w)

/-- An empty move in front of a walk that goes on with words of a language. -/
theorem between_mul_le_of_silent {p d r : StateId} (he : ⟨.epsilon, d⟩ ∈ g.edges p)
    (K : Language Text) : g.between d r * K ≤ g.between p r * K :=
  mul_le_mul_left (between_le_of_silent he) K

/-- A symbol in front of a walk that goes on with words of a language. -/
theorem read_mul_between_mul_le {p d r : StateId} {t : Text} (he : ⟨.text t, d⟩ ∈ g.edges p)
    (K : Language Text) : {[t]} * (g.between d r * K) ≤ g.between p r * K := by
  rw [← mul_assoc]
  exact mul_le_mul_left (read_mul_between_le he) K

/-- More edges, more words. -/
theorem between_mono (sub : ∀ q, ∀ e ∈ g.edges q, e ∈ h.edges q) (p r : StateId) :
    g.between p r ≤ h.between p r :=
  fun _ hw => Path.mono sub hw

/-- A labelling of the states with languages that every edge respects bounds the words that
    lead to a state whose language has the empty word. -/
theorem between_le {M : StateId → Language Text} {r : StateId} (done : 1 ≤ M r)
    (silent : ∀ q d, ⟨.epsilon, d⟩ ∈ g.edges q → M d ≤ M q)
    (read : ∀ q d t, ⟨.text t, d⟩ ∈ g.edges q → {[t]} * M d ≤ M q) (p : StateId) :
    g.between p r ≤ M p := by
  intro w hw
  have hp := mem_between.mp hw
  clear hw
  generalize hv : Word.ofTexts w = v at hp
  induction hp generalizing w with
  | nil =>
    rw [List.map_eq_nil_iff.mp hv]
    exact one_le_iff.mp done
  | silent he _ ih => exact silent _ _ he (ih done hv)
  | read he _ ih =>
    -- a word of symbols reads no empty move, so the label is a text
    obtain ⟨t, u, rfl, rfl, hu⟩ := List.map_eq_cons_iff.mp hv
    exact read _ _ _ he (Language.append_mem_mul (Set.mem_singleton _) (ih done hu))

/-! ## Agreement on a part of the graph -/

/-- Two graphs have the same edges and accepting marks at some states. -/
def SameOn (g h : Graph) (part : StateId → Prop) : Prop :=
  ∀ q, part q → h.edges q = g.edges q ∧ h.accepting q = g.accepting q

theorem SameOn.symm {part : StateId → Prop} (same : SameOn g h part) : SameOn h g part :=
  fun q hq => ⟨(same q hq).1.symm, (same q hq).2.symm⟩

/-- What is reached in one graph is reached in the other, if they agree on it. -/
theorem Reaches.of_sameOn {s q : StateId} (same : SameOn g h (g.Reaches s))
    (k : g.Reaches s q) : h.Reaches s q := by
  refine k.induct (Reaches.refl h s) fun {p d l} hp ih he => ?_
  rw [← (same p hp).1] at he
  exact ih.step he

/-- Two graphs that agree on what one of them reaches reach the same. -/
theorem reaches_iff_of_sameOn {s q : StateId} (same : SameOn g h (g.Reaches s)) :
    h.Reaches s q ↔ g.Reaches s q := by
  constructor
  · intro k
    refine k.induct (Reaches.refl g s) fun {p d l} _ ih he => ?_
    rw [(same p ih).1] at he
    exact ih.step he
  · exact Reaches.of_sameOn same

theorem Path.of_sameOn {s p r : StateId} {w : Word} (same : SameOn g h (g.Reaches s))
    (hs : g.Reaches s p) (k : g.Path p w r) : h.Path p w r := by
  induction k with
  | nil q => exact .nil q
  | silent he _ ih =>
    refine .silent ?_ (ih (hs.step he))
    rwa [(same _ hs).1]
  | read he _ ih =>
    refine .read ?_ (ih (hs.step he))
    rwa [(same _ hs).1]

end Graph

namespace Nfa

variable {g h : Graph} {n m : Nfa}

/-! ## Clean automata -/

/-- The words of symbols that an automaton accepts. -/
def language (n : Nfa) (g : Graph) : Language Text := {w | n.accepts g (Word.ofTexts w) = true}

/-- The final state accepts, and no other state of the automaton does. -/
structure Clean (n : Nfa) (g : Graph) : Prop where
  initial_lt : n.initial < g.size
  final_accepting : g.accepting n.final = true
  only_final : ∀ q, g.Reaches n.initial q → g.accepting q = true → q = n.final

/-- A clean automaton accepts the words between its ends. -/
theorem Clean.language_eq (hn : n.Clean g) : n.language g = g.between n.initial n.final := by
  ext w
  show n.accepts g (Word.ofTexts w) = true ↔ _
  rw [accepts_iff_path]
  constructor
  · rintro ⟨q, hp, ha⟩
    have hq : g.Reaches n.initial q := (Graph.Reaches.refl g _).path hp
    rw [hn.only_final q hq ha] at hp
    exact hp
  · exact fun hp => ⟨n.final, hp, hn.final_accepting⟩

/-- The states of an automaton: all that it reaches, and its final one. -/
def Holds (n : Nfa) (g : Graph) (q : StateId) : Prop := g.Reaches n.initial q ∨ q = n.final

/-- Two automata without a common state. -/
def Apart (g : Graph) (n m : Nfa) : Prop := ∀ q, n.Holds g q → ¬ m.Holds g q

theorem Apart.symm (k : Apart g n m) : Apart g m n := fun q hm hn => k q hn hm

theorem Clean.final_lt (hn : n.Clean g) : n.final < g.size := by
  by_contra hlt
  have ha := Graph.accepting_of_size_le (Nat.le_of_not_lt hlt)
  rw [hn.final_accepting] at ha
  cases ha

theorem Clean.lt_size (hn : n.Clean g) {q : StateId} (hq : n.Holds g q) : q < g.size := by
  rcases hq with hq | rfl
  · exact hq.lt_size hn.initial_lt
  · exact hn.final_lt

/-! ## Undisturbed automata -/

theorem holds_iff_of_sameOn (same : Graph.SameOn g h (n.Holds g)) {q : StateId} :
    n.Holds h q ↔ n.Holds g q := by
  unfold Holds
  rw [Graph.reaches_iff_of_sameOn fun p hp => same p (Or.inl hp)]

/-- An automaton whose states are left alone accepts the same words as before. -/
theorem accepts_of_sameOn (same : Graph.SameOn g h (n.Holds g)) (w : Word) :
    n.accepts h w = n.accepts g w := by
  have sameg : Graph.SameOn g h (g.Reaches n.initial) := fun p hp => same p (Or.inl hp)
  have sameh : Graph.SameOn h g (h.Reaches n.initial) :=
    fun p hp => (sameg.symm p) ((Graph.reaches_iff_of_sameOn sameg).mp hp)
  rw [Bool.eq_iff_iff, accepts_iff_path, accepts_iff_path]
  constructor
  · rintro ⟨q, hp, ha⟩
    have hpg := hp.of_sameOn sameh (Graph.Reaches.refl h _)
    rw [(sameg q ((Graph.Reaches.refl g _).path hpg)).2] at ha
    exact ⟨q, hpg, ha⟩
  · rintro ⟨q, hp, ha⟩
    rw [← (sameg q ((Graph.Reaches.refl g _).path hp)).2] at ha
    exact ⟨q, hp.of_sameOn sameg (Graph.Reaches.refl g _), ha⟩

theorem language_of_sameOn (same : Graph.SameOn g h (n.Holds g)) :
    n.language h = n.language g := by
  ext w
  show n.accepts h _ = true ↔ n.accepts g _ = true
  rw [accepts_of_sameOn same]

theorem Clean.of_sameOn (hn : n.Clean g) (size : g.size ≤ h.size)
    (same : Graph.SameOn g h (n.Holds g)) : n.Clean h where
  initial_lt := Nat.lt_of_lt_of_le hn.initial_lt size
  final_accepting := by rw [(same _ (Or.inr rfl)).2]; exact hn.final_accepting
  only_final q hq ha := by
    rw [Graph.reaches_iff_of_sameOn fun p hp => same p (Or.inl hp)] at hq
    rw [(same q (Or.inl hq)).2] at ha
    exact hn.only_final q hq ha

end Nfa

end FiniteAutomata
