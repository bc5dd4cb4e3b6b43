/-
  FiniteAutomata.Proofs.Isomorphism

  The places and numbers of states, the order of edges and their repetitions do not matter.
  Two automata are isomorphic when the states that they reach correspond one to one, with
  the same start, accepting marks and edges (`Nfa.Iso`); nothing is asked of numbers, of the
  order of edges, or of how often an edge is there.

  Isomorphic automata go through corresponding live sets (`Iso.run_image`). So they accept
  the same words and list the same texts, and the search for live sets finds corresponding
  ones in the same order (`Worklist.explore_map`): made deterministic, they have the same
  cells in the same places (`Subset.Alike`). `isomorphic_alike` puts this together for
  automata of any two sessions.
-/
import FiniteAutomata.Proofs.Composition
import FiniteAutomata.Proofs.Listing
import Mathlib.Data.Set.Function

namespace FiniteAutomata

/-! ## Searches that correspond -/

namespace Worklist

variable {α β : Type} [DecidableEq α] [DecidableEq β] {f : α → β}

/-- Renaming the values does not change which of them are new. -/
theorem fresh_map {seen l : List α} (inj : Set.InjOn f {a | a ∈ seen ∨ a ∈ l}) :
    fresh (seen.map f) (l.map f) = (fresh seen l).map f := by
  induction l generalizing seen with
  | nil => rfl
  | cons a rest ih =>
    have old : f a ∈ seen.map f ↔ a ∈ seen := by
      constructor
      · intro h
        obtain ⟨b, hb, same⟩ := List.mem_map.mp h
        have hab : b = a := inj (Or.inl hb) (Or.inr List.mem_cons_self) same
        exact hab ▸ hb
      · exact List.mem_map_of_mem
    simp only [List.map_cons, fresh, old]
    split
    · refine ih (inj.mono ?_)
      rintro b (hb | hb)
      · exact Or.inl hb
      · exact Or.inr (List.mem_cons_of_mem a hb)
    · rw [← List.map_cons, ih (inj.mono ?_), List.map_cons]
      rintro b (hb | hb)
      · rcases List.mem_cons.mp hb with rfl | hb
        · exact Or.inr List.mem_cons_self
        · exact Or.inl hb
      · exact Or.inr (List.mem_cons_of_mem a hb)

variable {succ : α → List α} {succ' : β → List β} {h : Bounded succ} {h' : Bounded succ'}
  {start : List α}

/-- Searches of graphs that correspond visit corresponding values in the same order. -/
theorem visits_map (inj : Set.InjOn f {a | Reaches succ start a})
    (commute : ∀ a, Reaches succ start a → succ' (f a) = (succ a).map f) (seen queue : List α)
    (hseen : ∀ x ∈ seen, Reaches succ start x) (hqueue : ∀ x ∈ queue, Reaches succ start x) :
    (visits succ' h' (seen.map f) (queue.map f)).map Visit.taken =
      ((visits succ h seen queue).map Visit.taken).map f := by
  fun_induction visits succ h seen queue with
  | case1 => simp [visits]
  | case2 seen a rest ih =>
    have ha : Reaches succ start a := hqueue a List.mem_cons_self
    have hfresh : ∀ x ∈ fresh seen (succ a), Reaches succ start x := fun x hx =>
      ha.step (mem_fresh.mp hx).1
    have new : fresh (seen.map f) (succ' (f a)) = (fresh seen (succ a)).map f := by
      rw [commute a ha]
      refine fresh_map (inj.mono ?_)
      rintro b (hb | hb)
      · exact hseen b hb
      · exact ha.step hb
    -- What is new is reached, so both lists stay within what `f` keeps apart.
    have later := ih (fun x hx => ?_) (fun x hx => ?_)
    · rw [List.map_cons, visits_cons, new, ← List.map_append, ← List.map_append, List.map_cons,
        later, List.map_cons, List.map_cons]
    · rcases List.mem_append.mp hx with hx | hx
      · exact hseen x hx
      · exact hfresh x hx
    · rcases List.mem_append.mp hx with hx | hx
      · exact hqueue x (List.mem_cons_of_mem a hx)
      · exact hfresh x hx

theorem explore_map (inj : Set.InjOn f {a | Reaches succ start a})
    (commute : ∀ a, Reaches succ start a → succ' (f a) = (succ a).map f) :
    explore succ' h' (start.map f) = (explore succ h start).map f := by
  have within : Set.InjOn f {a | a ∈ ([] : List α) ∨ a ∈ start} := by
    refine inj.mono ?_
    rintro a (ha | ha)
    · cases ha
    · exact .start ha
  have first : fresh [] (start.map f) = (fresh [] start).map f := fresh_map within
  have reached : ∀ x ∈ fresh [] start, Reaches succ start x := fun x hx =>
    .start (mem_fresh.mp hx).1
  rw [explore, explore, first]
  exact visits_map inj commute _ _ reached reached

end Worklist

/-! ## Sets of corresponding states -/

/-- The states that correspond to those of a set. -/
def StateSet.image (f : StateId → StateId) (live : StateSet) : StateSet :=
  .ofList (live.toList.map f)

namespace StateSet

variable {f : StateId → StateId}

@[simp] theorem mem_image {live : StateSet} {r : StateId} :
    r ∈ image f live ↔ ∃ q ∈ live, f q = r := by
  simp [image]

/-- Sets within a part on which states are kept apart are kept apart, too. -/
theorem image_injOn {part : Set StateId} (inj : Set.InjOn f part) :
    Set.InjOn (image f) {live | ∀ q ∈ live, q ∈ part} := by
  have sub : ∀ {a b : StateSet}, (∀ q ∈ a, q ∈ part) → (∀ q ∈ b, q ∈ part) →
      image f a = image f b → ∀ q ∈ a, q ∈ b := by
    intro a b ha hb same q hq
    obtain ⟨r, hr, hrq⟩ := mem_image.mp (same ▸ mem_image.mpr ⟨q, hq, rfl⟩)
    exact inj (hb r hr) (ha q hq) hrq ▸ hr
  intro a ha b hb same
  exact SortedSet.ext_mem fun q => ⟨sub ha hb same q, sub hb ha same.symm q⟩

theorem isEmpty_image (live : StateSet) : (image f live).isEmpty = live.isEmpty := by
  rw [Bool.eq_iff_iff, SortedSet.isEmpty_iff, SortedSet.isEmpty_iff]
  simp

end StateSet

/-! ## Isomorphic automata -/

namespace Nfa

/-- The states of an automaton correspond one to one to those of another, with the same
    start, the same accepting marks and the same edges. -/
structure Iso (n : Nfa) (g : Graph) (m : Nfa) (h : Graph) (f : StateId → StateId) : Prop where
  bijOn : Set.BijOn f {q | g.Reaches n.initial q} {q | h.Reaches m.initial q}
  initial : f n.initial = m.initial
  accepting : ∀ q, g.Reaches n.initial q → h.accepting (f q) = g.accepting q
  edges : ∀ q r l, g.Reaches n.initial q → g.Reaches n.initial r →
    (⟨l, f r⟩ ∈ h.edges (f q) ↔ ⟨l, r⟩ ∈ g.edges q)

/-- The live states all belong to the automaton. -/
def Within (n : Nfa) (g : Graph) (live : StateSet) : Prop := ∀ q ∈ live, g.Reaches n.initial q

theorem within_start (n : Nfa) (g : Graph) : n.Within g (n.start g) :=
  fun _ hq => Session.reaches_of_mem_start hq

theorem Within.step {n : Nfa} {g : Graph} {live : StateSet} (within : n.Within g live) (l : Label) :
    n.Within g (g.step live l) := by
  intro q hq
  obtain ⟨p, hp, d, he, path⟩ := Graph.exists_of_mem_step hq
  exact ((within p hp).step he).path path

theorem Within.run {n : Nfa} {g : Graph} {live : StateSet} (within : n.Within g live) (w : Word) :
    n.Within g (g.run live w) := by
  induction w generalizing live with
  | nil => exact within
  | cons l w ih => exact ih (within.step l)

/-- Where no symbol is empty, walks with live sets offer none that is. -/
theorem advances_machine {n : Nfa} {g : Graph}
    (nonempty : ∀ q, g.Reaches n.initial q → ∀ d, ⟨.text [], d⟩ ∉ g.edges q) :
    (n.machine g).Advances (n.Within g) where
  next := by
    intro live l next within _ hnext
    obtain ⟨-, rfl⟩ := Graph.next_machine_eq_some_iff.mp hnext
    exact within.step _
  nonempty := by
    rintro live l within hl rfl
    obtain ⟨q, hq, offered⟩ := Graph.mem_liveLabels.mp hl
    obtain ⟨d, he⟩ := Graph.mem_labels.mp offered
    exact nonempty q (within q hq) d he

namespace Iso

variable {n m : Nfa} {g h : Graph} {f : StateId → StateId} {part : List StateId}

/-- An isomorphism can be checked on a part of the graph that holds the automaton. -/
theorem of_part (initial : n.initial ∈ part) (closed : g.Closed part)
    (inj : ∀ p ∈ part, ∀ q ∈ part, f p = f q → p = q) (start : f n.initial = m.initial)
    (accepting : ∀ q ∈ part, h.accepting (f q) = g.accepting q)
    (forth : ∀ q ∈ part, ∀ e ∈ g.edges q, ⟨e.label, f e.dest⟩ ∈ h.edges (f q))
    (back : ∀ q ∈ part, ∀ e ∈ h.edges (f q), ∃ r ∈ part, f r = e.dest ∧ ⟨e.label, r⟩ ∈ g.edges q) :
    n.Iso g m h f where
  bijOn := by
    refine ⟨fun q hq => ?_, fun p hp q hq => ?_, fun r hr => ?_⟩
    · refine Graph.Reaches.induct (M := fun q => h.Reaches m.initial (f q)) hq
        (start ▸ .refl h _) fun hp hfp he => ?_
      exact hfp.step (forth _ (hp.mem_of_closed closed initial) _ he)
    · exact inj p (hp.mem_of_closed closed initial) q (hq.mem_of_closed closed initial)
    · refine Graph.Reaches.induct (M := fun r => ∃ q, g.Reaches n.initial q ∧ f q = r) hr
        ⟨_, .refl g _, start⟩ ?_
      rintro _ d l - ⟨q, hq, rfl⟩ he
      obtain ⟨r, -, same, hr⟩ := back q (hq.mem_of_closed closed initial) _ he
      exact ⟨r, hq.step hr, same⟩
  initial := start
  accepting q hq := accepting q (hq.mem_of_closed closed initial)
  edges q r l hq hr := by
    have hq' := hq.mem_of_closed closed initial
    constructor
    · intro he
      obtain ⟨r', hr', same, he'⟩ := back q hq' _ he
      rwa [inj r' hr' r (hr.mem_of_closed closed initial) same] at he'
    · exact forth q hq' _

section

variable (iso : n.Iso g m h f)

include iso

/-- Every edge out of a corresponding state corresponds to an edge. -/
theorem exists_edge {q d : StateId} {l : Label} (hq : g.Reaches n.initial q)
    (he : ⟨l, d⟩ ∈ h.edges (f q)) :
    ∃ r, g.Reaches n.initial r ∧ f r = d ∧ ⟨l, r⟩ ∈ g.edges q := by
  have hfq : h.Reaches m.initial (f q) := iso.bijOn.mapsTo hq
  obtain ⟨r, hr, rfl⟩ := iso.bijOn.surjOn (hfq.step he)
  exact ⟨r, hr, rfl, (iso.edges q r l hq hr).mp he⟩

theorem path {p q : StateId} {w : Word} (hp : g.Reaches n.initial p) (k : g.Path p w q) :
    h.Path (f p) w (f q) := by
  induction k with
  | nil q => exact .nil (f q)
  | silent he _ ih => exact .silent ((iso.edges _ _ _ hp (hp.step he)).mpr he) (ih (hp.step he))
  | read he _ ih => exact .read ((iso.edges _ _ _ hp (hp.step he)).mpr he) (ih (hp.step he))

theorem exists_path {p r : StateId} {w : Word} (hp : g.Reaches n.initial p)
    (k : h.Path (f p) w r) : ∃ q, f q = r ∧ g.Path p w q := by
  generalize hs : f p = s at k
  induction k generalizing p with
  | nil => exact ⟨p, hs, .nil p⟩
  | silent he _ ih =>
    subst hs
    obtain ⟨d, hd, same, he⟩ := iso.exists_edge hp he
    obtain ⟨q, hq, path⟩ := ih hd same
    exact ⟨q, hq, .silent he path⟩
  | read he _ ih =>
    subst hs
    obtain ⟨d, hd, same, he⟩ := iso.exists_edge hp he
    obtain ⟨q, hq, path⟩ := ih hd same
    exact ⟨q, hq, .read he path⟩

/-! ### Live sets -/

variable {live : StateSet} (within : n.Within g live)

omit within in
theorem closure_image (within : n.Within g live) :
    h.closure (.image f live) = .image f (g.closure live) := by
  refine SortedSet.ext_mem fun r => ?_
  simp only [Graph.mem_closure_iff_path, StateSet.mem_image]
  constructor
  · rintro ⟨_, ⟨p, hp, rfl⟩, path⟩
    obtain ⟨q, hq, path⟩ := iso.exists_path (within p hp) path
    exact ⟨q, ⟨p, hp, path⟩, hq⟩
  · rintro ⟨q, ⟨p, hp, path⟩, rfl⟩
    exact ⟨f p, ⟨p, hp, rfl⟩, iso.path (within p hp) path⟩

include within

theorem move_image (l : Label) : h.move (.image f live) l = .image f (g.move live l) := by
  refine SortedSet.ext_mem fun r => ?_
  simp only [Graph.mem_move, StateSet.mem_image]
  constructor
  · rintro ⟨_, ⟨p, hp, rfl⟩, he⟩
    obtain ⟨q, -, same, he⟩ := iso.exists_edge (within p hp) he
    exact ⟨q, ⟨p, hp, he⟩, same⟩
  · rintro ⟨q, ⟨p, hp, he⟩, rfl⟩
    exact ⟨f p, ⟨p, hp, rfl⟩, (iso.edges p q l (within p hp) ((within p hp).step he)).mpr he⟩

theorem step_image (l : Label) : h.step (.image f live) l = .image f (g.step live l) := by
  have moved : n.Within g (g.move live l) := by
    intro q hq
    obtain ⟨p, hp, he⟩ := Graph.mem_move.mp hq
    exact (within p hp).step he
  rw [Graph.step, iso.move_image within, iso.closure_image moved, Graph.step]

/-- Along every word, corresponding live sets go through corresponding ones. -/
theorem run_image (w : Word) : h.run (.image f live) w = .image f (g.run live w) := by
  induction w generalizing live with
  | nil => rfl
  | cons l w ih =>
    rw [Graph.run_cons, Graph.run_cons, iso.step_image within]
    exact ih (within.step l)

theorem isFinal_image : h.isFinal (.image f live) = g.isFinal live := by
  rw [Bool.eq_iff_iff, Graph.isFinal_iff, Graph.isFinal_iff]
  constructor
  · rintro ⟨r, hr, ha⟩
    obtain ⟨q, hq, rfl⟩ := StateSet.mem_image.mp hr
    exact ⟨q, hq, iso.accepting q (within q hq) ▸ ha⟩
  · rintro ⟨q, hq, ha⟩
    exact ⟨f q, StateSet.mem_image.mpr ⟨q, hq, rfl⟩, (iso.accepting q (within q hq)).trans ha⟩

omit within in
theorem labels {q : StateId} (hq : g.Reaches n.initial q) : h.labels (f q) = g.labels q := by
  refine SortedSet.ext_mem fun t => ?_
  rw [Graph.mem_labels, Graph.mem_labels]
  constructor
  · rintro ⟨d, he⟩
    obtain ⟨r, -, -, he⟩ := iso.exists_edge hq he
    exact ⟨r, he⟩
  · rintro ⟨r, he⟩
    exact ⟨f r, (iso.edges q r _ hq (hq.step he)).mpr he⟩

theorem liveLabels_image : h.liveLabels (.image f live) = g.liveLabels live := by
  refine SortedSet.ext_mem fun t => ?_
  rw [Graph.mem_liveLabels, Graph.mem_liveLabels]
  constructor
  · rintro ⟨r, hr, ht⟩
    obtain ⟨q, hq, rfl⟩ := StateSet.mem_image.mp hr
    exact ⟨q, hq, iso.labels (within q hq) ▸ ht⟩
  · rintro ⟨q, hq, ht⟩
    exact ⟨f q, StateSet.mem_image.mpr ⟨q, hq, rfl⟩, (iso.labels (within q hq)).symm ▸ ht⟩

omit within in
theorem start_image : m.start h = .image f (n.start g) := by
  have first : (.ofList [m.initial] : StateSet) = StateSet.image f (.ofList [n.initial]) := by
    refine SortedSet.ext_mem fun r => ?_
    simp [iso.initial, eq_comm]
  rw [Nfa.start, first, iso.closure_image fun q hq => ?_, Nfa.start]
  obtain rfl : q = n.initial := by simpa using hq
  exact .refl g _

omit within

/-! ### Words and texts -/

theorem accepts (w : Word) : m.accepts h w = n.accepts g w := by
  rw [Nfa.accepts_eq_isFinal, Nfa.accepts_eq_isFinal, iso.start_image,
    iso.run_image (within_start n g), iso.isFinal_image ((within_start n g).run w)]

theorem next_image (within : n.Within g live) (l : Label) :
    (m.machine h).next (.image f live) l = ((n.machine g).next live l).map (StateSet.image f) := by
  show (if (h.step (.image f live) l).isEmpty then none else some _) =
    (if (g.step live l).isEmpty then none else some _).map (StateSet.image f)
  rw [iso.step_image within, StateSet.isEmpty_image]
  cases (g.step live l).isEmpty <;> rfl

theorem labels_image (within : n.Within g live) :
    (m.machine h).labels (.image f live) = (n.machine g).labels live :=
  iso.liveLabels_image within

theorem follows : (n.machine g).Follows (m.machine h) (n.Within g) (StateSet.image f) where
  stays := by
    intro live l next within _ hnext
    obtain ⟨-, rfl⟩ := Graph.next_machine_eq_some_iff.mp hnext
    exact within.step _
  final := iso.isFinal_image
  labels := fun within hl => (iso.labels_image within).symm ▸ hl
  next := fun within _ => iso.next_image within _
  more := fun within hl only _ => absurd (iso.labels_image within ▸ hl) only

theorem lists {maxlen : Int} {sofar : Text} {out : List Text}
    (lists : (n.machine g).Lists maxlen (n.start g) sofar out) :
    (m.machine h).Lists maxlen (m.start h) sofar out := by
  rw [iso.start_image]
  exact iso.follows.lists (within_start n g) lists

/-- If no symbol of one automaton is empty, none of the other is. -/
theorem nonempty (nonempty : ∀ q, g.Reaches n.initial q → ∀ d, ⟨.text [], d⟩ ∉ g.edges q) :
    ∀ q, h.Reaches m.initial q → ∀ d, ⟨.text [], d⟩ ∉ h.edges q := by
  intro r hr d he
  obtain ⟨q, hq, rfl⟩ := iso.bijOn.surjOn hr
  obtain ⟨r, -, -, he⟩ := iso.exists_edge hq he
  exact nonempty q hq r he

/-- The symbols on the edges of both automata are the same. -/
theorem symbolsOf_reachable : Nfa.symbolsOf h (h.reachable m.initial) =
    Nfa.symbolsOf g (g.reachable n.initial) := by
  refine SortedSet.ext_mem fun t => ?_
  simp only [symbolsOf, SortedSet.mem_ofList, List.mem_flatMap, SortedSet.mem_toList,
    Graph.mem_reachable]
  constructor
  · rintro ⟨r, hr, ht⟩
    obtain ⟨q, hq, rfl⟩ := iso.bijOn.surjOn hr
    exact ⟨q, hq, iso.labels hq ▸ ht⟩
  · rintro ⟨q, hq, ht⟩
    exact ⟨f q, iso.bijOn.mapsTo hq, (iso.labels hq).symm ▸ ht⟩

end

end Iso

end Nfa

/-! ## Deterministic automata -/

namespace Subset

/-- Two deterministic automata have corresponding cells in the same places: cells of
    corresponding sets, with the same marks, whose symbols lead to the same places. -/
structure Alike (f : StateId → StateId) (d : Dfa) (cells : Cells) (d' : Dfa) (cells' : Cells) :
    Prop where
  alphabet : d'.alphabet = d.alphabet
  size : d'.states.length = d.states.length
  initial : d.states[0]? = some d.initial ∧ d'.states[0]? = some d'.initial
  members : List.Forall₂
    (fun c c' => (cells'.get c').members = .image f (cells.get c).members) d.states d'.states
  accepting : List.Forall₂
    (fun c c' => (cells'.get c').accepting = (cells.get c).accepting) d.states d'.states
  symbols : List.Forall₂
    (fun c c' => (cells'.get c').symbols = (cells.get c).symbols) d.states d'.states
  targets : List.Forall₂ (fun c c' => ∀ t ∈ d.alphabet, ∃ i < d.states.length,
    (cells.get c).next (.text t) = d.states[i]? ∧
      (cells'.get c').next (.text t) = d'.states[i]?) d.states d'.states

variable {n m : Nfa} {g h : Graph} {f : StateId → StateId} {alphabet : SortedSet Text}

theorem within_of_mem_liveSets {live : StateSet} (hl : live ∈ liveSets g alphabet (n.start g)) :
    n.Within g live := by
  obtain ⟨u, -, rfl⟩ := mem_liveSets_iff_access.mp hl
  exact (Nfa.within_start n g).run _

/-- Corresponding live sets are found in the same order. -/
theorem liveSets_image (iso : n.Iso g m h f) (alphabet : SortedSet Text) :
    liveSets h alphabet (m.start h) = (liveSets g alphabet (n.start g)).map (.image f) := by
  have within : ∀ live, Worklist.Reaches (successors g alphabet) [n.start g] live →
      n.Within g live := fun live reached =>
    within_of_mem_liveSets (Worklist.mem_explore.mpr reached)
  have inj : Set.InjOn (StateSet.image f)
      {live | Worklist.Reaches (successors g alphabet) [n.start g] live} :=
    (StateSet.image_injOn iso.bijOn.injOn).mono within
  rw [iso.start_image]
  refine Worklist.explore_map inj fun live reached => ?_
  rw [successors, successors, List.map_map]
  exact List.map_congr_left fun t _ => iso.step_image (within live reached) (.text t)

theorem alike_determinize (iso : n.Iso g m h f) (alphabet : SortedSet Text) (cells cells' : Cells) :
    Alike f (determinize n g alphabet cells).1 (determinize n g alphabet cells).2
      (determinize m h alphabet cells').1 (determinize m h alphabet cells').2 := by
  -- the cells in order, as those of the live sets of the first automaton
  have states := @states_determinize n g alphabet cells
  have states' := @states_determinize m h alphabet cells'
  have sets := liveSets_image iso alphabet
  rw [sets, List.map_map] at states'
  have found : ∀ live ∈ liveSets g alphabet (n.start g),
      StateSet.image f live ∈ liveSets h alphabet (m.start h) := fun live hl =>
    sets ▸ List.mem_map_of_mem hl
  have cellwise : ∀ {R : CellId → CellId → Prop}, (∀ live ∈ liveSets g alphabet (n.start g),
      R (placeOf n g alphabet cells live) (placeOf m h alphabet cells' (.image f live))) →
      List.Forall₂ R (determinize n g alphabet cells).1.states
        (determinize m h alphabet cells').1.states := by
    intro R all
    rw [states, states', List.forall₂_map_left_iff, List.forall₂_map_right_iff, List.forall₂_same]
    exact all
  refine ⟨rfl, ?_, ⟨?_, ?_⟩, cellwise fun live hl => ?_, cellwise fun live hl => ?_,
    cellwise fun live hl => ?_, cellwise fun live hl t ht => ?_⟩
  · rw [states, states', List.length_map, List.length_map]
  · exact (shape_determinize n g alphabet cells).initial
  · exact (shape_determinize m h alphabet cells').initial
  · rw [get_placeOf hl, get_placeOf (found live hl)]
    rfl
  · rw [accepting_placeOf cells hl, accepting_placeOf cells' (found live hl),
      iso.isFinal_image (within_of_mem_liveSets hl)]
  · rw [symbols_of_mem_states (placeOf_mem_states hl),
      symbols_of_mem_states (placeOf_mem_states (found live hl))]
  · -- the next live set stands at one place, and the one that corresponds to it at the same
    have next := step_mem_liveSets hl ht
    refine ⟨(liveSets g alphabet (n.start g)).idxOf (g.step live (.text t)), ?_, ?_, ?_⟩
    · rw [states, List.length_map]
      exact List.idxOf_lt_length_of_mem next
    · rw [next_placeOf hl ht, states, List.getElem?_map, List.getElem?_idxOf next]
      rfl
    · rw [next_placeOf (found live hl) ht, iso.step_image (within_of_mem_liveSets hl), states',
        List.getElem?_map, List.getElem?_idxOf next]
      rfl

end Subset

/-! ## In sessions -/

namespace Session

/-- Isomorphic automata, of one session or of two, behave alike. They accept the same words.
    If no symbol that can be read is empty, the search for texts ends for both and lists the
    same ones in the same order. Made deterministic over the same alphabet, or each over its
    own symbols while its states are not kept, they have corresponding cells in the same places. -/
theorem isomorphic_alike (s t : Session) (x y : NfaId) (f : StateId → StateId)
    (iso : (s.nfa x).Iso s.graph (t.nfa y) t.graph f) :
    (∀ w, t.accepts (.nfa y) w = s.accepts (.nfa x) w) ∧
    ((∀ q, s.graph.Reaches (s.nfa x).initial q → ∀ d, ⟨.text [], d⟩ ∉ s.graph.edges q) →
      ∀ (maxlen : Int) (sofar : Text), ∃ out : List Text,
        ((s.nfa x).machine s.graph).Lists maxlen ((s.nfa x).start s.graph) sofar out ∧
        ((t.nfa y).machine t.graph).Lists maxlen ((t.nfa y).start t.graph) sofar out ∧
        ∀ limit,
          (Question.texts (.nfa x) maxlen sofar limit none).answer s = .texts (out.take limit) ∧
          (Question.texts (.nfa y) maxlen sofar limit none).answer t = .texts (out.take limit)) ∧
    ∀ alphabet : Option (List Label),
      (alphabet = none → s.keptStates x = none ∧ t.keptStates y = none) →
      ∃ d e, (s.determinize x alphabet).1.answer = .ok (.value (.dfa d)) ∧
        (t.determinize y alphabet).1.answer = .ok (.value (.dfa e)) ∧
        Subset.Alike f ((s.determinize x alphabet).2.dfa d) (s.determinize x alphabet).2.cells
          ((t.determinize y alphabet).2.dfa e) (t.determinize y alphabet).2.cells := by
  refine ⟨iso.accepts, fun nonempty maxlen sofar => ?_, fun alphabet unkept => ?_⟩
  · have adv := Nfa.advances_machine nonempty
    have adv' := Nfa.advances_machine (iso.nonempty nonempty)
    have within := Nfa.within_start (s.nfa x) s.graph
    obtain ⟨out, lists⟩ : ∃ out, ((s.nfa x).machine s.graph).Lists maxlen
        ((s.nfa x).start s.graph) sofar out :=
      ⟨_, adv.lists within (Machine.le_length_add_depthFor maxlen 0 sofar)⟩
    refine ⟨out, lists, iso.lists lists, fun limit => ⟨?_, ?_⟩⟩
    · exact congrArg Answer.texts (adv.takeTexts_eq within lists _ limit)
    · exact congrArg Answer.texts
        (adv'.takeTexts_eq (Nfa.within_start (t.nfa y) t.graph) (iso.lists lists) _ limit)
  · have symbols : (t.alphabetFor y alphabet).1 = (s.alphabetFor x alphabet).1 := by
      cases alphabet with
      | some given => rfl
      | none =>
        obtain ⟨hs, ht⟩ := unkept rfl
        rw [alphabetFor_none (upToDate_of_unkept ht), alphabetFor_none (upToDate_of_unkept hs),
          iso.symbolsOf_reachable]
    obtain ⟨answer, cells, dfa, -, -⟩ := determinize_over s x alphabet
    obtain ⟨answer', cells', dfa', -, -⟩ := determinize_over t y alphabet
    refine ⟨_, _, answer, answer', ?_⟩
    rw [dfa, cells, dfa', cells', symbols]
    exact Subset.alike_determinize iso _ _ _

/-- The same loop twice: once with two states of the number 7, once with the states in another
    order and under other numbers, their edges in another order and one of them repeated. -/
theorem isomorphic_alike_loop :
    let s : Session :=
      { fresh false with
        graph := (((((Graph.empty.addState 7 false).addState 7 true).addEdge 0 .epsilon 1).addEdge
          0 (.text ['a']) 1).addEdge 1 (.text ['b']) 0)
        nfas := #[⟨⟨0, 1⟩, none, none⟩] }
    let t : Session :=
      { fresh false with
        graph := ((((((Graph.empty.addState (-1) true).addState 3 false).addEdge
          1 (.text ['a']) 0).addEdge 0 (.text ['b']) 1).addEdge 1 .epsilon 0).addEdge
          1 (.text ['a']) 0)
        nfas := #[⟨⟨1, 0⟩, none, none⟩] }
    (s.nfa 0).Iso s.graph (t.nfa 0) t.graph (1 - ·) ∧
      (∀ q, s.graph.Reaches (s.nfa 0).initial q → ∀ d, ⟨.text [], d⟩ ∉ s.graph.edges q) ∧
      (s.keptStates 0 = none ∧ t.keptStates 0 = none) ∧
      (∀ w, t.accepts (.nfa 0) w = s.accepts (.nfa 0) w) ∧
      (∃ out : List Text, ∀ limit,
        (Question.texts (.nfa 0) 5 ['b'] limit none).answer s = .texts (out.take limit) ∧
        (Question.texts (.nfa 0) 5 ['b'] limit none).answer t = .texts (out.take limit)) ∧
      ∃ d e, Subset.Alike (1 - ·) ((s.determinize 0 none).2.dfa d) (s.determinize 0 none).2.cells
        ((t.determinize 0 none).2.dfa e) (t.determinize 0 none).2.cells := by
  intro s t
  have closed : s.graph.Closed [0, 1] := by decide
  have iso : (s.nfa 0).Iso s.graph (t.nfa 0) t.graph (1 - ·) :=
    .of_part (by decide) closed (by decide) (by decide) (by decide) (by decide) (by decide)
  have symbols : ∀ q ∈ [0, 1], ∀ e ∈ s.graph.edges q, e.label ≠ .text [] := by decide
  have nonempty : ∀ q, s.graph.Reaches (s.nfa 0).initial q →
      ∀ d, ⟨.text [], d⟩ ∉ s.graph.edges q := fun q hq d he =>
    symbols q (hq.mem_of_closed closed (by decide)) _ he rfl
  obtain ⟨accepts, texts, dfas⟩ := isomorphic_alike s t 0 0 (1 - ·) iso
  obtain ⟨out, -, -, drawn⟩ := texts nonempty 5 ['b']
  obtain ⟨d, e, -, -, alike⟩ := dfas none fun _ => ⟨rfl, rfl⟩
  exact ⟨iso, nonempty, ⟨rfl, rfl⟩, accepts, ⟨out, drawn⟩, d, e, alike⟩

end Session

end FiniteAutomata
