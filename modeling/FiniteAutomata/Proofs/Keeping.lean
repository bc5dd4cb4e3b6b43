/-
  FiniteAutomata.Proofs.Keeping

  What commands keep. `Session.Keeps` says of two sessions what of the second is kept that was
  not kept in the first: the states of the automata that were read in between, as they are
  reached now, and the accepting ones among the kept states; whatever was kept is kept as it
  was, and the graph has only grown. Every command relates the session before to the session
  after in this way (`keeps_perform`). Which automaton it reads can be told from the command
  and its answer (`Command.ReadsStates`, `Command.ReadsFinals`).

  Over a run, what is kept stays (`extendsTo_performAll`), and nothing is kept of an automaton
  that no command has read (`keptStates_of_never`).
-/
import FiniteAutomata.Proofs.Census
import FiniteAutomata.Proofs.Extension
import FiniteAutomata.Proofs.Persistence

namespace FiniteAutomata

/-! ## Which commands read which views -/

namespace Command

/-- Whether a command, carried out in a session, reads the states of an automaton: a question
    about its states or a conversion, and while a log is written also the assembly that has
    made it. -/
def ReadsStates (x : NfaId) (s : Session) : Command → Prop
  | .view v => v.mentions = [.nfa x] ∧ x < s.nfas.size
  | .determinize y _ => y = x ∧ x < s.nfas.size
  | .assemble tokens b =>
    s.logging = true ∧ (s.perform (.assemble tokens b)).1.answer = .ok (.value (.nfa x))
  | .compile pattern =>
    s.logging = true ∧ (s.perform (.compile pattern)).1.answer = .ok (.value (.nfa x))
  | _ => False

/-- Whether a command reads the accepting states of an automaton. -/
def ReadsFinals (x : NfaId) (s : Session) : Command → Prop
  | .view (.finals y) | .view (.nfaReport y) => y = x ∧ x < s.nfas.size
  | _ => False

end Command

namespace Session

/-- No command of a run is of a kind, seen from the session in which it is carried out. -/
def Never (reads : Session → Command → Prop) : Session → List Command → Prop
  | _, [] => True
  | s, c :: rest => ¬ reads s c ∧ Never reads (s.perform c).2 rest

/-! ## Sessions only grow -/

/-- What a session has is there in another one: its states and edges, its automata, and what is
    kept of them. -/
structure ExtendsTo (s t : Session) : Prop where
  graph : s.graph.ExtendsTo t.graph
  nfas_le : s.nfas.size ≤ t.nfas.size
  nfa : ∀ x < s.nfas.size, t.nfa x = s.nfa x
  states : ∀ x states, s.keptStates x = some states → t.keptStates x = some states
  finals : ∀ x finals, s.keptFinals x = some finals → t.keptFinals x = some finals

theorem lt_of_keptStates {s : Session} {x : NfaId} {states : List StateId}
    (kept : s.keptStates x = some states) : x < s.nfas.size := by
  by_contra beyond
  rw [keptStates, Array.getElem?_eq_none (Nat.le_of_not_lt beyond)] at kept
  cases kept

namespace ExtendsTo

variable {s t u : Session}

theorem refl (s : Session) : s.ExtendsTo s where
  graph := .refl s.graph
  nfas_le := Nat.le_refl _
  nfa _ _ := rfl
  states _ _ h := h
  finals _ _ h := h

theorem trans (h : s.ExtendsTo t) (k : t.ExtendsTo u) : s.ExtendsTo u where
  graph := h.graph.trans k.graph
  nfas_le := Nat.le_trans h.nfas_le k.nfas_le
  nfa x hx := (k.nfa x (Nat.lt_of_lt_of_le hx h.nfas_le)).trans (h.nfa x hx)
  states x states kept := k.states x states (h.states x states kept)
  finals x finals kept := k.finals x finals (h.finals x finals kept)

end ExtendsTo

/-! ## What is kept from one session to another -/

/-- The ends of all automata are states of the graph, and accepting states are kept of an
    automaton only where its states are. -/
structure Coherent (s : Session) : Prop where
  ends : ∀ x < s.nfas.size, (s.nfa x).initial < s.graph.size ∧ (s.nfa x).final < s.graph.size
  finals : ∀ x, s.keptStates x = none → s.keptFinals x = none

/-- One session extends another, and of the automata of which nothing was kept, the states are
    kept now of those in `P` and the accepting states of those in `Q`. -/
structure Keeps (s t : Session) (P Q : NfaId → Prop) : Prop where
  extendsTo : s.ExtendsTo t
  new_ends : ∀ x, s.nfas.size ≤ x → x < t.nfas.size →
    (t.nfa x).initial < t.graph.size ∧ (t.nfa x).final < t.graph.size
  unread : ∀ x, s.keptStates x = none → ¬ P x → t.keptStates x = none
  read : ∀ x, s.keptStates x = none → P x →
    t.keptStates x = some (t.graph.reachable (t.nfa x).initial)
  unreadFinals : ∀ x, s.keptFinals x = none → ¬ Q x → t.keptFinals x = none
  readFinals : ∀ x, s.keptFinals x = none → Q x → ∃ states, t.keptStates x = some states ∧
    t.keptFinals x = some (.ofList (states.filter t.graph.accepting))

namespace Keeps

variable {s t u : Session} {P Q P' Q' : NfaId → Prop} {x : NfaId}

theorem coherent (k : s.Keeps t P Q) (h : s.Coherent) : t.Coherent where
  ends x hx := by
    by_cases old : x < s.nfas.size
    · rw [k.extendsTo.nfa x old]
      have size := k.extendsTo.graph.size_le
      exact ⟨Nat.lt_of_lt_of_le (h.ends x old).1 size, Nat.lt_of_lt_of_le (h.ends x old).2 size⟩
    · exact k.new_ends x (Nat.le_of_not_lt old) hx
  finals x none_now := by
    -- what was kept would still be kept
    have none_before : s.keptStates x = none := by
      cases kept : s.keptStates x with
      | none => rfl
      | some states =>
        rw [k.extendsTo.states x states kept] at none_now
        cases none_now
    have unkept := h.finals x none_before
    by_cases hQ : Q x
    · obtain ⟨states, kept, -⟩ := k.readFinals x unkept hQ
      rw [kept] at none_now
      cases none_now
    · exact k.unreadFinals x unkept hQ

theorem congr (k : s.Keeps t P Q) (hP : ∀ x, P x ↔ P' x) (hQ : ∀ x, Q x ↔ Q' x) :
    s.Keeps t P' Q' := by
  rw [← funext fun x => propext (hP x), ← funext fun x => propext (hQ x)]
  exact k

/-- Readings one after the other, while the graph stays as it is. -/
theorem trans (k : s.Keeps t P Q) (k' : t.Keeps u P' Q') (same : u.graph = t.graph) :
    s.Keeps u (fun x => P x ∨ P' x) (fun x => Q x ∨ Q' x) where
  extendsTo := k.extendsTo.trans k'.extendsTo
  new_ends x hx hu := by
    by_cases ht : x < t.nfas.size
    · rw [k'.extendsTo.nfa x ht, same]
      exact k.new_ends x hx ht
    · exact k'.new_ends x (Nat.le_of_not_lt ht) hu
  unread x unkept h :=
    k'.unread x (k.unread x unkept fun hP => h (Or.inl hP)) fun hP => h (Or.inr hP)
  read x unkept h := by
    by_cases hP : P x
    · -- what the first reading found would be found again, the graph being the same
      have kept := k.read x unkept hP
      rw [k'.extendsTo.states x _ kept, same, k'.extendsTo.nfa x (lt_of_keptStates kept)]
    · exact k'.read x (k.unread x unkept hP) (h.resolve_left hP)
  unreadFinals x unkept h :=
    k'.unreadFinals x (k.unreadFinals x unkept fun hQ => h (Or.inl hQ)) fun hQ => h (Or.inr hQ)
  readFinals x unkept h := by
    by_cases hQ : Q x
    · obtain ⟨states, kept, finals⟩ := k.readFinals x unkept hQ
      rw [same]
      exact ⟨states, k'.extendsTo.states x states kept, k'.extendsTo.finals x _ finals⟩
    · exact k'.readFinals x (k.unreadFinals x unkept hQ) (h.resolve_left hQ)

/-- Nothing is read where the records of the automata stay as they are. -/
theorem of_nfas (graph : s.graph.ExtendsTo t.graph) (nfas : t.nfas = s.nfas) :
    s.Keeps t (fun _ => False) (fun _ => False) := by
  have nfa : ∀ x, t.nfa x = s.nfa x := fun x => by rw [Session.nfa, nfas, Session.nfa]
  have states : ∀ x, t.keptStates x = s.keptStates x := fun x => by
    rw [keptStates, nfas, keptStates]
  have finals : ∀ x, t.keptFinals x = s.keptFinals x := fun x => by
    rw [keptFinals, nfas, keptFinals]
  exact
    { extendsTo :=
        { graph := graph
          nfas_le := Nat.le_of_eq (congrArg Array.size nfas).symm
          nfa := fun x _ => nfa x
          states := fun x _ kept => (states x).trans kept
          finals := fun x _ kept => (finals x).trans kept }
      new_ends := fun x hx hlt => absurd hlt (Nat.not_lt.mpr (nfas ▸ hx))
      unread := fun x unkept _ => (states x).trans unkept
      read := fun _ _ h => h.elim
      unreadFinals := fun x unkept _ => (finals x).trans unkept
      readFinals := fun _ _ h => h.elim }

theorem refl (s : Session) : s.Keeps s (fun _ => False) (fun _ => False) :=
  of_nfas (.refl s.graph) rfl

end Keeps

/-! ## Single changes -/

variable {s : Session}

/-- A new automaton adds nothing to a view of which it has none yet. -/
theorem bind_addNfa {α : Type} {view : NfaObject → Option α} (s : Session) {n : Nfa}
    (none : view ⟨n, none, none⟩ = none) (x : NfaId) :
    (s.addNfa n).2.nfas[x]?.bind view = s.nfas[x]?.bind view := by
  show ((s.nfas.push _)[x]?).bind view = _
  rw [Array.getElem?_push]
  split
  · next new =>
    rw [new, Array.getElem?_eq_none (Nat.le_refl _)]
    exact none
  · rfl

theorem keptStates_addNfa (s : Session) (n : Nfa) (x : NfaId) :
    (s.addNfa n).2.keptStates x = s.keptStates x := bind_addNfa s rfl x

theorem keptFinals_addNfa (s : Session) (n : Nfa) (x : NfaId) :
    (s.addNfa n).2.keptFinals x = s.keptFinals x := bind_addNfa s rfl x

theorem nfa_addNfa_of_lt {n : Nfa} {x : NfaId} (hx : x < s.nfas.size) :
    (s.addNfa n).2.nfa x = s.nfa x := by
  rw [nfa_eq, nfa_eq]
  show ((s.nfas.push _)[x]?.map _).getD _ = _
  rw [Array.getElem?_push, if_neg (Nat.ne_of_lt hx)]

theorem keeps_addNfa {n : Nfa} (initial : n.initial < s.graph.size)
    (final : n.final < s.graph.size) :
    s.Keeps (s.addNfa n).2 (fun _ => False) (fun _ => False) where
  extendsTo :=
    { graph := .refl s.graph
      nfas_le := by
        rw [size_nfas_addNfa]
        exact Nat.le_succ _
      nfa := fun x hx => nfa_addNfa_of_lt hx
      states := fun x _ kept => (keptStates_addNfa s n x).trans kept
      finals := fun x _ kept => (keptFinals_addNfa s n x).trans kept }
  new_ends x hx hlt := by
    rw [size_nfas_addNfa] at hlt
    obtain rfl : x = s.nfas.size := by omega
    rw [nfa_addNfa]
    exact ⟨initial, final⟩
  unread x unkept _ := (keptStates_addNfa s n x).trans unkept
  read _ _ h := h.elim
  unreadFinals x unkept _ := (keptFinals_addNfa s n x).trans unkept
  readFinals _ _ h := h.elim

/-- The states of an automaton of the session are kept once they are asked for. -/
theorem keptStates_viewStates_self {x : NfaId} (hx : x < s.nfas.size) :
    (s.viewStates x).2.keptStates x = some (s.viewStates x).1 := by
  unfold viewStates
  split
  · next states kept => exact kept
  · show ((s.nfas.modify x _)[x]?).bind _ = _
    rw [Array.getElem?_modify, if_pos rfl, Array.getElem?_eq_getElem hx]
    rfl

theorem keeps_viewStates {x : NfaId} (hx : x < s.nfas.size) :
    s.Keeps (s.viewStates x).2 (fun y => x = y) (fun _ => False) where
  extendsTo :=
    { graph := by
        rw [graph_viewStates]
        exact .refl s.graph
      nfas_le := Nat.le_of_eq (size_nfas_viewStates s x).symm
      nfa := fun y _ => nfa_viewStates s x y
      states := fun y states kept => by
        rcases keptStates_viewStates s x y with same | ⟨-, unkept, -⟩
        · exact same.trans kept
        · rw [unkept] at kept
          cases kept
      finals := fun y _ kept => (keptFinals_viewStates s x y).trans kept }
  new_ends y hy hlt := by
    rw [size_nfas_viewStates] at hlt
    omega
  unread y unkept other := by
    rcases keptStates_viewStates s x y with same | ⟨hxy, -, -⟩
    · exact same.trans unkept
    · exact absurd hxy other
  read := by
    rintro y unkept rfl
    rw [keptStates_viewStates_self hx, viewStates_fst (upToDate_of_unkept unkept),
      graph_viewStates, nfa_viewStates]
  unreadFinals y unkept _ := (keptFinals_viewStates s x y).trans unkept
  readFinals _ _ h := h.elim

/-- The accepting states are kept after the states. -/
theorem keeps_keepFinals {x : NfaId} {states : List StateId} (kept : s.keptStates x = some states)
    (unkept : s.keptFinals x = none) :
    s.Keeps (s.keepFinals x (.ofList (states.filter s.graph.accepting))) (fun _ => False)
      (fun y => x = y) := by
  generalize hfinals : SortedSet.ofList (states.filter s.graph.accepting) = finals
  have same : ∀ y, (s.keepFinals x finals).keptStates y = s.keptStates y :=
    fun y => keptStates_alter s x y fun _ => rfl
  have size : (s.keepFinals x finals).nfas.size = s.nfas.size := Array.size_modify
  exact
    { extendsTo :=
        { graph := .refl s.graph
          nfas_le := Nat.le_of_eq size.symm
          nfa := fun y _ => nfa_keepFinals s x y finals
          states := fun y _ kept => (same y).trans kept
          finals := fun y old kept => by
            rcases keptFinals_keepFinals s x y finals with stays | ⟨rfl, -⟩
            · exact stays.trans kept
            · rw [unkept] at kept
              cases kept }
      new_ends := fun y hy hlt => absurd hlt (Nat.not_lt.mpr (size ▸ hy))
      unread := fun y unkept _ => (same y).trans unkept
      read := fun _ _ h => h.elim
      unreadFinals := fun y unkept other => by
        rcases keptFinals_keepFinals s x y finals with stays | ⟨hxy, -⟩
        · exact stays.trans unkept
        · exact absurd hxy other
      readFinals := by
        rintro y - rfl
        refine ⟨states, (same x).trans kept, ?_⟩
        show ((s.nfas.modify x _)[x]?).bind NfaObject.finals = some (SortedSet.ofList _)
        rw [Array.getElem?_modify, if_pos rfl, Array.getElem?_eq_getElem (lt_of_keptStates kept),
          ← hfinals]
        rfl }

theorem keeps_viewFinals (h : s.Coherent) {x : NfaId} (hx : x < s.nfas.size) :
    s.Keeps (s.viewFinals x).2 (fun y => x = y) (fun y => x = y) := by
  cases unkept : s.keptFinals x with
  | some finals =>
    -- both views are kept already, so there is nothing that could be read
    have same : (s.viewFinals x).2 = s := by
      unfold viewFinals
      rw [unkept]
    have kept : s.keptStates x ≠ none := by
      intro none
      rw [h.finals x none] at unkept
      cases unkept
    rw [same]
    exact
      { extendsTo := .refl s
        new_ends := fun y hy hlt => absurd hlt (Nat.not_lt.mpr hy)
        unread := fun _ unread _ => unread
        read := by
          rintro y unread rfl
          exact absurd unread kept
        unreadFinals := fun _ unread _ => unread
        readFinals := by
          rintro y unread rfl
          rw [unkept] at unread
          cases unread }
  | none =>
    rw [viewFinals_of_unkept unkept, ← graph_viewStates s x]
    have first := keeps_viewStates hx
    have second := keeps_keepFinals (keptStates_viewStates_self hx)
      ((keptFinals_viewStates s x x).trans unkept)
    exact (first.trans second rfl).congr (fun y => or_iff_left id) (fun y => or_iff_right id)

/-! ## Commands -/

/-- An automaton that is built on a graph that has grown is added without being read. -/
theorem keeps_grow_addNfa {t : Session} {n : Nfa} (graph : s.graph.ExtendsTo t.graph)
    (nfas : t.nfas = s.nfas) (initial : n.initial < t.graph.size) (final : n.final < t.graph.size) :
    s.Keeps (t.addNfa n).2 (fun _ => False) (fun _ => False) :=
  ((Keeps.of_nfas graph nfas).trans (keeps_addNfa initial final) rfl).congr
    (fun _ => or_self_iff) (fun _ => or_self_iff)

theorem keeps_make (h : s.Coherent) {m : Maker} (there : m.mentions.all s.has = true) :
    s.Keeps (m.make s).2 (fun _ => False) (fun _ => False) := by
  cases m with
  | builder | initialState _ | finalState _ | closure _ | move _ _ | start _ | cell _ | dfa _ _ _ =>
    exact .of_nfas (.refl s.graph) rfl
  | builderState b accepting => exact .of_nfas ((s.siteOf b).extendsTo_newState accepting) rfl
  | state num accepting => exact .of_nfas (s.graph.extendsTo_addState num accepting) rfl
  | symbol b label =>
    refine keeps_grow_addNfa (t := s.leaveSite b ((s.siteOf b).symbol label).2)
      ((s.siteOf b).extendsTo_symbol label) rfl ?_ ?_ <;>
      simp [leaveSite]
  | join b j x y =>
    obtain ⟨-, hx, hy⟩ : b < s.builders.size ∧ x < s.nfas.size ∧ y < s.nfas.size := by
      simpa [Maker.mentions, has] using there
    have graph := (s.siteOf b).extendsTo_join j (s.nfa x) (s.nfa y)
    refine keeps_grow_addNfa (t := s.leaveSite b ((s.siteOf b).join j (s.nfa x) (s.nfa y)).2)
      graph rfl ?_ ?_
    · cases j with
      | union => simp [leaveSite, Site.join]
      | concat => exact Nat.lt_of_lt_of_le (h.ends x hx).1 graph.size_le
    · cases j with
      | union => simp [leaveSite, Site.join]
      | concat => exact Nat.lt_of_lt_of_le (h.ends y hy).2 graph.size_le
  | repetition b r x =>
    refine keeps_grow_addNfa (t := s.leaveSite b ((s.siteOf b).repetition r (s.nfa x)).2)
      ((s.siteOf b).extendsTo_repetition r (s.nfa x)) rfl ?_ ?_ <;>
      simp [leaveSite]
  | nfa i f =>
    have ends : i < s.graph.size ∧ f < s.graph.size := by simpa [Maker.mentions, has] using there
    exact keeps_addNfa ends.1 ends.2
  | next p l =>
    cases p with
    | live live => exact .refl s
    | cell c =>
      rw [Maker.make]
      split <;> exact .refl s

theorem keeps_apply (s : Session) (c : Change) :
    s.Keeps (c.apply s) (fun _ => False) (fun _ => False) := by
  cases c with
  | edge src l dest => exact .of_nfas (s.graph.extendsTo_addEdge src l dest) rfl
  | stateAccepting q value => exact .of_nfas (s.graph.extendsTo_setAccepting q value) rfl
  | cellAccepting _ _ | transition _ _ _ | logging _ => exact .of_nfas (.refl s.graph) rfl

theorem keeps_look (h : s.Coherent) {v : View} (there : v.mentions.all s.has = true) :
    s.Keeps (v.look s).2 (fun x => (Command.view v).ReadsStates x s)
      (fun x => (Command.view v).ReadsFinals x s) := by
  have one : ∀ x < s.nfas.size, ∀ y, x = y ↔ [Value.nfa x] = [.nfa y] ∧ y < s.nfas.size := by
    intro x hx y
    simp
    omega
  have both : ∀ x < s.nfas.size, ∀ y, x = y ↔ x = y ∧ y < s.nfas.size := by
    intro x hx y
    omega
  cases v with
  | states x | nfaSize x | triples x | symbols x =>
    have hx : x < s.nfas.size := by simpa [View.mentions, has] using there
    exact (keeps_viewStates hx).congr (one x hx) fun _ => Iff.rfl
  | finals x =>
    have hx : x < s.nfas.size := by simpa [View.mentions, has] using there
    exact (keeps_viewFinals h hx).congr (one x hx) (both x hx)
  | nfaReport x =>
    -- both views are read, one after the other; the second reading finds the states kept
    have hx : x < s.nfas.size := by simpa [View.mentions, has] using there
    have first := keeps_viewStates hx
    have hx' : x < (s.viewStates x).2.nfas.size := by rwa [size_nfas_viewStates]
    have second := keeps_viewFinals (first.coherent h) hx'
    refine (first.trans second (graph_viewFinals _ x)).congr (fun y => ?_) fun y => ?_
    · rw [or_self_iff]
      exact one x hx y
    · rw [false_or]
      exact both x hx y
  | finalSets x | dfaReport x =>
    refine (Keeps.of_nfas (by rw [graph_viewFinalSets]; exact .refl _)
      (nfas_viewFinalSets s x)).congr (fun y => ?_) fun _ => Iff.rfl
    simp [Command.ReadsStates, View.mentions]

/-- A new automaton is read at once if a log is written. -/
theorem keeps_announce {n : Nfa} (initial : n.initial < s.graph.size)
    (final : n.final < s.graph.size) (tokens : Text) :
    s.Keeps (s.announce n tokens).2 (fun x => s.logging = true ∧ s.nfas.size = x)
      (fun _ => False) := by
  have added := keeps_addNfa initial final
  have size : s.nfas.size < (s.addNfa n).2.nfas.size := by
    rw [size_nfas_addNfa]
    exact Nat.lt_succ_self _
  obtain ⟨graph, cells, nfas, dfas, builders, logging⟩ := s
  cases logging with
  | false => exact added.congr (fun x => by simp) fun _ => Iff.rfl
  | true =>
    exact (added.trans (keeps_viewStates size) (graph_viewStates _ _)).congr
      (fun x => by simp) fun _ => or_self_iff

theorem keeps_assemble (s : Session) (tokens : Text) (b : Option BuilderId) :
    s.Keeps (s.assemble tokens b).2
      (fun x => s.logging = true ∧ (s.assemble tokens b).1.answer = .ok (.value (.nfa x)))
      (fun _ => False) := by
  have grown := Assembly.extendsTo_assemble (Token.ofText tokens)
    ⟨s.graph, (b.map s.counter).getD 0⟩
  have graph : ∀ c, (s.takeOver b c).graph = c.graph := fun c => by cases b <;> rfl
  have nfas : ∀ c, (s.takeOver b c).nfas = s.nfas := fun c => by cases b <;> rfl
  have logging : ∀ c, (s.takeOver b c).logging = s.logging := fun c => by cases b <;> rfl
  have taken : s.Keeps (s.takeOver b (Assembly.assemble (Token.ofText tokens)
      ⟨s.graph, (b.map s.counter).getD 0⟩).2) (fun _ => False) (fun _ => False) :=
    .of_nfas (by rw [graph]; exact grown) (nfas _)
  unfold assemble
  match result : Assembly.assemble (Token.ofText tokens) ⟨s.graph, (b.map s.counter).getD 0⟩ with
  | (.error f, c) =>
    -- the states made up to the fault stay, but no automaton is there to be read
    rw [result] at taken
    exact taken.congr (fun x => by simp [Outcome.refused]) fun _ => Iff.rfl
  | (.ok n, c) =>
    rw [result] at taken
    obtain ⟨trim, -, -⟩ := Assembly.stock_of_assemble result
    have told := keeps_announce (s := s.takeOver b c) (by rw [graph]; exact trim.clean.initial_lt)
      (by rw [graph]; exact trim.clean.final_lt) tokens
    obtain ⟨answer, same, -⟩ := announce_eq (s.takeOver b c) n tokens
    refine (taken.trans told same).congr (fun x => ?_) fun _ => or_self_iff
    simp [answer, logging]

theorem keeps_compile (s : Session) (pattern : Text) :
    s.Keeps (s.compile pattern).2
      (fun x => s.logging = true ∧ (s.compile pattern).1.answer = .ok (.value (.nfa x)))
      (fun _ => False) := by
  unfold compile
  split
  · exact keeps_assemble s _ none
  · exact (Keeps.refl s).congr (fun x => by simp) fun _ => Iff.rfl

theorem keeps_determinize {x : NfaId} (hx : x < s.nfas.size) (alphabet : Option (List Label)) :
    s.Keeps (s.determinize x alphabet).2 (fun y => x = y) (fun _ => False) := by
  have found : (s.alphabetFor x alphabet).2 = s ∨
      (s.alphabetFor x alphabet).2 = (s.viewStates x).2 := by
    cases alphabet with
    | none => exact Or.inr rfl
    | some given => exact Or.inl rfl
  have viewed : s.Keeps ((s.alphabetFor x alphabet).2.viewStates x).2 (fun y => x = y)
      (fun _ => False) := by
    rcases found with same | same
    · rw [same]
      exact keeps_viewStates hx
    · -- the symbols were read off the states, so they are kept already
      rw [same]
      have hx' : x < (s.viewStates x).2.nfas.size := by rwa [size_nfas_viewStates]
      exact ((keeps_viewStates hx).trans (keeps_viewStates hx') (graph_viewStates _ x)).congr
        (fun _ => or_self_iff) fun _ => or_self_iff
  have rest : ((s.alphabetFor x alphabet).2.viewStates x).2.Keeps (s.determinize x alphabet).2
      (fun _ => False) (fun _ => False) := .of_nfas (.refl _) rfl
  exact (viewed.trans rest rfl).congr (fun y => or_iff_left id) fun _ => or_self_iff

/-- Only a command whose objects are there reads anything. -/
theorem there_of_readsStates {c : Command} {x : NfaId} (reads : c.ReadsStates x s) :
    c.mentions.all s.has = true := by
  cases c with
  | view v =>
    obtain ⟨about, hx⟩ := reads
    rw [Command.mentions, about]
    simpa [has] using hx
  | determinize y _ =>
    obtain ⟨rfl, hx⟩ := reads
    simpa [Command.mentions, has] using hx
  | assemble tokens b => exact (perform_of_ok reads.2).1
  | compile pattern => rfl
  | make _ | change _ | ask _ | arrange _ => exact reads.elim

theorem readsStates_of_readsFinals {c : Command} {x : NfaId} (reads : c.ReadsFinals x s) :
    c.ReadsStates x s := by
  match c with
  | .view (.finals y) | .view (.nfaReport y) =>
    obtain ⟨rfl, hx⟩ := reads
    exact ⟨rfl, hx⟩

/-- Any command, answered or refused, keeps what it reads, and nothing else. -/
theorem keeps_perform (h : s.Coherent) (c : Command) :
    s.Keeps (s.perform c).2 (fun x => c.ReadsStates x s) (fun x => c.ReadsFinals x s) := by
  by_cases there : c.mentions.all s.has = true
  · have executed : s.perform c = s.execute c := if_pos there
    rw [executed]
    cases c with
    | make m => exact keeps_make h there
    | change c => exact keeps_apply s c
    | ask q | arrange pattern => exact .refl s
    | view v => exact keeps_look h there
    | assemble tokens b =>
      refine (keeps_assemble s tokens b).congr (fun x => ?_) fun _ => Iff.rfl
      rw [Command.ReadsStates, executed]
      rfl
    | compile pattern =>
      refine (keeps_compile s pattern).congr (fun x => ?_) fun _ => Iff.rfl
      rw [Command.ReadsStates, executed]
      rfl
    | determinize x alphabet =>
      have hx : x < s.nfas.size := by simpa [Command.mentions, has] using there
      exact (keeps_determinize hx alphabet).congr
        (fun y => ⟨fun same => ⟨same, same ▸ hx⟩, fun reads => reads.1⟩) fun _ => Iff.rfl
  · -- a refused command has read nothing, as what it would read is not there
    have refused : (s.perform c).2 = s := by
      rw [perform, if_neg there]
    rw [refused]
    refine (Keeps.refl s).congr (fun x => ?_) fun x => ?_
    · exact iff_of_false id fun reads => there (there_of_readsStates reads)
    · exact iff_of_false id fun reads =>
        there (there_of_readsStates (readsStates_of_readsFinals reads))

/-! ## Runs -/

theorem coherent_fresh (logging : Bool) : (fresh logging).Coherent where
  ends x hx := absurd hx (Nat.not_lt_zero x)
  finals _ _ := rfl

theorem coherent_performAll (h : s.Coherent) (commands : List Command) :
    (s.performAll commands).Coherent := by
  induction commands generalizing s with
  | nil => exact h
  | cons c rest ih => exact ih ((keeps_perform h c).coherent h)

theorem extendsTo_performAll (h : s.Coherent) (commands : List Command) :
    s.ExtendsTo (s.performAll commands) := by
  induction commands generalizing s with
  | nil => exact .refl s
  | cons c rest ih =>
    have step := keeps_perform h c
    exact step.extendsTo.trans (ih (step.coherent h))

section never

variable {reads : Session → Command → Prop} {commands : List Command}

/-- What only some commands change stays through a run without any of them. -/
theorem of_never {M : Session → Prop}
    (step : ∀ s c, s.Coherent → M s → ¬ reads s c → M (s.perform c).2) (h : s.Coherent)
    (start : M s) (never : Never reads s commands) : M (s.performAll commands) := by
  induction commands generalizing s with
  | nil => exact start
  | cons c rest ih =>
    exact ih ((keeps_perform h c).coherent h) (step s c h start never.1) never.2

/-- A run has no command of a kind, or there is a first one. -/
theorem never_or_exists_first (reads : Session → Command → Prop) (s : Session)
    (commands : List Command) : Never reads s commands ∨ ∃ before c later,
      commands = before ++ c :: later ∧ Never reads s before ∧ reads (s.performAll before) c := by
  induction commands generalizing s with
  | nil => exact Or.inl trivial
  | cons c rest ih =>
    by_cases first : reads s c
    · exact Or.inr ⟨[], c, rest, rfl, trivial, first⟩
    · rcases ih (s.perform c).2 with never | ⟨before, d, later, rfl, never, found⟩
      · exact Or.inl ⟨first, never⟩
      · exact Or.inr ⟨c :: before, d, later, rfl, ⟨first, never⟩, found⟩

end never

/-- Nothing is kept of an automaton that was never read. -/
theorem keptStates_of_never {x : NfaId} {commands : List Command} (h : s.Coherent)
    (unkept : s.keptStates x = none) (never : Never (Command.ReadsStates x) s commands) :
    (s.performAll commands).keptStates x = none :=
  of_never (M := fun s => s.keptStates x = none)
    (fun _ c h unkept unread => (keeps_perform h c).unread x unkept unread) h unkept never

theorem keptFinals_of_never {x : NfaId} {commands : List Command} (h : s.Coherent)
    (unkept : s.keptFinals x = none) (never : Never (Command.ReadsFinals x) s commands) :
    (s.performAll commands).keptFinals x = none :=
  of_never (M := fun s => s.keptFinals x = none)
    (fun _ c h unkept unread => (keeps_perform h c).unreadFinals x unkept unread) h unkept never

end Session

end FiniteAutomata
