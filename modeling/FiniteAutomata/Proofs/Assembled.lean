/-
  FiniteAutomata.Proofs.Assembled

  The automaton of tokens in postfix order accepts the language that the tokens stand for.
  The invariant of the assembly (`Stands`) is about all waiting automata at once: each is
  clean, accepts its language of the stack, and has no state in common with the others. A
  rule takes some of them off and puts one back; the rest is not disturbed.
-/
import FiniteAutomata.Nfa.Assembly
import FiniteAutomata.Proofs.Laws

namespace FiniteAutomata

/-- A letter as a symbol. -/
def Text.ofLetter (x : Char) : Text := [x]

theorem map_letter (x : Char) :
    Language.map Text.ofLetter {[x]} = ({[Text.ofLetter x]} : Language Text) :=
  Set.image_singleton

/-- The waiting automata stand for the languages on a stack: each accepts its language, and
    no two of them hold a state in common. -/
inductive Stands (g : Graph) : List Nfa → List (Language Char) → Prop
  | nil : Stands g [] []
  | cons {n : Nfa} {L : Language Char} {stack : List Nfa} {langs : List (Language Char)} :
      n.Clean g → n.language g = L.map Text.ofLetter → (∀ m ∈ stack, Nfa.Apart g n m) →
      Stands g stack langs → Stands g (n :: stack) (L :: langs)

namespace Stands

variable {g h : Graph} {n : Nfa} {used stack : List Nfa} {L : Language Char}
  {langs : List (Language Char)}

theorem clean (st : Stands g stack langs) : ∀ m ∈ stack, m.Clean g := by
  induction st with
  | nil => simp
  | cons hn _ _ _ ih =>
    intro m hm
    rcases List.mem_cons.mp hm with rfl | hm
    · exact hn
    · exact ih m hm

/-- Automata whose states are left alone go on standing for their languages. -/
theorem of_sameOn (st : Stands g stack langs) (size : g.size ≤ h.size)
    (same : ∀ m ∈ stack, Graph.SameOn g h (m.Holds g)) : Stands h stack langs := by
  induction st with
  | nil => exact .nil
  | @cons n L stack langs hn hL apart _ ih =>
    have hsame := same n (by simp)
    refine .cons (hn.of_sameOn size hsame) ?_ (fun m hm => ?_)
      (ih fun m hm => same m (List.mem_cons_of_mem n hm))
    · rw [Nfa.language_of_sameOn hsame, hL]
    · intro q hq hmq
      rw [Nfa.holds_iff_of_sameOn hsame] at hq
      rw [Nfa.holds_iff_of_sameOn (same m (List.mem_cons_of_mem n hm))] at hmq
      exact apart m hm q hq hmq

/-- A rule leaves the states of automata that are no operands alone. -/
theorem sameOn_of_yields (y : Yields g used n h) {m : Nfa} (hm : m.Clean g)
    (apart : ∀ x ∈ used, Nfa.Apart g x m) : Graph.SameOn g h (m.Holds g) := by
  intro q hq
  refine y.same q (hm.lt_size hq) fun x hx hqx => ?_
  exact apart x hx q (Or.inr hqx) hq

/-- A rule puts its result on the stack in place of its operands. -/
theorem push (st : Stands g stack langs) (y : Yields g used n h)
    (hL : n.language h = L.map Text.ofLetter)
    (apart : ∀ m ∈ stack, ∀ x ∈ used, Nfa.Apart g x m) :
    Stands h (n :: stack) (L :: langs) := by
  have same : ∀ m ∈ stack, Graph.SameOn g h (m.Holds g) := fun m hm =>
    sameOn_of_yields y (st.clean m hm) (apart m hm)
  refine .cons y.clean hL (fun m hm q hq hmq => ?_) (st.of_sameOn y.size_le same)
  -- What the new automaton holds is new or was held by an operand.
  rw [Nfa.holds_iff_of_sameOn (same m hm)] at hmq
  rcases y.holds q hq with hnew | ⟨x, hx, hxq⟩
  · exact absurd ((st.clean m hm).lt_size hmq) (Nat.not_lt.mpr hnew)
  · exact apart m hm x hx q hxq hmq

end Stands

namespace Assembly

/-! ## Single tokens -/

theorem assembleFrom_operand (pos : Nat) (stack : List Nfa) (c : Site) (x : Char)
    (rest : List Token) : assembleFrom pos stack c (.operand x :: rest) =
      assembleFrom (pos + 1) ((c.symbol [x]).1 :: stack) (c.symbol [x]).2 rest := rfl

theorem assembleFrom_unary (pos : Nat) (x : Nfa) (stack : List Nfa) (c : Site)
    (r : Repetition) (rest : List Token) :
    assembleFrom pos (x :: stack) c (.op (.unary r) :: rest) =
      assembleFrom (pos + 1) ((c.repetition r x).1 :: stack) (c.repetition r x).2 rest := rfl

theorem assembleFrom_binary (pos : Nat) (x y : Nfa) (stack : List Nfa) (c : Site)
    (j : Connective) (rest : List Token) :
    assembleFrom pos (y :: x :: stack) c (.op (.binary j) :: rest) =
      assembleFrom (pos + 1) ((c.join j x y).1 :: stack) (c.join j x y).2 rest := rfl

/-! ## Whole token lists -/

/-- Tokens that leave one language on the stack leave the automaton of that language. -/
theorem assembleFrom_of_eval {pos : Nat} {stack : List Nfa} {c : Site} {tokens : List Token}
    {langs : List (Language Char)} {L : Language Char} (st : Stands c.graph stack langs)
    (he : Pattern.eval langs tokens = some [L]) :
    ∃ n d, assembleFrom pos stack c tokens = (.ok n, d) ∧ n.Clean d.graph ∧
      n.language d.graph = L.map Text.ofLetter := by
  -- The stack of languages says which rule is used; `push` restores the invariant after it.
  induction tokens generalizing pos stack c langs with
  | nil =>
    cases he
    cases st with
    | cons hn hL _ rest =>
      cases rest
      exact ⟨_, c, rfl, hn, hL⟩
  | cons t rest ih =>
    rw [Pattern.eval] at he
    obtain ⟨next, ht, he⟩ := Option.bind_eq_some_iff.mp he
    cases t with
    | operand x =>
      cases ht
      rw [assembleFrom_operand]
      refine ih (st.push (Site.yields_symbol [x] c) ?_ (by simp)) he
      rw [Site.language_symbol, map_letter]
      rfl
    | op o =>
      cases o with
      | unary r =>
        cases st with
        | nil => cases ht
        | cons hx hK apart rest =>
          cases ht
          rw [assembleFrom_unary]
          refine ih (rest.push (Site.yields_repetition r hx) ?_ (by simpa using apart)) he
          rw [Site.language_repetition r hx, hK, Repetition.map_apply]
      | binary j =>
        cases st with
        | nil => cases ht
        | cons hy hM aparty rest =>
          cases rest with
          | nil => cases ht
          | cons hx hK apartx rest =>
            cases ht
            have apart := (aparty _ List.mem_cons_self).symm
            rw [assembleFrom_binary]
            refine ih (rest.push (Site.yields_join j hx hy apart) ?_ (fun m hm z hz => ?_)) he
            · rw [Site.language_join j hx hy apart, hK, hM, Connective.map_apply]
            · rcases List.mem_pair.mp hz with rfl | rfl
              · exact apartx m hm
              · exact aparty m (List.mem_cons_of_mem _ hm)
    | lparen => cases ht
    | rparen => cases ht

/-- Tokens that leave one language make the automaton of that language. -/
theorem assemble_of_eval {tokens : List Token} {L : Language Char} (c : Site)
    (he : Pattern.eval [] tokens = some [L]) :
    ∃ n d, assemble tokens c = (.ok n, d) ∧ n.Clean d.graph ∧
      n.language d.graph = L.map Text.ofLetter :=
  assembleFrom_of_eval .nil he

end Assembly

end FiniteAutomata
