/-
  FiniteAutomata.Proofs.Verdict

  What becomes of any pattern when it is compiled. Neither of the two stages checks the
  grammar: the first one looks at the parentheses, the second one at the number of operands.
  Together they accept just the patterns that have a tree.
-/
import FiniteAutomata.Proofs.Compiled
import FiniteAutomata.Proofs.Reading

namespace FiniteAutomata

namespace Pattern

/-- Some beginning of the pattern closes more parentheses than it opens. -/
def Overclosed (pattern : Text) : Prop := ∃ u, u <+: pattern ∧ u.count '(' < u.count ')'

/-- The pattern is a number of opening parentheses and as many closing ones. -/
def Hollow (pattern : Text) : Prop :=
  ∃ n, pattern = List.replicate n '(' ++ List.replicate n ')'

/-- The pattern has a tree. -/
def Derivable (pattern : Text) : Prop := ∃ e : Tree .expr, e.text = pattern

theorem depthAfter_eq_none_iff_overclosed {pattern : Text} :
    depthAfter 0 (Token.ofText pattern) = none ↔ Overclosed pattern := by
  rw [depthAfter_eq_none_iff]
  simp only [Nat.zero_add, Overclosed]

/-! ## Results without their values -/

theorem eq_error_of_forget {ε α : Type} {x : Except ε α} {i : ε}
    (h : x.map (fun _ => ()) = .error i) : x = .error i := by
  cases x with
  | ok a => cases h
  | error j => exact congrArg Except.error (Except.error.inj h)

theorem exists_of_forget {ε α : Type} {x : Except ε α} (h : x.map (fun _ => ()) = .ok ()) :
    ∃ a, x = .ok a := by
  cases x with
  | ok a => exact ⟨a, rfl⟩
  | error j => cases h

/-! ## The first stage -/

theorem toPostfix_eq_imbalance (tokens : List Token) :
    (toPostfix tokens).map (fun _ => ()) = imbalance (depthAfter 0 tokens) := by
  rw [toPostfix, arrange_eq_imbalance, List.length_nil, depthAfter_markConcat]

theorem toPostfix_of_none {tokens : List Token} (h : depthAfter 0 tokens = none) :
    toPostfix tokens = .error .unbalanced :=
  eq_error_of_forget ((toPostfix_eq_imbalance tokens).trans (congrArg imbalance h))

theorem toPostfix_of_succ {tokens : List Token} {k : Nat}
    (h : depthAfter 0 tokens = some (k + 1)) : toPostfix tokens = .error .unclosed :=
  eq_error_of_forget ((toPostfix_eq_imbalance tokens).trans (congrArg imbalance h))

theorem toPostfix_of_zero {tokens : List Token} (h : depthAfter 0 tokens = some 0) :
    ∃ out, toPostfix tokens = .ok out :=
  exists_of_forget ((toPostfix_eq_imbalance tokens).trans (congrArg imbalance h))

/-! ## Hollow patterns -/

/-- The tokens of a hollow pattern. -/
def nested (n : Nat) : List Token := List.replicate n .lparen ++ List.replicate n .rparen

theorem nested_succ (n : Nat) : nested (n + 1) = .lparen :: (nested n ++ [.rparen]) := by
  rw [nested, List.replicate_succ, List.replicate_succ', nested, List.cons_append,
    List.append_assoc]

theorem markConcat_nested (n : Nat) : markConcat (nested n) = nested n := by
  induction n with
  | zero => rfl
  | succ n ih => rw [nested_succ, markConcat_enclosed, ih]

theorem emits_nested (n : Nat) : Emits [] (nested n) [] [] := by
  induction n with
  | zero => exact .nil
  | succ n ih =>
    rw [nested_succ]
    exact ih.enclosed

theorem toPostfix_of_hollow {pattern : Text} (h : Hollow pattern) :
    toPostfix (Token.ofText pattern) = .ok [] := by
  obtain ⟨n, rfl⟩ := h
  have tokens : Token.ofText (List.replicate n '(' ++ List.replicate n ')') = nested n := by
    rw [Token.ofText_append, Token.ofText, Token.ofText, List.map_replicate, List.map_replicate]
    rfl
  rw [tokens, toPostfix, markConcat_nested, (emits_nested n).arrange_eq]
  rfl

/-- Where no mark belongs between parentheses, all opening ones come first. -/
theorem exists_replicate_of_isParen {tokens : List Token}
    (h : ∀ t ∈ markConcat tokens, t.isParen = true) :
    ∃ a b, tokens = List.replicate a .lparen ++ List.replicate b .rparen := by
  induction tokens with
  | nil => exact ⟨0, 0, rfl⟩
  | cons t rest ih =>
    rw [markConcat_cons] at h
    have inner : ∀ u ∈ seam [t] rest ++ markConcat rest, u.isParen = true := by
      intro u hu
      exact h u (List.mem_cons_of_mem t hu)
    obtain ⟨a, b, rfl⟩ := ih fun u hu => inner u (List.mem_append_right _ hu)
    have ht := h t List.mem_cons_self
    match t, a with
    | .lparen, a => exact ⟨a + 1, b, rfl⟩
    | .rparen, 0 => exact ⟨0, b + 1, rfl⟩
    | .rparen, a + 1 =>
      -- A mark belongs between `)` and `(`.
      have mark : Token.op (.binary .concat) ∈ seam [.rparen]
          (List.replicate (a + 1) .lparen ++ List.replicate b .rparen) := List.mem_singleton_self _
      cases inner _ (List.mem_append_left _ mark)
    | .operand _, _ | .op _, _ => cases ht

/-- Only a hollow pattern has an empty postfix form. -/
theorem hollow_of_toPostfix {pattern : Text} (h : toPostfix (Token.ofText pattern) = .ok [])
    (closed : depthAfter 0 (Token.ofText pattern) = some 0) : Hollow pattern := by
  have none_left := (toPostfix_perm h).symm.eq_nil
  have parens : ∀ t ∈ markConcat (Token.ofText pattern), t.isParen = true := by
    intro t ht
    have dropped := List.filter_eq_nil_iff.mp none_left t ht
    rwa [Bool.not_eq_true, Bool.not_eq_false'] at dropped
  obtain ⟨a, b, tokens⟩ := exists_replicate_of_isParen parens
  have text : pattern = List.replicate a '(' ++ List.replicate b ')' := by
    rw [← Token.toText_ofText pattern, tokens, Token.toText, List.map_append, List.map_replicate,
      List.map_replicate]
    rfl
  -- The parentheses match, so there are as many of either kind.
  have counts := depthAfter_add_count closed
  rw [text] at counts
  simp [List.count_replicate] at counts
  exact ⟨a, counts ▸ text⟩

/-! ## The second stage -/

theorem countP_toPostfix {tokens out : List Token} (h : toPostfix tokens = .ok out)
    {p : Token → Bool} (hp : ∀ t, p t = true → t.isParen = false) :
    out.countP p = (markConcat tokens).countP p := by
  rw [(toPostfix_perm h).countP_eq, List.countP_filter]
  refine List.countP_congr fun t _ => ?_
  rw [Bool.and_eq_true, Bool.not_eq_true']
  exact ⟨fun ht => ht.1, fun ht => ⟨ht, hp t ht⟩⟩

/-- The postfix form of a pattern makes no automaton if it is empty or if an operand is
    missing, and otherwise it makes one. -/
theorem assemble_toPostfix {tokens out : List Token} (h : toPostfix tokens = .ok out) (c : Site) :
    (out = [] ∧ (Assembly.assemble out c).1 = .error .noOperand) ∨
      (missing false tokens = 0 ∧ ∃ n, (Assembly.assemble out c).1 = .ok n) ∨
      ∃ o pos, (Assembly.assemble out c).1 = .error (.missingOperand o pos) := by
  have outcome := Assembly.assembleFrom_outcome 0 [] c out
  rw [List.length_nil] at outcome
  cases heights : Assembly.heightFrom 0 0 out with
  | error f =>
    -- No parenthesis is left, so it can only be an operand that is missing.
    have plain : ∀ t ∈ out, t ≠ .lparen ∧ t ≠ .rparen := by
      intro t ht
      have open_or_close := isParen_of_mem_toPostfix h t ht
      constructor
      · rintro rfl
        cases open_or_close
      · rintro rfl
        cases open_or_close
    obtain ⟨o, pos, rfl⟩ := Assembly.missingOperand_of_error plain heights
    rw [heights] at outcome
    exact Or.inr (Or.inr ⟨o, pos, eq_error_of_forget outcome⟩)
  | ok k =>
    rw [heights] at outcome
    obtain ⟨counts, positive⟩ := Assembly.height_of_ok heights
    have operands := countP_toPostfix h (p := Token.isOperand) fun t ht => by
      cases t <;> first | rfl | cases ht
    have binaries := countP_toPostfix h (p := Token.isBinary) fun t ht => by
      cases t <;> first | rfl | cases ht
    have gaps := operands_add_missing tokens
    -- The height in the end and the missing operands are one together.
    have one : k + missing false tokens = 1 := by omega
    by_cases empty : out = []
    · subst empty
      exact Or.inl ⟨rfl, rfl⟩
    · obtain rfl : k = 1 := by
        have := positive (Or.inr empty)
        omega
      exact Or.inr (Or.inl ⟨by omega, exists_of_forget outcome⟩)

end Pattern

/-! ## Both stages -/

namespace Session

open Pattern

variable {pattern : Text}

theorem compile_of_overclosed (s : Session) (h : Overclosed pattern) :
    (s.compile pattern).1.answer = .error (.imbalance .unbalanced pattern) :=
  compile_of_imbalance (toPostfix_of_none (depthAfter_eq_none_iff_overclosed.mpr h))

theorem compile_of_unclosed (s : Session) (h : ¬ Overclosed pattern)
    (more : pattern.count ')' < pattern.count '(') :
    (s.compile pattern).1.answer = .error (.imbalance .unclosed pattern) := by
  match hd : depthAfter 0 (Token.ofText pattern) with
  | none => exact absurd (depthAfter_eq_none_iff_overclosed.mp hd) h
  | some 0 =>
    have counts := depthAfter_add_count hd
    omega
  | some (k + 1) => exact compile_of_imbalance (toPostfix_of_succ hd)

theorem compile_of_hollow (s : Session) (h : Hollow pattern) :
    (s.compile pattern).1.answer = .error (.assembly .noOperand []) :=
  compile_of_error (toPostfix_of_hollow h) rfl

theorem compile_of_derivable (s : Session) (h : Derivable pattern) :
    ∃ x, (s.compile pattern).1.answer = .ok (.value (.nfa x)) := by
  obtain ⟨e, rfl⟩ := h
  exact ⟨_, (compile_text s e).1⟩

theorem compile_of_closed (s : Session) (closed : depthAfter 0 (Token.ofText pattern) = some 0) :
    Hollow pattern ∨ Derivable pattern ∨ ∃ o pos tokens,
      (s.compile pattern).1.answer = .error (.assembly (.missingOperand o pos) tokens) := by
  obtain ⟨out, arranged⟩ := toPostfix_of_zero closed
  rcases assemble_toPostfix arranged ⟨s.graph, 0⟩ with ⟨rfl, -⟩ | ⟨complete, -⟩ | ⟨o, pos, error⟩
  · exact Or.inl (hollow_of_toPostfix arranged closed)
  · exact Or.inr (Or.inl (exists_tree closed complete))
  · exact Or.inr (Or.inr ⟨o, pos, _, compile_of_error arranged error⟩)

/-- There is no other kind of pattern. -/
theorem compile_cases (s : Session) (pattern : Text) :
    Overclosed pattern ∨ (¬ Overclosed pattern ∧ pattern.count ')' < pattern.count '(') ∨
      Hollow pattern ∨ Derivable pattern ∨ ∃ o pos tokens,
        (s.compile pattern).1.answer = .error (.assembly (.missingOperand o pos) tokens) := by
  by_cases early : Overclosed pattern
  · exact Or.inl early
  match hd : depthAfter 0 (Token.ofText pattern) with
  | none => exact absurd (depthAfter_eq_none_iff_overclosed.mp hd) early
  | some 0 => exact Or.inr (Or.inr (compile_of_closed s hd))
  | some (k + 1) =>
    have counts := depthAfter_add_count hd
    exact Or.inr (Or.inl ⟨early, by omega⟩)

/-- What a pattern compiles to, or why it does not. -/
theorem compile_outcome (s : Session) (pattern : Text) :
    (Overclosed pattern →
      (s.compile pattern).1.answer = .error (.imbalance .unbalanced pattern)) ∧
    (¬ Overclosed pattern → pattern.count ')' < pattern.count '(' →
      (s.compile pattern).1.answer = .error (.imbalance .unclosed pattern)) ∧
    (Hollow pattern → (s.compile pattern).1.answer = .error (.assembly .noOperand [])) ∧
    (Derivable pattern → ∃ x, (s.compile pattern).1.answer = .ok (.value (.nfa x))) ∧
    (¬ Overclosed pattern → pattern.count '(' ≤ pattern.count ')' → ¬ Hollow pattern →
      ¬ Derivable pattern → ∃ o pos tokens,
        (s.compile pattern).1.answer = .error (.assembly (.missingOperand o pos) tokens)) ∧
    (∀ t pos tokens,
      (s.compile pattern).1.answer ≠ .error (.assembly (.unknownOperator t pos) tokens)) ∧
    ∀ count tokens,
      (s.compile pattern).1.answer ≠ .error (.assembly (.leftOver count) tokens) := by
  refine ⟨compile_of_overclosed s, compile_of_unclosed s, compile_of_hollow s,
    compile_of_derivable s, fun early fewer hollow derivable => ?_, ?_⟩
  · -- every other kind of pattern is excluded
    rcases compile_cases s pattern with h | ⟨-, more⟩ | h | h | missing
    · exact absurd h early
    · exact absurd more (Nat.not_lt.mpr fewer)
    · exact absurd h hollow
    · exact absurd h derivable
    · exact missing
  · -- no kind of pattern ends in one of the other two faults
    rcases compile_cases s pattern with h | ⟨early, more⟩ | h | h | ⟨o, pos, tokens, missing⟩
    · rw [compile_of_overclosed s h]
      simp
    · rw [compile_of_unclosed s early more]
      simp
    · rw [compile_of_hollow s h]
      simp
    · obtain ⟨x, ok⟩ := compile_of_derivable s h
      rw [ok]
      simp
    · rw [missing]
      simp

theorem compile_outcome_each :
    ((fresh false).compile ")(".toList).1.answer =
        .error (.imbalance .unbalanced ")(".toList) ∧
      ((fresh false).compile "(a".toList).1.answer =
        .error (.imbalance .unclosed "(a".toList) ∧
      ((fresh false).compile "()".toList).1.answer = .error (.assembly .noOperand []) ∧
      (∃ x, ((fresh false).compile "a*".toList).1.answer = .ok (.value (.nfa x))) ∧
      ∃ o pos tokens, ((fresh false).compile "*a".toList).1.answer =
        .error (.assembly (.missingOperand o pos) tokens) := by
  have open_only : ¬ Overclosed "(a".toList := by
    rw [← depthAfter_eq_none_iff_overclosed]
    decide
  have matching : ¬ Overclosed "*a".toList := by
    rw [← depthAfter_eq_none_iff_overclosed]
    decide
  have star_a : Derivable "a*".toList :=
    ⟨.ofTerm (.ofFactor (.repeated (.ofAtom (.operand 'a' (by decide))) .star)), by
      simp [Tree.text, Repetition.toChar]⟩
  have filled : ¬ Hollow "*a".toList := by
    rintro ⟨n, hn⟩
    have member : '*' ∈ List.replicate n '(' ++ List.replicate n ')' := hn ▸ List.mem_cons_self
    simp at member
  have headless : ¬ Derivable "*a".toList := by
    rintro ⟨e, he⟩
    obtain ⟨u, rest, hu, starts⟩ := e.opens
    rw [he] at hu
    cases hu
    cases starts
  exact ⟨(compile_outcome (fresh false) _).1 ⟨[')'], ⟨['('], rfl⟩, by decide⟩,
    (compile_outcome (fresh false) _).2.1 open_only (by decide),
    (compile_outcome (fresh false) _).2.2.1 ⟨1, rfl⟩,
    (compile_outcome (fresh false) _).2.2.2.1 star_a,
    (compile_outcome (fresh false) _).2.2.2.2.1 matching (by decide) filled headless⟩

end Session

end FiniteAutomata
