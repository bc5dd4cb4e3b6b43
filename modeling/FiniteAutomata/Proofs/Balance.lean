/-
  FiniteAutomata.Proofs.Balance

  When a token list can be put into postfix order, and what it then consists of. Only the
  parentheses decide whether it can: how many are open after each token (`depthAfter`). The
  marks of concatenation do not count. The result is made of the tokens that are read, without
  the parentheses (`toPostfix_perm`).
-/
import FiniteAutomata.Proofs.Placing

namespace FiniteAutomata

namespace Pattern

/-! ## Open parentheses -/

/-- How many parentheses are open behind a token list when `d` are open before it, or nothing
    if one is closed that was never opened. -/
def depthAfter (d : Nat) : List Token → Option Nat
  | [] => some d
  | .lparen :: rest => depthAfter (d + 1) rest
  | .rparen :: rest =>
    match d with
    | 0 => none
    | d + 1 => depthAfter d rest
  | .operand _ :: rest | .op _ :: rest => depthAfter d rest

theorem depthAfter_seam_append (u v rest : List Token) (d : Nat) :
    depthAfter d (seam u v ++ rest) = depthAfter d rest := by
  rw [seam]
  split <;> rfl

theorem depthAfter_markConcat (d : Nat) (tokens : List Token) :
    depthAfter d (markConcat tokens) = depthAfter d tokens := by
  induction tokens generalizing d with
  | nil => rfl
  | cons t rest ih =>
    rw [markConcat_cons]
    match t, d with
    | .operand x, d | .op o, d => exact (depthAfter_seam_append _ _ _ d).trans (ih d)
    | .lparen, d => exact (depthAfter_seam_append _ _ _ (d + 1)).trans (ih (d + 1))
    | .rparen, 0 => rfl
    | .rparen, d + 1 => exact (depthAfter_seam_append _ _ _ d).trans (ih d)

theorem depthAfter_cons_of_ne {c : Char} (hl : c ≠ '(') (hr : c ≠ ')') (d : Nat)
    (rest : List Token) : depthAfter d (Token.ofChar c :: rest) = depthAfter d rest := by
  have written := Token.ofChar_toChar c
  cases ht : Token.ofChar c with
  | operand x | op o => rfl
  | lparen =>
    rw [ht] at written
    exact absurd written.symm hl
  | rparen =>
    rw [ht] at written
    exact absurd written.symm hr

/-- A parenthesis is closed that was never opened just if some beginning of the pattern
    closes more than it opens. -/
theorem depthAfter_eq_none_iff (d : Nat) (pattern : Text) :
    depthAfter d (Token.ofText pattern) = none ↔
      ∃ u, u <+: pattern ∧ d + u.count '(' < u.count ')' := by
  induction pattern generalizing d with
  | nil =>
    constructor
    · intro h
      cases h
    · rintro ⟨u, hu, hlt⟩
      rw [List.prefix_nil.mp hu] at hlt
      exact absurd hlt (Nat.not_lt_zero _)
  | cons c rest ih =>
    -- The beginnings of the pattern but for the empty one start with its first character.
    have first : (∃ u, u <+: c :: rest ∧ d + u.count '(' < u.count ')') ↔
        ∃ u, u <+: rest ∧ d + (c :: u).count '(' < (c :: u).count ')' := by
      constructor
      · rintro ⟨u, hu, hlt⟩
        rcases List.prefix_cons_iff.mp hu with rfl | ⟨v, rfl, hv⟩
        · exact absurd hlt (Nat.not_lt_zero _)
        · exact ⟨v, hv, hlt⟩
      · rintro ⟨u, hu, hlt⟩
        exact ⟨c :: u, List.prefix_cons_iff.mpr (Or.inr ⟨u, rfl, hu⟩), hlt⟩
    rw [first]
    by_cases hl : c = '('
    · subst hl
      show depthAfter (d + 1) (Token.ofText rest) = none ↔ _
      rw [ih (d + 1)]
      simp [Nat.add_right_comm, Nat.add_assoc]
    by_cases hr : c = ')'
    · subst hr
      cases d with
      | zero =>
        refine ⟨fun _ => ⟨[], ⟨_, rfl⟩, by decide⟩, fun _ => rfl⟩
      | succ d =>
        show depthAfter d (Token.ofText rest) = none ↔ _
        rw [ih d]
        simp [Nat.add_right_comm]
    · show depthAfter d (Token.ofChar c :: Token.ofText rest) = none ↔ _
      rw [depthAfter_cons_of_ne hl hr, ih d]
      simp [hl, hr]

/-- How many parentheses are open in the end is what is opened less what is closed. -/
theorem depthAfter_add_count {d k : Nat} {pattern : Text}
    (h : depthAfter d (Token.ofText pattern) = some k) :
    k + pattern.count ')' = d + pattern.count '(' := by
  induction pattern generalizing d with
  | nil =>
    cases h
    rfl
  | cons c rest ih =>
    by_cases hl : c = '('
    · subst hl
      have counts := ih (d := d + 1) h
      simp
      omega
    by_cases hr : c = ')'
    · subst hr
      cases d with
      | zero => cases h
      | succ d =>
        have counts := ih (d := d) h
        simp
        omega
    · have counts := ih ((depthAfter_cons_of_ne hl hr d _).symm.trans h)
      simpa [hl, hr] using counts

/-- What is wrong with the parentheses, by how many are open in the end. -/
def imbalance : Option Nat → Except Imbalance Unit
  | none => .error .unbalanced
  | some 0 => .ok ()
  | some (_ + 1) => .error .unclosed

/-- Whether a token list can be put into postfix order depends on its parentheses alone. -/
theorem arrange_eq_imbalance (group : List Operator) (outer : List (List Operator))
    (tokens : List Token) :
    (arrange group outer tokens).map (fun _ => ()) =
      imbalance (depthAfter outer.length tokens) := by
  -- What is put out before the rest does not decide how the rest ends.
  have forget (x : Except Imbalance (List Token)) (out : List Token) :
      (x.map (out ++ ·)).map (fun _ => ()) = x.map fun _ => () := by
    cases x <;> rfl
  induction tokens generalizing group outer with
  | nil => cases outer <;> rfl
  | cons t rest ih =>
    match t, outer with
    | .operand x, outer => exact (forget _ [.operand x]).trans (ih group outer)
    | .op o, outer => exact (forget _ _).trans (ih _ outer)
    | .lparen, outer => exact ih [] (group :: outer)
    | .rparen, [] => rfl
    | .rparen, next :: outer => exact (forget _ _).trans (ih next outer)

/-! ## Contents -/

/-- Each token of a postfix form has a place among the tokens that are read. -/
theorem exists_placing_of_toPostfix {tokens out : List Token} (h : toPostfix tokens = .ok out) :
    ∃ placed, Placing [] (markConcat tokens) 0 placed ∧ placed.map Prod.fst = out :=
  @exists_placing [] [] _ _ _ (by simp) h

/-- The postfix form of a token list is made of its tokens, marks included and parentheses
    not. -/
theorem toPostfix_perm {tokens out : List Token} (h : toPostfix tokens = .ok out) :
    out.Perm ((markConcat tokens).filter fun t => !t.isParen) := by
  obtain ⟨placed, placing, rfl⟩ := exists_placing_of_toPostfix h
  exact placing.perm_fst

theorem isParen_of_mem_toPostfix {tokens out : List Token} (h : toPostfix tokens = .ok out) :
    ∀ t ∈ out, t.isParen = false := by
  intro t ht
  have hf := (List.mem_filter.mp ((toPostfix_perm h).mem_iff.mp ht)).2
  rwa [Bool.not_eq_true'] at hf

theorem mem_of_mem_markConcat {tokens : List Token} {t : Token} (h : t ∈ markConcat tokens) :
    t ∈ tokens ∨ t = .op (.binary .concat) := by
  induction tokens with
  | nil => cases h
  | cons u rest ih =>
    rw [markConcat_cons] at h
    rcases List.mem_cons.mp h with rfl | h
    · exact Or.inl List.mem_cons_self
    rcases List.mem_append.mp h with h | h
    · rw [seam] at h
      split at h
      · exact Or.inr (List.mem_singleton.mp h)
      · cases h
    · exact (ih h).imp_left (List.mem_cons_of_mem u)

theorem mem_markConcat_of_mem {tokens : List Token} {t : Token} (h : t ∈ tokens) :
    t ∈ markConcat tokens := by
  induction tokens with
  | nil => cases h
  | cons u rest ih =>
    rw [markConcat_cons]
    rcases List.mem_cons.mp h with rfl | h
    · exact List.mem_cons_self
    · exact List.mem_cons_of_mem u (List.mem_append_right _ (ih h))

/-- The postfix form of a pattern has the operands of the pattern. -/
theorem operand_mem_toPostfix {pattern : Text} {out : List Token}
    (h : toPostfix (Token.ofText pattern) = .ok out) (x : Char) :
    .operand x ∈ out ↔ x ∈ pattern ∧ (Token.ofChar x).isOperand = true := by
  have read : ∀ c : Char, Token.ofChar c = .operand x ↔ c = x ∧ (Token.ofChar x).isOperand = true := by
    intro c
    have written := Token.ofChar_toChar c
    constructor
    · intro hc
      have same : x = c := by rwa [hc] at written
      rw [same, hc]
      exact ⟨rfl, rfl⟩
    · rintro ⟨rfl, hx⟩
      cases hc : Token.ofChar c with
      | operand y => rw [← written, hc]; rfl
      | op o => rw [hc] at hx; cases hx
      | lparen => rw [hc] at hx; cases hx
      | rparen => rw [hc] at hx; cases hx
  rw [(toPostfix_perm h).mem_iff, List.mem_filter, and_iff_left (by rfl)]
  constructor
  · intro marked
    rcases mem_of_mem_markConcat marked with there | mark
    · obtain ⟨c, hc, hx⟩ := List.mem_map.mp there
      obtain ⟨rfl, operand⟩ := (read c).mp hx
      exact ⟨hc, operand⟩
    · cases mark
  · rintro ⟨hx, operand⟩
    exact mem_markConcat_of_mem (List.mem_map.mpr ⟨x, hx, (read x).mpr ⟨rfl, operand⟩⟩)

/-! ## Postfix form as a text -/

/-- A token that was read from a character is read from it again, and so is a mark. -/
theorem ofChar_toChar_of_mem_markConcat {pattern : Text} {t : Token}
    (h : t ∈ markConcat (Token.ofText pattern)) : Token.ofChar t.toChar = t := by
  rcases mem_of_mem_markConcat h with there | rfl
  · obtain ⟨c, -, rfl⟩ := List.mem_map.mp there
    rw [Token.ofChar_toChar]
  · rfl

theorem ofText_toText {tokens : List Token} (h : ∀ t ∈ tokens, Token.ofChar t.toChar = t) :
    Token.ofText (Token.toText tokens) = tokens := by
  rw [Token.ofText, Token.toText, List.map_map]
  exact (List.map_congr_left h).trans (List.map_id tokens)

/-- The postfix form of a pattern is read back token by token. -/
theorem ofText_toText_of_toPostfix {pattern : Text} {out : List Token}
    (h : toPostfix (Token.ofText pattern) = .ok out) : Token.ofText (Token.toText out) = out := by
  refine ofText_toText fun t ht => ?_
  have read := (List.mem_filter.mp ((toPostfix_perm h).mem_iff.mp ht)).1
  exact ofChar_toChar_of_mem_markConcat read

end Pattern

end FiniteAutomata
