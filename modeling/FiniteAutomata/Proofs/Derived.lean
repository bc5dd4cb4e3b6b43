/-
  FiniteAutomata.Proofs.Derived

  The tokens of derived patterns. A derived pattern starts with something that may follow an
  operand and ends with something that an operand may follow; so the marks of concatenation
  that are put in are those that the tree calls for, and no others.
-/
import FiniteAutomata.Proofs.Grammar
import FiniteAutomata.Proofs.Marks

namespace FiniteAutomata

namespace Token

theorem ofChar_of_not_mem {x : Char} (hx : x ∉ Pattern.reserved) : ofChar x = operand x := by
  unfold ofChar
  split <;> first | rfl | exact absurd (by decide) hx

theorem not_mem_reserved {c x : Char} (h : ofChar c = operand x) : c ∉ Pattern.reserved := by
  intro hc
  obtain ⟨t, ht, rfl⟩ := List.mem_map.mp hc
  have read : ∀ t ∈ reserved, (ofChar t.toChar).isOperand = false := by decide
  have stands := read t ht
  rw [h] at stands
  cases stands

theorem ofText_append (u v : Text) : ofText (u ++ v) = ofText u ++ ofText v :=
  List.map_append

theorem toText_append (u v : List Token) : toText (u ++ v) = toText u ++ toText v :=
  List.map_append

theorem ofChar_toChar_op (o : Operator) : ofChar o.toChar = op o := by
  match o with
  | .unary .star | .unary .plus | .unary .question => rfl
  | .binary .union | .binary .concat => rfl

end Token

namespace Pattern

namespace Tree

variable {l : Level}

/-! ## Tokens of a tree -/

/-- The tokens of a tree, with a mark of concatenation between any two parts that are joined. -/
def marked : {l : Level} → Tree l → List Token
  | _, ofTerm t => t.marked
  | _, union e t => e.marked ++ .op (.binary .union) :: t.marked
  | _, ofFactor f => f.marked
  | _, juxtaposed t f => t.marked ++ .op (.binary .concat) :: f.marked
  | _, joined t f => t.marked ++ .op (.binary .concat) :: f.marked
  | _, ofAtom a => a.marked
  | _, repeated f r => f.marked ++ [.op (.unary r)]
  | _, operand x _ => [.operand x]
  | _, group e => .lparen :: (e.marked ++ [.rparen])

/-! ## Putting in the marks -/

theorem ofText_union (e : Tree .expr) (t : Tree .term) : Token.ofText (union e t).text =
    Token.ofText e.text ++ .op (.binary .union) :: Token.ofText t.text := by
  rw [text, Token.ofText_append]
  rfl

theorem ofText_juxtaposed (t : Tree .term) (f : Tree .factor) :
    Token.ofText (juxtaposed t f).text = Token.ofText t.text ++ Token.ofText f.text := by
  rw [text, Token.ofText_append]

theorem ofText_joined (t : Tree .term) (f : Tree .factor) : Token.ofText (joined t f).text =
    Token.ofText t.text ++ .op (.binary .concat) :: Token.ofText f.text := by
  rw [text, Token.ofText_append]
  rfl

theorem ofText_repeated (f : Tree .factor) (r : Repetition) :
    Token.ofText (repeated f r).text = Token.ofText f.text ++ [.op (.unary r)] := by
  rw [text, Token.ofText_append, ← Token.ofChar_toChar_op]
  rfl

theorem ofText_operand (x : Char) (hx : x ∉ reserved) :
    Token.ofText (operand x hx).text = [.operand x] := by
  rw [text, ← Token.ofChar_of_not_mem hx]
  rfl

theorem ofText_group (e : Tree .expr) :
    Token.ofText (group e).text = .lparen :: (Token.ofText e.text ++ [.rparen]) := by
  rw [text, ← List.singleton_append, Token.ofText_append, Token.ofText_append]
  rfl

/-- The first token of a derived pattern may follow an operand. -/
theorem opens (t : Tree l) :
    ∃ u rest, Token.ofText t.text = u :: rest ∧ u.startsOperand = true := by
  induction t with
  | ofTerm t ih | ofFactor f ih | ofAtom a ih => rw [text]; exact ih
  | union e t ih _ =>
    obtain ⟨u, rest, hu, starts⟩ := ih
    exact ⟨u, _, by rw [ofText_union, hu, List.cons_append], starts⟩
  | juxtaposed t f ih _ =>
    obtain ⟨u, rest, hu, starts⟩ := ih
    exact ⟨u, _, by rw [ofText_juxtaposed, hu, List.cons_append], starts⟩
  | joined t f ih _ =>
    obtain ⟨u, rest, hu, starts⟩ := ih
    exact ⟨u, _, by rw [ofText_joined, hu, List.cons_append], starts⟩
  | repeated f r ih =>
    obtain ⟨u, rest, hu, starts⟩ := ih
    exact ⟨u, _, by rw [ofText_repeated, hu, List.cons_append], starts⟩
  | operand x hx => exact ⟨_, [], ofText_operand x hx, rfl⟩
  | group e _ => exact ⟨_, _, ofText_group e, rfl⟩

/-- The last token of a derived pattern may stand before an operand. -/
theorem closes (t : Tree l) :
    ∃ rest u, Token.ofText t.text = rest ++ [u] ∧ u.endsOperand = true := by
  induction t with
  | ofTerm t ih | ofFactor f ih | ofAtom a ih => rw [text]; exact ih
  | union e t _ ih =>
    obtain ⟨rest, u, hu, ends⟩ := ih
    exact ⟨_, u, by rw [ofText_union, hu, ← List.cons_append, ← List.append_assoc], ends⟩
  | juxtaposed t f _ ih =>
    obtain ⟨rest, u, hu, ends⟩ := ih
    exact ⟨_, u, by rw [ofText_juxtaposed, hu, ← List.append_assoc], ends⟩
  | joined t f _ ih =>
    obtain ⟨rest, u, hu, ends⟩ := ih
    exact ⟨_, u, by rw [ofText_joined, hu, ← List.cons_append, ← List.append_assoc], ends⟩
  | repeated f r _ => exact ⟨_, _, ofText_repeated f r, rfl⟩
  | operand x hx => exact ⟨[], _, ofText_operand x hx, rfl⟩
  | group e _ => exact ⟨.lparen :: _, _, ofText_group e, rfl⟩

/-- Putting in the missing marks gives the tokens of the tree. -/
theorem markConcat_ofText (t : Tree l) : markConcat (Token.ofText t.text) = t.marked := by
  induction t with
  | ofTerm t ih | ofFactor f ih | ofAtom a ih => rw [text, marked, ih]
  | union e t ihe iht =>
    rw [ofText_union, markConcat_append_of_not_startsOperand rfl,
      markConcat_cons_of_not_endsOperand rfl, ihe, iht, marked]
  | juxtaposed t f iht ihf =>
    -- This is the only seam where a mark is put in.
    obtain ⟨rest, u, hu, ends⟩ := closes t
    obtain ⟨u', rest', hu', starts⟩ := opens f
    have mark : seam (Token.ofText t.text) (Token.ofText f.text) = [.op (.binary .concat)] := by
      rw [hu, hu', seam_of_joined ends starts]
    rw [ofText_juxtaposed, markConcat_append, mark, iht, ihf, marked, List.singleton_append]
  | joined t f iht ihf =>
    rw [ofText_joined, markConcat_append_of_not_startsOperand rfl,
      markConcat_cons_of_not_endsOperand rfl, iht, ihf, marked]
  | repeated f r ih =>
    rw [ofText_repeated, markConcat_append_of_not_startsOperand rfl, ih, marked, markConcat]
  | operand x hx => rw [ofText_operand, markConcat, marked]
  | group e ih => rw [ofText_group, markConcat_enclosed, ih, marked]

theorem marked_factor (f : Tree .factor) :
    f.marked = f.core.marked ++ f.run.map fun r => .op (.unary r) := by
  match f with
  | ofAtom a => rw [marked, core, run, List.map_nil, List.append_nil]
  | repeated f r =>
    rw [marked, marked_factor f, core, run, List.map_append, List.append_assoc]
    rfl

end Tree

end Pattern

end FiniteAutomata
