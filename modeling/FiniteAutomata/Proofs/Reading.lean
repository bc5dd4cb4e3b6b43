/-
  FiniteAutomata.Proofs.Reading

  Patterns that have a tree. If the parentheses of a pattern match and no operand is missing
  in it, it can be derived (`exists_tree`). The proof reads the pattern from left to right
  and keeps what a reader keeps: for each open group the part before the last `|` and the
  factors behind it, and the factor that was read last.
-/
import FiniteAutomata.Proofs.Balance
import FiniteAutomata.Proofs.Derived
import FiniteAutomata.Proofs.Gaps

namespace FiniteAutomata

namespace Pattern

/-- What is read of a group, up to where the next factor starts. -/
structure OpenGroup where
  /-- The part before the last `|`. -/
  before : Option (Tree .expr)
  /-- The factors behind it, and whether a mark of concatenation follows them. -/
  left : Option (Tree .term × Bool)

namespace OpenGroup

/-- A group of which nothing is read. -/
def empty : OpenGroup := ⟨none, none⟩

/-- The text of the part before the last `|`. -/
def beforeText : Option (Tree .expr) → Text
  | some e => e.text ++ ['|']
  | none => []

/-- The text of the factors behind it. -/
def leftText : Option (Tree .term × Bool) → Text
  | some (t, true) => t.text ++ ['·']
  | some (t, false) => t.text
  | none => []

/-- The text that is read of a group. -/
def text (group : OpenGroup) : Text := beforeText group.before ++ leftText group.left

/-- The text of the factor that was read last, if there is one. -/
def lastText : Option (Tree .factor) → Text
  | some f => f.text
  | none => []

/-- The factors behind the last `|`, with one more. -/
def term (group : OpenGroup) (f : Tree .factor) : Tree .term :=
  match group.left with
  | some (t, true) => t.joined f
  | some (t, false) => t.juxtaposed f
  | none => .ofFactor f

/-- All of a group, with one more factor. -/
def expr (group : OpenGroup) (f : Tree .factor) : Tree .expr :=
  match group.before with
  | some e => e.union (group.term f)
  | none => .ofTerm (group.term f)

/-- The group when a further factor starts right behind the last one, if there is one. -/
def push (group : OpenGroup) : Option (Tree .factor) → OpenGroup
  | some f => ⟨group.before, some (group.term f, false)⟩
  | none => group

theorem text_term (group : OpenGroup) (f : Tree .factor) :
    (group.term f).text = leftText group.left ++ f.text := by
  match group with
  | ⟨_, none⟩ => rw [term, Tree.text, leftText, List.nil_append]
  | ⟨_, some (t, true)⟩ => rw [term, Tree.text, leftText, List.append_assoc]; rfl
  | ⟨_, some (t, false)⟩ => rw [term, Tree.text, leftText]

theorem text_expr (group : OpenGroup) (f : Tree .factor) :
    (group.expr f).text = group.text ++ f.text := by
  rw [text, List.append_assoc, ← text_term]
  match group with
  | ⟨none, left⟩ => rw [expr, Tree.text, beforeText, List.nil_append]
  | ⟨some e, left⟩ => rw [expr, Tree.text, beforeText, List.append_assoc]; rfl

theorem text_push (group : OpenGroup) (last : Option (Tree .factor)) :
    (group.push last).text = group.text ++ lastText last := by
  cases last with
  | none => exact (List.append_nil _).symm
  | some f =>
    show beforeText group.before ++ (group.term f).text = group.text ++ f.text
    rw [text_term, ← List.append_assoc, text]

end OpenGroup

/-- The text up to the last open parenthesis, by the groups that are open, the innermost first. -/
def around : List OpenGroup → Text
  | [] => []
  | group :: outer => around outer ++ group.text ++ ['(']

/-- Where no operand is missing before a token that starts none, a factor has been read. -/
theorem exists_last {last : Option (Tree .factor)} {t : Token} {rest : List Token}
    (ht : t.startsOperand = false) (complete : missing last.isSome (t :: rest) = 0) :
    ∃ f, last = some f := by
  cases last with
  | some f => exact ⟨f, rfl⟩
  | none => simp [missing, ht] at complete

open OpenGroup in
/-- A reader that finds all parentheses closed and no operand missing ends with a tree. -/
theorem exists_tree_from (outer : List OpenGroup) (group : OpenGroup) (last : Option (Tree .factor))
    (rest : Text) (closed : depthAfter outer.length (Token.ofText rest) = some 0)
    (complete : missing last.isSome (Token.ofText rest) = 0) :
    ∃ e : Tree .expr, e.text = around outer ++ group.text ++ lastText last ++ rest := by
  -- Each character moves from the unread part into the group that is read; `)` makes a group
  -- into the last factor of the group around it.
  induction rest generalizing outer group last with
  | nil =>
    obtain rfl : outer = [] := List.length_eq_zero_iff.mp (Option.some.inj closed)
    cases last with
    | none => cases complete
    | some f => exact ⟨group.expr f, by simp [text_expr, around, lastText]⟩
  | cons c rest ih =>
    have written := Token.ofChar_toChar c
    have tokens : Token.ofText (c :: rest) = Token.ofChar c :: Token.ofText rest := rfl
    rw [tokens] at closed complete
    -- What is missing behind the character is counted from whether it ends an operand.
    have later := (Nat.add_eq_zero_iff.mp complete).2
    cases ht : Token.ofChar c with
    | operand x =>
      rw [ht] at closed later
      have hc : c ∉ reserved := Token.not_mem_reserved ht
      obtain ⟨e, he⟩ := ih outer (group.push last) (some (.ofAtom (.operand c hc))) closed later
      refine ⟨e, ?_⟩
      rw [he, text_push]
      simp [lastText, Tree.text]
    | lparen =>
      rw [ht] at closed later written
      obtain ⟨e, he⟩ := ih (group.push last :: outer) .empty none closed later
      refine ⟨e, ?_⟩
      rw [he, around, text_push, ← written]
      simp [lastText, OpenGroup.empty, text, beforeText, leftText, Token.toChar]
    | rparen =>
      rw [ht] at closed later written complete
      obtain ⟨f, rfl⟩ := exists_last rfl complete
      cases outer with
      | nil => cases closed
      | cons next outer =>
        obtain ⟨e, he⟩ := ih outer next (some (.ofAtom (.group (group.expr f)))) closed later
        refine ⟨e, ?_⟩
        rw [he, around, ← written]
        simp [lastText, Tree.text, text_expr, Token.toChar]
    | op o =>
      rw [ht] at closed later written complete
      obtain ⟨f, rfl⟩ := exists_last rfl complete
      cases o with
      | unary r =>
        obtain ⟨e, he⟩ := ih outer group (some (f.repeated r)) closed later
        refine ⟨e, ?_⟩
        rw [he, ← written]
        simp [lastText, Tree.text, Token.toChar, Operator.toChar]
      | binary j =>
        cases j with
        | union =>
          obtain ⟨e, he⟩ := ih outer ⟨some (group.expr f), none⟩ none closed later
          refine ⟨e, ?_⟩
          rw [he, ← written]
          simp [lastText, text, beforeText, leftText, text_expr, Token.toChar, Operator.toChar,
            Connective.toChar]
        | concat =>
          obtain ⟨e, he⟩ := ih outer ⟨group.before, some (group.term f, true)⟩ none closed later
          refine ⟨e, ?_⟩
          rw [he, ← written]
          simp [lastText, text, leftText, text_term, Token.toChar, Operator.toChar,
            Connective.toChar]

/-- A pattern whose parentheses match and in which no operand is missing has a tree. -/
theorem exists_tree {pattern : Text} (closed : depthAfter 0 (Token.ofText pattern) = some 0)
    (complete : missing false (Token.ofText pattern) = 0) :
    ∃ e : Tree .expr, e.text = pattern :=
  exists_tree_from [] .empty none pattern closed complete

end Pattern

end FiniteAutomata
