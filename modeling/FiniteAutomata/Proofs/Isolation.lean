/-
  FiniteAutomata.Proofs.Isolation

  Parentheses isolate what stands between them. What is read inside a group meets only the
  operators of that group, so it is put out as if it stood alone (`emits_enclosed`). That
  holds of every pattern whose parentheses match, whether or not it has a tree: it may be
  empty, and its operators may miss their operands. So the postfix form of patterns put
  together from such groups is that of their parts (`arrange_enclosed`).
-/
import FiniteAutomata.Proofs.Arrangement
import FiniteAutomata.Proofs.Balance

namespace FiniteAutomata

namespace Pattern

variable {group : List Operator} {inner : List (List Operator)} {u out more : List Token}

/-! ## Reading with other groups around -/

/-- The tokens can be read to the end, where they give `out`, and are read in the same way with
    more groups around them and more tokens behind them. The operators that are put out at the
    end are left waiting then. -/
def Closes (group : List Operator) (inner : List (List Operator)) (u out : List Token) : Prop :=
  ∃ emitted held, emitted ++ held.map .op = out ∧ ∀ outer rest,
    arrange group (inner ++ outer) (u ++ rest) = (arrange held outer rest).map (emitted ++ ·)

/-- One more token in front, which puts out `first`. -/
theorem Closes.cons {t : Token} {first : List Token} {next : List Operator}
    {inner' : List (List Operator)} (h : Closes next inner' u out)
    (step : ∀ outer rest, arrange group (inner ++ outer) (t :: u ++ rest) =
      (arrange next (inner' ++ outer) (u ++ rest)).map (first ++ ·)) :
    Closes group inner (t :: u) (first ++ out) := by
  obtain ⟨emitted, held, rfl, reads⟩ := h
  refine ⟨first ++ emitted, held, List.append_assoc _ _ _, fun outer rest => ?_⟩
  rw [step, reads]
  cases arrange held outer rest with
  | error i => rfl
  | ok tokens => exact congrArg Except.ok (List.append_assoc _ _ _).symm

theorem closes_of_arrange (h : arrange group inner u = .ok out) : Closes group inner u out := by
  induction u generalizing group inner out with
  | nil =>
    cases inner with
    | nil =>
      cases h
      exact ⟨[], group, rfl, Emits.nil⟩
    | cons next inner => cases h
  | cons t u ih =>
    match t, inner with
    | .operand c, inner =>
      obtain ⟨more, hm, rfl⟩ := of_map_eq_ok h
      show Closes group inner _ ([.operand c] ++ more)
      exact (ih hm).cons fun _ _ => rfl
    | .op o, inner =>
      obtain ⟨more, hm, rfl⟩ := of_map_eq_ok h
      exact (ih hm).cons fun _ _ => rfl
    | .lparen, inner => exact @ih [] (group :: inner) _ h
    | .rparen, [] => cases h
    | .rparen, next :: inner =>
      obtain ⟨more, hm, rfl⟩ := of_map_eq_ok h
      exact (ih hm).cons fun _ _ => rfl

/-! ## Groups -/

/-- A group in parentheses puts out what it gives when it stands alone. -/
theorem emits_enclosed (h : arrange [] [] u = .ok out) :
    Emits group (.lparen :: (u ++ [.rparen])) out group := by
  obtain ⟨emitted, held, rfl, reads⟩ := closes_of_arrange h
  exact Emits.enclosed reads

/-- With their marks, the tokens `x` put out `out` and leave nothing waiting, whatever was waiting
    before. -/
def Isolated (x out : List Token) : Prop := ∀ group, Emits group (markConcat x) out group

theorem isolated_enclosed (h : toPostfix u = .ok out) :
    Isolated (.lparen :: (u ++ [.rparen])) out := by
  intro group
  rw [markConcat_enclosed]
  exact emits_enclosed h

namespace Isolated

variable {x y : List Token}

theorem toPostfix_eq (hx : Isolated x out) : toPostfix x = .ok out := by
  rw [toPostfix, (hx []).arrange_eq, List.map_nil, List.append_nil]

/-- A repetition behind the tokens waits alone. -/
theorem repeated (hx : Isolated x out) (r : Repetition) :
    toPostfix (x ++ [.op (.unary r)]) = .ok (out ++ [.op (.unary r)]) := by
  have sign : Emits [] [.op (.unary r)] [] [.unary r] := .op (.unary r) [] [] (by simp) (by simp)
  have whole := (hx []).append sign
  rw [toPostfix, markConcat_append_of_not_startsOperand rfl, markConcat, whole.arrange_eq,
    List.append_nil]
  rfl

/-- A connective between two such parts waits for the second one. -/
theorem joined (hx : Isolated x out) (hy : Isolated y more) (j : Connective) :
    toPostfix (x ++ .op (.binary j) :: y) = .ok (out ++ more ++ [.op (.binary j)]) := by
  have sign : Emits [] [.op (.binary j)] [] [.binary j] := .op (.binary j) [] [] (by simp) (by simp)
  have whole := (hx []).append (sign.append (hy [.binary j]))
  rw [toPostfix, markConcat_append_of_not_startsOperand rfl,
    markConcat_cons_of_not_endsOperand rfl]
  exact whole.arrange_eq

/-- A connective is put in between two such parts if a mark belongs there. -/
theorem juxtaposed (hx : Isolated x out) (hy : Isolated y more)
    (mark : seam x y = [.op (.binary .concat)]) :
    toPostfix (x ++ y) = .ok (out ++ more ++ [.op (.binary .concat)]) := by
  rw [← hx.joined hy .concat, toPostfix, toPostfix, markConcat_append, mark,
    markConcat_append_of_not_startsOperand rfl, markConcat_cons_of_not_endsOperand rfl,
    List.singleton_append]

end Isolated

/-- The pattern in parentheses. -/
def enclosed (pattern : Text) : Text := '(' :: (pattern ++ [')'])

theorem ofText_enclosed (pattern : Text) :
    Token.ofText (enclosed pattern) = .lparen :: (Token.ofText pattern ++ [.rparen]) := by
  rw [enclosed, ← List.singleton_append, Token.ofText_append, Token.ofText_append]
  rfl

end Pattern

namespace Session

open Pattern

/-- Patterns with a postfix form, in parentheses, keep it: alone, with a repetition behind, next
    to one another, or with a `|` between them. -/
theorem arrange_enclosed (s : Session) {p q out more : Text} (hp : (s.arrange p).1 = .ok out)
    (hq : (s.arrange q).1 = .ok more) :
    (s.arrange (enclosed p)).1 = .ok out ∧
    (∀ r : Repetition, (s.arrange (enclosed p ++ [r.toChar])).1 = .ok (out ++ [r.toChar])) ∧
    (s.arrange (enclosed p ++ enclosed q)).1 = .ok (out ++ more ++ ['·']) ∧
    (s.arrange (enclosed p ++ '|' :: enclosed q)).1 = .ok (out ++ more ++ ['|']) := by
  obtain ⟨u, hu, rfl⟩ := s.arrange_eq_ok_iff.mp hp
  obtain ⟨v, hv, rfl⟩ := s.arrange_eq_ok_iff.mp hq
  have left := isolated_enclosed hu
  have right := isolated_enclosed hv
  refine ⟨?_, fun r => ?_, ?_, ?_⟩
  · have tokens := ofText_enclosed p
    exact s.arrange_of_ok (tokens ▸ left.toPostfix_eq)
  · have sign : Token.ofText [r.toChar] = [.op (.unary r)] :=
      congrArg (fun t => [t]) (Token.ofChar_toChar_op (.unary r))
    have tokens : Token.ofText (enclosed p ++ [r.toChar]) = _ := Token.ofText_append _ _
    rw [ofText_enclosed, sign] at tokens
    rw [s.arrange_of_ok (tokens ▸ left.repeated r), Token.toText_append]
    rfl
  · have tokens : Token.ofText (enclosed p ++ enclosed q) = _ := Token.ofText_append _ _
    rw [ofText_enclosed, ofText_enclosed] at tokens
    have mark : seam (.lparen :: (Token.ofText p ++ [.rparen]))
        (.lparen :: (Token.ofText q ++ [.rparen])) = [.op (.binary .concat)] :=
      @seam_of_joined (.lparen :: Token.ofText p) _ _ _ rfl rfl
    rw [s.arrange_of_ok (tokens ▸ left.juxtaposed right mark), Token.toText_append,
      Token.toText_append]
    rfl
  · have tokens : Token.ofText (enclosed p ++ '|' :: enclosed q) =
        Token.ofText (enclosed p) ++ .op (.binary .union) :: Token.ofText (enclosed q) :=
      Token.ofText_append _ _
    rw [ofText_enclosed, ofText_enclosed] at tokens
    rw [s.arrange_of_ok (tokens ▸ left.joined right .union), Token.toText_append,
      Token.toText_append]
    rfl

/-- Neither of the two patterns has a tree: operators miss their operands in the first one, and
    the second one is empty. -/
theorem arrange_enclosed_nonsense :
    ((fresh false).arrange "|*(·)+".toList).1 = .ok "*·+·|".toList ∧
      ((fresh false).arrange []).1 = .ok [] ∧
      ((fresh false).arrange "(|*(·)+)".toList).1 = .ok "*·+·|".toList ∧
      ((fresh false).arrange "(|*(·)+)()".toList).1 = .ok "*·+·|·".toList := by
  have first : ((fresh false).arrange "|*(·)+".toList).1 = .ok "*·+·|".toList := rfl
  have second : ((fresh false).arrange []).1 = .ok [] := rfl
  have together := arrange_enclosed (fresh false) first second
  exact ⟨first, second, together.1, together.2.2.1⟩

end Session

end FiniteAutomata
