/-
  FiniteAutomata.Proofs.Spelling

  Marks of concatenation may be written or left out. A pattern can be spelled with some of
  the marks that are put in anyway (`Pattern.spelled`), with none of them, or with all
  (`Pattern.spelledOut`). A mark neither ends nor starts an operand, so nothing more is put
  in next to one that is written: all spellings of a pattern are spelled out alike, and so
  they have the same postfix form or the same imbalance (`arrange_spelled`).
-/
import FiniteAutomata.Proofs.Arrangement
import FiniteAutomata.Proofs.Balance

namespace FiniteAutomata

namespace Pattern

/-- A mark of concatenation is put in between two characters that are next to each other. -/
def joined (c d : Char) : Bool := (Token.ofChar c).endsOperand && (Token.ofChar d).startsOperand

/-- The pattern with the marks of concatenation put in. -/
def spelledOut (pattern : Text) : Text := Token.toText (markConcat (Token.ofText pattern))

/-- The pattern with a mark written at each chosen place among those where one is put in; the
    place is that of the character before the mark. -/
def spelled (chosen : Nat → Bool) : Text → Text
  | [] => []
  | [c] => [c]
  | c :: d :: rest =>
    if joined c d && chosen 0 then c :: '·' :: spelled (fun i => chosen (i + 1)) (d :: rest)
    else c :: spelled (fun i => chosen (i + 1)) (d :: rest)

/-! ## None and all -/

theorem spelled_none (pattern : Text) : spelled (fun _ => false) pattern = pattern := by
  induction pattern with
  | nil => rfl
  | cons c rest ih =>
    cases rest with
    | nil => rfl
    | cons d rest => rw [spelled, Bool.and_false, if_neg Bool.false_ne_true, ih]

theorem spelled_all (pattern : Text) : spelled (fun _ => true) pattern = spelledOut pattern := by
  have written (c : Char) (rest : List Token) :
      Token.toText (Token.ofChar c :: rest) = c :: Token.toText rest := by
    rw [Token.toText, List.map_cons, Token.ofChar_toChar]
    rfl
  induction pattern with
  | nil => rfl
  | cons c rest ih =>
    cases rest with
    | nil => exact (written c []).symm
    | cons d rest =>
      rw [spelled, Bool.and_true, ih]
      show _ = Token.toText (if joined c d = true then _ else _)
      split
      · rw [written]
        rfl
      · rw [written]
        rfl

/-! ## Putting in the marks that are left -/

/-- Nothing is put in next to a mark that is written. -/
theorem markConcat_cons_mark (t : Token) (v : List Token) :
    markConcat (t :: .op (.binary .concat) :: v) = t :: .op (.binary .concat) :: markConcat v := by
  have unjoined : seam [t] (.op (.binary .concat) :: v) = [] := by
    simp [seam, Token.startsOperand]
  rw [markConcat_cons, unjoined, markConcat_cons_of_not_endsOperand rfl]
  rfl

/-- What is put in behind a token depends on the next one only. -/
theorem seam_congr (u : List Token) {v w : List Token} (h : v.head? = w.head?) :
    seam u v = seam u w := by
  rw [seam, seam, h]

theorem head?_ofText_spelled (chosen : Nat → Bool) (pattern : Text) :
    (Token.ofText (spelled chosen pattern)).head? = (Token.ofText pattern).head? := by
  match pattern with
  | [] | [c] => rfl
  | c :: d :: rest =>
    rw [spelled]
    split <;> rfl

/-- The marks that are written are put in no second time, and all others are. -/
theorem markConcat_spelled (chosen : Nat → Bool) (pattern : Text) :
    markConcat (Token.ofText (spelled chosen pattern)) = markConcat (Token.ofText pattern) := by
  induction pattern generalizing chosen with
  | nil => rfl
  | cons c rest ih =>
    cases rest with
    | nil => rfl
    | cons d rest =>
      have later := ih fun i => chosen (i + 1)
      rw [spelled]
      split
      · next written =>
        -- The mark that is written stands where one belongs.
        have belongs : joined c d = true := (Bool.and_eq_true_iff.mp written).1
        have mark : seam [Token.ofChar c] (Token.ofText (d :: rest)) = [.op (.binary .concat)] := by
          rw [joined, Bool.and_eq_true] at belongs
          exact @seam_of_joined [] _ _ _ belongs.1 belongs.2
        calc markConcat (Token.ofText (c :: '·' :: spelled (fun i => chosen (i + 1)) (d :: rest)))
            = Token.ofChar c :: .op (.binary .concat) :: markConcat
                (Token.ofText (spelled (fun i => chosen (i + 1)) (d :: rest))) :=
              markConcat_cons_mark _ _
          _ = Token.ofChar c :: (seam [Token.ofChar c] (Token.ofText (d :: rest)) ++
                markConcat (Token.ofText (d :: rest))) := by rw [later, mark]; rfl
          _ = markConcat (Token.ofText (c :: d :: rest)) := (markConcat_cons _ _).symm
      · -- The next token is that of the pattern, and so is what belongs between the two.
        calc markConcat (Token.ofText (c :: spelled (fun i => chosen (i + 1)) (d :: rest)))
            = Token.ofChar c :: (seam [Token.ofChar c]
                (Token.ofText (spelled (fun i => chosen (i + 1)) (d :: rest))) ++
                  markConcat (Token.ofText (spelled (fun i => chosen (i + 1)) (d :: rest)))) :=
              markConcat_cons _ _
          _ = Token.ofChar c :: (seam [Token.ofChar c] (Token.ofText (d :: rest)) ++
                markConcat (Token.ofText (d :: rest))) := by
              rw [later, seam_congr _ (head?_ofText_spelled _ _)]
          _ = markConcat (Token.ofText (c :: d :: rest)) := (markConcat_cons _ _).symm

/-- The marks are read from the text like all else. -/
theorem ofText_spelledOut (pattern : Text) :
    Token.ofText (spelledOut pattern) = markConcat (Token.ofText pattern) :=
  ofText_toText fun _ => ofChar_toChar_of_mem_markConcat

theorem spelledOut_spelled (chosen : Nat → Bool) (pattern : Text) :
    spelledOut (spelled chosen pattern) = spelledOut pattern := by
  rw [spelledOut, markConcat_spelled, spelledOut]

theorem toPostfix_spelled (chosen : Nat → Bool) (pattern : Text) :
    toPostfix (Token.ofText (spelled chosen pattern)) = toPostfix (Token.ofText pattern) := by
  rw [toPostfix, markConcat_spelled, toPostfix]

end Pattern

namespace Session

open Pattern

/-- The marks of concatenation may be written or not. Where none is written, the pattern stands
    as it is; where all are, none is left to be put in. With any of them written, the pattern is
    spelled out as before and has the same postfix form, or is refused for the same imbalance. -/
theorem arrange_spelled (s : Session) (pattern : Text) :
    spelled (fun _ => false) pattern = pattern ∧
    spelled (fun _ => true) pattern = spelledOut pattern ∧
    spelledOut (spelledOut pattern) = spelledOut pattern ∧
    ∀ chosen : Nat → Bool,
      spelledOut (spelled chosen pattern) = spelledOut pattern ∧
      ((∃ out, (s.arrange pattern).1 = .ok out ∧
          (s.arrange (spelled chosen pattern)).1 = .ok out) ∨
        ∃ i, (s.arrange pattern).1 = .error (.imbalance i pattern) ∧
          (s.arrange (spelled chosen pattern)).1 =
            .error (.imbalance i (spelled chosen pattern))) := by
  refine ⟨spelled_none pattern, spelled_all pattern, ?_, fun chosen =>
    ⟨spelledOut_spelled chosen pattern, ?_⟩⟩
  · have all := spelledOut_spelled (fun _ => true) pattern
    rwa [spelled_all] at all
  · have same := toPostfix_spelled chosen pattern
    cases h : toPostfix (Token.ofText pattern) with
    | ok tokens => exact Or.inl ⟨_, arrange_of_ok s h, arrange_of_ok s (same.trans h)⟩
    | error i => exact Or.inr ⟨i, arrange_of_error s h, arrange_of_error s (same.trans h)⟩

end Session

end FiniteAutomata
