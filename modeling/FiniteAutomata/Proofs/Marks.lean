/-
  FiniteAutomata.Proofs.Marks

  Where the marks of concatenation go. Whether one is put in depends on two neighbours only,
  so the marks of a token list are those of its two halves and the one at the seam between
  them (`markConcat_append`).
-/
import FiniteAutomata.Pattern.Postfix

namespace FiniteAutomata

namespace Pattern

/-! ## The seam between two token lists -/

/-- The mark that belongs between two token lists that are put together, if any. -/
def seam (u v : List Token) : List Token :=
  if u.getLast?.any Token.endsOperand && v.head?.any Token.startsOperand then
    [.op (.binary .concat)]
  else []

theorem seam_nil_left (v : List Token) : seam [] v = [] := rfl

theorem seam_nil_right (u : List Token) : seam u [] = [] := by
  simp [seam]

theorem seam_cons_cons (t u : Token) (rest v : List Token) :
    seam (t :: u :: rest) v = seam (u :: rest) v := by
  simp [seam]

theorem markConcat_cons_cons (t u : Token) (rest : List Token) :
    markConcat (t :: u :: rest) = t :: (seam [t] (u :: rest) ++ markConcat (u :: rest)) := by
  rw [markConcat]
  cases ht : t.endsOperand && u.startsOperand <;> simp [seam, ht]

theorem markConcat_cons (t : Token) (v : List Token) :
    markConcat (t :: v) = t :: (seam [t] v ++ markConcat v) := by
  cases v with
  | nil => rw [seam_nil_right]; rfl
  | cons u rest => exact markConcat_cons_cons t u rest

theorem markConcat_append (u v : List Token) :
    markConcat (u ++ v) = markConcat u ++ (seam u v ++ markConcat v) := by
  induction u with
  | nil => rw [seam_nil_left]; rfl
  | cons t u ih =>
    cases u with
    | nil => exact markConcat_cons t v
    | cons t' u =>
      have between : seam [t] ((t' :: u) ++ v) = seam [t] (t' :: u) := by simp [seam]
      rw [List.cons_append, markConcat_cons, markConcat_cons, seam_cons_cons, between, ih]
      simp only [List.cons_append, List.append_assoc]

/-! ## Neighbours that are joined, and those that are not -/

theorem seam_of_joined {u v : List Token} {t t' : Token} (ht : t.endsOperand = true)
    (ht' : t'.startsOperand = true) :
    seam (u ++ [t]) (t' :: v) = [.op (.binary .concat)] := by
  simp [seam, ht, ht']

theorem markConcat_cons_of_not_endsOperand {t : Token} (ht : t.endsOperand = false)
    (v : List Token) : markConcat (t :: v) = t :: markConcat v := by
  have unjoined : seam [t] v = [] := by simp [seam, ht]
  rw [markConcat_cons, unjoined, List.nil_append]

theorem markConcat_append_of_not_startsOperand {t : Token} (ht : t.startsOperand = false)
    (u v : List Token) : markConcat (u ++ t :: v) = markConcat u ++ markConcat (t :: v) := by
  have unjoined : seam u (t :: v) = [] := by simp [seam, ht]
  rw [markConcat_append, unjoined, List.nil_append]

/-- No mark is put in right inside parentheses. -/
theorem markConcat_enclosed (u : List Token) :
    markConcat (.lparen :: (u ++ [.rparen])) = .lparen :: (markConcat u ++ [.rparen]) := by
  rw [markConcat_cons_of_not_endsOperand rfl, markConcat_append_of_not_startsOperand rfl, markConcat]

end Pattern

end FiniteAutomata
