/-
  FiniteAutomata.Proofs.Rearrangement

  What putting a pattern into postfix order does to its characters, whether or not the pattern
  has a tree. Only the parentheses decide whether there is a postfix form. Where there is one,
  it is the pattern, spelled out and without its parentheses, in a new order in which no
  character that stood behind an operand comes before it (`arrange_rearranges`). The
  translation by one stack gives the same text or the same fault.
-/
import FiniteAutomata.Proofs.OneStack
import FiniteAutomata.Proofs.Spelling
import FiniteAutomata.Proofs.Verdict

namespace FiniteAutomata

namespace Pattern

/-- The text `out` is `before` without its parentheses and in another order, in which operators
    have only moved to the back. -/
structure Rearranges (before out : Text) : Prop where
  bare : '(' ∉ out ∧ ')' ∉ out
  perm : out.Perm (before.filter fun c => !(Token.ofChar c).isParen)
  operands : out.filter (fun c => (Token.ofChar c).isOperand) =
    before.filter fun c => (Token.ofChar c).isOperand
  /-- Each character has a place of its own where it stood, and what comes before an operand
      stood before it. -/
  places : ∃ placed : List (Char × Nat), placed.map Prod.fst = out ∧
    placed.Perm (before.zipIdx.filter fun p => !(Token.ofChar p.1).isParen) ∧
    placed.Pairwise fun p q => (Token.ofChar q.1).isOperand = true → p.2 < q.2

/-! ## From tokens to characters -/

theorem filter_ofText (p : Token → Bool) (t : Text) :
    Token.toText ((Token.ofText t).filter p) = t.filter (p ∘ Token.ofChar) := by
  rw [Token.ofText, List.filter_map]
  exact Token.toText_ofText _

/-- A token and its place, as a character and its place. -/
def written (p : Token × Nat) : Char × Nat := (p.1.toChar, p.2)

theorem map_written_zipIdx (p : Token → Bool) (t : Text) :
    ((Token.ofText t).zipIdx.filter (p ∘ Prod.fst)).map written =
      t.zipIdx.filter (p ∘ Token.ofChar ∘ Prod.fst) := by
  rw [Token.ofText, List.zipIdx_map, List.filter_map, List.map_map]
  have same : ∀ q : Char × Nat, (written ∘ Prod.map Token.ofChar id) q = q := by
    rintro ⟨c, i⟩
    exact congrArg (fun c => (c, i)) (Token.ofChar_toChar c)
  exact (List.map_congr_left fun q _ => same q).trans (List.map_id _)

theorem rearranges {before out : Text} {placed : List (Token × Nat)}
    (placing : Placing [] (Token.ofText before) 0 placed)
    (tokens : placed.map Prod.fst = Token.ofText out) : Rearranges before out := by
  have perm : out.Perm (before.filter fun c => !(Token.ofChar c).isParen) := by
    have parts := placing.perm_fst.map Token.toChar
    rw [tokens] at parts
    have left : (Token.ofText out).map Token.toChar = out := Token.toText_ofText out
    have right := filter_ofText (fun t => !t.isParen) before
    exact ((List.Perm.of_eq left.symm).trans parts).trans (.of_eq right)
  have bare : ∀ c ∈ out, (Token.ofChar c).isParen = false := by
    intro c hc
    have kept := (List.mem_filter.mp (perm.mem_iff.mp hc)).2
    rwa [Bool.not_eq_true'] at kept
  refine ⟨⟨fun h => ?_, fun h => ?_⟩, perm, ?_, placed.map written, ?_, ?_, ?_⟩
  · cases bare _ h
  · cases bare _ h
  · have same := congrArg Token.toText placing.operands
    rwa [tokens, filter_ofText, filter_ofText] at same
  · have texts := congrArg Token.toText tokens
    rw [Token.toText_ofText, Token.toText, List.map_map] at texts
    rwa [List.map_map]
  · have read := map_written_zipIdx (fun t => !t.isParen) before
    exact (placing.perm.map written).trans (.of_eq read)
  · refine List.pairwise_map.mpr (placing.order.imp_of_mem fun {p q} _ hq before operand => ?_)
    -- The token was read from a character, so it is an operand as soon as the character is.
    have read : q.1 ∈ Token.ofText out := tokens ▸ List.mem_map_of_mem hq
    obtain ⟨c, -, hc⟩ := List.mem_map.mp read
    refine before ?_
    rwa [written, ← hc, Token.ofChar_toChar, hc] at operand

theorem rearranges_of_toPostfix {pattern : Text} {tokens : List Token}
    (h : toPostfix (Token.ofText pattern) = .ok tokens) :
    Rearranges (spelledOut pattern) (Token.toText tokens) := by
  obtain ⟨placed, placing, rfl⟩ := exists_placing_of_toPostfix h
  rw [← ofText_spelledOut] at placing
  exact rearranges placing (ofText_toText_of_toPostfix h).symm

end Pattern

namespace Pattern

/-! ## When there is a postfix form -/

theorem depthAfter_eq_zero_iff {pattern : Text} :
    depthAfter 0 (Token.ofText pattern) = some 0 ↔
      ¬ Overclosed pattern ∧ pattern.count '(' = pattern.count ')' := by
  rw [← depthAfter_eq_none_iff_overclosed]
  cases hd : depthAfter 0 (Token.ofText pattern) with
  | none => simp
  | some k =>
    have counts := depthAfter_add_count hd
    simp
    omega

theorem exists_toPostfix_iff {tokens : List Token} :
    (∃ out, toPostfix tokens = .ok out) ↔ depthAfter 0 tokens = some 0 := by
  refine ⟨fun ⟨out, h⟩ => ?_, toPostfix_of_zero⟩
  match hd : depthAfter 0 tokens with
  | none => cases h.symm.trans (toPostfix_of_none hd)
  | some 0 => rfl
  | some (k + 1) => cases h.symm.trans (toPostfix_of_succ hd)

end Pattern

/-! ## The translation by one stack -/

namespace OneStack

/-- The postfix form of a pattern, by one stack. -/
def translate (pattern : Text) : Except Halt Text :=
  (read [] (Token.ofText (Pattern.spelledOut pattern))).map Token.toText

theorem translate_eq (pattern : Text) : translate pattern =
    ((Pattern.toPostfix (Token.ofText pattern)).mapError .imbalance).map Token.toText := by
  rw [translate, Pattern.ofText_spelledOut]
  exact congrArg (Except.map Token.toText) (read_layout [] [] _)

end OneStack

namespace Session

open Pattern

/-- A pattern has a postfix form just if no beginning of it closes more parentheses than it
    opens, and in all as many are closed as are opened. By one stack the result is the same, and
    no token is met there whose precedence is not known. The postfix form is a rearrangement of
    the pattern. -/
theorem arrange_rearranges (s : Session) (pattern : Text) :
    ((∃ out, (s.arrange pattern).1 = .ok out) ↔
      ¬ Overclosed pattern ∧ pattern.count '(' = pattern.count ')') ∧
    (∀ out, OneStack.translate pattern = .ok out ↔ (s.arrange pattern).1 = .ok out) ∧
    (∀ i, OneStack.translate pattern = .error (.imbalance i) ↔
      (s.arrange pattern).1 = .error (.imbalance i pattern)) ∧
    (∀ t, OneStack.translate pattern ≠ .error (.unranked t)) ∧
    ∀ out, (s.arrange pattern).1 = .ok out → Rearranges (spelledOut pattern) out := by
  have accepted := (@exists_toPostfix_iff (Token.ofText pattern)).trans depthAfter_eq_zero_iff
  rw [← accepted, OneStack.translate_eq]
  cases h : toPostfix (Token.ofText pattern) with
  | error i => simp [arrange_of_error s h, Except.mapError, Except.map]
  | ok tokens =>
    simp [arrange_of_ok s h, Except.mapError, Except.map, rearranges_of_toPostfix h]

/-- Operators miss their operands in this pattern. -/
theorem arrange_rearranges_nonsense :
    ((fresh false).arrange "|*(·)+".toList).1 = .ok "*·+·|".toList ∧
      spelledOut "|*(·)+".toList = "|*·(·)+".toList ∧
      Rearranges (spelledOut "|*(·)+".toList) "*·+·|".toList := by
  have arranged : ((fresh false).arrange "|*(·)+".toList).1 = .ok "*·+·|".toList := rfl
  exact ⟨arranged, rfl, (arrange_rearranges (fresh false) "|*(·)+".toList).2.2.2.2 _ arranged⟩

end Session

end FiniteAutomata
