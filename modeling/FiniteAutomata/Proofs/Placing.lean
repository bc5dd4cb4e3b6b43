/-
  FiniteAutomata.Proofs.Placing

  Where the tokens of a postfix form stood before. Each one that is put out has its own place:
  that of an operator that waited, or one among those that were read (`exists_placing`). So
  nothing is lost and nothing is put out twice. An operand is put out as soon as it is read,
  before all that stands behind it. So operands stay in order, and operators only move to the
  back.
-/
import FiniteAutomata.Proofs.Marks

namespace FiniteAutomata

namespace Token

/-- Whether a token opens or closes a group. -/
def isParen : Token → Bool
  | lparen | rparen => true
  | _ => false

end Token

namespace Pattern

theorem of_map_eq_ok {x : Except Imbalance (List Token)} {f : List Token → List Token}
    {out : List Token} (h : x.map f = .ok out) : ∃ more, x = .ok more ∧ f more = out := by
  cases x with
  | error i => cases h
  | ok more => exact ⟨more, rfl, Except.ok.inj h⟩

/-! ## Tokens with their places -/

/-- A waiting operator and its place, as a token and its place. -/
def waits (p : Operator × Nat) : Token × Nat := (.op p.1, p.2)

/-- Tokens with the places where they stood: those of the operators that wait and, but for the
    parentheses, those that are read from the place `k` on. What comes before an operand stood
    before it. -/
structure Placing (waiting : List (Operator × Nat)) (tokens : List Token) (k : Nat)
    (placed : List (Token × Nat)) : Prop where
  perm : placed.Perm (waiting.map waits ++ (tokens.zipIdx k).filter fun p => !p.1.isParen)
  order : placed.Pairwise fun p q => q.1.isOperand = true → p.2 < q.2

namespace Placing

variable {waiting released : List (Operator × Nat)} {tokens : List Token} {k : Nat}
  {placed : List (Token × Nat)}

/-- An operand does not wait, so it stood where it was read. -/
theorem le_of_isOperand (h : Placing waiting tokens k placed) {q : Token × Nat} (hq : q ∈ placed)
    (operand : q.1.isOperand = true) : k ≤ q.2 := by
  rcases List.mem_append.mp (h.perm.mem_iff.mp hq) with waits | read
  · obtain ⟨p, -, rfl⟩ := List.mem_map.mp waits
    cases operand
  · exact List.le_snd_of_mem_zipIdx (List.mem_filter.mp read).1

/-- What waits when all is read. -/
theorem nil (waiting : List (Operator × Nat)) (k : Nat) :
    Placing waiting [] k (waiting.map waits) where
  perm := by simp
  order := by
    rw [List.pairwise_map]
    exact List.pairwise_of_forall fun _ _ => Bool.noConfusion

theorem operand (h : Placing waiting tokens (k + 1) placed) (c : Char) :
    Placing waiting (.operand c :: tokens) k ((.operand c, k) :: placed) where
  perm := by
    rw [List.zipIdx_cons, List.filter_cons_of_pos rfl]
    exact (h.perm.cons _).trans List.perm_middle.symm
  order := List.pairwise_cons.mpr ⟨fun _ => h.le_of_isOperand, h.order⟩

theorem paren (h : Placing waiting tokens (k + 1) placed) {t : Token} (ht : t.isParen = true) :
    Placing waiting (t :: tokens) k placed where
  perm := by
    rw [List.zipIdx_cons, List.filter_cons_of_neg (by simpa using ht)]
    exact h.perm
  order := h.order

/-- An operator that is read waits. -/
theorem op {o : Operator} (h : Placing ((o, k) :: waiting) tokens (k + 1) placed) :
    Placing waiting (.op o :: tokens) k placed where
  perm := by
    rw [List.zipIdx_cons, List.filter_cons_of_pos rfl]
    exact h.perm.trans List.perm_middle.symm
  order := h.order

/-- Operators that are put out first stood before all that is read. -/
theorem release (h : Placing waiting tokens k placed) (before : ∀ p ∈ released, p.2 < k) :
    Placing (released ++ waiting) tokens k (released.map waits ++ placed) where
  perm := by
    rw [List.map_append, List.append_assoc]
    exact h.perm.append_left _
  order := by
    refine List.pairwise_append.mpr ⟨(nil released k).order, h.order, fun _ hp q hq operand => ?_⟩
    obtain ⟨p, there, rfl⟩ := List.mem_map.mp hp
    exact Nat.lt_of_lt_of_le (before p there) (h.le_of_isOperand hq operand)

theorem map_fst_waits (ops : List (Operator × Nat)) :
    (ops.map waits).map Prod.fst = (ops.map Prod.fst).map .op := by
  simp [waits, Function.comp_def]

theorem map_fst_filter_zipIdx (p : Token → Bool) (tokens : List Token) (k : Nat) :
    ((tokens.zipIdx k).filter (p ∘ Prod.fst)).map Prod.fst = tokens.filter p := by
  rw [← List.filter_map, List.zipIdx_map_fst]

/-- Without their places, the tokens are those that wait and those that are read. -/
theorem perm_fst (h : Placing waiting tokens k placed) :
    (placed.map Prod.fst).Perm
      ((waiting.map Prod.fst).map .op ++ tokens.filter fun t => !t.isParen) := by
  have parts := h.perm.map Prod.fst
  rw [List.map_append, map_fst_waits] at parts
  have read := map_fst_filter_zipIdx (fun t => !t.isParen) tokens k
  exact parts.trans (.of_eq (congrArg _ read))

/-- No operand waits, so the operands are those that are read. -/
theorem perm_operands (h : Placing waiting tokens k placed) :
    (placed.filter fun p => p.1.isOperand).Perm
      ((tokens.zipIdx k).filter fun p => p.1.isOperand) := by
  have parts := h.perm.filter fun p => p.1.isOperand
  have none_waits : (waiting.map waits).filter (fun p => p.1.isOperand) = [] := by
    rw [List.filter_eq_nil_iff]
    intro q hq
    obtain ⟨p, -, rfl⟩ := List.mem_map.mp hq
    exact Bool.false_ne_true
  have read : ∀ p ∈ tokens.zipIdx k, (p.1.isOperand && !p.1.isParen) = p.1.isOperand := by
    rintro ⟨t, i⟩ -
    cases t <;> rfl
  rwa [List.filter_append, none_waits, List.nil_append, List.filter_filter,
    List.filter_congr read] at parts

theorem pairwise_zipIdx (tokens : List Token) (k : Nat) :
    (tokens.zipIdx k).Pairwise fun p q => p.2 < q.2 := by
  refine List.pairwise_map.mp ?_
  rw [List.zipIdx_map_snd]
  exact List.pairwise_lt_range' 1

/-- The operands are put out in the order in which they are read. -/
theorem operands (h : Placing waiting tokens k placed) :
    (placed.map Prod.fst).filter Token.isOperand = tokens.filter Token.isOperand := by
  -- Both lists hold the same operands, each in the order of the places.
  have left : (placed.filter fun p => p.1.isOperand).Pairwise fun p q => p.2 < q.2 :=
    (h.order.filter _).imp_of_mem fun _ hq before => before (List.mem_filter.mp hq).2
  have right := (pairwise_zipIdx tokens k).filter fun p => p.1.isOperand
  have equal := h.perm_operands.eq_of_pairwise
    (fun _ _ _ _ hpq hqp => absurd hpq (Nat.lt_asymm hqp)) left right
  rw [List.filter_map, ← map_fst_filter_zipIdx Token.isOperand tokens k]
  exact congrArg (List.map Prod.fst) equal

end Placing

/-- All that is put out can be given its place. -/
theorem exists_placing {group : List (Operator × Nat)} {outer : List (List (Operator × Nat))}
    {tokens out : List Token} {k : Nat} (before : ∀ p ∈ group ++ outer.flatten, p.2 < k)
    (h : arrange (group.map Prod.fst) (outer.map (List.map Prod.fst)) tokens = .ok out) :
    ∃ placed, Placing (group ++ outer.flatten) tokens k placed ∧ placed.map Prod.fst = out := by
  induction tokens generalizing group outer out k with
  | nil =>
    cases outer with
    | nil =>
      cases h
      rw [List.flatten_nil, List.append_nil]
      exact ⟨_, .nil group k, Placing.map_fst_waits group⟩
    | cons next outer => cases h
  | cons t rest ih =>
    have later : ∀ p ∈ group ++ outer.flatten, p.2 < k + 1 := fun p hp =>
      Nat.lt_succ_of_lt (before p hp)
    match t, outer with
    | .operand c, outer =>
      obtain ⟨more, hm, rfl⟩ := of_map_eq_ok h
      obtain ⟨placed, placing, rfl⟩ := ih later hm
      exact ⟨_, placing.operand c, rfl⟩
    | .op o, outer =>
      obtain ⟨more, hm, rfl⟩ := of_map_eq_ok h
      have whole := List.takeWhile_append_dropWhile (p := releasedBy o ∘ Prod.fst) (l := group)
      rw [List.dropWhile_map] at hm
      rw [List.takeWhile_map]
      generalize group.takeWhile (releasedBy o ∘ Prod.fst) = released at whole
      generalize group.dropWhile (releasedBy o ∘ Prod.fst) = kept at whole hm
      subst whole
      rw [List.append_assoc] at before later ⊢
      have next : ∀ p ∈ (o, k) :: kept ++ outer.flatten, p.2 < k + 1 := by
        intro p hp
        rcases List.mem_cons.mp hp with rfl | hp
        · exact Nat.lt_succ_self k
        · exact later p (List.mem_append_right _ hp)
      obtain ⟨placed, placing, rfl⟩ := ih next hm
      refine ⟨_, placing.op.release fun p hp => before p (List.mem_append_left _ hp), ?_⟩
      rw [List.map_append, Placing.map_fst_waits]
    | .lparen, outer =>
      obtain ⟨placed, placing, rfl⟩ := @ih [] (group :: outer) _ _ later h
      exact ⟨placed, placing.paren rfl, rfl⟩
    | .rparen, [] => cases h
    | .rparen, next :: outer =>
      obtain ⟨more, hm, rfl⟩ := of_map_eq_ok h
      obtain ⟨placed, placing, rfl⟩ := ih (fun p hp => later p (List.mem_append_right _ hp)) hm
      refine ⟨_, (placing.paren rfl).release fun p hp => before p (List.mem_append_left _ hp), ?_⟩
      rw [List.map_append, Placing.map_fst_waits]

end Pattern

end FiniteAutomata
