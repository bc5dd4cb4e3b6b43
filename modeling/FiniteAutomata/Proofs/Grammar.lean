/-
  FiniteAutomata.Proofs.Grammar

  The grammar of patterns, as the trees that derive them. A tree of a level is written by
  one production after another:

    expr   := term | expr '|' term
    term   := factor | term factor | term '·' factor
    factor := atom | factor repetition
    atom   := operand | '(' expr ')'

  Besides its text, every tree has a language and a postfix form. In postfix form the
  repetitions behind one atom stand in another order than in the text: each `*` and `?`
  moves behind the `+` signs that directly follow it.
-/
import FiniteAutomata.Proofs.Meaning

namespace FiniteAutomata

namespace Pattern

/-- The characters that are not operands. -/
def reserved : Text := Token.toText Token.reserved

/-- The four levels of the grammar, from the loosest to the tightest. -/
inductive Level where
  | expr
  | term
  | factor
  | atom

/-- A derivation of a part of a pattern. -/
inductive Tree : Level → Type where
  | ofTerm (t : Tree .term) : Tree .expr
  | union (e : Tree .expr) (t : Tree .term) : Tree .expr
  | ofFactor (f : Tree .factor) : Tree .term
  | juxtaposed (t : Tree .term) (f : Tree .factor) : Tree .term
  | joined (t : Tree .term) (f : Tree .factor) : Tree .term
  | ofAtom (a : Tree .atom) : Tree .factor
  | repeated (f : Tree .factor) (r : Repetition) : Tree .factor
  | operand (x : Char) (h : x ∉ reserved) : Tree .atom
  | group (e : Tree .expr) : Tree .atom

namespace Tree

variable {l : Level}

/-- The part of a pattern that a tree derives. -/
def text : {l : Level} → Tree l → Text
  | _, ofTerm t => t.text
  | _, union e t => e.text ++ '|' :: t.text
  | _, ofFactor f => f.text
  | _, juxtaposed t f => t.text ++ f.text
  | _, joined t f => t.text ++ '·' :: f.text
  | _, ofAtom a => a.text
  | _, repeated f r => f.text ++ [r.toChar]
  | _, operand x _ => [x]
  | _, group e => '(' :: (e.text ++ [')'])

/-- The texts that a tree stands for. -/
def lang : {l : Level} → Tree l → Language Char
  | _, ofTerm t => t.lang
  | _, union e t => e.lang + t.lang
  | _, ofFactor f => f.lang
  | _, juxtaposed t f => t.lang * f.lang
  | _, joined t f => t.lang * f.lang
  | _, ofAtom a => a.lang
  | _, repeated f r => r.apply f.lang
  | _, operand x _ => {[x]}
  | _, group e => e.lang

/-! ## Repetitions behind an atom -/

/-- The atom that the repetitions of a factor stand behind. -/
def core : Tree .factor → Tree .atom
  | ofAtom a => a
  | repeated f _ => f.core

/-- The repetitions that stand behind the atom of a factor. -/
def run : Tree .factor → List Repetition
  | ofAtom _ => []
  | repeated f r => f.run ++ [r]

/-- A factor with more repetitions behind it. -/
def repeatedBy (f : Tree .factor) (run : List Repetition) : Tree .factor := run.foldl repeated f

theorem core_repeatedBy (f : Tree .factor) (run : List Repetition) :
    (f.repeatedBy run).core = f.core := by
  induction run generalizing f with
  | nil => rfl
  | cons r run ih =>
    show ((f.repeated r).repeatedBy run).core = _
    rw [ih, core]

theorem run_repeatedBy (f : Tree .factor) (run : List Repetition) :
    (f.repeatedBy run).run = f.run ++ run := by
  induction run generalizing f with
  | nil => rw [List.append_nil]; rfl
  | cons r run ih =>
    show ((f.repeated r).repeatedBy run).run = _
    rw [ih]
    simp [Tree.run]

theorem sizeOf_core_lt (f : Tree .factor) : sizeOf f.core < sizeOf f := by
  match f with
  | ofAtom a => simp [core]
  | repeated f r =>
    have h := sizeOf_core_lt f
    simp only [core, repeated.sizeOf_spec]
    omega

/-- Induction over a tree that takes the repetitions behind an atom as one run. -/
@[elab_as_elim]
theorem inductRuns {P : {l : Level} → Tree l → Prop}
    (ofTerm : ∀ t : Tree .term, P t → P t.ofTerm)
    (union : ∀ (e : Tree .expr) (t : Tree .term), P e → P t → P (e.union t))
    (ofFactor : ∀ f : Tree .factor, P f → P f.ofFactor)
    (juxtaposed : ∀ (t : Tree .term) (f : Tree .factor), P t → P f → P (t.juxtaposed f))
    (joined : ∀ (t : Tree .term) (f : Tree .factor), P t → P f → P (t.joined f))
    (factor : ∀ f : Tree .factor, P f.core → P f)
    (operand : ∀ (x : Char) (h : x ∉ reserved), P (operand x h))
    (group : ∀ e : Tree .expr, P e → P e.group) {l : Level} (t : Tree l) : P t := by
  induction h : sizeOf t using Nat.strong_induction_on generalizing l with
  | _ n ih =>
    subst h
    -- The atom of a factor is smaller than the factor, however many repetitions are between.
    have core_ih (f : Tree .factor) (hf : sizeOf f ≤ sizeOf t) : P f.core :=
      ih _ (Nat.lt_of_lt_of_le (sizeOf_core_lt f) hf) f.core rfl
    match t with
    | .ofTerm t => exact ofTerm t (ih _ (by simp) t rfl)
    | .union e t => exact union e t (ih _ (by simp +arith) e rfl) (ih _ (by simp +arith) t rfl)
    | .ofFactor f => exact ofFactor f (ih _ (by simp) f rfl)
    | .juxtaposed t f =>
      exact juxtaposed t f (ih _ (by simp +arith) t rfl) (ih _ (by simp +arith) f rfl)
    | .joined t f => exact joined t f (ih _ (by simp +arith) t rfl) (ih _ (by simp +arith) f rfl)
    | .ofAtom a => exact factor (.ofAtom a) (core_ih _ le_rfl)
    | .repeated f r => exact factor (f.repeated r) (core_ih _ le_rfl)
    | .operand x hx => exact operand x hx
    | .group e => exact group e (ih _ (by simp) e rfl)

end Tree

end Pattern

/-! ## Postfix form -/

namespace Repetition

/-- The repetitions of a run as they stand in postfix form: each that is not once or more
    often moves behind those of that kind that directly follow it. -/
def reordered : List Repetition → List Repetition
  | [] => []
  | plus :: run => plus :: reordered run
  | r :: run => run.takeWhile (· = plus) ++ r :: reordered (run.dropWhile (· = plus))
termination_by run => run.length
decreasing_by
  · simp
  · exact Nat.lt_succ_of_le (List.dropWhile_sublist _).length_le

theorem reordered_cons_plus {r : Repetition} (hr : r ≠ plus) (run : List Repetition) :
    reordered (r :: plus :: run) = plus :: reordered (r :: run) := by
  rw [reordered.eq_3 _ _ hr, reordered.eq_3 _ _ hr]
  simp

theorem reordered_cons_cons {r q : Repetition} (hr : r ≠ plus) (hq : q ≠ plus)
    (run : List Repetition) : reordered (r :: q :: run) = r :: reordered (q :: run) := by
  rw [reordered.eq_3 _ _ hr]
  simp [hq]

theorem reordered_replicate_append (k : Nat) (run : List Repetition) :
    reordered (List.replicate k plus ++ run) = List.replicate k plus ++ reordered run := by
  induction k with
  | zero => rfl
  | succ k ih => rw [List.replicate_succ, List.cons_append, reordered, ih, List.cons_append]

theorem reordered_cons_replicate_append {r : Repetition} (hr : r ≠ plus) (k : Nat)
    (run : List Repetition) :
    reordered (r :: (List.replicate k plus ++ run)) =
      List.replicate k plus ++ reordered (r :: run) := by
  induction k with
  | zero => rfl
  | succ k ih =>
    rw [List.replicate_succ, List.cons_append, reordered_cons_plus hr, ih, List.cons_append]

/-- Every `*` and `?` moves behind the `+` signs that directly follow it. -/
theorem reordered_flatMap {blocks : List (Repetition × Nat)} (h : ∀ b ∈ blocks, b.1 ≠ plus) :
    reordered (blocks.flatMap fun b => b.1 :: List.replicate b.2 plus) =
      blocks.flatMap fun b => List.replicate b.2 plus ++ [b.1] := by
  induction blocks with
  | nil => rw [List.flatMap_nil, reordered, List.flatMap_nil]
  | cons b blocks ih =>
    have hb := h b List.mem_cons_self
    have later := ih fun q hq => h q (List.mem_cons_of_mem b hq)
    rw [List.flatMap_cons, List.cons_append, reordered_cons_replicate_append hb,
      List.flatMap_cons, List.append_assoc]
    congr 1
    -- Behind the signs stands the end or the next repetition that is no sign.
    cases blocks with
    | nil => simp [reordered]
    | cons q blocks =>
      have hq := h q (List.mem_cons_of_mem b List.mem_cons_self)
      rw [List.flatMap_cons, List.cons_append, reordered_cons_cons hb hq, ← later,
        List.flatMap_cons]
      rfl

end Repetition

namespace Pattern

namespace Tree

/-- The postfix form of a tree. -/
def post : {l : Level} → Tree l → List Token
  | _, ofTerm t => t.post
  | _, union e t => e.post ++ t.post ++ [.op (.binary .union)]
  | _, ofFactor f => f.post
  | _, juxtaposed t f => t.post ++ f.post ++ [.op (.binary .concat)]
  | _, joined t f => t.post ++ f.post ++ [.op (.binary .concat)]
  | _, ofAtom a => a.post
  | _, repeated f r =>
    f.core.post ++ (Repetition.reordered (f.run ++ [r])).map fun r => .op (.unary r)
  | _, operand x _ => [.operand x]
  | _, group e => e.post
termination_by _ t => sizeOf t
decreasing_by
  all_goals simp +arith
  have hf := sizeOf_core_lt f
  omega

/-- The repetitions of a factor stand behind its atom, in their new order. -/
theorem post_factor (f : Tree .factor) :
    f.post = f.core.post ++ (Repetition.reordered f.run).map fun r => .op (.unary r) := by
  match f with
  | ofAtom a => simp [post, core, run, Repetition.reordered]
  | repeated f r => rw [post, core, run]

/-- The language of a factor is that of its atom, repeated in the order of the text. -/
theorem lang_factor (f : Tree .factor) :
    f.lang = f.run.foldl (fun L r => r.apply L) f.core.lang := by
  match f with
  | ofAtom a => rw [lang, core, run, List.foldl_nil]
  | repeated f r => rw [lang, lang_factor f, run, core, List.foldl_append]; rfl

end Tree

end Pattern

end FiniteAutomata
