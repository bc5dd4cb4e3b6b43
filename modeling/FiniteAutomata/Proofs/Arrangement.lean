/-
  FiniteAutomata.Proofs.Arrangement

  What a derived pattern becomes in postfix order. Reading the part of a tree puts out some
  tokens and leaves some operators waiting above those that waited before; both together are
  the postfix form of the tree (`emits_marked`). The operators that are left bind at least as
  tightly as the level of the tree says, provided that those below them bind less tightly.
  That is what makes the next operator release exactly the ones that it should.
-/
import FiniteAutomata.Proofs.Derived
import FiniteAutomata.Session.Command

namespace FiniteAutomata

namespace Pattern

/-! ## Reading a part of a token list -/

/-- Reading the tokens puts out `out` and turns the waiting operators `group` into `held`,
    whatever stands around the group and whatever follows. -/
def Emits (group : List Operator) (tokens out : List Token) (held : List Operator) : Prop :=
  ∀ outer rest, arrange group outer (tokens ++ rest) = (arrange held outer rest).map (out ++ ·)

namespace Emits

variable {group held last : List Operator} {u v out more : List Token}

theorem nil : Emits group [] [] group := by
  intro outer rest
  show arrange group outer rest = (arrange group outer rest).map id
  cases arrange group outer rest <;> rfl

theorem append (hu : Emits group u out held) (hv : Emits held v more last) :
    Emits group (u ++ v) (out ++ more) last := by
  intro outer rest
  rw [List.append_assoc, hu, hv]
  cases arrange last outer rest with
  | error i => rfl
  | ok tokens =>
    show Except.ok (out ++ (more ++ tokens)) = Except.ok (out ++ more ++ tokens)
    rw [List.append_assoc]

theorem operand (x : Char) : Emits group [.operand x] [.operand x] group := by
  intro outer rest
  rfl

/-- An operator releases the waiting ones that bind at least as tightly. -/
theorem op (o : Operator) (held group : List Operator)
    (hheld : ∀ q ∈ held, o.precedence ≤ q.precedence)
    (hgroup : ∀ q ∈ group, q.precedence < o.precedence) :
    Emits (held ++ group) [.op o] (held.map .op) (o :: group) := by
  have released : ∀ q ∈ held, releasedBy o q = true := by
    intro q hq
    exact decide_eq_true (hheld q hq)
  have kept : ∀ q ∈ group, releasedBy o q = false := by
    intro q hq
    exact decide_eq_false (Nat.not_le.mpr (hgroup q hq))
  -- The release stops where the operators below `held` start.
  have taken : group.takeWhile (releasedBy o) = [] := by
    cases group with
    | nil => rfl
    | cons q group => exact List.takeWhile_cons_of_neg (by simp [kept q List.mem_cons_self])
  have dropped : group.dropWhile (releasedBy o) = group := by
    cases group with
    | nil => rfl
    | cons q group => exact List.dropWhile_cons_of_neg (by simp [kept q List.mem_cons_self])
  intro outer rest
  show (arrange (o :: (held ++ group).dropWhile (releasedBy o)) outer rest).map _ = _
  rw [List.dropWhile_append_of_pos released, List.takeWhile_append_of_pos released, dropped,
    taken, List.append_nil]

/-- Where nothing waits before and nothing follows, what is left waiting is put out last. -/
theorem arrange_eq (h : Emits [] u out held) : arrange [] [] u = .ok (out ++ held.map .op) := by
  have read := h [] []
  rw [List.append_nil] at read
  rw [read]
  rfl

/-- A group in parentheses puts out its own operators and leaves those around it alone. -/
theorem enclosed (hu : Emits [] u out held) :
    Emits last (.lparen :: (u ++ [.rparen])) (out ++ held.map .op) last := by
  intro outer rest
  show arrange [] (last :: outer) (u ++ [.rparen] ++ rest) = _
  rw [List.append_assoc, hu]
  show ((arrange last outer rest).map (held.map .op ++ ·)).map (out ++ ·) = _
  cases arrange last outer rest with
  | error i => rfl
  | ok tokens =>
    show Except.ok (out ++ (held.map .op ++ tokens)) = Except.ok (out ++ held.map .op ++ tokens)
    rw [List.append_assoc]

end Emits

/-! ## Repetitions behind an atom -/

/-- Repetitions that may wait behind one another, the latest first: one that is once or more
    often waits above one that is not, and no two of a kind wait. -/
inductive Waiting : List Repetition → Prop
  | none : Waiting []
  | plus : Waiting [.plus]
  | loose {r : Repetition} : r ≠ .plus → Waiting [r]
  | above {r : Repetition} : r ≠ .plus → Waiting [.plus, r]

theorem precedence_plus : (Operator.unary .plus).precedence = 4 := rfl

theorem precedence_loose {r : Repetition} (hr : r ≠ .plus) :
    (Operator.unary r).precedence = 3 := by
  cases r with
  | star | question => rfl
  | plus => exact absurd rfl hr

/-- Repetitions that wait and bind as tightly as one that comes in are put out. -/
theorem Emits.repetition (r : Repetition) (released kept : List Repetition)
    {group : List Operator} (hg : ∀ q ∈ group, q.precedence < 3)
    (hr : ∀ q ∈ released, (Operator.unary r).precedence ≤ (Operator.unary q).precedence)
    (hk : ∀ q ∈ kept, (Operator.unary q).precedence < (Operator.unary r).precedence) :
    Emits ((released ++ kept).map .unary ++ group) [.op (.unary r)]
      (released.map fun r => .op (.unary r)) ((r :: kept).map .unary ++ group) := by
  have binds : 3 ≤ (Operator.unary r).precedence := by cases r <;> decide
  have step := Emits.op (.unary r) (released.map .unary) (kept.map .unary ++ group)
    (by simpa using hr) (fun q hq => ?_)
  · rw [List.map_map] at step
    rw [List.map_append, List.append_assoc]
    exact step
  · rcases List.mem_append.mp hq with hq | hq
    · obtain ⟨p, hp, rfl⟩ := List.mem_map.mp hq
      exact hk p hp
    · exact Nat.lt_of_lt_of_le (hg q hq) binds

/-- What reading one more repetition does to those that wait behind the same atom: some are
    put out, and these come first in the new order. -/
def Takes (group : List Operator) (waiting : List Repetition) (r : Repetition) : Prop :=
  ∃ out next : List Repetition, Waiting next ∧
    Emits (waiting.map .unary ++ group) [.op (.unary r)] (out.map fun r => .op (.unary r))
      (next.map .unary ++ group) ∧
    ∀ run, Repetition.reordered (waiting.reverse ++ r :: run) =
      out ++ Repetition.reordered (next.reverse ++ run)

theorem takes_plus {group : List Operator} (hg : ∀ q ∈ group, q.precedence < 3)
    {waiting : List Repetition} (hw : Waiting waiting) : Takes group waiting .plus := by
  -- A waiting `+` is put out, what waits below it is not.
  cases hw with
  | none =>
    have emits := Emits.repetition .plus [] [] hg (by simp) (by simp)
    exact ⟨[], [.plus], .plus, emits, fun run => rfl⟩
  | plus =>
    have emits := Emits.repetition .plus [.plus] [] hg (by simp) (by simp)
    refine ⟨[.plus], [.plus], .plus, emits, fun run => ?_⟩
    show Repetition.reordered (.plus :: .plus :: run) = _
    rw [Repetition.reordered]
    rfl
  | @loose q hq =>
    have emits := Emits.repetition .plus [] [q] hg (by simp)
      (by simp [precedence_loose hq, precedence_plus])
    exact ⟨[], [.plus, q], .above hq, emits, fun run => rfl⟩
  | @above q hq =>
    have emits := Emits.repetition .plus [.plus] [q] hg (by simp)
      (by simp [precedence_loose hq, precedence_plus])
    exact ⟨[.plus], [.plus, q], .above hq, emits, fun run =>
      Repetition.reordered_cons_plus hq (.plus :: run)⟩

theorem takes_loose {group : List Operator} (hg : ∀ q ∈ group, q.precedence < 3)
    {waiting : List Repetition} (hw : Waiting waiting) {r : Repetition} (hr : r ≠ .plus) :
    Takes group waiting r := by
  have loose := precedence_loose hr
  -- All that waits binds at least as tightly, and is put out.
  have releases : ∀ q ∈ waiting, (Operator.unary r).precedence ≤ (Operator.unary q).precedence := by
    intro q _
    rw [loose]
    cases q <;> decide
  have emits := Emits.repetition r waiting [] hg releases (by simp)
  rw [List.append_nil] at emits
  refine ⟨waiting, [r], .loose hr, emits, fun run => ?_⟩
  cases hw with
  | none => rfl
  | plus =>
    show Repetition.reordered (.plus :: r :: run) = _
    rw [Repetition.reordered]
    rfl
  | loose hq => exact Repetition.reordered_cons_cons hq hr run
  | @above q hq =>
    show Repetition.reordered (q :: .plus :: r :: run) = _
    rw [Repetition.reordered_cons_plus hq, Repetition.reordered_cons_cons hq hr]
    rfl

/-- Repetitions behind an atom come out in their new order, but for those still waiting. -/
theorem emits_run {group : List Operator} (hg : ∀ q ∈ group, q.precedence < 3)
    {waiting : List Repetition} (hw : Waiting waiting) (run : List Repetition) :
    ∃ out held : List Repetition,
      Emits (waiting.map .unary ++ group) (run.map fun r => .op (.unary r))
        (out.map fun r => .op (.unary r)) (held.map .unary ++ group) ∧
      out ++ held = Repetition.reordered (waiting.reverse ++ run) := by
  -- Induction on the run, for all that may wait: a step puts out what stands first in the new
  -- order and leaves the same question for what then waits.
  induction run generalizing waiting with
  | nil =>
    refine ⟨[], waiting, .nil, ?_⟩
    cases hw with
    | none => simp [Repetition.reordered]
    | plus => simp [Repetition.reordered]
    | loose hq => simp [Repetition.reordered]
    | above hq => simp [Repetition.reordered]
  | cons r run ih =>
    have takes : Takes group waiting r := by
      by_cases hr : r = .plus
      · exact hr ▸ takes_plus hg hw
      · exact takes_loose hg hw hr
    obtain ⟨out, next, hnext, emits, first⟩ := takes
    obtain ⟨more, held, emits', rest⟩ := ih hnext
    refine ⟨out ++ more, held, ?_, ?_⟩
    · rw [List.map_append]
      exact emits.append emits'
    · rw [first, List.append_assoc, rest]

/-! ## Whole trees -/

/-- The least precedence among the operators that reading a tree leaves waiting. -/
def Level.floor : Level → Nat
  | .expr => 1
  | .term => 2
  | .factor => 3
  | .atom => 5

theorem precedence_lt (o : Operator) : o.precedence < 5 := by
  match o with
  | .unary .star | .unary .plus | .unary .question => decide
  | .binary .union | .binary .concat => decide

/-- Reading the tokens puts out `post`, but for operators that are left waiting; these bind
    at least as tightly as `floor`. -/
def Leaves (floor : Nat) (group : List Operator) (tokens post : List Token) : Prop :=
  ∃ out held, Emits group tokens out (held ++ group) ∧ out ++ held.map .op = post ∧
    ∀ q ∈ held, floor ≤ q.precedence

namespace Leaves

variable {group : List Operator} {u v post post' : List Token}

theorem mono {m n : Nat} (hn : m ≤ n) (h : Leaves n group u post) : Leaves m group u post := by
  obtain ⟨out, held, emits, whole, tight⟩ := h
  exact ⟨out, held, emits, whole, fun q hq => le_trans hn (tight q hq)⟩

/-- Two parts that are joined: the connective releases what the left part left waiting. -/
theorem joined {j : Connective} (hg : ∀ q ∈ group, q.precedence < (Operator.binary j).precedence)
    (hu : Leaves (Operator.binary j).precedence group u post)
    (hv : Leaves ((Operator.binary j).precedence + 1) (.binary j :: group) v post') :
    Leaves (Operator.binary j).precedence group (u ++ .op (.binary j) :: v)
      (post ++ post' ++ [.op (.binary j)]) := by
  obtain ⟨out, left, emits, rfl, tight⟩ := hu
  obtain ⟨more, right, emits', rfl, tight'⟩ := hv
  refine ⟨out ++ left.map .op ++ more, right ++ [.binary j], ?_, ?_, ?_⟩
  · -- left part, connective, right part
    have joint := (emits.append (.op (.binary j) left group tight hg)).append emits'
    rw [List.append_assoc u, List.singleton_append] at joint
    rw [List.append_assoc right, List.singleton_append]
    exact joint
  · simp
  · intro q hq
    rcases List.mem_append.mp hq with hq | hq
    · exact Nat.le_of_succ_le (tight' q hq)
    · exact (congrArg Operator.precedence (List.mem_singleton.mp hq)).ge

/-- Repetitions behind a part that leaves nothing waiting. -/
theorem repeated (hg : ∀ q ∈ group, q.precedence < 3) (hu : Emits group u post group)
    (run : List Repetition) :
    Leaves 3 group (u ++ run.map fun r => .op (.unary r))
      (post ++ (Repetition.reordered run).map fun r => .op (.unary r)) := by
  obtain ⟨out, held, emits, order⟩ := emits_run hg .none run
  refine ⟨post ++ out.map fun r => .op (.unary r), held.map .unary, ?_, ?_, ?_⟩
  · exact hu.append emits
  · rw [← List.nil_append run, ← List.reverse_nil, ← order, List.map_append, List.map_map,
      List.append_assoc]
    rfl
  · intro q hq
    obtain ⟨r, -, rfl⟩ := List.mem_map.mp hq
    cases r <;> decide

/-- No operator binds tightly enough to be left waiting by an atom. -/
theorem emits (hu : Leaves 5 group u post) : Emits group u post group := by
  obtain ⟨out, held, emits, rfl, tight⟩ := hu
  -- Every precedence is below the floor of an atom.
  obtain rfl : held = [] := by
    refine List.eq_nil_iff_forall_not_mem.mpr fun q hq => ?_
    exact Nat.not_lt.mpr (tight q hq) (precedence_lt q)
  rw [List.map_nil, List.append_nil]
  exact emits

/-- A group in parentheses leaves nothing waiting. -/
theorem enclosed (hu : Leaves 1 [] u post) :
    Emits group (.lparen :: (u ++ [.rparen])) post group := by
  obtain ⟨out, held, emits, rfl, -⟩ := hu
  rw [List.append_nil] at emits
  exact emits.enclosed

end Leaves

/-- What may wait under the right part of a connective: the connective and what it waits on. -/
theorem lt_of_mem_cons {o : Operator} {group : List Operator}
    (hg : ∀ q ∈ group, q.precedence < o.precedence) :
    ∀ q ∈ o :: group, q.precedence < o.precedence + 1 := by
  intro q hq
  rcases List.mem_cons.mp hq with rfl | hq
  · exact Nat.lt_succ_self _
  · exact Nat.lt_succ_of_lt (hg q hq)

/-- Reading a tree puts out its postfix form, but for operators still waiting. -/
theorem leaves_marked {l : Level} (t : Tree l) {group : List Operator}
    (hg : ∀ q ∈ group, q.precedence < l.floor) : Leaves l.floor group t.marked t.post := by
  -- The induction takes all repetitions behind an atom at once: their new order is not that
  -- of the factor with one repetition less.
  induction t using Tree.inductRuns generalizing group with
  | ofTerm t ih =>
    rw [Tree.marked, Tree.post]
    exact (ih fun q hq => Nat.lt_succ_of_lt (hg q hq)).mono (by decide)
  | ofFactor f ih =>
    rw [Tree.marked, Tree.post]
    exact (ih fun q hq => Nat.lt_succ_of_lt (hg q hq)).mono (by decide)
  | union e t ihe iht =>
    rw [Tree.marked, Tree.post]
    exact .joined (j := .union) hg (ihe hg) (iht (lt_of_mem_cons hg))
  | juxtaposed t f iht ihf =>
    rw [Tree.marked, Tree.post]
    exact .joined (j := .concat) hg (iht hg) (ihf (lt_of_mem_cons hg))
  | joined t f iht ihf =>
    rw [Tree.marked, Tree.post]
    exact .joined (j := .concat) hg (iht hg) (ihf (lt_of_mem_cons hg))
  | factor f ih =>
    rw [Tree.marked_factor, Tree.post_factor]
    exact .repeated hg (ih fun q _ => precedence_lt q).emits f.run
  | operand x hx =>
    rw [Tree.marked, Tree.post]
    exact ⟨[.operand x], [], .operand x, rfl, by simp⟩
  | group e ih =>
    rw [Tree.marked, Tree.post]
    exact ⟨_, [], (ih (by simp)).enclosed, by simp, by simp⟩

theorem arrange_marked (e : Tree .expr) : arrange [] [] e.marked = .ok e.post := by
  have whole : Leaves 1 [] e.marked e.post := leaves_marked e (by simp)
  obtain ⟨out, held, emits, post, -⟩ := whole
  rw [List.append_nil] at emits
  rw [emits.arrange_eq, post]

/-- The postfix form of a derived pattern is that of its tree. -/
theorem toPostfix_text (e : Tree .expr) : toPostfix (Token.ofText e.text) = .ok e.post := by
  rw [toPostfix, e.markConcat_ofText, arrange_marked]

end Pattern

namespace Session

open Pattern Repetition

section Outcome

variable (s : Session) {pattern : Text}

theorem arrange_of_ok {tokens : List Token} (h : toPostfix (Token.ofText pattern) = .ok tokens) :
    (s.arrange pattern).1 = .ok (Token.toText tokens) := by
  rw [arrange, h]

theorem arrange_of_error {i : Imbalance} (h : toPostfix (Token.ofText pattern) = .error i) :
    (s.arrange pattern).1 = .error (.imbalance i pattern) := by
  rw [arrange, h]

theorem arrange_eq_ok_iff {out : Text} : (s.arrange pattern).1 = .ok out ↔
    ∃ tokens, toPostfix (Token.ofText pattern) = .ok tokens ∧ Token.toText tokens = out := by
  cases h : toPostfix (Token.ofText pattern) with
  | ok tokens => simp [arrange_of_ok s h]
  | error i => simp [arrange_of_error s h]

end Outcome

/-- Derived patterns are put into the postfix form of their tree. In it, behind an atom, the
    order is that of the text, but that every `*` and `?` moves behind the `+` signs that
    directly follow it. -/
theorem arrange_text (s : Session) :
    (∀ e : Tree .expr, s.arrange e.text =
      (.ok (Token.toText e.post), s.logged (.arranged e.text (Token.toText e.post)))) ∧
    ∀ (a : Tree .atom) (k : Nat) (blocks : List (Repetition × Nat)),
      (∀ b ∈ blocks, b.1 ≠ plus) →
      ((Tree.ofAtom a).repeatedBy (List.replicate k plus ++
          blocks.flatMap fun b => b.1 :: List.replicate b.2 plus)).post =
        a.post ++ (List.replicate k plus ++
          blocks.flatMap fun b => List.replicate b.2 plus ++ [b.1]).map fun r =>
            .op (.unary r) := by
  refine ⟨fun e => ?_, fun a k blocks loose => ?_⟩
  · rw [arrange, toPostfix_text]
  · rw [Tree.post_factor, Tree.core_repeatedBy, Tree.run_repeatedBy, Tree.core, Tree.run,
      List.nil_append, reordered_replicate_append, reordered_flatMap loose]

theorem arrange_text_signs :
    (∀ b ∈ [(star, 2), (question, 0)], b.1 ≠ plus) ∧
      ((fresh false).arrange "a+*++?".toList).1 = .ok "a+++*?".toList := by
  have loose : ∀ b ∈ [(star, 2), (question, 0)], b.1 ≠ plus := by decide
  have ha : 'a' ∉ reserved := by decide
  let f := (Tree.ofAtom (.operand 'a' ha)).repeatedBy [plus, star, plus, plus, question]
  have order : f.post = _ := (arrange_text (fresh false)).2 (.operand 'a' ha) 1 _ loose
  have arranged := congrArg Prod.fst ((arrange_text (fresh false)).1 (.ofTerm (.ofFactor f)))
  rw [Tree.post, Tree.post, order, Tree.post] at arranged
  have text : (Tree.ofTerm (.ofFactor f)).text = "a+*++?".toList := by
    simp [f, Tree.repeatedBy, Tree.text, Repetition.toChar]
  rw [text] at arranged
  exact ⟨loose, arranged⟩

end Session

end FiniteAutomata
