/-
  FiniteAutomata.Worklist

  Breadth-first search of a graph that is given by its successor lists. A value is put on
  the queue the first time it is seen, so each is put on once and taken off once; the
  search ends because all successors lie in one finite list (`Bounded`), which is a fact
  about the graph and costs nothing at run time.

  The result of a search is its list of visits in order. `mem_explore` says that exactly
  the reachable values are visited and `nodup_explore` that none is visited twice.
-/

namespace FiniteAutomata

namespace Worklist

variable {α : Type}

/-! ## Counting -/

/-- A condition that holds less often counts less. -/
theorem countP_lt_countP {l : List α} {p q : α → Bool} (imp : ∀ a ∈ l, p a = true → q a = true)
    {x : α} (hx : x ∈ l) (hp : p x = false) (hq : q x = true) : l.countP p < l.countP q := by
  induction l with
  | nil => simp at hx
  | cons a l ih =>
    have le : l.countP p ≤ l.countP q :=
      List.countP_mono_left fun b hb => imp b (List.mem_cons_of_mem a hb)
    rcases List.mem_cons.mp hx with rfl | hx
    · rw [List.countP_cons_of_neg (by simp [hp]), List.countP_cons_of_pos hq]
      omega
    · have lt := ih (fun b hb => imp b (List.mem_cons_of_mem a hb)) hx
      rw [List.countP_cons, List.countP_cons]
      cases ha : p a with
      | false => simp; omega
      | true => simp [imp a (by simp) ha]; omega

variable [DecidableEq α]

/-! ## New values -/

/-- The members of a list that were not seen before, each once and in order. -/
def fresh (seen : List α) : List α → List α
  | [] => []
  | a :: rest => if a ∈ seen then fresh seen rest else a :: fresh (a :: seen) rest

theorem mem_fresh {seen l : List α} {x : α} : x ∈ fresh seen l ↔ x ∈ l ∧ ¬ x ∈ seen := by
  induction l generalizing seen with
  | nil => simp [fresh]
  | cons a rest ih =>
    simp only [fresh]
    split
    · rename_i h
      rw [ih]
      constructor
      · exact fun ⟨hx, hs⟩ => ⟨List.mem_cons_of_mem a hx, hs⟩
      · rintro ⟨hx, hs⟩
        rcases List.mem_cons.mp hx with rfl | hx
        · exact absurd h hs
        · exact ⟨hx, hs⟩
    · rename_i h
      by_cases hxa : x = a
      · subst hxa; simp [h]
      · simp [ih, hxa]

theorem nodup_fresh (seen l : List α) : (fresh seen l).Nodup := by
  induction l generalizing seen with
  | nil => simp [fresh]
  | cons a rest ih =>
    simp only [fresh]
    split
    · exact ih seen
    · exact List.nodup_cons.mpr ⟨by simp [mem_fresh], ih _⟩

theorem fresh_congr {seen other : List α} (same : ∀ a, a ∈ seen ↔ a ∈ other) (l : List α) :
    fresh seen l = fresh other l := by
  induction l generalizing seen other with
  | nil => rfl
  | cons a l ih =>
    rw [fresh, fresh]
    by_cases old : a ∈ seen
    · rw [if_pos old, if_pos ((same a).mp old)]
      exact ih same
    · rw [if_neg old, if_neg fun h => old ((same a).mpr h)]
      refine congrArg (a :: ·) (ih fun b => ?_)
      rw [List.mem_cons, List.mem_cons, same]

theorem fresh_singleton_of_mem {seen : List α} {a : α} (old : a ∈ seen) : fresh seen [a] = [] := by
  rw [fresh, if_pos old, fresh]

theorem fresh_singleton_of_not_mem {seen : List α} {a : α} (new : a ∉ seen) :
    fresh seen [a] = [a] := by
  rw [fresh, if_neg new, fresh]

/-- The values may be looked at one after the other. -/
theorem fresh_cons (seen : List α) (a : α) (l : List α) :
    fresh seen (a :: l) = fresh seen [a] ++ fresh (seen ++ fresh seen [a]) l := by
  by_cases old : a ∈ seen
  · rw [fresh_singleton_of_mem old, List.append_nil, fresh, if_pos old]
    rfl
  · rw [fresh_singleton_of_not_mem old, fresh, if_neg old]
    refine congrArg (a :: ·) (fresh_congr (fun b => ?_) l)
    rw [List.mem_cons, List.mem_append, List.mem_singleton, or_comm]

/-! ## The search -/

/-- All successors of all values lie in one finite list. -/
def Bounded (succ : α → List α) : Prop :=
  ∃ domain : List α, ∀ a, ∀ b ∈ succ a, b ∈ domain

/-- One step of the search: the value taken off the queue and the values put on it. -/
structure Visit (α : Type) where
  taken : α
  added : List α

/-- How many values of a list were not seen yet. -/
def unseen (domain seen : List α) : Nat :=
  domain.countP fun a => !decide (a ∈ seen)

/-- Adding a new value of the domain to the seen ones leaves fewer unseen. -/
theorem unseen_lt {domain seen added : List α} {x : α} (hx : x ∈ domain)
    (new : ¬ x ∈ seen) (old : x ∈ added) :
    unseen domain (seen ++ added) < unseen domain seen := by
  refine countP_lt_countP (fun a _ h => ?_) hx (by simp [old]) (by simp [new])
  simp only [List.mem_append, Bool.not_eq_true', decide_eq_false_iff_not, not_or] at h ⊢
  exact h.1

/-- The visits of a search, given the values seen and the queue of those still to be
    taken off. -/
def visits (succ : α → List α) (h : Bounded succ) (seen queue : List α) : List (Visit α) :=
  match queue with
  | [] => []
  | a :: rest =>
    ⟨a, fresh seen (succ a)⟩ ::
      visits succ h (seen ++ fresh seen (succ a)) (rest ++ fresh seen (succ a))
termination_by (unseen h.choose seen, queue.length)
decreasing_by
  cases hf : fresh seen (succ a) with
  | nil =>
    simp only [List.append_nil, List.length_cons]
    exact Prod.Lex.right _ (Nat.lt_succ_self _)
  | cons b more =>
    apply Prod.Lex.left
    have hb : b ∈ fresh seen (succ a) := by simp [hf]
    rw [← hf]
    exact unseen_lt (h.choose_spec a b (mem_fresh.mp hb).1) (mem_fresh.mp hb).2 hb

/-- The values reached from a list of starting ones, in the order they were found. -/
def explore (succ : α → List α) (h : Bounded succ) (start : List α) : List α :=
  (visits succ h (fresh [] start) (fresh [] start)).map Visit.taken

/-! ## What a search finds -/

/-- A value is a starting one or a successor of one that is reached. -/
inductive Reaches (succ : α → List α) (start : List α) : α → Prop
  | start {a : α} : a ∈ start → Reaches succ start a
  | step {a b : α} : Reaches succ start a → b ∈ succ a → Reaches succ start b

variable {succ : α → List α} {h : Bounded succ}

theorem visits_cons (seen rest : List α) (a : α) :
    visits succ h seen (a :: rest) =
      ⟨a, fresh seen (succ a)⟩ ::
        visits succ h (seen ++ fresh seen (succ a)) (rest ++ fresh seen (succ a)) := by
  rw [visits]

theorem queue_subset_visits (seen queue : List α) :
    ∀ x ∈ queue, x ∈ (visits succ h seen queue).map Visit.taken := by
  fun_induction visits succ h seen queue with
  | case1 => simp
  | case2 seen a rest ih =>
    intro x hx
    rcases List.mem_cons.mp hx with rfl | hx
    · simp
    · exact List.mem_cons_of_mem _ (ih x (by simp [hx]))

theorem visits_closed (seen queue : List α) :
    ∀ a ∈ (visits succ h seen queue).map Visit.taken, ∀ b ∈ succ a,
      b ∈ seen ∨ b ∈ (visits succ h seen queue).map Visit.taken := by
  fun_induction visits succ h seen queue with
  | case1 => simp
  | case2 seen a rest ih =>
    have found : ∀ b ∈ fresh seen (succ a), b ∈ (visits succ h (seen ++ fresh seen (succ a))
        (rest ++ fresh seen (succ a))).map Visit.taken :=
      fun b hb => queue_subset_visits _ _ b (by simp [hb])
    intro x hx b hb
    rcases List.mem_cons.mp hx with rfl | hx
    · by_cases hs : b ∈ seen
      · exact Or.inl hs
      · exact Or.inr (List.mem_cons_of_mem _ (found b (mem_fresh.mpr ⟨hb, hs⟩)))
    · rcases ih x hx b hb with hs | hv
      · rcases List.mem_append.mp hs with hs | hf
        · exact Or.inl hs
        · exact Or.inr (List.mem_cons_of_mem _ (found b hf))
      · exact Or.inr (List.mem_cons_of_mem _ hv)

theorem reaches_of_visited {start : List α} (seen queue : List α)
    (hq : ∀ x ∈ queue, Reaches succ start x) :
    ∀ x ∈ (visits succ h seen queue).map Visit.taken, Reaches succ start x := by
  fun_induction visits succ h seen queue with
  | case1 => simp
  | case2 seen a rest ih =>
    have ha : Reaches succ start a := hq a (by simp)
    intro x hx
    rcases List.mem_cons.mp hx with rfl | hx
    · exact ha
    · refine ih (fun y hy => ?_) x hx
      rcases List.mem_append.mp hy with hy | hy
      · exact hq y (List.mem_cons_of_mem a hy)
      · exact ha.step (mem_fresh.mp hy).1

theorem visited_queue_or_new (seen queue : List α) :
    ∀ x ∈ (visits succ h seen queue).map Visit.taken, x ∈ queue ∨ ¬ x ∈ seen := by
  fun_induction visits succ h seen queue with
  | case1 => simp
  | case2 seen a rest ih =>
    intro x hx
    rcases List.mem_cons.mp hx with rfl | hx
    · simp
    · rcases ih x hx with hq | hs
      · rcases List.mem_append.mp hq with hr | hf
        · exact Or.inl (List.mem_cons_of_mem a hr)
        · exact Or.inr (mem_fresh.mp hf).2
      · exact Or.inr fun hseen => hs (List.mem_append.mpr (Or.inl hseen))

theorem nodup_visits (seen queue : List α) (sub : ∀ x ∈ queue, x ∈ seen) (nodup : queue.Nodup) :
    ((visits succ h seen queue).map Visit.taken).Nodup := by
  fun_induction visits succ h seen queue with
  | case1 => simp
  | case2 seen a rest ih =>
    obtain ⟨ha, hrest⟩ := List.nodup_cons.mp nodup
    refine List.nodup_cons.mpr ⟨fun hx => ?_, ih (fun x hx => ?_) ?_⟩
    · rcases visited_queue_or_new _ _ a hx with hq | hs
      · rcases List.mem_append.mp hq with hr | hf
        · exact ha hr
        · exact (mem_fresh.mp hf).2 (sub a (by simp))
      · exact hs (List.mem_append.mpr (Or.inl (sub a (by simp))))
    · rcases List.mem_append.mp hx with hr | hf
      · exact List.mem_append.mpr (Or.inl (sub x (List.mem_cons_of_mem a hr)))
      · exact List.mem_append.mpr (Or.inr hf)
    · refine List.nodup_append.mpr ⟨hrest, nodup_fresh _ _, fun x hx y hy same => ?_⟩
      subst same
      exact (mem_fresh.mp hy).2 (sub x (List.mem_cons_of_mem a hx))

/-- Exactly the reachable values are found. -/
theorem mem_explore {start : List α} {x : α} : x ∈ explore succ h start ↔ Reaches succ start x := by
  constructor
  · exact reaches_of_visited _ _ (fun y hy => .start (mem_fresh.mp hy).1) x
  · intro hx
    have base : ∀ y ∈ fresh [] start, y ∈ explore succ h start := queue_subset_visits _ _
    induction hx with
    | start ha => exact base _ (mem_fresh.mpr ⟨ha, by simp⟩)
    | step _ hb ih =>
      rcases visits_closed _ _ _ ih _ hb with hs | hv
      · exact base _ hs
      · exact hv

/-- Searches with the same successors of all that is reached make the same visits. -/
theorem visits_congr {start : List α} {succ' : α → List α} (h' : Bounded succ')
    (same : ∀ a, Reaches succ start a → succ' a = succ a) (seen queue : List α)
    (hq : ∀ x ∈ queue, Reaches succ start x) :
    visits succ' h' seen queue = visits succ h seen queue := by
  fun_induction visits succ h seen queue with
  | case1 => rw [visits]
  | case2 seen a rest ih =>
    have ha : Reaches succ start a := hq a (by simp)
    rw [visits_cons, same a ha, ih fun x hx => ?_]
    rcases List.mem_append.mp hx with hr | hf
    · exact hq x (List.mem_cons_of_mem a hr)
    · exact ha.step (mem_fresh.mp hf).1

theorem explore_congr {start : List α} {succ' : α → List α} (h' : Bounded succ')
    (same : ∀ a, Reaches succ start a → succ' a = succ a) :
    explore succ' h' start = explore succ h start := by
  unfold explore
  rw [visits_congr h' same _ _ fun x hx => .start (mem_fresh.mp hx).1]

/-- No value is visited twice. -/
theorem nodup_explore (start : List α) : (explore succ h start).Nodup :=
  nodup_visits _ _ (fun _ hx => hx) (nodup_fresh _ _)

end Worklist

end FiniteAutomata
