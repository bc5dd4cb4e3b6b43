/-
  FiniteAutomata.Ordered

  Strict total orders that can be computed: the orders by which states, labels and alphabets
  are listed. `Ordered.before` is the comparison; its three laws say that it is irreflexive
  and transitive and leaves no two different values side by side.

  Numbers are ordered by size and characters by code point. Lists and pairs are ordered by
  the first place where they differ, a proper beginning of a list coming before the list.
-/

namespace FiniteAutomata

/-- A computable strict total order. -/
class Ordered (α : Type) where
  /-- The first value comes strictly before the second. -/
  before : α → α → Bool
  irrefl : ∀ a, before a a = false
  trans : ∀ a b c, before a b = true → before b c = true → before a c = true
  connected : ∀ a b, before a b = false → before b a = false → a = b

namespace Ordered

section Laws

variable {α : Type} [Ordered α]

theorem before_asymm {a b : α} (h : before a b = true) : before b a = false := by
  cases k : before b a with
  | false => rfl
  | true => exact absurd (trans a b a h k) (by simp [irrefl])

/-- What lies between is beside neither end. -/
theorem before_of_before_of_beside {a b c : α} (h : before a b = true)
    (k : before c b = false) : before a c = true := by
  cases hac : before a c with
  | true => rfl
  | false =>
    cases hca : before c a with
    | true => exact absurd (trans c a b hca h) (by simp [k])
    | false => exact absurd h (by simp [connected a c hac hca, k])

/-- A list in ascending order, with its repetitions. -/
def sort (l : List α) : List α := l.mergeSort fun a b => !before b a

end Laws

/-! ## Orders -/

instance : Ordered Nat where
  before a b := decide (a < b)
  irrefl a := by simp
  trans a b c h k := by simp only [decide_eq_true_eq] at h k ⊢; omega
  connected a b h k := by simp only [decide_eq_false_iff_not] at h k; omega

instance : Ordered Int where
  before a b := decide (a < b)
  irrefl a := by simp
  trans a b c h k := by simp only [decide_eq_true_eq] at h k ⊢; omega
  connected a b h k := by simp only [decide_eq_false_iff_not] at h k; omega

/-- The order of the values that a one-to-one function gives. -/
@[reducible] def along {α β : Type} [Ordered β] (f : α → β) (injective : ∀ a b, f a = f b → a = b) :
    Ordered α where
  before a b := before (f a) (f b)
  irrefl a := irrefl (f a)
  trans a b c := trans (f a) (f b) (f c)
  connected a b h k := injective a b (connected (f a) (f b) h k)

instance : Ordered Char := along Char.toNat fun _ _ h => Char.toNat_inj.mp h

instance : Ordered Bool := along Bool.toNat fun a b h => by cases a <;> cases b <;> simp_all

section Prod

variable {α β : Type} [Ordered α] [Ordered β]

instance : Ordered (α × β) where
  before p q := before p.1 q.1 || (!before q.1 p.1 && before p.2 q.2)
  irrefl p := by simp [irrefl]
  trans p q r h k := by
    simp only [Bool.or_eq_true, Bool.and_eq_true, Bool.not_eq_true'] at h k ⊢
    rcases h with h | ⟨h, hs⟩ <;> rcases k with k | ⟨k, ks⟩
    · exact Or.inl (trans _ _ _ h k)
    · exact Or.inl (before_of_before_of_beside h k)
    · cases hpq : before p.1 q.1 with
      | true => exact Or.inl (trans _ _ _ hpq k)
      | false => exact Or.inl (connected p.1 q.1 hpq h ▸ k)
    · cases hpq : before p.1 q.1 with
      | true => exact Or.inl (before_of_before_of_beside hpq k)
      | false =>
        rw [connected p.1 q.1 hpq h]
        exact Or.inr ⟨k, trans _ _ _ hs ks⟩
  connected p q h k := by
    simp only [Bool.or_eq_false_iff, Bool.and_eq_false_iff, Bool.not_eq_false'] at h k
    have firsts : p.1 = q.1 := connected _ _ h.1 k.1
    refine Prod.ext firsts (connected _ _ ?_ ?_)
    · exact h.2.resolve_left (by simp [k.1])
    · exact k.2.resolve_left (by simp [h.1])

end Prod

section List

variable {α : Type} [Ordered α]

/-- Whether one list comes before another. -/
def listBefore : List α → List α → Bool
  | _, [] => false
  | [], _ :: _ => true
  | a :: s, b :: t => before a b || (!before b a && listBefore s t)

theorem listBefore_trans (s t u : List α) (h : listBefore s t = true)
    (k : listBefore t u = true) : listBefore s u = true := by
  induction s generalizing t u with
  | nil =>
    cases u with
    | nil => cases t <;> simp [listBefore] at k
    | cons c u => rfl
  | cons a s ih =>
    cases t with
    | nil => simp [listBefore] at h
    | cons b t =>
      cases u with
      | nil => simp [listBefore] at k
      | cons c u =>
        simp only [listBefore, Bool.or_eq_true, Bool.and_eq_true, Bool.not_eq_true'] at h k ⊢
        rcases h with h | ⟨h, hs⟩ <;> rcases k with k | ⟨k, ks⟩
        · exact Or.inl (trans _ _ _ h k)
        · exact Or.inl (before_of_before_of_beside h k)
        · cases hab : before a b with
          | true => exact Or.inl (trans _ _ _ hab k)
          | false => exact Or.inl (connected a b hab h ▸ k)
        · cases hab : before a b with
          | true => exact Or.inl (before_of_before_of_beside hab k)
          | false =>
            rw [connected a b hab h]
            exact Or.inr ⟨k, ih t u hs ks⟩

theorem listBefore_connected (s t : List α) (h : listBefore s t = false)
    (k : listBefore t s = false) : s = t := by
  induction s generalizing t with
  | nil =>
    cases t with
    | nil => rfl
    | cons b t => simp [listBefore] at h
  | cons a s ih =>
    cases t with
    | nil => simp [listBefore] at k
    | cons b t =>
      simp only [listBefore, Bool.or_eq_false_iff, Bool.and_eq_false_iff,
        Bool.not_eq_false'] at h k
      rw [connected a b h.1 k.1, ih t (h.2.resolve_left (by simp [k.1]))
        (k.2.resolve_left (by simp [h.1]))]

instance : Ordered (List α) where
  before := listBefore
  irrefl l := by induction l with
    | nil => rfl
    | cons a l ih => simp [listBefore, irrefl, ih]
  trans := listBefore_trans
  connected := listBefore_connected

end List

end Ordered

end FiniteAutomata
