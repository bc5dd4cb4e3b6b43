/-
  FiniteAutomata.SortedSet

  Finite sets as strictly ascending lists. A set has one form only, so two sets with the
  same members are equal (`SortedSet.ext_mem`); sets of states and alphabets are such sets,
  and listing a set in order is reading its list.
-/
import FiniteAutomata.Ordered

namespace FiniteAutomata

/-- A finite set, as the strictly ascending list of its members. -/
structure SortedSet (α : Type) [Ordered α] where
  /-- The members in ascending order. -/
  toList : List α
  ascending : toList.Pairwise (fun a b => Ordered.before a b = true)

namespace SortedSet

variable {α : Type} [Ordered α]

/-! ## Ascending lists -/

/-- Puts a value into an ascending list, once. -/
def insertInto (a : α) : List α → List α
  | [] => [a]
  | b :: rest =>
    if Ordered.before a b then a :: b :: rest
    else if Ordered.before b a then b :: insertInto a rest
    else b :: rest

theorem mem_insertInto {a x : α} {l : List α} : x ∈ insertInto a l ↔ x = a ∨ x ∈ l := by
  induction l with
  | nil => simp [insertInto]
  | cons b rest ih =>
    simp only [insertInto]
    split
    · simp
    · split
      · simp only [List.mem_cons, ih]
        exact or_left_comm
      · rename_i h k
        have same : a = b := Ordered.connected a b (by simpa using h) (by simpa using k)
        simp [same]

theorem insertInto_ascending {a : α} {l : List α}
    (h : l.Pairwise (fun a b => Ordered.before a b = true)) :
    (insertInto a l).Pairwise (fun a b => Ordered.before a b = true) := by
  induction l with
  | nil => simp [insertInto]
  | cons b rest ih =>
    obtain ⟨hb, hrest⟩ := List.pairwise_cons.mp h
    simp only [insertInto]
    split
    · rename_i hab
      refine List.pairwise_cons.mpr ⟨fun x hx => ?_, h⟩
      rcases List.mem_cons.mp hx with rfl | hx
      · exact hab
      · exact Ordered.trans _ _ _ hab (hb x hx)
    · split
      · rename_i hba
        refine List.pairwise_cons.mpr ⟨fun x hx => ?_, ih hrest⟩
        rcases mem_insertInto.mp hx with rfl | hx
        · exact hba
        · exact hb x hx
      · exact h

/-- Ascending lists with the same members are equal. -/
theorem ascending_unique {l m : List α}
    (hl : l.Pairwise (fun a b => Ordered.before a b = true))
    (hm : m.Pairwise (fun a b => Ordered.before a b = true))
    (same : ∀ x, x ∈ l ↔ x ∈ m) : l = m := by
  induction l generalizing m with
  | nil =>
    cases m with
    | nil => rfl
    | cons b m => exact absurd ((same b).mpr (by simp)) (by simp)
  | cons a l ih =>
    cases m with
    | nil => exact absurd ((same a).mp (by simp)) (by simp)
    | cons b m =>
      obtain ⟨ha, htail⟩ := List.pairwise_cons.mp hl
      obtain ⟨hb, hmtail⟩ := List.pairwise_cons.mp hm
      have heads : a = b := by
        rcases List.mem_cons.mp ((same a).mp (by simp)) with h | h
        · exact h
        rcases List.mem_cons.mp ((same b).mpr (by simp)) with k | k
        · exact k.symm
        · exact absurd (ha b k) (by simp [Ordered.before_asymm (hb a h)])
      subst heads
      have tails : l = m := by
        refine ih htail hmtail fun x => ⟨fun hx => ?_, fun hx => ?_⟩
        · rcases List.mem_cons.mp ((same x).mp (List.mem_cons_of_mem a hx)) with rfl | h
          · exact absurd (ha x hx) (by simp [Ordered.irrefl])
          · exact h
        · rcases List.mem_cons.mp ((same x).mpr (List.mem_cons_of_mem a hx)) with rfl | h
          · exact absurd (hb x hx) (by simp [Ordered.irrefl])
          · exact h
      rw [tails]

/-! ## Sets -/

instance : Membership α (SortedSet α) := ⟨fun s a => a ∈ s.toList⟩

@[simp] theorem mem_toList {a : α} {s : SortedSet α} : a ∈ s.toList ↔ a ∈ s := Iff.rfl

instance [DecidableEq α] (a : α) (s : SortedSet α) : Decidable (a ∈ s) :=
  inferInstanceAs (Decidable (a ∈ s.toList))

/-- No member is listed twice. -/
theorem nodup_toList (s : SortedSet α) : s.toList.Nodup :=
  s.ascending.imp fun {a b} before same => by
    subst same
    simp [Ordered.irrefl] at before

/-- Two sets are equal when their lists are. -/
theorem ext_toList {s t : SortedSet α} (h : s.toList = t.toList) : s = t := by
  cases s; cases t; cases h; rfl

/-- Two sets are equal when they have the same members. -/
theorem ext_mem {s t : SortedSet α} (h : ∀ x, x ∈ s ↔ x ∈ t) : s = t :=
  ext_toList (ascending_unique s.ascending t.ascending h)

instance [DecidableEq α] : DecidableEq (SortedSet α) := fun s t =>
  decidable_of_iff (s.toList = t.toList) ⟨ext_toList, fun h => h ▸ rfl⟩

/-- The set without members. -/
def empty : SortedSet α := ⟨[], List.Pairwise.nil⟩

instance : Inhabited (SortedSet α) := ⟨empty⟩

/-- Adds a member. -/
def insert (a : α) (s : SortedSet α) : SortedSet α :=
  ⟨insertInto a s.toList, insertInto_ascending s.ascending⟩

/-- The members of a list, in order and without repetition. -/
def ofList (l : List α) : SortedSet α := l.foldr insert empty

/-- Whether the set has no members. -/
def isEmpty (s : SortedSet α) : Bool := s.toList.isEmpty

/-- The number of members. -/
def size (s : SortedSet α) : Nat := s.toList.length

@[simp] theorem not_mem_empty (a : α) : ¬ a ∈ (empty : SortedSet α) :=
  List.not_mem_nil

@[simp] theorem mem_insert {a x : α} {s : SortedSet α} : x ∈ insert a s ↔ x = a ∨ x ∈ s :=
  mem_insertInto

@[simp] theorem mem_ofList {x : α} {l : List α} : x ∈ ofList l ↔ x ∈ l := by
  induction l with
  | nil => exact iff_of_false (not_mem_empty x) (by simp)
  | cons a l ih => simp only [ofList, List.foldr_cons, mem_insert, List.mem_cons] at ih ⊢; rw [ih]

@[simp] theorem ofList_toList (s : SortedSet α) : ofList s.toList = s :=
  ext_mem fun _ => mem_ofList

theorem isEmpty_iff {s : SortedSet α} : s.isEmpty = true ↔ ∀ x, ¬ x ∈ s := by
  simp [isEmpty, List.eq_nil_iff_forall_not_mem]

theorem isEmpty_eq_false_iff {s : SortedSet α} : s.isEmpty = false ↔ ∃ x, x ∈ s := by
  rw [Bool.eq_false_iff, ne_eq, isEmpty_iff]
  simp

end SortedSet

end FiniteAutomata
