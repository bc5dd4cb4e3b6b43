/-
  FiniteAutomata.Proofs.Discovery

  The order in which a breadth-first search finds things. The successors of a value are what
  the symbols of an ascending list lead to, so every value is found on the way of some word.
  The words on which values are found come out in shortlex order: shorter ones first, those
  of one length in the order of the symbols. So each value is found on its least word
  (`exists_leastWords`).

  The invariant of the search (`Progress`) keeps the word with each value. What makes it
  work is that a value on the queue has not yet given a word that is less than one in use.
-/
import FiniteAutomata.Worklist
import Mathlib.Data.List.Forall2
import Mathlib.Data.List.Induction
import Mathlib.Data.List.Nodup
import Mathlib.Data.List.Shortlex

namespace FiniteAutomata

open List (Shortlex)

/-! ## Words in shortlex order -/

section Words

variable {β : Type} {r : β → β → Prop} {u v w : List β}

theorem lex_append_append (h : List.Lex r u v) (length : u.length = v.length) (s t : List β) :
    List.Lex r (u ++ s) (v ++ t) := by
  induction h with
  | nil => cases length
  | cons _ ih => exact .cons (ih (Nat.succ.inj length))
  | rel hab => exact .rel hab

theorem shortlex_trans [IsTrans β r] (h : Shortlex r u v) (k : Shortlex r v w) :
    Shortlex r u w := by
  rcases List.shortlex_def.mp h with hlt | ⟨heq, hlex⟩ <;>
    rcases List.shortlex_def.mp k with klt | ⟨keq, klex⟩
  · exact .of_length_lt (Nat.lt_trans hlt klt)
  · exact .of_length_lt (keq ▸ hlt)
  · exact .of_length_lt (heq ▸ klt)
  · exact .of_lex (heq.trans keq) (List.lex_trans (IsTrans.trans _ _ _) hlex klex)

/-- Which of two words is less does not change when each is lengthened by a symbol. -/
theorem shortlex_concat (h : Shortlex r u v) (a b : β) : Shortlex r (u ++ [a]) (v ++ [b]) := by
  rcases List.shortlex_def.mp h with shorter | ⟨length, lex⟩
  · exact .of_length_lt (by simpa using shorter)
  · exact .of_lex (by simpa using length) (lex_append_append lex length [a] [b])

theorem shortlex_concat_right {a b : β} (h : r a b) (u : List β) :
    Shortlex r (u ++ [a]) (u ++ [b]) :=
  Shortlex.append_left ((List.shortlex_singleton_iff a b).mpr h) u

/-- The word is the other one or less. -/
def AtMost (r : β → β → Prop) (u v : List β) : Prop := u = v ∨ Shortlex r u v

theorem AtMost.trans [IsTrans β r] (h : AtMost r u v) (k : AtMost r v w) : AtMost r u w := by
  rcases h with rfl | h
  · exact k
  · rcases k with rfl | k
    · exact Or.inr h
    · exact Or.inr (shortlex_trans h k)

theorem AtMost.concat (h : AtMost r u v) (a : β) : AtMost r (u ++ [a]) (v ++ [a]) := by
  rcases h with rfl | h
  · exact Or.inl rfl
  · exact Or.inr (shortlex_concat h a a)

/-- The least of the words with a property. -/
def LeastWord (r : β → β → Prop) (P : List β → Prop) (u : List β) : Prop :=
  P u ∧ ∀ v, P v → AtMost r u v

end Words

namespace Worklist

variable {α β : Type}

/-- A word over the symbols leads from the start to a value. -/
def LeadsTo (next : α → β → α) (symbols : List β) (start : α) (u : List β) (a : α) : Prop :=
  (∀ l ∈ u, l ∈ symbols) ∧ u.foldl next start = a

theorem LeadsTo.concat {next : α → β → α} {symbols u : List β} {start a : α} {l : β}
    (h : LeadsTo next symbols start u a) (hl : l ∈ symbols) :
    LeadsTo next symbols start (u ++ [l]) (next a l) := by
  obtain ⟨within, run⟩ := h
  refine ⟨fun m hm => ?_, by rw [List.foldl_concat, run]⟩
  rcases List.mem_append.mp hm with hm | hm
  · exact within m hm
  · rwa [List.mem_singleton.mp hm]

/-! ## The search, with words -/

/-- Where a search stands: the values taken off the queue and those on it, each with the word
    on which it was found. -/
structure Progress (next : α → β → α) (symbols : List β) (r : β → β → Prop) (start : α)
    (taken queue : List (α × List β)) : Prop where
  base : (start, []) ∈ taken ++ queue
  leads : ∀ p ∈ taken ++ queue, LeadsTo next symbols start p.2 p.1
  ascending : (taken ++ queue).Pairwise fun p q => Shortlex r p.2 q.2
  /-- Words still to come are greater than those in use. -/
  ahead : ∀ p ∈ taken ++ queue, ∀ q ∈ queue, ∀ l ∈ symbols, Shortlex r p.2 (q.2 ++ [l])
  /-- What a value taken off leads to has been found, and not on a greater word. -/
  settled : ∀ p ∈ taken, ∀ l ∈ symbols, ∃ q ∈ taken ++ queue,
    q.1 = next p.1 l ∧ AtMost r q.2 (p.2 ++ [l])

variable {next : α → β → α} {symbols : List β} {r : β → β → Prop} {start : α}

theorem Progress.init : Progress next symbols r start [] [(start, [])] where
  base := List.mem_singleton_self _
  leads p hp := by
    rw [List.mem_singleton.mp hp]
    exact ⟨by simp, rfl⟩
  ascending := List.pairwise_singleton _ _
  ahead p hp q hq l _ := by
    rw [List.mem_singleton.mp hp]
    exact .of_length_lt (by simp)
  settled p hp := by cases hp

/-- In the end, the values that words lead to have been found, and not on greater words. -/
theorem Progress.found [IsTrans β r] {all : List (α × List β)}
    (final : Progress next symbols r start all []) {u : List β} (hu : ∀ l ∈ u, l ∈ symbols) :
    ∃ q ∈ all, q.1 = u.foldl next start ∧ AtMost r q.2 u := by
  have settled := final.settled
  have base := final.base
  rw [List.append_nil] at settled base
  induction u using List.reverseRecOn with
  | nil => exact ⟨_, base, rfl, Or.inl rfl⟩
  | append_singleton u l ih =>
    obtain ⟨p, hp, same, le⟩ := ih fun m hm => hu m (List.mem_append_left [l] hm)
    obtain ⟨q, hq, led, ge⟩ := settled p hp l (hu l (by simp))
    exact ⟨q, hq, by rw [led, same, List.foldl_concat], ge.trans (le.concat l)⟩

/-! ## One visit -/

/-- What symbols lead to from a value, on its word and the symbol. -/
def onward (next : α → β → α) (p : α × List β) (labels : List β) : List (α × List β) :=
  labels.map fun l => (next p.1 l, p.2 ++ [l])

theorem map_fst_onward (p : α × List β) (labels : List β) :
    (onward next p labels).map Prod.fst = labels.map (next p.1) := by
  rw [onward, List.map_map]
  rfl

theorem exists_of_mem_onward {p q : α × List β} {labels : List β}
    (sub : labels.Sublist symbols) (hq : q ∈ onward next p labels) :
    ∃ l ∈ symbols, q = (next p.1 l, p.2 ++ [l]) := by
  obtain ⟨l, hl, rfl⟩ := List.mem_map.mp hq
  exact ⟨l, sub.subset hl, rfl⟩

section visit

variable {taken rest : List (α × List β)} {p : α × List β} {labels : List β}
  (progress : Progress next symbols r start taken (p :: rest)) (sub : labels.Sublist symbols)

include progress sub

theorem Progress.leads_onward : ∀ q ∈ (taken ++ p :: rest) ++ onward next p labels,
    LeadsTo next symbols start q.2 q.1 := by
  intro q hq
  rcases List.mem_append.mp hq with old | new
  · exact progress.leads q old
  · obtain ⟨l, hl, rfl⟩ := exists_of_mem_onward sub new
    exact (progress.leads p (by simp)).concat hl

theorem Progress.ascending_onward (sorted : symbols.Pairwise r) :
    ((taken ++ p :: rest) ++ onward next p labels).Pairwise fun q q' => Shortlex r q.2 q'.2 := by
  refine List.pairwise_append.mpr ⟨progress.ascending, ?_, fun q hq q' new => ?_⟩
  · exact List.pairwise_map.mpr ((sorted.sublist sub).imp fun h => shortlex_concat_right h p.2)
  · obtain ⟨l, hl, rfl⟩ := exists_of_mem_onward sub new
    exact progress.ahead q hq p List.mem_cons_self l hl

theorem Progress.ahead_onward : ∀ q ∈ (taken ++ p :: rest) ++ onward next p labels,
    ∀ q' ∈ rest ++ onward next p labels, ∀ l ∈ symbols, Shortlex r q.2 (q'.2 ++ [l]) := by
  have later : ∀ q' ∈ rest, Shortlex r p.2 q'.2 :=
    (List.pairwise_cons.mp (List.pairwise_append.mp progress.ascending).2.1).1
  intro q hq q' hq' l hl
  rcases List.mem_append.mp hq with old | new <;> rcases List.mem_append.mp hq' with old' | new'
  · exact progress.ahead q old q' (List.mem_cons_of_mem p old') l hl
  · obtain ⟨m, hm, rfl⟩ := exists_of_mem_onward sub new'
    exact (progress.ahead q old p List.mem_cons_self m hm).append_right [l]
  · obtain ⟨m, hm, rfl⟩ := exists_of_mem_onward sub new
    exact shortlex_concat (later q' old') m l
  · -- both are new: two symbols behind the word of `p` against one
    obtain ⟨m, hm, rfl⟩ := exists_of_mem_onward sub new
    obtain ⟨m', hm', rfl⟩ := exists_of_mem_onward sub new'
    exact .of_length_lt (by simp)

omit sub in
theorem Progress.settled_onward (found : ∀ l ∈ symbols,
      next p.1 l ∈ (taken ++ p :: rest).map Prod.fst ∨
        ∃ m ∈ labels, next p.1 m = next p.1 l ∧ (m = l ∨ r m l)) :
    ∀ q ∈ taken ++ [p], ∀ l ∈ symbols, ∃ q' ∈ (taken ++ p :: rest) ++ onward next p labels,
      q'.1 = next q.1 l ∧ AtMost r q'.2 (q.2 ++ [l]) := by
  intro q hq l hl
  rcases List.mem_append.mp hq with old | hq
  · obtain ⟨q', hq', same, le⟩ := progress.settled q old l hl
    exact ⟨q', List.mem_append_left _ hq', same, le⟩
  · obtain rfl := List.mem_singleton.mp hq
    rcases found l hl with seen | ⟨m, hm, same, le⟩
    · obtain ⟨q', hq', same⟩ := List.mem_map.mp seen
      exact ⟨q', List.mem_append_left _ hq', same,
        Or.inr (progress.ahead q' hq' q List.mem_cons_self l hl)⟩
    · refine ⟨_, List.mem_append_right _ (List.mem_map.mpr ⟨m, hm, rfl⟩), same, ?_⟩
      rcases le with rfl | less
      · exact Or.inl rfl
      · exact Or.inr (shortlex_concat_right less q.2)

end visit

/-! ## The whole search -/

variable [DecidableEq α]

/-- The new values among those that ascending symbols lead to, each with the least symbol
    that leads to it. -/
theorem exists_labels_fresh (sorted : symbols.Pairwise r) (f : β → α) (seen : List α) :
    ∃ labels : List β, labels.Sublist symbols ∧ fresh seen (symbols.map f) = labels.map f ∧
      ∀ l ∈ symbols, f l ∈ seen ∨ ∃ m ∈ labels, f m = f l ∧ (m = l ∨ r m l) := by
  induction symbols generalizing seen with
  | nil => exact ⟨[], .slnil, rfl, by simp⟩
  | cons a rest ih =>
    obtain ⟨ha, hrest⟩ := List.pairwise_cons.mp sorted
    rw [List.map_cons, fresh]
    split
    · next old =>
      obtain ⟨labels, sub, eq, found⟩ := ih hrest seen
      refine ⟨labels, sub.cons a, eq, fun l hl => ?_⟩
      rcases List.mem_cons.mp hl with rfl | hl
      · exact Or.inl old
      · exact found l hl
    · obtain ⟨labels, sub, eq, found⟩ := ih hrest (f a :: seen)
      refine ⟨a :: labels, sub.cons_cons a, by rw [eq, List.map_cons], fun l hl => ?_⟩
      rcases List.mem_cons.mp hl with rfl | hl
      · exact Or.inr ⟨l, List.mem_cons_self, rfl, Or.inl rfl⟩
      · rcases found l hl with hs | ⟨m, hm, same, le⟩
        · rcases List.mem_cons.mp hs with same | hs
          · exact Or.inr ⟨a, List.mem_cons_self, same.symm, Or.inr (ha l hl)⟩
          · exact Or.inl hs
        · exact Or.inr ⟨m, List.mem_cons_of_mem a hm, same, le⟩

namespace Progress

variable {taken queue rest : List (α × List β)} {p : α × List β}

/-- Taking a value off the queue and putting the new ones on it. -/
theorem visit (sorted : symbols.Pairwise r)
    (progress : Progress next symbols r start taken (p :: rest)) :
    ∃ new : List (α × List β),
      new.map Prod.fst =
        fresh ((taken ++ p :: rest).map Prod.fst) (symbols.map (next p.1)) ∧
      Progress next symbols r start (taken ++ [p]) (rest ++ new) := by
  obtain ⟨labels, sub, eq, found⟩ :=
    exists_labels_fresh sorted (next p.1) ((taken ++ p :: rest).map Prod.fst)
  have whole : (taken ++ [p]) ++ (rest ++ onward next p labels) =
      (taken ++ p :: rest) ++ onward next p labels := by simp
  refine ⟨onward next p labels, by rw [map_fst_onward, eq], ?_, ?_, ?_, ?_, ?_⟩ <;> rw [whole]
  · exact List.mem_append_left _ progress.base
  · exact progress.leads_onward sub
  · exact progress.ascending_onward sub sorted
  · exact progress.ahead_onward sub
  · exact progress.settled_onward found

/-- The whole search. -/
theorem visits (sorted : symbols.Pairwise r) (h : Bounded fun a => symbols.map (next a))
    (progress : Progress next symbols r start taken queue) :
    ∃ all, Progress next symbols r start all [] ∧
      all.map Prod.fst = taken.map Prod.fst ++
        (visits (fun a => symbols.map (next a)) h ((taken ++ queue).map Prod.fst)
          (queue.map Prod.fst)).map Visit.taken := by
  generalize hs : (taken ++ queue).map Prod.fst = seen
  generalize hw : queue.map Prod.fst = waiting
  fun_induction Worklist.visits (fun a => symbols.map (next a)) h seen waiting
    generalizing taken queue with
  | case1 seen =>
    obtain rfl := List.map_eq_nil_iff.mp hw
    exact ⟨taken, progress, by simp⟩
  | case2 seen a waiting ih =>
    obtain ⟨p, rest, rfl, rfl, rfl⟩ := List.map_eq_cons_iff.mp hw
    subst hs
    obtain ⟨new, hnew, progress⟩ := progress.visit sorted
    obtain ⟨all, final, eq⟩ := ih progress (by simp [hnew]) (by simp [hnew])
    exact ⟨all, final, by simp [eq]⟩

end Progress

/-- A search finds every value on its least word, and the least words in ascending order. -/
theorem exists_leastWords [IsTrans β r] (sorted : symbols.Pairwise r)
    (h : Bounded fun a => symbols.map (next a)) (start : α) :
    ∃ words, words.Pairwise (Shortlex r) ∧
      List.Forall₂ (fun u a => LeastWord r (fun v => LeadsTo next symbols start v a) u) words
        (explore (fun a => symbols.map (next a)) h [start]) := by
  have init : Progress next symbols r start [] [(start, [])] := .init
  obtain ⟨all, final, eq⟩ := init.visits sorted h
  have explored : all.map Prod.fst = explore (fun a => symbols.map (next a)) h [start] := by
    simpa [explore, fresh] using eq
  have ascending := final.ascending
  have leads := final.leads
  rw [List.append_nil] at ascending leads
  refine ⟨all.map Prod.snd, List.pairwise_map.mpr ascending, ?_⟩
  rw [← explored, List.forall₂_map_left_iff, List.forall₂_map_right_iff, List.forall₂_same]
  intro p hp
  refine ⟨leads p hp, ?_⟩
  rintro v ⟨within, run⟩
  -- No value is found twice, so the one that `v` leads to is `p` itself.
  obtain ⟨q, hq, same, le⟩ := final.found within
  have nodup : (all.map Prod.fst).Nodup := explored ▸ nodup_explore _
  obtain rfl := List.inj_on_of_nodup_map nodup hq hp (same.trans run)
  exact le

end Worklist

end FiniteAutomata
