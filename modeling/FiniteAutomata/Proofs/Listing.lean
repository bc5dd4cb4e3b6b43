/-
  FiniteAutomata.Proofs.Listing

  The texts that a search lists, when nothing bounds its depth. `Machine.Lists` is the search
  as it is meant: it goes on wherever the text is short enough, and has a list only if it
  ends. It does end where no symbol on offer is empty, and then any depth that makes up for
  the missing length is enough (`Advances.lists`); what it lists is unique (`Lists.unique`).
  A machine that goes along with another one lists the same texts, even if it has more on
  offer that leads nowhere (`Follows.lists`).

  Where single letters are on offer, the list has exactly the accepted texts up to the length
  bound (`Spells.mem_iff`), and they stand in ascending order (`Spells.ascending`). Both
  kinds of automata are machines of that kind, and an ascending list is determined by its
  members; so the deterministic automaton lists what the other one lists, less the texts with
  letters outside the alphabet (`texts_of_lettered`).
-/
import FiniteAutomata.Proofs.Continuation

namespace FiniteAutomata

/-! ## The order of texts -/

namespace Ordered

/-- Texts are ordered by the first place where their code points differ. -/
theorem before_iff_lex {t u : Text} :
    before t u = true ↔ List.Lex (fun c d : Char => c.toNat < d.toNat) t u := by
  induction t generalizing u with
  | nil =>
    cases u with
    | nil => exact iff_of_false Bool.noConfusion fun h => nomatch h
    | cons d u => exact iff_of_true rfl .nil
  | cons c t ih =>
    cases u with
    | nil => exact iff_of_false Bool.noConfusion fun h => nomatch h
    | cons d u =>
      have same : before c d = false → before d c = false → c = d := connected c d
      show (before c d || (!before d c && before t u)) = true ↔ _
      rw [List.cons_lex_cons_iff, ← ih, Bool.or_eq_true, Bool.and_eq_true, Bool.not_eq_true']
      constructor
      · rintro (lt | ⟨ge, rest⟩)
        · exact Or.inl (of_decide_eq_true lt)
        · cases lt : before c d with
          | true => exact Or.inl (of_decide_eq_true lt)
          | false => exact Or.inr ⟨same lt ge, rest⟩
      · rintro (lt | ⟨rfl, rest⟩)
        · exact Or.inl (decide_eq_true lt)
        · exact Or.inr ⟨irrefl c, rest⟩

/-- A text comes before those that go on with a letter. -/
theorem before_append_cons (t : Text) (c : Char) (u : Text) : before t (t ++ c :: u) = true := by
  rw [before_iff_lex]
  simpa using List.Lex.append_left _ (.nil : List.Lex _ [] (c :: u)) t

/-- Texts that go on with different letters are ordered by these. -/
theorem before_append_of_before {c d : Char} (h : before [c] [d] = true) (t u v : Text) :
    before (t ++ c :: u) (t ++ d :: v) = true := by
  rw [before_iff_lex] at h ⊢
  have letters : c.toNat < d.toNat := by simpa [List.cons_lex_cons_iff] using h
  have rest : List.Lex (fun c d : Char => c.toNat < d.toNat) (c :: u) (d :: v) := .rel letters
  exact List.Lex.append_left _ rest t

end Ordered

/-! ## The order of symbols -/

namespace SortedSet

theorem flatMap_filter {α β : Type} (p : α → Bool) (f : α → List β) (l : List α) :
    (l.filter p).flatMap f = l.flatMap fun a => if p a then f a else [] := by
  induction l with
  | nil => rfl
  | cons a l ih => cases h : p a <;> simp [h, ih]

/-- To go through the members of a part is to go through all members and pass over the others. -/
theorem flatMap_of_subset {α β : Type} [Ordered α] [DecidableEq α] {a b : SortedSet α}
    (sub : ∀ x ∈ a, x ∈ b) (f : α → List β) :
    a.toList.flatMap f = b.toList.flatMap fun x => if x ∈ a then f x else [] := by
  have part : a.toList = b.toList.filter fun x => decide (x ∈ a) := by
    refine ascending_unique a.ascending (b.ascending.filter _) fun x => ?_
    simpa using fun hx => sub x hx
  refine (congrArg (List.flatMap f) part).trans ((flatMap_filter _ f _).trans ?_)
  simp

end SortedSet

namespace Machine

variable {σ : Type} {m : Machine σ} {maxlen : Int} {s : σ} {sofar : Text} {out : List Text}

/-! ## The search without a bound on its depth -/

/-- The search from a position ends, and has listed the texts. -/
inductive Lists (m : Machine σ) (maxlen : Int) : σ → Text → List Text → Prop
  | stop {s : σ} {sofar : Text} : maxlen ≤ sofar.length → Lists m maxlen s sofar (m.textHere s sofar)
  | goOn {s : σ} {sofar : Text} (parts : Text → List Text) : sofar.length < maxlen →
      (∀ l ∈ m.labels s, ∀ t, m.next s (.text l) = some t →
        Lists m maxlen t (sofar ++ l) (parts l)) →
      (∀ l ∈ m.labels s, m.next s (.text l) = none → parts l = []) →
      Lists m maxlen s sofar (m.textHere s sofar ++ (m.labels s).toList.flatMap parts)

/-- A search lists the same texts whenever it is made. -/
theorem Lists.unique {out' : List Text} (h : m.Lists maxlen s sofar out)
    (k : m.Lists maxlen s sofar out') : out = out' := by
  induction h generalizing out' with
  | stop long =>
    cases k with
    | stop _ => rfl
    | goOn _ short _ _ => omega
  | goOn parts short _ stuck ih =>
    cases k with
    | stop long => omega
    | goOn parts' _ on' stuck' =>
      refine congrArg _ (List.flatMap_congr fun l hl => ?_)
      cases next : m.next _ (.text l) with
      | none => rw [stuck l hl next, stuck' l hl next]
      | some t => exact ih l hl t next (on' l hl t next)

/-- The search stays at certain positions, and no symbol on offer there is empty. -/
structure Advances (m : Machine σ) (I : σ → Prop) : Prop where
  next : ∀ {s l t}, I s → l ∈ m.labels s → m.next s (.text l) = some t → I t
  nonempty : ∀ {s l}, I s → l ∈ m.labels s → l ≠ []

/-- Where every symbol makes the text longer, the search ends, and a depth that makes up for
    the missing length is enough. -/
theorem Advances.lists {I : σ → Prop} (adv : m.Advances I) (hs : I s) {depth : Nat}
    (enough : maxlen ≤ sofar.length + depth) :
    m.Lists maxlen s sofar (m.textsFrom maxlen depth s sofar) := by
  induction depth generalizing s sofar with
  | zero =>
    have long : maxlen ≤ sofar.length := by omega
    rw [textsFrom, if_pos long, List.append_nil]
    exact .stop long
  | succ depth ih =>
    rw [textsFrom]
    split
    · next long =>
      rw [List.append_nil]
      exact .stop long
    · next short =>
      refine .goOn _ (by omega) (fun l hl t next => ?_) fun l hl next => by rw [next]
      have longer := List.length_pos_of_ne_nil (adv.nonempty hs hl)
      rw [next]
      exact ih (adv.next hs hl next) (by rw [List.length_append]; omega)

/-- The depth of a search that is to miss no text makes up for the missing length. -/
theorem le_length_add_depthFor (maxlen : Int) (silent : Nat) (sofar : Text) :
    maxlen ≤ sofar.length + depthFor maxlen silent sofar := by
  have factor : (maxlen - sofar.length).toNat + 1 ≤ depthFor maxlen silent sofar :=
    Nat.le_mul_of_pos_right _ (Nat.succ_pos silent)
  omega

/-- The first texts of a search are those that it lists first, however few are drawn. -/
theorem Advances.takeTexts_eq {I : σ → Prop} (adv : m.Advances I) (hs : I s)
    (lists : m.Lists maxlen s sofar out) (silent limit : Nat) :
    m.takeTexts maxlen silent limit s sofar = out.take limit := by
  rw [takeTexts_eq_take, texts, (adv.lists hs (le_length_add_depthFor _ _ _)).unique lists]

/-! ## Machines that correspond -/

/-- Nothing is listed from a position: it does not accept, and there is nothing to go on with. -/
structure Barren (m : Machine σ) (s : σ) : Prop where
  final : m.isFinal s = false
  labels : ∀ l, l ∉ m.labels s

theorem Barren.lists (barren : m.Barren s) (maxlen : Int) (sofar : Text) :
    m.Lists maxlen s sofar [] := by
  have here : m.textHere s sofar = [] := by simp [textHere, barren.final]
  have nothing : (m.labels s).toList = [] := List.eq_nil_iff_forall_not_mem.mpr barren.labels
  by_cases long : maxlen ≤ sofar.length
  · exact here ▸ .stop long
  · have on : m.Lists maxlen s sofar _ := .goOn (fun _ => []) (by omega)
      (fun l hl => absurd hl (barren.labels l)) fun l _ _ => rfl
    rwa [here, nothing] at on

/-- From each of certain positions `s` of one machine, another one goes along from its position
    `F s`. It may have more on offer, but that leads to where nothing is listed. -/
structure Follows {τ : Type} (m : Machine σ) (m' : Machine τ) (I : σ → Prop) (F : σ → τ) :
    Prop where
  stays : ∀ {s l t}, I s → l ∈ m.labels s → m.next s (.text l) = some t → I t
  final : ∀ {s}, I s → m'.isFinal (F s) = m.isFinal s
  labels : ∀ {s l}, I s → l ∈ m.labels s → l ∈ m'.labels (F s)
  next : ∀ {s l}, I s → l ∈ m.labels s → m'.next (F s) (.text l) = (m.next s (.text l)).map F
  more : ∀ {s l t}, I s → l ∈ m'.labels (F s) → l ∉ m.labels s →
    m'.next (F s) (.text l) = some t → m'.Barren t

/-- A machine that goes along lists the same texts. -/
theorem Follows.lists {τ : Type} {m' : Machine τ} {I : σ → Prop} {F : σ → τ}
    (follows : m.Follows m' I F) (hs : I s) (lists : m.Lists maxlen s sofar out) :
    m'.Lists maxlen (F s) sofar out := by
  have here : ∀ {s sofar}, I s → m'.textHere (F s) sofar = m.textHere s sofar := by
    intro s sofar hs
    rw [textHere, textHere, follows.final hs]
  induction lists with
  | stop long =>
    rw [← here hs]
    exact .stop long
  | @goOn s sofar parts short _ stuck ih =>
    -- The symbols that only the second machine offers add nothing.
    rw [← here hs, SortedSet.flatMap_of_subset (fun l hl => follows.labels hs hl) parts]
    refine .goOn _ short (fun l hl t ht => ?_) fun l hl ht => ?_
    · split
      · next offered =>
        rw [follows.next hs offered] at ht
        obtain ⟨d, hd, rfl⟩ := Option.map_eq_some_iff.mp ht
        exact ih l offered d hd (follows.stays hs offered hd)
      · next only => exact (follows.more hs hl only ht).lists maxlen _
    · split
      · next offered =>
        rw [follows.next hs offered] at ht
        exact stuck l offered (Option.map_eq_none_iff.mp ht)
      · rfl

/-! ## Letters on offer -/

/-- The search stays at certain positions, where single letters are on offer. What is not on
    offer leads to no accepted word. -/
structure Spells (m : Machine σ) (I : σ → Prop) : Prop where
  next : ∀ {s l t}, I s → l ∈ m.labels s → m.next s (.text l) = some t → I t
  letter : ∀ {s l}, I s → l ∈ m.labels s → ∃ c, l = [c]
  offered : ∀ {s l t w}, I s → m.next s (.text l) = some t →
    (m.run t w).any m.isFinal = true → l ∈ m.labels s

namespace Spells

variable {I : σ → Prop}

theorem advances (sp : m.Spells I) : m.Advances I where
  next := sp.next
  nonempty hs hl := by
    obtain ⟨c, rfl⟩ := sp.letter hs hl
    exact List.cons_ne_nil c []

theorem mem_textHere {t : Text} : t ∈ m.textHere s sofar ↔ t = sofar ∧ m.isFinal s = true := by
  unfold textHere
  split
  · next final => simp [final]
  · next final => simp [final]

/-- A text is accepted from where its first letter leads to. -/
theorem any_isFinal_run_cons {c : Char} {w : Text} :
    (m.run s (Word.ofText (c :: w))).any m.isFinal = true ↔
      ∃ d, m.next s (.text [c]) = some d ∧ (m.run d (Word.ofText w)).any m.isFinal = true := by
  show (m.run s (.text [c] :: Word.ofText w)).any m.isFinal = true ↔ _
  rw [run]
  cases m.next s (.text [c]) <;> simp

/-- Exactly the accepted texts up to the length bound are listed. -/
theorem mem_iff (sp : m.Spells I) (hs : I s) (lists : m.Lists maxlen s sofar out)
    (le : sofar.length ≤ maxlen) {t : Text} :
    t ∈ out ↔ ∃ w, t = sofar ++ w ∧ t.length ≤ maxlen ∧
      (m.run s (Word.ofText w)).any m.isFinal = true := by
  induction lists with
  | @stop s sofar long =>
    rw [mem_textHere]
    constructor
    · rintro ⟨rfl, final⟩
      exact ⟨[], by simp, le, final⟩
    · -- nothing can be read any more
      rintro ⟨w, rfl, bound, final⟩
      obtain rfl : w = [] := by
        rw [List.length_append] at bound
        exact List.length_eq_zero_iff.mp (by omega)
      exact ⟨List.append_nil _, final⟩
  | @goOn s sofar parts short _ stuck ih =>
    have longer : ∀ c : Char, ((sofar ++ [c]).length : Int) ≤ maxlen := by
      intro c
      rw [List.length_append, List.length_singleton]
      omega
    rw [List.mem_append, mem_textHere, List.mem_flatMap]
    constructor
    · rintro (⟨rfl, final⟩ | ⟨l, hl, ht⟩)
      · exact ⟨[], by simp, le, final⟩
      · obtain ⟨c, rfl⟩ := sp.letter hs hl
        cases next : m.next s (.text [c]) with
        | none =>
          rw [stuck _ hl next] at ht
          cases ht
        | some d =>
          obtain ⟨w, rfl, bound, final⟩ := (ih _ hl d next (sp.next hs hl next) (longer c)).mp ht
          exact ⟨c :: w, by simp, bound, any_isFinal_run_cons.mpr ⟨d, next, final⟩⟩
    · rintro ⟨w, rfl, bound, final⟩
      cases w with
      | nil => exact Or.inl ⟨List.append_nil _, final⟩
      | cons c w =>
        obtain ⟨d, next, final⟩ := any_isFinal_run_cons.mp final
        have hl := sp.offered hs next final
        refine Or.inr ⟨[c], hl, (ih _ hl d next (sp.next hs hl next) (longer c)).mpr ?_⟩
        exact ⟨w, by simp, bound, final⟩

/-- The texts are listed in ascending order. -/
theorem ascending (sp : m.Spells I) (hs : I s) (lists : m.Lists maxlen s sofar out)
    (le : sofar.length ≤ maxlen) : out.Pairwise fun t u => Ordered.before t u = true := by
  have single : ∀ (s : σ) (sofar : Text),
      (m.textHere s sofar).Pairwise fun t u => Ordered.before t u = true := by
    intro s sofar
    unfold textHere
    split <;> simp
  induction lists with
  | stop _ => exact single _ _
  | @goOn s sofar parts short on stuck ih =>
    -- What a symbol leads to goes on with it.
    have parts_cases : ∀ l ∈ m.labels s, parts l = [] ∨ ∃ c d, l = [c] ∧ I d ∧
        m.next s (.text l) = some d ∧ ((sofar ++ l).length : Int) ≤ maxlen := by
      intro l hl
      obtain ⟨c, rfl⟩ := sp.letter hs hl
      cases next : m.next s (.text [c]) with
      | none => exact Or.inl (stuck _ hl next)
      | some d => exact Or.inr ⟨c, d, rfl, sp.next hs hl next, rfl, by simp; omega⟩
    have goes : ∀ l ∈ m.labels s, ∀ t ∈ parts l, ∃ c w, l = [c] ∧ t = sofar ++ c :: w := by
      intro l hl t ht
      rcases parts_cases l hl with none | ⟨c, d, rfl, hd, next, le'⟩
      · rw [none] at ht
        cases ht
      · obtain ⟨w, rfl, -⟩ := (sp.mem_iff hd (on _ hl d next) le').mp ht
        exact ⟨c, w, rfl, by simp⟩
    rw [List.pairwise_append, List.pairwise_flatMap]
    refine ⟨single s sofar, ⟨fun l hl => ?_, ?_⟩, fun t ht u hu => ?_⟩
    · rcases parts_cases l hl with none | ⟨c, d, rfl, hd, next, le'⟩
      · rw [none]
        exact .nil
      · exact ih _ hl d next hd le'
    · -- the symbols are in order, and so are the parts, which differ first in them
      refine (m.labels s).ascending.imp_of_mem fun {l l'} hl hl' lt t ht u hu => ?_
      obtain ⟨c, w, rfl, rfl⟩ := goes l hl t ht
      obtain ⟨d, v, rfl, rfl⟩ := goes l' hl' u hu
      exact Ordered.before_append_of_before lt sofar w v
    · -- the text of the position itself comes before all that go on from it
      obtain ⟨l, hl, hu⟩ := List.mem_flatMap.mp hu
      obtain ⟨c, w, rfl, rfl⟩ := goes l hl u hu
      rw [(mem_textHere.mp ht).1]
      exact Ordered.before_append_cons sofar c w

end Spells

end Machine

/-! ## Live sets -/

namespace Graph

variable {g : Graph} {start live next : StateSet} {l : Label} {i : StateId}

theorem next_machine_eq_some_iff :
    (g.machine start).next live l = some next ↔
      (g.step live l).isEmpty = false ∧ next = g.step live l := by
  unfold machine
  by_cases empty : (g.step live l).isEmpty = true
  · simp [empty]
  · simp [empty, eq_comm]

/-- Whatever is live after a step was led to by an edge from a live state. -/
theorem exists_of_mem_step {q : StateId} (hq : q ∈ g.step live l) :
    ∃ p ∈ live, ∃ d, ⟨l, d⟩ ∈ g.edges p ∧ g.Path d [] q := by
  obtain ⟨d, hd, path⟩ := mem_closure_iff_path.mp hq
  obtain ⟨p, hp, he⟩ := mem_move.mp hd
  exact ⟨p, hp, d, he, path⟩

/-- Where all symbols that can be read are letters, live sets have letters on offer. -/
theorem spells_machine (letters : ∀ q, g.Reaches i q → ∀ t d, ⟨.text t, d⟩ ∈ g.edges q →
    ∃ c, t = [c]) : (g.machine start).Spells fun live => ∀ q ∈ live, g.Reaches i q where
  next := by
    intro live l next reached _ hnext q hq
    obtain ⟨-, rfl⟩ := next_machine_eq_some_iff.mp hnext
    obtain ⟨p, hp, d, he, path⟩ := exists_of_mem_step hq
    exact ((reached p hp).step he).path path
  letter := by
    intro live l reached hl
    obtain ⟨q, hq, offered⟩ := mem_liveLabels.mp hl
    obtain ⟨d, he⟩ := mem_labels.mp offered
    exact letters q (reached q hq) l d he
  offered := by
    intro live l next w _ hnext _
    obtain ⟨alive, rfl⟩ := next_machine_eq_some_iff.mp hnext
    obtain ⟨q, hq⟩ := SortedSet.isEmpty_eq_false_iff.mp alive
    obtain ⟨p, hp, d, he, -⟩ := exists_of_mem_step hq
    exact mem_liveLabels.mpr ⟨p, hp, mem_labels.mpr ⟨d, he⟩⟩

end Graph

/-! ## Cells -/

namespace Subset

variable {n : Nfa} {g : Graph} {alphabet : SortedSet Text} {cells : Cells} {live : StateSet}

/-- A cell has the symbols of the alphabet on offer, unless it is dead. -/
theorem mem_labels_placeOf {i : CellId} (hl : live ∈ liveSets g alphabet (n.start g)) {t : Text} :
    t ∈ ((determinize n g alphabet cells).2.machine i).labels (placeOf n g alphabet cells live) ↔
      live.isEmpty = false ∧ t ∈ alphabet := by
  show t ∈ SortedSet.ofList (Cell.labels (Cells.get _ _)) ↔ _
  rw [SortedSet.mem_ofList, Cell.labels, isDead_placeOf cells hl,
    symbols_of_mem_states (placeOf_mem_states hl)]
  cases live.isEmpty <;> simp

/-- The walk from cell to cell stays with the cells of live sets; over an alphabet without the
    empty symbol, none of them offers it. -/
theorem advances_machine (nonempty : [] ∉ alphabet) :
    ((determinize n g alphabet cells).1.machine (determinize n g alphabet cells).2).Advances
      fun c => ∃ live ∈ liveSets g alphabet (n.start g), c = placeOf n g alphabet cells live where
  next := by
    rintro _ l d ⟨live, found, rfl⟩ hl hnext
    have known := ((mem_labels_placeOf found).mp hl).2
    change ((determinize n g alphabet cells).2.get (placeOf n g alphabet cells live)).next
      (.text l) = some d at hnext
    rw [next_placeOf found known] at hnext
    exact ⟨_, step_mem_liveSets found known, (Option.some.inj hnext).symm⟩
  nonempty := by
    rintro _ l ⟨live, found, rfl⟩ hl rfl
    exact nonempty ((mem_labels_placeOf found).mp hl).2

theorem nil_not_mem_of_letters (letters : ∀ t ∈ alphabet, ∃ c, t = [c]) : [] ∉ alphabet := by
  intro h
  obtain ⟨c, hc⟩ := letters [] h
  cases hc

/-- Over an alphabet of letters, cells have letters on offer. -/
theorem spells_machine (letters : ∀ t ∈ alphabet, ∃ c, t = [c]) :
    ((determinize n g alphabet cells).1.machine (determinize n g alphabet cells).2).Spells
      fun c => ∃ live ∈ liveSets g alphabet (n.start g), c = placeOf n g alphabet cells live where
  next := (advances_machine (nil_not_mem_of_letters letters)).next
  letter := by
    rintro _ l ⟨live, found, rfl⟩ hl
    exact letters l ((mem_labels_placeOf found).mp hl).2
  offered := by
    rintro _ l d w ⟨live, found, rfl⟩ hnext accepted
    change ((determinize n g alphabet cells).2.get (placeOf n g alphabet cells live)).next
      (.text l) = some d at hnext
    by_cases known : l ∈ alphabet
    · rw [next_placeOf found known, Option.some_inj] at hnext
      subst hnext
      have final := ((any_isFinal_run_placeOf (step_mem_liveSets found known)).mp accepted).2
      refine (mem_labels_placeOf found).mpr ⟨?_, known⟩
      -- a dead cell leads to no final live set
      by_contra dead
      rw [Bool.not_eq_false] at dead
      rw [Graph.isFinal_run_of_isEmpty (Graph.step_of_isEmpty dead _) w] at final
      cases final
    · have unknown : ¬ Offered alphabet (.text l) := fun ⟨t, ht, same⟩ =>
        known (Label.text.inj same ▸ ht)
      rw [next_placeOf_of_not_offered found unknown] at hnext
      cases hnext

theorem alphabet_determinize : (determinize n g alphabet cells).1.alphabet = alphabet := rfl

theorem exists_initial_eq_placeOf : ∃ live ∈ liveSets g alphabet (n.start g),
    (determinize n g alphabet cells).1.initial = placeOf n g alphabet cells live :=
  ⟨_, start_mem_liveSets n g alphabet, initial_eq_placeOf⟩

/-- A text is accepted from cell to cell if its letters are in the alphabet and the live sets
    accept it. -/
theorem accepts_ofText {w : Text} :
    (((determinize n g alphabet cells).1.machine (determinize n g alphabet cells).2).run
        (determinize n g alphabet cells).1.initial (Word.ofText w)).any
      ((determinize n g alphabet cells).1.machine (determinize n g alphabet cells).2).isFinal = true ↔
      (∀ c ∈ w, [c] ∈ alphabet) ∧ n.accepts g (Word.ofText w) = true := by
  have accepts := @accepts_determinize n g alphabet cells (Word.ofText w)
  rw [Dfa.accepts, Machine.accepts_eq_any] at accepts
  refine accepts.trans (and_congr_left fun _ => ?_)
  simp [Word.ofText, Offered]

/-- Over an alphabet of letters, the deterministic automaton lists the texts that the
    nondeterministic one lists, as far as all that follows `sofar` is in the alphabet. -/
theorem lists_determinize (letters : ∀ t ∈ alphabet, ∃ c, t = [c]) {maxlen : Int} {sofar : Text}
    (le : sofar.length ≤ maxlen) {out : List Text}
    (sorted : out.Pairwise fun t u => Ordered.before t u = true)
    (members : ∀ t, t ∈ out ↔ ∃ w, t = sofar ++ w ∧ t.length ≤ maxlen ∧
      n.accepts g (Word.ofText w) = true) :
    ((determinize n g alphabet cells).1.machine (determinize n g alphabet cells).2).Lists maxlen
      (determinize n g alphabet cells).1.initial sofar
      (out.filter fun t => (t.drop sofar.length).all fun c =>
        decide ([c] ∈ (determinize n g alphabet cells).1.alphabet)) := by
  have sp := @spells_machine n g alphabet cells letters
  have hs := @exists_initial_eq_placeOf n g alphabet cells
  obtain ⟨list, lists⟩ : ∃ list, Machine.Lists _ maxlen _ sofar list :=
    ⟨_, sp.advances.lists hs (Machine.le_length_add_depthFor maxlen 0 sofar)⟩
  -- Both lists are ascending; they have the same members.
  have same : (out.filter fun t => (t.drop sofar.length).all fun c => decide ([c] ∈ alphabet)) =
      list := by
    refine SortedSet.ascending_unique (sorted.filter _) (sp.ascending hs lists le) fun t => ?_
    rw [List.mem_filter, members, sp.mem_iff hs lists le]
    constructor
    · rintro ⟨⟨w, rfl, bound, accepted⟩, within⟩
      rw [List.drop_left] at within
      exact ⟨w, rfl, bound, accepts_ofText.mpr ⟨by simpa using within, accepted⟩⟩
    · rintro ⟨w, rfl, bound, accepted⟩
      obtain ⟨within, accepted⟩ := accepts_ofText.mp accepted
      refine ⟨⟨w, rfl, bound, accepted⟩, ?_⟩
      rw [List.drop_left]
      simpa using within
  rw [alphabet_determinize, same]
  exact lists

end Subset

/-! ## In a session -/

namespace Session

/-- All symbols that an automaton reads are single letters. -/
def Lettered (s : Session) (x : NfaId) : Prop :=
  ∀ q, s.graph.Reaches (s.nfa x).initial q → ∀ t d, ⟨.text t, d⟩ ∈ s.graph.edges q → ∃ c, t = [c]

theorem lettered_compile {s : Session} {pattern : Text} {a : Answer}
    (answered : (s.compile pattern).1.answer = .ok a) :
    ∃ x, a = .value (.nfa x) ∧ (s.compile pattern).2.Lettered x := by
  obtain ⟨out, n, c, arranged, built⟩ := exists_of_compile answered
  obtain ⟨answer, graph, nfa⟩ := compile_of_ok arranged built
  refine ⟨_, Except.ok.inj (answered.symm.trans answer), fun q hq t d he => ?_⟩
  rw [graph, nfa] at hq
  rw [graph] at he
  obtain ⟨x, -, rfl⟩ := (Assembly.symbol_iff_of_assemble built).mp ⟨q, d, hq, he⟩
  exact ⟨x, rfl⟩

/-- What is live at first is reached. -/
theorem reaches_of_mem_start {n : Nfa} {g : Graph} {q : StateId} (hq : q ∈ n.start g) :
    g.Reaches n.initial q := by
  obtain ⟨i, hi, path⟩ := Graph.mem_closure_iff_path.mp hq
  obtain rfl : i = n.initial := by simpa using hi
  exact (Graph.Reaches.refl g _).path path

/-- The automata of patterns read single letters. Of every automaton that does, the search for
    texts ends; it lists the accepted ones up to the length bound, each behind `sofar`, in
    strictly ascending order by code points, and drawing fewer draws the first of them. Made
    deterministic over an alphabet of letters, it lists those of them whose letters behind
    `sofar` are in the alphabet. -/
theorem texts_of_lettered :
    (∀ (s : Session) (pattern : Text) (a : Answer), (s.compile pattern).1.answer = .ok a →
      ∃ x, a = .value (.nfa x) ∧ (s.compile pattern).2.Lettered x) ∧
    ∀ (s : Session) (x : NfaId), s.Lettered x → ∀ (maxlen : Int) (sofar : Text),
      sofar.length ≤ maxlen → ∃ out : List Text,
        ((s.nfa x).machine s.graph).Lists maxlen ((s.nfa x).start s.graph) sofar out ∧
        (∀ limit, (Question.texts (.nfa x) maxlen sofar limit none).answer s =
          .texts (out.take limit)) ∧
        out.Pairwise (List.Lex fun c d => c.toNat < d.toNat) ∧
        (∀ t, t ∈ out ↔ ∃ w, t = sofar ++ w ∧ t.length ≤ maxlen ∧
          s.accepts (.nfa x) (Word.ofText w) = true) ∧
        ∀ alphabet, (∀ t ∈ (s.alphabetFor x alphabet).1, ∃ c, t = [c]) →
          ∃ y r d kept, (s.determinize x alphabet).1.answer = .ok (.value (.dfa y)) ∧
            r = (s.determinize x alphabet).2 ∧ d = r.dfa y ∧
            (∀ given ∈ alphabet, ∀ t, t ∈ d.alphabet ↔ .text t ∈ given) ∧
            kept = out.filter (fun t => (t.drop sofar.length).all fun c => decide ([c] ∈ d.alphabet)) ∧
            (d.machine r.cells).Lists maxlen d.initial sofar kept ∧
            ∀ limit, (Question.texts (.dfa y) maxlen sofar limit none).answer r =
              .texts (kept.take limit) := by
  refine ⟨fun s pattern a answered => lettered_compile answered,
    fun s x letters maxlen sofar le => ?_⟩
  have sp := @Graph.spells_machine s.graph ((s.nfa x).start s.graph) (s.nfa x).initial letters
  have hs : ∀ q ∈ (s.nfa x).start s.graph, s.graph.Reaches (s.nfa x).initial q :=
    fun q hq => reaches_of_mem_start hq
  obtain ⟨out, lists⟩ : ∃ out, ((s.nfa x).machine s.graph).Lists maxlen
      ((s.nfa x).start s.graph) sofar out :=
    ⟨_, sp.advances.lists hs (Machine.le_length_add_depthFor maxlen 0 sofar)⟩
  have sorted := sp.ascending hs lists le
  have members : ∀ t, t ∈ out ↔ ∃ w, t = sofar ++ w ∧ t.length ≤ maxlen ∧
      (s.nfa x).accepts s.graph (Word.ofText w) = true := by
    intro t
    rw [sp.mem_iff hs lists le]
    simp only [Nfa.accepts, Machine.accepts_eq_any]
    rfl
  refine ⟨out, lists, fun limit => ?_, sorted.imp fun h => Ordered.before_iff_lex.mp h, members,
    fun alphabet single => ?_⟩
  · exact congrArg Answer.texts (sp.advances.takeTexts_eq hs lists _ limit)
  · obtain ⟨answer, cells, dfa, -, -⟩ := determinize_over s x alphabet
    have listed := @Subset.lists_determinize _ _ _ s.cells single _ _ le _ sorted members
    have drawn := (Subset.spells_machine single).advances.takeTexts_eq
      Subset.exists_initial_eq_placeOf listed
    rw [← cells, ← dfa] at listed drawn
    refine ⟨_, _, _, _, answer, rfl, rfl, ?_, rfl, listed, fun limit => ?_⟩
    · rintro given rfl t
      rw [dfa]
      exact Subset.mem_symbols
    · exact congrArg Answer.texts (drawn _ limit)

theorem texts_of_lettered_choice :
    let s := ((fresh false).compile "a|bc".toList).2
    s.Lettered 0 ∧ ∃ out : List Text,
      ((s.nfa 0).machine s.graph).Lists 3 ((s.nfa 0).start s.graph) "x".toList out ∧
      (Question.texts (.nfa 0) 3 "x".toList 1 none).answer s = .texts (out.take 1) ∧
      ∃ y d, d = (s.determinize 0 (some [.text ['b'], .text ['c']])).2.dfa y ∧
        (d.machine (s.determinize 0 (some [.text ['b'], .text ['c']])).2.cells).Lists 3 d.initial
          "x".toList (out.filter fun t => (t.drop 1).all fun c => decide ([c] ∈ d.alphabet)) := by
  intro s
  obtain ⟨compiled, listed⟩ := texts_of_lettered
  obtain ⟨x, same, letters⟩ := compiled (fresh false) "a|bc".toList _ rfl
  cases same
  have single : ∀ t ∈ (s.alphabetFor 0 (some [.text ['b'], .text ['c']])).1, ∃ c, t = [c] := by
    intro t ht
    have either : t = ['b'] ∨ t = ['c'] := by simpa using Subset.mem_symbols.mp ht
    rcases either with rfl | rfl
    · exact ⟨'b', rfl⟩
    · exact ⟨'c', rfl⟩
  obtain ⟨out, lists, drawn, -, -, determinized⟩ := listed s 0 letters 3 "x".toList (by decide)
  obtain ⟨y, r, d, kept, -, rfl, same, -, rfl, listed', -⟩ := determinized _ single
  exact ⟨letters, out, lists, drawn 1, y, d, same, listed'⟩

end Session

end FiniteAutomata
